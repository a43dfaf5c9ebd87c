import AlgebraicReal.MvPoly.Raw.Dense
import AlgebraicReal.Proofs.MvPoly.Evaluation
import AlgebraicReal.Proofs.UniPoly.Sparse

/-!
# Views in one variable

Collecting the coefficients in one pass gives the same as looking for each of them
(`collectCoefficients_eq`). Together with the powers of the variable they add up to the polynomial
(`sumPowers_coefficients`), because both sides agree as polynomials in the variable. A polynomial
without other variables is read as a dense one, which gives it back, and every dense polynomial is
the view of its term list (`views_agree`).

None of this adds up exponents beyond those that are there: the exponents of a coefficient and of the
power that goes with it are parts of one monomial. Only the way from a dense polynomial makes new
exponents, the places in the list of its coefficients.
-/

open MvPolynomial

namespace AlgebraicReal

namespace MvPoly

variable {p : MvPoly} {v w : Var}

/-! ## Coefficients -/

/-- Of a polynomial that is not zero the coefficient at the degree is not zero. -/
theorem coeff_degree_eq_zero_iff : p.coeff v (p.degree v) = zero ↔ p = zero := by
  constructor
  · intro h
    by_contra hp
    have hne : p.toPolynomial ≠ 0 := fun h0 => hp (isZero_iff.1 (toPolynomial_eq_zero_iff.1 h0))
    refine leadingCoeff_ne_zero v hne ?_
    rw [leadingCoeff, h, toPolynomial_zero]
  · rintro rfl
    rfl

/-- The sum over the coefficients, each times the power of the variable that it belongs to. -/
def sumPowers (v : Var) (cs : List MvPoly) : MvPoly :=
  (cs.zipIdx.map fun c => c.1.mul (varPower v c.2)).foldr add zero

theorem toPolynomial_foldr_add : ∀ ps : List MvPoly,
    (ps.foldr add zero).toPolynomial = (ps.map toPolynomial).sum
  | [] => toPolynomial_zero
  | p :: ps => by
    rw [List.foldr_cons, toPolynomial_add, toPolynomial_foldr_add ps, List.map_cons, List.sum_cons]

/-- The coefficients with the powers of the variable add up to the polynomial. -/
theorem sumPowers_coefficients (p : MvPoly) (v : Var) : sumPowers v (p.coefficients v) = p := by
  have hterms : ((p.coefficients v).zipIdx.map fun c => c.1.mul (varPower v c.2))
      = (List.range (p.degree v + 1)).map fun k => (p.coeff v k).mul (varPower v k) := by
    rw [coefficients]
    exact List.ext_getElem (by simp) fun k _ _ => by simp
  refine toPolynomial_injective ?_
  calc (sumPowers v (p.coefficients v)).toPolynomial
      = ((List.range (p.degree v + 1)).map fun k =>
          ((p.coeff v k).mul (varPower v k)).toPolynomial).sum := by
        rw [sumPowers, hterms, toPolynomial_foldr_add, List.map_map]
        rfl
    _ = ∑ k ∈ Finset.range (p.degree v + 1), (inVar v p.toPolynomial).coeff k * X v ^ k := by
        rw [← List.sum_toFinset _ List.nodup_range, List.toFinset_range]
        refine Finset.sum_congr rfl fun k _ => ?_
        rw [toPolynomial_mul, toPolynomial_coeff, toPolynomial_varPower]
    _ = (inVar v p.toPolynomial).eval (X v) := by
        rw [Polynomial.eval_eq_sum_range, natDegree_inVar]
    _ = p.toPolynomial := eval_X_inVar v p.toPolynomial

/-! ## Term lists -/

namespace Raw

/-! ### Buckets -/

theorem getElem?_enterBucket (v : Var) (buckets : List (List Term.Raw)) (t : Term.Raw) (k : ℕ) :
    (enterBucket v buckets t)[k]? = buckets[k]?.map fun b =>
      if t.monomial.degree v = k then b ++ [⟨t.coeff, t.monomial.without v⟩] else b :=
  List.getElem?_modify _ _ _ _

/-- Each bucket gets the terms of its exponent, in the order in which they are read. -/
theorem getElem?_foldl_enterBucket (v : Var) (k : ℕ) (p : Raw) (buckets : List (List Term.Raw)) :
    (p.foldl (enterBucket v) buckets)[k]? = buckets[k]?.map fun b =>
      b ++ (p.filter fun t => t.monomial.degree v = k).map fun t =>
        ⟨t.coeff, t.monomial.without v⟩ := by
  -- the buckets that are there already are arbitrary, since every term read adds to them
  induction p generalizing buckets with
  | nil => simp
  | cons t p ih =>
    rw [List.foldl_cons, ih, getElem?_enterBucket, Option.map_map]
    congr 1
    funext b
    by_cases h : t.monomial.degree v = k
    · simp [h]
    · simp [h]

/-- One pass finds the coefficients of all powers, whether or not the list is in order. -/
theorem collectCoefficients_eq (p : Raw) (v : Var) :
    collectCoefficients p v = coefficients p v := by
  refine List.ext_getElem? fun k => ?_
  rw [collectCoefficients, coefficients, List.getElem?_map, List.getElem?_map,
    getElem?_foldl_enterBucket]
  by_cases hk : k < degree p v + 1
  · rw [List.getElem?_replicate, if_pos hk, List.getElem?_range hk]
    rfl
  · rw [List.getElem?_replicate, if_neg hk, List.getElem?_eq_none (by simpa using hk)]
    rfl

theorem collectCoefficients_raw (h : p.Fits) :
    collectCoefficients p.raw v = (p.coefficients v).map MvPoly.raw := by
  rw [collectCoefficients_eq, coefficients_raw h]

/-! ### Variables -/

theorem hasVar_raw (h : p.Fits) : hasVar p.raw v = p.hasVar v := by
  rw [Bool.eq_iff_iff, hasVar, MvPoly.hasVar, List.any_eq_true, List.any_eq_true]
  constructor
  · rintro ⟨_, hraw, hv⟩
    obtain ⟨t, ht, rfl⟩ := List.mem_map.1 hraw
    exact ⟨t, ht, Monomial.Raw.degree_raw (h.monomial ht) ▸ hv⟩
  · rintro ⟨t, ht, hv⟩
    refine ⟨t.raw, List.mem_map_of_mem ht, ?_⟩
    rwa [Term.raw, Monomial.Raw.degree_raw (h.monomial ht)]

/-- Of neighbours that are the same one is left. -/
theorem subset_mergeAdjacent (l : List Var) :
    l ⊆ mergeAdjacent (fun u w => u = w) (fun u _ => u) l := by
  fun_induction mergeAdjacent (fun u w : Var => decide (u = w)) (fun u _ => u) l with
  | case1 a b rest hab ih =>
    obtain rfl := of_decide_eq_true hab
    exact List.cons_subset.2 ⟨ih List.mem_cons_self, ih⟩
  | case2 a b rest _ ih =>
    exact List.cons_subset.2 ⟨List.mem_cons_self, List.Subset.trans ih (List.subset_cons_self a _)⟩
  | case3 l _ => exact List.Subset.refl l

theorem mem_vars_iff_exists {q : Raw} : w ∈ vars q ↔
    ∃ t ∈ q, w ∈ t.monomial.powers.map (·.1) := by
  set sorted := (q.flatMap fun t => t.monomial.powers.map (·.1)).mergeSort
    fun u w => u ≤ w with hsorted
  have hmerge : w ∈ vars q ↔ w ∈ sorted := by
    constructor
    · intro h
      obtain ⟨u, hu, rfl⟩ := key_mem_mergeAdjacent id (fun _ _ => rfl) sorted w h
      exact hu
    · exact fun h => subset_mergeAdjacent sorted h
  rw [hmerge, hsorted, List.mem_mergeSort, List.mem_flatMap]

/-- Sorting and merging leaves each variable once, whatever the list is. -/
theorem sorted_vars (q : Raw) : (vars q).Pairwise (· < ·) := by
  set listed := q.flatMap fun t => t.monomial.powers.map (·.1) with hlisted
  have hpairwise : (listed.mergeSort fun u w => u ≤ w).Pairwise fun u w => u = w ∨ u < w :=
    pairwise_mergeSort_key id listed
  exact pairwise_mergeAdjacent (r := fun u w : Var => u < w) id (fun _ _ => decide_eq_true_iff)
    (fun _ _ => rfl) UInt32.lt_trans _ hpairwise

/-- Sorting and merging the listed variables gives the variables in increasing order. -/
theorem vars_raw : vars p.raw = p.vars := by
  refine List.Pairwise.eq_of_mem_iff (sorted_vars _) p.sorted_vars fun w => ?_
  rw [mem_vars_iff_exists, MvPoly.mem_vars_iff_exists]
  constructor
  · intro h
    obtain ⟨_, hraw, hw⟩ := h
    obtain ⟨t, ht, rfl⟩ := List.mem_map.1 hraw
    rw [Term.raw, Monomial.map_fst_powers_raw] at hw
    exact ⟨t, ht, Monomial.mem_vars_iff.1 hw⟩
  · intro h
    obtain ⟨t, ht, hw⟩ := h
    refine ⟨t.raw, List.mem_map_of_mem ht, ?_⟩
    rw [Term.raw, Monomial.map_fst_powers_raw]
    exact Monomial.mem_vars_iff.2 hw

/-! ### Dense polynomials -/

theorem isConstant_raw : isConstant p.raw = p.isConstant := by
  rw [isConstant, MvPoly.isConstant, MvPoly.raw, List.all_map]
  exact congrArg (List.all p.terms) (funext fun t => t.monomial.isEmpty_powers_raw)

theorem constantValue_raw : constantValue p.raw = p.constantValue := by
  have hfind : (p.raw.find? fun t => t.monomial.powers.isEmpty)
      = (p.terms.find? fun t => t.monomial.isUnit).map Term.raw := by
    rw [MvPoly.raw, List.find?_map]
    congr 2
    exact funext fun t => t.monomial.isEmpty_powers_raw
  rw [constantValue, MvPoly.constantValue, hfind]
  cases p.terms.find? fun t => t.monomial.isUnit <;> rfl

theorem toUniPoly_raw (h : p.Fits) : toUniPoly p.raw v = p.toUniPoly v := by
  have hconstants : (collectCoefficients p.raw v).map constantValue
      = (p.coefficients v).map (·.constantValue) := by
    rw [collectCoefficients_raw h, List.map_map]
    exact List.map_congr_left fun _ _ => constantValue_raw
  rw [toUniPoly, MvPoly.toUniPoly, vars_raw]
  cases p.vars.find? (· ≠ v) with
  | some w => rfl
  | none => exact congrArg (fun cs => Except.ok (UniPoly.ofCoeffs v cs)) hconstants

theorem ofUniPoly_eq {u : UniPoly} (h : u.coeffs.length ≤ 2 ^ 32) :
    ofUniPoly u = u.toMvPoly.raw ∧ u.toMvPoly.Fits := ofCoeffs_eq u.var h

/-- A dense polynomial whose sparse form fits has no more coefficients than there are exponents. -/
theorem length_coeffs_le {u : UniPoly} (h : u.toMvPoly.Fits) : u.coeffs.length ≤ 2 ^ 32 := by
  have hdegree := h.degree_lt u.var
  rw [degree_toMvPoly rfl, UniPoly.degree] at hdegree
  omega

/-! ### Ranges -/

theorem summands_raw (h : p.Fits) : summands p.raw = p.summands := by
  rw [summands, MvPoly.summands, MvPoly.raw, List.map_map]
  exact List.map_congr_left fun t ht => congrArg (Prod.mk t.coeff) (h.monomial ht).natPowers_raw

theorem enclose_raw (h : p.Fits) (box : Box) : enclose p.raw box = p.enclose box := by
  rw [enclose, summands_raw h, MvPoly.enclose]

/-! ### Sums of powers -/

/-- The sum over the coefficients, each times the power of the variable that it belongs to. -/
def sumPowers (reading : Reading) (v : Var) (cs : List Raw) : Raw :=
  (cs.zipIdx.map fun c => mul reading c.1 (varPower v c.2.toUInt32)).foldr add []

/-- A coefficient and the power of the variable that it belongs to. -/
theorem totalDegree_coeff_add_lt (h : p.Fits) {k : ℕ} (hk : k ≤ p.degree v) :
    (p.coeff v k).totalDegree + k < 2 ^ 32 := by
  have hbound : (p.coeff v k).totalDegree ≤ 2 ^ 32 - 1 - k := by
    refine totalDegree_ofTerms_le (List.forall_mem_map.2 fun t ht => ?_)
    obtain ⟨hmem, hdegree⟩ := List.mem_filter.1 ht
    -- the two exponents are parts of one monomial
    have hparts := t.monomial.degree_add_totalDegree_without v
    rw [of_decide_eq_true hdegree] at hparts
    have hfits : t.monomial.totalDegree < 2 ^ 32 := h.monomial hmem
    show (t.monomial.without v).totalDegree ≤ _
    omega
  have hlt := h.degree_lt v
  omega

/-- The sum, where each coefficient leaves room for its power. -/
theorem sumPowers_raw (reading : Reading) {cs : List MvPoly}
    (h : ∀ c ∈ cs.zipIdx, c.1.totalDegree + c.2 < 2 ^ 32) :
    sumPowers reading v (cs.map MvPoly.raw) = (MvPoly.sumPowers v cs).raw := by
  -- sums never overflow, only the products do
  have hfoldr : ∀ ps : List MvPoly, (∀ p ∈ ps, p.Fits) →
      (ps.map MvPoly.raw).foldr add [] = (ps.foldr MvPoly.add .zero).raw ∧
        (ps.foldr MvPoly.add .zero).Fits := by
    intro ps
    induction ps with
    | nil => exact fun _ => ⟨rfl, fits_zero⟩
    | cons p ps ih =>
      intro hps
      rw [List.forall_mem_cons] at hps
      obtain ⟨heq, hfits⟩ := ih hps.2
      rw [List.map_cons, List.foldr_cons, heq, add_raw hps.1 hfits, List.foldr_cons]
      exact ⟨rfl, hps.1.add hfits⟩
  have hdegree : ∀ c ∈ cs.zipIdx,
      c.1.totalDegree + (MvPoly.varPower v c.2).totalDegree < 2 ^ 32 := fun c hc => by
    rw [totalDegree_varPower]
    exact h c hc
  have hproducts : ∀ q ∈ cs.zipIdx.map fun c => c.1.mul (.varPower v c.2), q.Fits :=
    List.forall_mem_map.2 fun c hc => fits_mul (hdegree c hc)
  rw [MvPoly.sumPowers, ← (hfoldr _ hproducts).1, List.map_map, sumPowers, List.zipIdx_map,
    List.map_map]
  congr 1
  refine List.map_congr_left fun c hc => ?_
  show mul reading c.1.raw (varPower v c.2.toUInt32) = (c.1.mul (.varPower v c.2)).raw
  rw [varPower_eq, toNat_toUInt32 ((Nat.le_add_left _ _).trans_lt (h c hc)),
    mul_raw reading (hdegree c hc)]

/-! ### The views agree -/

/-- The coefficients of a list in `v`: canonical lists without `v`, as many as the degree requires,
the last one not zero unless the list is, which with the powers of `v` add up to the list. -/
structure CoefficientsExact (p : Raw) (v : Var) : Prop where
  length_eq : (collectCoefficients p v).length = degree p v + 1
  getD_eq : ∀ k, (collectCoefficients p v).getD k [] = coeff p v k
  canonical : ∀ c ∈ collectCoefficients p v, c.Canonical
  hasVar_eq_false : ∀ c ∈ collectCoefficients p v, hasVar c v = false
  getLast?_eq : (collectCoefficients p v).getLast? = some (coeff p v (degree p v))
  last_eq_nil_iff : coeff p v (degree p v) = [] ↔ p = []
  sumPowers_eq : ∀ reading, sumPowers reading v (collectCoefficients p v) = p

/-- The dense form of a list: there is one if no variable but `v` occurs, it is in `v`, and it gives
the list back; otherwise the smallest other variable is named. -/
structure DenseExact (p : Raw) (v : Var) : Prop where
  exists_iff : (∃ u, toUniPoly p v = .ok u) ↔ ∀ w, hasVar p w = true → w = v
  smallest : ∀ e, toUniPoly p v = .error e →
    ∃ w, e = .notUnivariate v w ∧ IsLeast {w | hasVar p w = true ∧ w ≠ v} w
  var_eq : ∀ u, toUniPoly p v = .ok u → u.var = v
  ofUniPoly_eq : ∀ u, toUniPoly p v = .ok u → ofUniPoly u = p

theorem coefficientsExact_raw (h : p.Fits) (v : Var) : CoefficientsExact p.raw v where
  length_eq := by
    rw [collectCoefficients_eq, coefficients, List.length_map, List.length_range]
  getD_eq k := by
    rw [collectCoefficients_raw h, coeff_raw h, ← getD_coefficients]
    exact List.getD_map _ zero MvPoly.raw
  canonical c hc := by
    rw [collectCoefficients_raw h] at hc
    obtain ⟨q, hq, rfl⟩ := List.mem_map.1 hc
    exact canonical_raw (fits_of_mem_coefficients h hq)
  hasVar_eq_false c hc := by
    rw [collectCoefficients_raw h, MvPoly.coefficients, List.map_map] at hc
    obtain ⟨k, -, rfl⟩ := List.mem_map.1 hc
    show hasVar (p.coeff v k).raw v = false
    rw [hasVar_raw (h.coeff v k), ← Bool.not_eq_true, hasVar_iff]
    exact fun hv => (mem_vars_of_mem_vars_coeff hv).2 rfl
  getLast?_eq := by
    rw [collectCoefficients_eq, coefficients, List.range_succ, List.map_append, List.map_singleton,
      List.getLast?_concat]
  last_eq_nil_iff := by
    rw [degree_raw h, coeff_raw h, raw_eq_nil_iff, raw_eq_nil_iff, isZero_iff, isZero_iff,
      coeff_degree_eq_zero_iff]
  sumPowers_eq reading := by
    -- a coefficient times the power it belongs to is no larger than the polynomial
    have hroom : ∀ c ∈ (p.coefficients v).zipIdx, c.1.totalDegree + c.2 < 2 ^ 32 := by
      intro c hc
      obtain ⟨hlt, heq⟩ := List.mem_zipIdx' hc
      rw [MvPoly.coefficients, List.length_map, List.length_range] at hlt
      simp only [MvPoly.coefficients, List.getElem_map, List.getElem_range] at heq
      rw [heq]
      exact totalDegree_coeff_add_lt h (Nat.le_of_lt_succ hlt)
    rw [collectCoefficients_raw h, sumPowers_raw reading hroom, sumPowers_coefficients]

theorem denseExact_raw (h : p.Fits) (v : Var) : DenseExact p.raw v where
  exists_iff := by
    simp only [toUniPoly_raw h, hasVar_raw h, hasVar_iff]
    exact exists_toUniPoly_iff
  smallest e he := by
    rw [toUniPoly_raw h] at he
    simp only [hasVar_raw h, hasVar_iff]
    exact toUniPoly_eq_error he
  var_eq u hu := by
    rw [toUniPoly_raw h] at hu
    exact (eq_toMvPoly_of_toUniPoly hu).1
  ofUniPoly_eq u hu := by
    rw [toUniPoly_raw h] at hu
    have heq := (eq_toMvPoly_of_toUniPoly hu).2
    rw [heq, (ofUniPoly_eq (length_coeffs_le (heq ▸ h))).1]

end Raw

end MvPoly

end AlgebraicReal
