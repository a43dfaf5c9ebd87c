import AlgebraicReal.Proofs.MvPoly.Order
import AlgebraicReal.MvPoly.Resultant

/-!
# Division with remainder

There is at most one pair of a quotient and a remainder of which no monomial is divisible by the
leading monomial of the divisor (`IsDivision.unique`), and the division by levels finds it
(`divRem?_eq_some_iff`). The leading monomial is the highest power of the most significant variable
times the leading monomial of its coefficient (`degree_eq_level`), so what the division of a level
leaves, a division in fewer variables, is not divisible either. If the divisor divides the dividend,
nothing remains (`toPolynomial_quotient`).
-/

open MvPolynomial

namespace AlgebraicReal

/-- The polynomials in the listed variables. -/
noncomputable abbrev polynomialsIn (vs : List Var) : Subalgebra ℚ (MvPolynomial Var ℚ) :=
  MvPolynomial.supported ℚ {w | w ∈ vs}

theorem mem_polynomialsIn {vs : List Var} {f : MvPolynomial Var ℚ} :
    f ∈ polynomialsIn vs ↔ ∀ w ∈ f.vars, w ∈ vs := MvPolynomial.mem_supported

theorem apply_eq_zero_of_mem_polynomialsIn {vs : List Var} {f : MvPolynomial Var ℚ}
    (h : f ∈ polynomialsIn vs) {e : Var →₀ ℕ} (he : e ∈ f.support) {w : Var} (hw : w ∉ vs) :
    e w = 0 := by
  by_contra hne
  refine hw (mem_polynomialsIn.1 h w ((mem_vars_iff_mem_support w).2 ⟨e, he, ?_⟩))
  exact Finsupp.mem_support_iff.2 hne

/-- The coefficients of a polynomial in `v` do not have `v`. -/
theorem coeff_inVar_mem {v : Var} {vs : List Var} {f : MvPolynomial Var ℚ}
    (h : f ∈ polynomialsIn (v :: vs)) (k : ℕ) : (inVar v f).coeff k ∈ polynomialsIn vs := by
  rw [mem_polynomialsIn] at h ⊢
  intro w hw
  obtain ⟨hwf, hwv⟩ := mem_vars_coeff_inVar v hw
  exact (List.mem_cons.1 (h w hwf)).resolve_left hwv

theorem X_mem_polynomialsIn {v : Var} {vs : List Var} (h : v ∈ vs) :
    (X v : MvPolynomial Var ℚ) ∈ polynomialsIn vs := by
  rw [mem_polynomialsIn, vars_X]
  intro w hw
  rw [Finset.mem_singleton.1 hw]
  exact h

/-- Polynomials without a variable less are polynomials. -/
theorem polynomialsIn_mono {vs ws : List Var} (h : ∀ v ∈ vs, v ∈ ws) :
    polynomialsIn vs ≤ polynomialsIn ws := supported_mono h

namespace MvPoly

theorem mem_polynomialsIn_iff {p : MvPoly} {vs : List Var} :
    p.toPolynomial ∈ polynomialsIn vs ↔ ∀ v ∈ p.vars, v ∈ vs :=
  mem_polynomialsIn.trans (forall_congr' fun _ => imp_congr_left mem_vars_iff.symm)

theorem toPolynomial_leadingCoeff (p : MvPoly) (v : Var) :
    (p.leadingCoeff v).toPolynomial = (inVar v p.toPolynomial).leadingCoeff := by
  rw [leadingCoeff, toPolynomial_coeff, Polynomial.leadingCoeff, natDegree_inVar]

theorem leadingCoeff_ne_zero {d : MvPoly} (v : Var) (hd : d.toPolynomial ≠ 0) :
    (d.leadingCoeff v).toPolynomial ≠ 0 := by
  rw [toPolynomial_leadingCoeff]
  exact Polynomial.leadingCoeff_ne_zero.2 ((map_ne_zero_iff _ (inVar_injective v)).2 hd)

end MvPoly

/-! ## Quotient and remainder -/

/-- A quotient and a remainder, of which no monomial is divisible by the leading monomial of the
divisor `d`. -/
structure IsDivision (d p q r : MvPolynomial Var ℚ) : Prop where
  eq : q * d + r = p
  reduced : ∀ e ∈ r.support, ¬lexOrder.degree d ≤ e

section

variable {d p q r q' r' : MvPolynomial Var ℚ}

/-- If there were two quotients, a multiple of the divisor would be a difference of remainders. -/
theorem IsDivision.unique (hd : d ≠ 0) (h : IsDivision d p q r) (h' : IsDivision d p q' r') :
    q = q' ∧ r = r' := by
  have hdiff : (q - q') * d = r' - r := by
    linear_combination h.eq - h'.eq
  have hq : q - q' = 0 := by
    by_contra hne
    have hdegree : lexOrder.degree (r' - r) = lexOrder.degree (q - q') + lexOrder.degree d := by
      rw [← hdiff, MonomialOrder.degree_mul hne hd]
    have hmem : lexOrder.degree (r' - r) ∈ (r' - r).support :=
      lexOrder.degree_mem_support (hdiff ▸ mul_ne_zero hne hd)
    have hle : lexOrder.degree d ≤ lexOrder.degree (r' - r) := by
      rw [hdegree]
      exact le_add_self
    rcases Finset.mem_union.1 (support_sub _ r' r hmem) with hmem | hmem
    · exact h'.reduced _ hmem hle
    · exact h.reduced _ hmem hle
  rw [hq, zero_mul] at hdiff
  exact ⟨sub_eq_zero.1 hq, (sub_eq_zero.1 hdiff.symm).symm⟩

theorem IsDivision.of_dvd (h : q * d = p) : IsDivision d p q 0 :=
  ⟨by rw [h, add_zero], fun e he => absurd he (by rw [support_zero]; exact Finset.notMem_empty e)⟩

/-- A multiple of the divisor and a part of the remainder have been taken off, and the rest has been
divided. -/
theorem IsDivision.add {t m : MvPolynomial Var ℚ} (h : IsDivision d (p - t * d - m) q r)
    (hm : ∀ e ∈ m.support, ¬lexOrder.degree d ≤ e) : IsDivision d p (q + t) (r + m) := by
  classical
  refine ⟨by linear_combination h.eq, fun e he => ?_⟩
  rcases Finset.mem_union.1 (support_add he) with he | he
  · exact h.reduced e he
  · exact hm e he

/-- With a multiple of the divisor and a part of the remainder taken off, the rest is divided by what
is left of the quotient and the remainder. -/
theorem IsDivision.sub {t m : MvPolynomial Var ℚ} (h : IsDivision d p q r)
    (hm : ∀ e ∈ m.support, ¬lexOrder.degree d ≤ e) :
    IsDivision d (p - t * d - m) (q - t) (r - m) := by
  classical
  refine ⟨by linear_combination h.eq, fun e he => ?_⟩
  rcases Finset.mem_union.1 (support_sub _ r m he) with he | he
  · exact h.reduced e he
  · exact hm e he

/-- If the leading monomial of the dividend is a multiple of that of the divisor, the quotient has the
factor as its leading monomial. -/
theorem IsDivision.degree_add (hd : d ≠ 0) (hp : p ≠ 0) (h : IsDivision d p q r)
    (hle : lexOrder.degree d ≤ lexOrder.degree p) :
    q ≠ 0 ∧ lexOrder.degree q + lexOrder.degree d = lexOrder.degree p := by
  classical
  have hpmem : lexOrder.degree p ∈ (q * d + r).support := by
    rw [h.eq]
    exact lexOrder.degree_mem_support hp
  have hmem : lexOrder.degree p ∈ (q * d).support :=
    (Finset.mem_union.1 (support_add hpmem)).resolve_right fun hr => h.reduced _ hr hle
  have hq : q ≠ 0 := by
    rintro rfl
    rw [zero_mul, support_zero] at hmem
    exact absurd hmem (Finset.notMem_empty _)
  have hdegree : lexOrder.degree (q * d) = lexOrder.degree q + lexOrder.degree d :=
    MonomialOrder.degree_mul hq hd
  -- nothing in the remainder is as great as the leading monomial of the product
  have hqmem : lexOrder.degree (q * d) ∈ p.support := by
    rw [← h.eq, MvPolynomial.mem_support_iff, MvPolynomial.coeff_add]
    have hr : r.coeff (lexOrder.degree (q * d)) = 0 := by
      refine notMem_support_iff.1 fun hr => h.reduced _ hr ?_
      rw [hdegree]
      exact le_add_self
    rw [hr, add_zero]
    exact MvPolynomial.mem_support_iff.1 (lexOrder.degree_mem_support (mul_ne_zero hq hd))
  refine ⟨hq, ?_⟩
  rw [← hdegree]
  exact lexOrder.toSyn.injective (le_antisymm (lexOrder.le_degree hqmem) (lexOrder.le_degree hmem))

end

/-! ## Levels -/

section

variable {v : Var} {vs : List Var} {f : MvPolynomial Var ℚ}

/-- The leading monomial has the highest power of the most significant variable. -/
theorem degree_eq_level (hv : ∀ w ∈ vs, v < w) (hf : f ∈ polynomialsIn (v :: vs)) (hf0 : f ≠ 0) :
    lexOrder.degree f
      = lexOrder.degree (inVar v f).leadingCoeff + Finsupp.single v (inVar v f).natDegree := by
  set lead := (inVar v f).leadingCoeff with hlead
  have hlead0 : lead ≠ 0 :=
    Polynomial.leadingCoeff_ne_zero.2 ((map_ne_zero_iff _ (inVar_injective v)).2 hf0)
  -- no exponent of a more significant variable
  have hbelow : ∀ e ∈ f.support, ∀ u < v, e u = 0 := fun e he u hu => by
    refine apply_eq_zero_of_mem_polynomialsIn hf he fun hmem => ?_
    rcases List.mem_cons.1 hmem with rfl | hmem
    · exact UInt32.lt_irrefl u hu
    · exact UInt32.lt_asymm hu (hv u hmem)
  have htop : lexOrder.degree lead v = 0 ∧
      lexOrder.degree lead + Finsupp.single v (inVar v f).natDegree ∈ f.support := by
    have hmem := MvPolynomial.mem_support_iff.1 (lexOrder.degree_mem_support hlead0)
    rw [hlead, Polynomial.leadingCoeff, coeff_coeff_inVar, ne_eq, ite_eq_right_iff,
      Classical.not_imp] at hmem
    exact ⟨hmem.1, MvPolynomial.mem_support_iff.2 hmem.2⟩
  refine lexOrder.toSyn.injective (le_antisymm ?_ (lexOrder.le_degree htop.2))
  refine MonomialOrder.degree_le_iff.2 fun e he => ?_
  -- the monomial, without its power of `v`, is one of the coefficient of that power
  have hcoeff : ((inVar v f).coeff (e v)).coeff (e.erase v) ≠ 0 := by
    rw [coeff_coeff_inVar, if_pos Finsupp.erase_same, Finsupp.erase_add_single]
    exact MvPolynomial.mem_support_iff.1 he
  have hle : e v ≤ (inVar v f).natDegree := Polynomial.le_natDegree_of_ne_zero fun h0 =>
    hcoeff (by rw [h0, coeff_zero])
  rcases hle.lt_or_eq with hlt | heq
  · refine le_of_lt (toSyn_lt_of_first_difference (v := v) (fun u hu => ?_) ?_)
    · exact (hbelow e he u hu).trans (hbelow _ htop.2 u hu).symm
    · rw [Finsupp.add_apply, htop.1, zero_add, Finsupp.single_eq_same]
      exact hlt
  · rw [heq] at hcoeff
    have herase := lexOrder.le_degree (MvPolynomial.mem_support_iff.2 hcoeff)
    rw [← Finsupp.erase_add_single v e, heq, map_add, map_add]
    exact add_le_add_left herase _

/-- Once the highest level is divided, nothing is left of it. -/
theorem cleared_level {R : Type*} [CommRing R] {F D : Polynomial R} {q r : R}
    (hdegree : D.natDegree ≤ F.natDegree) (hlevel : q * D.leadingCoeff + r = F.leadingCoeff) :
    (F - Polynomial.C q * Polynomial.X ^ (F.natDegree - D.natDegree) * D
        - Polynomial.C r * Polynomial.X ^ F.natDegree).natDegree ≤ F.natDegree ∧
      (F - Polynomial.C q * Polynomial.X ^ (F.natDegree - D.natDegree) * D
        - Polynomial.C r * Polynomial.X ^ F.natDegree).coeff F.natDegree = 0 := by
  have hsum : F.natDegree - (F.natDegree - D.natDegree) = D.natDegree := Nat.sub_sub_self hdegree
  constructor
  · have hquot := Polynomial.natDegree_mul_le_of_le
      (Polynomial.natDegree_C_mul_X_pow_le q (F.natDegree - D.natDegree)) (le_refl D.natDegree)
    rw [Nat.sub_add_cancel hdegree] at hquot
    have hsub := (Polynomial.natDegree_sub_le_of_le (le_refl F.natDegree) hquot).trans
      (max_self _).le
    exact (Polynomial.natDegree_sub_le_of_le hsub
      (Polynomial.natDegree_C_mul_X_pow_le r F.natDegree)).trans (max_self _).le
  · rw [Polynomial.coeff_sub, Polynomial.coeff_sub, mul_assoc, Polynomial.coeff_C_mul,
      Polynomial.X_pow_mul, Polynomial.coeff_mul_X_pow', if_pos (Nat.sub_le _ _), hsum,
      Polynomial.coeff_C_mul_X_pow, if_pos rfl, Polynomial.coeff_natDegree,
      Polynomial.coeff_natDegree, ← hlevel]
    ring

/-- What remains of a level is not divisible by the leading monomial. -/
theorem reduced_level {d r : MvPolynomial Var ℚ} (hv : ∀ w ∈ vs, v < w)
    (hd : d ∈ polynomialsIn (v :: vs)) (hd0 : d ≠ 0)
    (hr : ∀ e ∈ r.support, ¬lexOrder.degree (inVar v d).leadingCoeff ≤ e) (k : ℕ) :
    ∀ e ∈ (r * X v ^ k).support, ¬lexOrder.degree d ≤ e := by
  intro e he hle
  have hlead0 : (inVar v d).leadingCoeff ≠ 0 :=
    Polynomial.leadingCoeff_ne_zero.2 ((map_ne_zero_iff _ (inVar_injective v)).2 hd0)
  have hleadv : lexOrder.degree (inVar v d).leadingCoeff v = 0 :=
    apply_eq_zero_of_mem_polynomialsIn (coeff_inVar_mem hd _) (lexOrder.degree_mem_support hlead0)
      fun hmem => UInt32.lt_irrefl v (hv v hmem)
  rw [X_pow_eq_monomial, MvPolynomial.mem_support_iff, coeff_mul_monomial', ne_eq, ite_eq_right_iff,
    Classical.not_imp, mul_one] at he
  refine hr _ (MvPolynomial.mem_support_iff.2 he.2) (Finsupp.le_def.2 fun w => ?_)
  rw [degree_eq_level hv hd hd0] at hle
  by_cases hw : w = v
  · rw [hw, hleadv]
    exact Nat.zero_le _
  · have hlew := Finsupp.le_def.1 hle w
    rw [Finsupp.add_apply, Finsupp.single_eq_of_ne hw, add_zero] at hlew
    rw [Finsupp.tsub_apply, Finsupp.single_eq_of_ne hw]
    exact hlew

end

namespace MvPoly

/-! ## The division -/

/-- A division that brings in no other variables. -/
structure DividesIn (vs : List Var) (d p : MvPoly) (r : MvPoly × MvPoly) : Prop where
  isDivision : IsDivision d.toPolynomial p.toPolynomial r.1.toPolynomial r.2.toPolynomial
  quotient_mem : r.1.toPolynomial ∈ polynomialsIn vs
  remainder_mem : r.2.toPolynomial ∈ polynomialsIn vs

section

variable {v : Var} {vs : List Var} {d p q r rest : MvPoly}

theorem toPolynomial_mulTerm_power (q : MvPoly) (v : Var) (k : ℕ) :
    (q.mulTerm ⟨1, .power v k⟩).toPolynomial = q.toPolynomial * X v ^ k := by
  rw [toPolynomial_mulTerm, Term.toPolynomial, Monomial.toExponents_power, ← X_pow_eq_monomial]

/-- Below the degree of the divisor nothing is divisible. -/
theorem dividesIn_zero (hv : ∀ w ∈ vs, v < w) (hd : d.toPolynomial ∈ polynomialsIn (v :: vs))
    (hd0 : d.toPolynomial ≠ 0) (hp : p.toPolynomial ∈ polynomialsIn (v :: vs))
    (h : p.isZero = true ∨ p.degree v < d.degree v) : DividesIn (v :: vs) d p (zero, p) := by
  refine ⟨⟨by rw [toPolynomial_zero, zero_mul, zero_add], fun e he hle => ?_⟩, zero_mem _, hp⟩
  rcases h with h | h
  · rw [toPolynomial_eq_zero_iff.2 h, support_zero] at he
    exact Finset.notMem_empty e he
  · obtain ⟨t, ht, rfl⟩ := mem_support_iff.1 he
    have hlev := Finsupp.le_def.1 hle v
    rw [degree_eq_level hv hd hd0, Finsupp.add_apply, Finsupp.single_eq_same, natDegree_inVar,
      Monomial.toExponents_apply] at hlev
    have htv : t.monomial.degree v ≤ p.degree v := le_degree ht
    omega

/-- The level that is divided is gone: there is less left, or nothing. -/
theorem degree_lt_or_eq_zero (hdegree : d.degree v ≤ p.degree v)
    (hq : q.toPolynomial ∈ polynomialsIn vs) (hr : r.toPolynomial ∈ polynomialsIn vs)
    (hv : v ∉ vs) (hlevel : q.toPolynomial * (d.leadingCoeff v).toPolynomial + r.toPolynomial
      = (p.coeff v (p.degree v)).toPolynomial)
    (hrest : rest.toPolynomial = p.toPolynomial
      - q.toPolynomial * X v ^ (p.degree v - d.degree v) * d.toPolynomial
      - r.toPolynomial * X v ^ p.degree v) :
    rest.degree v < p.degree v ∨ rest.toPolynomial = 0 := by
  have hconst : ∀ {f : MvPolynomial Var ℚ}, f ∈ polynomialsIn vs →
      inVar v f = Polynomial.C f := fun hf =>
    inVar_of_not_mem_vars v fun hmem => hv (mem_polynomialsIn.1 hf v hmem)
  have hlevel' : q.toPolynomial * (inVar v d.toPolynomial).leadingCoeff + r.toPolynomial
      = (inVar v p.toPolynomial).leadingCoeff := by
    rw [← toPolynomial_leadingCoeff, hlevel, toPolynomial_coeff, ← natDegree_inVar,
      Polynomial.coeff_natDegree]
  have hcleared := cleared_level
    (by rw [natDegree_inVar, natDegree_inVar]; exact hdegree) hlevel'
  have hinVar : inVar v rest.toPolynomial = inVar v p.toPolynomial
      - Polynomial.C q.toPolynomial * Polynomial.X ^ (p.degree v - d.degree v)
        * inVar v d.toPolynomial
      - Polynomial.C r.toPolynomial * Polynomial.X ^ p.degree v := by
    rw [hrest, map_sub, map_sub, map_mul, map_mul, map_mul, map_pow, map_pow, inVar_X_self,
      hconst hq, hconst hr]
  rw [natDegree_inVar, natDegree_inVar, ← hinVar, natDegree_inVar] at hcleared
  -- a degree that stays has lost its leading coefficient
  rcases hcleared.1.lt_or_eq with hlt | heq
  · exact .inl hlt
  · have hlead : (inVar v rest.toPolynomial).leadingCoeff = 0 := by
      rw [Polynomial.leadingCoeff, natDegree_inVar, heq]
      exact hcleared.2
    exact .inr ((map_eq_zero_iff _ (inVar_injective v)).1 (Polynomial.leadingCoeff_eq_zero.1 hlead))

/-- What clearing a level leaves: a part of the quotient, a part of the remainder, and the rest. -/
structure ClearsLevel (vs : List Var) (d p quotient remainder rest : MvPoly) : Prop where
  eq : rest.toPolynomial
    = p.toPolynomial - quotient.toPolynomial * d.toPolynomial - remainder.toPolynomial
  reduced : ∀ e ∈ remainder.toPolynomial.support, ¬lexOrder.degree d.toPolynomial ≤ e
  quotient_mem : quotient.toPolynomial ∈ polynomialsIn vs
  remainder_mem : remainder.toPolynomial ∈ polynomialsIn vs

theorem clearsLevel (hv : ∀ w ∈ vs, v < w) (hd : d.toPolynomial ∈ polynomialsIn (v :: vs))
    (hd0 : d.toPolynomial ≠ 0) (hreduced : ∀ e ∈ r.toPolynomial.support,
      ¬lexOrder.degree (d.leadingCoeff v).toPolynomial ≤ e)
    (hq : q.toPolynomial ∈ polynomialsIn vs) (hr : r.toPolynomial ∈ polynomialsIn vs) (k l : ℕ) :
    ClearsLevel (v :: vs) d p (q.mulTerm ⟨1, .power v k⟩) (r.mulTerm ⟨1, .power v l⟩)
      ((p.sub ((q.mulTerm ⟨1, .power v k⟩).mul d)).sub (r.mulTerm ⟨1, .power v l⟩)) := by
  have hmono := polynomialsIn_mono fun w (hw : w ∈ vs) => List.mem_cons_of_mem v hw
  have hXv : (X v : MvPolynomial Var ℚ) ∈ polynomialsIn (v :: vs) :=
    X_mem_polynomialsIn List.mem_cons_self
  rw [toPolynomial_leadingCoeff] at hreduced
  refine ⟨by rw [toPolynomial_sub, toPolynomial_sub, toPolynomial_mul], ?_, ?_, ?_⟩
  · rw [toPolynomial_mulTerm_power]
    exact reduced_level hv hd hd0 hreduced l
  · rw [toPolynomial_mulTerm_power]
    exact mul_mem (hmono hq) (pow_mem hXv k)
  · rw [toPolynomial_mulTerm_power]
    exact mul_mem (hmono hr) (pow_mem hXv l)

theorem ClearsLevel.rest_mem {quotient remainder : MvPoly}
    (h : ClearsLevel vs d p quotient remainder rest) (hd : d.toPolynomial ∈ polynomialsIn vs)
    (hp : p.toPolynomial ∈ polynomialsIn vs) : rest.toPolynomial ∈ polynomialsIn vs :=
  h.eq ▸ sub_mem (sub_mem hp (mul_mem h.quotient_mem hd)) h.remainder_mem

/-- The division of the rest goes on where the level ended. -/
theorem ClearsLevel.add {quotient remainder : MvPoly} {qr : MvPoly × MvPoly}
    (h : ClearsLevel vs d p quotient remainder rest) (hrest : DividesIn vs d rest qr) :
    DividesIn vs d p (qr.1.add quotient, qr.2.add remainder) := by
  have hdivision := hrest.isDivision
  rw [h.eq] at hdivision
  refine ⟨?_, ?_, ?_⟩
  · rw [toPolynomial_add, toPolynomial_add]
    exact hdivision.add h.reduced
  · exact toPolynomial_add .. ▸ add_mem hrest.quotient_mem h.quotient_mem
  · exact toPolynomial_add .. ▸ add_mem hrest.remainder_mem h.remainder_mem

/-- Nothing is left, and the division is over. -/
theorem ClearsLevel.dividesIn {quotient remainder : MvPoly}
    (h : ClearsLevel vs d p quotient remainder rest) (hzero : rest.toPolynomial = 0) :
    DividesIn vs d p (quotient, rest.add remainder) := by
  have hsum : (rest.add remainder).toPolynomial = remainder.toPolynomial := by
    rw [toPolynomial_add, hzero, zero_add]
  refine ⟨⟨?_, ?_⟩, h.quotient_mem, ?_⟩
  · rw [hsum]
    linear_combination h.eq - hzero
  · rw [hsum]
    exact h.reduced
  · rw [hsum]
    exact h.remainder_mem

end

/-- Division by levels is division, if the division of the levels is. -/
theorem divideLevels_spec {v : Var} {vs : List Var} {d : MvPoly}
    {divideCoeff : MvPoly → MvPoly × MvPoly} (hv : ∀ w ∈ vs, v < w)
    (hd : d.toPolynomial ∈ polynomialsIn (v :: vs)) (hd0 : d.toPolynomial ≠ 0)
    (hdiv : ∀ c : MvPoly, c.toPolynomial ∈ polynomialsIn vs →
      DividesIn vs (d.leadingCoeff v) c (divideCoeff c)) :
    ∀ (n : ℕ) {p : MvPoly}, p.degree v = n → p.toPolynomial ∈ polynomialsIn (v :: vs) →
      DividesIn (v :: vs) d p (divideLevels divideCoeff v d p) := by
  intro n
  -- on the level: a level that is cleared leaves a rest of smaller degree, or zero
  induction n using Nat.strong_induction_on with
  | _ n ih =>
    intro p hn hp
    rw [divideLevels]
    simp only
    split
    next h => exact dividesIn_zero hv hd hd0 hp h
    next h =>
      rw [not_or, not_lt] at h
      have hcoeff : (p.coeff v (p.degree v)).toPolynomial ∈ polynomialsIn vs := by
        rw [toPolynomial_coeff]
        exact coeff_inVar_mem hp _
      obtain ⟨⟨heq, hreduced⟩, hq, hr⟩ := hdiv _ hcoeff
      have hlevel := clearsLevel (p := p) hv hd hd0 hreduced hq hr
        (p.degree v - d.degree v) (p.degree v)
      have hless := degree_lt_or_eq_zero h.2 hq hr (fun hmem => UInt32.lt_irrefl v (hv v hmem)) heq
        (by rw [hlevel.eq, toPolynomial_mulTerm_power, toPolynomial_mulTerm_power])
      split
      next hlt => exact hlevel.add (ih _ (hn ▸ hlt) rfl (hlevel.rest_mem hd hp))
      next hlt => exact hlevel.dividesIn (hless.resolve_left hlt)

/-- Division in the listed variables. -/
theorem divideIn_spec : ∀ {vs : List Var} {d p : MvPoly}, vs.Pairwise (· < ·) →
    d.toPolynomial ≠ 0 → d.toPolynomial ∈ polynomialsIn vs → p.toPolynomial ∈ polynomialsIn vs →
      DividesIn vs d p (divideIn vs d p)
  | [], d, p, _, hd0, hd, hp => by
    have hconst : ∀ {q : MvPoly}, q.toPolynomial ∈ polynomialsIn [] →
        q.toPolynomial = C q.constantValue := fun {q} hq =>
      toPolynomial_of_isConstant (isConstant_iff.2 (List.eq_nil_iff_forall_not_mem.2 fun v hv =>
        List.not_mem_nil (mem_polynomialsIn_iff.1 hq v hv)))
    have hc : d.constantValue ≠ 0 := by
      intro h0
      rw [hconst hd, h0, C_0] at hd0
      exact hd0 rfl
    refine ⟨.of_dvd ?_, ?_, zero_mem _⟩
    · show (p.scale d.constantValue⁻¹).toPolynomial * d.toPolynomial = p.toPolynomial
      rw [toPolynomial_scale, hconst hd, hconst hp, ← C_mul, ← C_mul, mul_right_comm,
        inv_mul_cancel₀ hc, one_mul]
    · show (p.scale d.constantValue⁻¹).toPolynomial ∈ polynomialsIn []
      rw [toPolynomial_scale]
      exact mul_mem (Subalgebra.algebraMap_mem _ _) hp
  | v :: vs, d, p, hvs, hd0, hd, hp => by
    obtain ⟨hv, hvs⟩ := List.pairwise_cons.1 hvs
    have hlead : (d.leadingCoeff v).toPolynomial ∈ polynomialsIn vs := by
      rw [toPolynomial_leadingCoeff]
      exact coeff_inVar_mem hd _
    -- coefficients are divided in the variables that remain
    exact divideLevels_spec hv hd hd0
      (fun c hc => divideIn_spec hvs (leadingCoeff_ne_zero v hd0) hlead hc) _ rfl hp

section

variable {p d q r : MvPoly}

/-- The division gives the one quotient and the one remainder. -/
theorem divRem?_eq_some_iff (hd : d.toPolynomial ≠ 0) : p.divRem? d = some (q, r) ↔
    IsDivision d.toPolynomial p.toPolynomial q.toPolynomial r.toPolynomial := by
  have hspec := (divideIn_spec (sorted_foldr_insertVar d.sorted_vars p.vars) hd
    (mem_polynomialsIn_iff.2 fun v hv => mem_foldr_insertVar.2 (.inr hv))
    (mem_polynomialsIn_iff.2 fun v hv => mem_foldr_insertVar.2 (.inl hv))).isDivision
  unfold divRem?
  rw [if_neg (toPolynomial_ne_zero_iff.1 hd), Option.some_inj]
  constructor
  · rintro h
    rwa [h] at hspec
  · intro h
    obtain ⟨hq, hr⟩ := hspec.unique hd h
    exact Prod.ext (toPolynomial_injective hq) (toPolynomial_injective hr)

/-- The quotient of a multiple of the divisor. -/
theorem toPolynomial_quotient (hd : d.toPolynomial ≠ 0) (h : d.toPolynomial ∣ p.toPolynomial) :
    (p.quotient d).toPolynomial * d.toPolynomial = p.toPolynomial := by
  obtain ⟨f, hf⟩ := h
  unfold quotient
  split
  next q r hqr =>
    obtain ⟨hq, -⟩ := ((divRem?_eq_some_iff hd).1 hqr).unique hd (.of_dvd (q := f)
      (by rw [hf, mul_comm]))
    rw [hq, hf, mul_comm]
  next hnone =>
    unfold divRem? at hnone
    rw [if_neg (toPolynomial_ne_zero_iff.1 hd)] at hnone
    cases hnone

end

end MvPoly

end AlgebraicReal
