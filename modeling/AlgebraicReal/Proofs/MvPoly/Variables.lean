import AlgebraicReal.Proofs.MvPoly.Polynomial

/-!
# One variable at a time

A polynomial in several variables is read as one in `v` whose coefficients are polynomials in the
other variables (`inVar`). Coefficients, degree and the occurrence of a variable are read off this
form, and putting a value in the place of `v` is evaluating it.
-/

open MvPolynomial

namespace AlgebraicReal

/-- The polynomial as one in `v`. -/
noncomputable def inVar (v : Var) : MvPolynomial Var ℚ →ₐ[ℚ] Polynomial (MvPolynomial Var ℚ) :=
  MvPolynomial.aeval fun w => if w = v then Polynomial.X else Polynomial.C (MvPolynomial.X w)

section

variable (v : Var)

@[simp] theorem inVar_X_self : inVar v (X v) = Polynomial.X := by
  rw [inVar, aeval_X, if_pos rfl]

theorem inVar_X_of_ne {w : Var} (h : w ≠ v) : inVar v (X w) = Polynomial.C (X w) := by
  rw [inVar, aeval_X, if_neg h]

@[simp] theorem inVar_C (c : ℚ) : inVar v (C c) = Polynomial.C (C c) := by
  rw [inVar, aeval_C]
  rfl

/-- A monomial, split into the power of the variable and the rest. -/
theorem inVar_monomial (e : Var →₀ ℕ) (c : ℚ) :
    inVar v (monomial e c) = Polynomial.monomial (e v) (monomial (e.erase v) c) := by
  have hne : ∀ w ∈ (e.erase v).support, w ≠ v := fun w hw => by
    rw [Finsupp.support_erase] at hw
    exact Finset.ne_of_mem_erase hw
  have hprod : (e.erase v).prod (fun w k => (if w = v then Polynomial.X
      else Polynomial.C (X w : MvPolynomial Var ℚ)) ^ k)
        = Polynomial.C ((e.erase v).prod fun w k => X w ^ k) := by
    rw [Finsupp.prod, Finsupp.prod, map_prod]
    refine Finset.prod_congr rfl fun w hw => ?_
    rw [if_neg (hne w hw), Polynomial.C_pow]
  rw [inVar, aeval_monomial, ← Finsupp.mul_prod_erase' e v _ fun _ => pow_zero _, if_pos rfl, hprod,
    ← Polynomial.C_mul_X_pow_eq_monomial, monomial_eq, Polynomial.C_mul,
    mul_comm (Polynomial.X ^ _),
    mul_assoc]
  rfl

/-- Putting the variable back. -/
theorem eval_X_inVar (f : MvPolynomial Var ℚ) : (inVar v f).eval (X v) = f := by
  induction f using MvPolynomial.induction_on with
  | C c => rw [inVar_C, Polynomial.eval_C]
  | add f g hf hg => rw [map_add, Polynomial.eval_add, hf, hg]
  | mul_X f w hf =>
    rw [map_mul, Polynomial.eval_mul, hf]
    by_cases h : w = v
    · rw [h, inVar_X_self, Polynomial.eval_X]
    · rw [inVar_X_of_ne v h, Polynomial.eval_C]

/-- Nothing is lost when a polynomial is seen as one in a single variable. -/
theorem inVar_injective : Function.Injective (inVar v) :=
  Function.LeftInverse.injective (g := fun F => Polynomial.eval (X v) F) (eval_X_inVar v)

/-- The coefficients of the two readings. -/
theorem coeff_coeff_inVar (f : MvPolynomial Var ℚ) (k : ℕ) (m : Var →₀ ℕ) :
    ((inVar v f).coeff k).coeff m = if m v = 0 then f.coeff (m + Finsupp.single v k) else 0 := by
  induction f using MvPolynomial.induction_on' with
  | monomial e c =>
    -- an exponent without `v` and a power of `v` make up one exponent
    have hiff : e v = k ∧ e.erase v = m ↔ m v = 0 ∧ e = m + Finsupp.single v k := by
      constructor
      · rintro ⟨rfl, rfl⟩
        exact ⟨Finsupp.erase_same, (Finsupp.erase_add_single v e).symm⟩
      · rintro ⟨hm, rfl⟩
        refine ⟨by rw [Finsupp.add_apply, hm, zero_add, Finsupp.single_eq_same], ?_⟩
        rw [Finsupp.erase_add, Finsupp.erase_single, add_zero, Finsupp.erase_of_notMem_support]
        rwa [Finsupp.notMem_support_iff]
    rw [inVar_monomial, Polynomial.coeff_monomial, coeff_monomial]
    by_cases h : e v = k ∧ e.erase v = m
    · rw [if_pos h.1, coeff_monomial, if_pos h.2, if_pos (hiff.1 h).1, if_pos (hiff.1 h).2]
    · have hr : (if m v = 0 then if e = m + Finsupp.single v k then c else 0 else 0) = 0 := by
        split
        next hm => rw [if_neg fun he => h (hiff.2 ⟨hm, he⟩)]
        next => rfl
      rw [hr]
      split
      next hk => rw [coeff_monomial, if_neg fun he => h ⟨hk, he⟩]
      next => exact coeff_zero m
  | add f g hf hg =>
    rw [map_add, Polynomial.coeff_add, coeff_add, hf, hg]
    split
    next => rw [coeff_add]
    next => exact add_zero 0

/-- A variable that does not occur has only a constant coefficient. -/
theorem inVar_of_not_mem_vars {f : MvPolynomial Var ℚ} (h : v ∉ f.vars) :
    inVar v f = Polynomial.C f := by
  have hdeg : (inVar v f).natDegree = 0 := by
    refine Nat.le_zero.1 (Polynomial.natDegree_le_iff_coeff_eq_zero.2 fun k hk => ?_)
    refine MvPolynomial.ext _ _ fun m => ?_
    rw [coeff_coeff_inVar, coeff_zero, ite_eq_right_iff]
    intro hm
    by_contra hne
    refine h ((mem_vars_iff_mem_support v).2 ⟨_, mem_support_iff.2 hne, ?_⟩)
    rw [Finsupp.mem_support_iff, Finsupp.add_apply, hm, zero_add, Finsupp.single_eq_same]
    exact hk.ne'
  have hC := Polynomial.eq_C_of_natDegree_eq_zero hdeg
  have heval := eval_X_inVar v f
  rw [hC, Polynomial.eval_C] at heval
  rw [hC, heval]

/-- The variables of a coefficient. -/
theorem mem_vars_coeff_inVar {f : MvPolynomial Var ℚ} {k : ℕ} {w : Var}
    (h : w ∈ ((inVar v f).coeff k).vars) : w ∈ f.vars ∧ w ≠ v := by
  rw [mem_vars_iff_mem_support] at h ⊢
  obtain ⟨m, hm, hwm⟩ := h
  rw [mem_support_iff, coeff_coeff_inVar, ne_eq, ite_eq_right_iff, Classical.not_imp] at hm
  have hwv : w ≠ v := by
    rintro rfl
    exact Finsupp.mem_support_iff.1 hwm hm.1
  refine ⟨⟨_, mem_support_iff.2 hm.2, ?_⟩, hwv⟩
  rw [Finsupp.mem_support_iff, Finsupp.add_apply, Finsupp.single_eq_of_ne hwv, add_zero]
  exact Finsupp.mem_support_iff.1 hwm

/-- Evaluating in two steps. -/
theorem eval₂_inVar {A : Type*} [CommRing A] [Algebra ℚ A] (σ : Var → A) (x : A)
    (f : MvPolynomial Var ℚ) :
    (inVar v f).eval₂ (aeval σ : MvPolynomial Var ℚ →ₐ[ℚ] A).toRingHom x
      = aeval (Function.update σ v x) f := by
  induction f using MvPolynomial.induction_on with
  | C c =>
    rw [inVar_C, Polynomial.eval₂_C, aeval_C]
    exact aeval_C σ c
  | add f g hf hg => rw [map_add, Polynomial.eval₂_add, hf, hg, map_add]
  | mul_X f w hf =>
    rw [map_mul, Polynomial.eval₂_mul, hf, map_mul, aeval_X]
    by_cases h : w = v
    · rw [h, inVar_X_self, Polynomial.eval₂_X, Function.update_self]
    · rw [inVar_X_of_ne v h, Polynomial.eval₂_C, Function.update_of_ne h]
      congr 1
      exact aeval_X σ w

/-- To evaluate the coefficients first and the variable afterwards is to evaluate at once. -/
theorem eval_map_inVar {A : Type*} [CommRing A] [Algebra ℚ A] (σ : Var → A) (x : A)
    (f : MvPolynomial Var ℚ) :
    ((inVar v f).map (aeval σ : MvPolynomial Var ℚ →ₐ[ℚ] A).toRingHom).eval x
      = aeval (Function.update σ v x) f := by
  rw [Polynomial.eval_map, eval₂_inVar]

end

namespace MvPoly

/-! ## Which variables occur -/

/-- The variable that is inserted comes to those that were there. -/
theorem mem_insertVar {v w : Var} : ∀ {l : List Var}, w ∈ insertVar v l ↔ w = v ∨ w ∈ l
  | [] => by rw [insertVar, List.mem_singleton, or_iff_left List.not_mem_nil]
  | u :: rest => by
    unfold insertVar
    split
    next => exact List.mem_cons
    next =>
      split
      next h =>
        subst h
        rw [List.mem_cons, ← or_assoc, or_self]
      next => rw [List.mem_cons, mem_insertVar, List.mem_cons, or_left_comm]

theorem mem_foldr_insertVar {w : Var} {l : List Var} : ∀ {vs : List Var},
    w ∈ vs.foldr insertVar l ↔ w ∈ vs ∨ w ∈ l
  | [] => (or_iff_right List.not_mem_nil).symm
  | v :: vs => by
    rw [List.foldr_cons, mem_insertVar, mem_foldr_insertVar, List.mem_cons, or_assoc]

variable {p : MvPoly} {v w : Var}

/-- A variable occurs if some term has it. -/
theorem mem_vars_iff_exists : v ∈ p.vars ↔ ∃ t ∈ p.terms, 0 < t.monomial.degree v := by
  unfold vars
  induction p.terms with
  | nil => exact iff_of_false List.not_mem_nil fun ⟨_, h, _⟩ => List.not_mem_nil h
  | cons t ts ih =>
    rw [List.foldr_cons, mem_foldr_insertVar, ih, Monomial.mem_vars_iff, List.exists_mem_cons_iff]

/-- The test for a variable does not go through the list of all of them. -/
theorem hasVar_iff : p.hasVar v = true ↔ v ∈ p.vars := by
  unfold hasVar
  rw [mem_vars_iff_exists, List.any_eq_true]
  simp only [decide_eq_true_eq]

/-- The variables that occur are those of the polynomial. -/
theorem mem_vars_iff : v ∈ p.vars ↔ v ∈ p.toPolynomial.vars := by
  rw [mem_vars_iff_exists, MvPolynomial.mem_vars_iff_mem_support]
  constructor
  · rintro ⟨t, ht, hv⟩
    refine ⟨_, mem_support_iff.2 ⟨t, ht, rfl⟩, ?_⟩
    rw [Finsupp.mem_support_iff, Monomial.toExponents_apply]
    exact hv.ne'
  · rintro ⟨e, he, hv⟩
    obtain ⟨t, ht, rfl⟩ := mem_support_iff.1 he
    rw [Finsupp.mem_support_iff, Monomial.toExponents_apply] at hv
    exact ⟨t, ht, Nat.pos_of_ne_zero hv⟩

theorem sorted_insertVar : ∀ {l : List Var}, l.Pairwise (· < ·) → (insertVar v l).Pairwise (· < ·)
  | [], _ => List.pairwise_singleton _ v
  | u :: rest, h => by
    obtain ⟨hu, hrest⟩ := List.pairwise_cons.1 h
    unfold insertVar
    split
    next hlt =>
      refine List.pairwise_cons.2 ⟨fun w hw => ?_, h⟩
      rcases List.mem_cons.1 hw with rfl | hw
      · exact hlt
      · exact UInt32.lt_trans hlt (hu w hw)
    next hlt =>
      split
      next => exact h
      next hne =>
        refine List.pairwise_cons.2 ⟨fun w hw => ?_, sorted_insertVar hrest⟩
        rcases mem_insertVar.1 hw with rfl | hw
        · exact UInt32.lt_of_le_of_ne (UInt32.not_lt.1 hlt) (Ne.symm hne)
        · exact hu w hw

theorem sorted_foldr_insertVar {l : List Var} (hl : l.Pairwise (· < ·)) : ∀ vs : List Var,
    (vs.foldr insertVar l).Pairwise (· < ·)
  | [] => hl
  | _ :: vs => sorted_insertVar (sorted_foldr_insertVar hl vs)

/-- The variables are listed in ascending order, each once. -/
theorem sorted_vars (p : MvPoly) : p.vars.Pairwise (· < ·) := by
  unfold vars
  induction p.terms with
  | nil => exact .nil
  | cons t ts ih => exact sorted_foldr_insertVar ih _

theorem nodup_vars (p : MvPoly) : p.vars.Nodup :=
  p.sorted_vars.imp fun h => UInt32.ne_of_lt h

/-! ## Degree and coefficients -/

theorem le_degree {t : Term} (ht : t ∈ p.terms) : t.monomial.degree v ≤ p.degree v := by
  unfold degree
  generalize p.terms = ts at ht
  induction ts with
  | nil => exact absurd ht List.not_mem_nil
  | cons u us ih =>
    rcases List.mem_cons.1 ht with rfl | ht
    · exact le_max_left _ _
    · exact (ih ht).trans (le_max_right _ _)

/-- A positive degree is taken by some term. -/
theorem exists_of_degree_pos (h : 0 < p.degree v) :
    ∃ t ∈ p.terms, t.monomial.degree v = p.degree v := by
  unfold degree at h ⊢
  generalize p.terms = ts at h ⊢
  induction ts with
  | nil => exact absurd h (lt_irrefl 0)
  | cons u us ih =>
    rw [List.foldr_cons] at h ⊢
    rcases le_total (us.foldr (fun t d => max (t.monomial.degree v) d) 0) (u.monomial.degree v)
      with hle | hle
    · rw [max_eq_left hle]
      exact ⟨u, List.mem_cons_self, rfl⟩
    · rw [max_eq_right hle] at h ⊢
      obtain ⟨t, ht, heq⟩ := ih h
      exact ⟨t, List.mem_cons_of_mem u ht, heq⟩

/-- The terms with the power `k` of `v`, without that power. -/
theorem coeff_inVar_termsPolynomial (v : Var) (k : ℕ) : ∀ ts : List Term,
    (inVar v (termsPolynomial ts)).coeff k
      = termsPolynomial ((ts.filter fun t => t.monomial.degree v = k).map fun t =>
        ⟨t.coeff, t.monomial.without v⟩)
  | [] => by
    rw [show termsPolynomial [] = 0 from rfl, map_zero, Polynomial.coeff_zero]
    rfl
  | t :: ts => by
    have ih := coeff_inVar_termsPolynomial v k ts
    show (inVar v (t.toPolynomial + termsPolynomial ts)).coeff k = _
    rw [map_add, Polynomial.coeff_add, ih, Term.toPolynomial, inVar_monomial,
      Polynomial.coeff_monomial, Monomial.toExponents_apply]
    by_cases h : t.monomial.degree v = k
    · rw [if_pos h, List.filter_cons_of_pos (by simpa using h), List.map_cons,
        ← Monomial.toExponents_without]
      rfl
    · rw [if_neg h, List.filter_cons_of_neg (by simpa using h), zero_add]

/-- A coefficient in one variable is the coefficient of the polynomial seen in that variable. -/
theorem toPolynomial_coeff (p : MvPoly) (v : Var) (k : ℕ) :
    (p.coeff v k).toPolynomial = (inVar v p.toPolynomial).coeff k := by
  rw [coeff, toPolynomial_ofTerms, toPolynomial, coeff_inVar_termsPolynomial]

/-- A coefficient has fewer variables. -/
theorem mem_vars_of_mem_vars_coeff {k : ℕ} (h : w ∈ (p.coeff v k).vars) : w ∈ p.vars ∧ w ≠ v := by
  rw [mem_vars_iff, toPolynomial_coeff] at h
  rw [mem_vars_iff]
  exact mem_vars_coeff_inVar v h

/-- The degree in a variable. -/
theorem natDegree_inVar (p : MvPoly) (v : Var) :
    (inVar v p.toPolynomial).natDegree = p.degree v := by
  refine le_antisymm (Polynomial.natDegree_le_iff_coeff_eq_zero.2 fun k hk => ?_) ?_
  · rw [toPolynomial, coeff_inVar_termsPolynomial, List.filter_eq_nil_iff.2]
    · rfl
    · intro t ht
      rw [decide_eq_true_iff]
      exact ((le_degree ht).trans_lt hk).ne
  · rcases Nat.eq_zero_or_pos (p.degree v) with h0 | hpos
    · rw [h0]
      exact Nat.zero_le _
    · obtain ⟨t, ht, heq⟩ := exists_of_degree_pos hpos
      rw [← heq]
      refine Polynomial.le_natDegree_of_ne_zero fun hzero => p.nonzero t ht ?_
      have hcoeff := coeff_coeff_inVar v p.toPolynomial (t.monomial.degree v)
        (t.monomial.toExponents.erase v)
      rw [hzero, coeff_zero, if_pos Finsupp.erase_same, ← Monomial.toExponents_apply,
        Finsupp.erase_add_single, coeff_toPolynomial_of_mem ht] at hcoeff
      exact hcoeff.symm

/-- There is nothing above the degree. -/
theorem coeff_eq_zero_of_degree_lt {k : ℕ} (h : p.degree v < k) : p.coeff v k = zero := by
  rw [← isZero_iff, ← toPolynomial_eq_zero_iff, toPolynomial_coeff]
  exact Polynomial.coeff_eq_zero_of_natDegree_lt (by rwa [natDegree_inVar])

/-- All coefficients at once are the coefficients one by one. -/
theorem getD_coefficients (p : MvPoly) (v : Var) (k : ℕ) :
    (p.coefficients v).getD k zero = p.coeff v k := by
  by_cases hk : k < p.degree v + 1
  · rw [coefficients, List.getD_eq_getElem _ _ (by simpa using hk), List.getElem_map,
      List.getElem_range]
  · rw [coefficients, List.getD_eq_default _ _ (by simpa using hk)]
    exact (coeff_eq_zero_of_degree_lt (by omega)).symm

/-- Values of variables that do not occur do not matter. -/
theorem aeval_congr {A : Type*} [CommRing A] [Algebra ℚ A] {σ τ : Var → A}
    (h : ∀ v ∈ p.vars, σ v = τ v) : aeval σ p.toPolynomial = aeval τ p.toPolynomial :=
  MvPolynomial.eval₂Hom_congr' rfl (fun v hv _ => h v (mem_vars_iff.2 hv)) rfl

/-- Values that agree but for the variable whose value is put in. -/
theorem aeval_eq_aeval_update {A : Type*} [CommRing A] [Algebra ℚ A] {σ τ : Var → A} {v : Var}
    {z : A} (hv : σ v = z) (h : ∀ w ∈ p.vars, w ≠ v → σ w = τ w) :
    aeval σ p.toPolynomial = aeval (Function.update τ v z) p.toPolynomial := by
  refine aeval_congr fun w hw => ?_
  by_cases hwv : w = v
  · rw [hwv, hv, Function.update_self]
  · rw [Function.update_of_ne hwv, h w hw hwv]

/-! ## Constants -/

/-- A constant polynomial is its value. -/
theorem toPolynomial_of_isConstant (h : p.isConstant = true) :
    p.toPolynomial = C p.constantValue := by
  unfold isConstant at h
  unfold constantValue toPolynomial
  have hunit : ∀ t ∈ p.terms, t.monomial = .unit := fun t ht =>
    Monomial.toExponents_injective (Monomial.isUnit_iff.1 (List.all_eq_true.1 h t ht))
  have hsorted := p.sorted
  revert hunit hsorted
  cases p.terms with
  | nil => exact fun _ _ => (map_zero C).symm
  | cons t ts =>
    intro hunit hsorted
    have ht := hunit t List.mem_cons_self
    have hnil : ts = [] := by
      refine List.eq_nil_iff_forall_not_mem.2 fun u hu => ?_
      have hgt := (List.pairwise_cons.1 hsorted).1 u hu
      rw [ht, hunit u (List.mem_cons_of_mem t hu), Monomial.compare_self] at hgt
      cases hgt
    rw [hnil, List.find?_cons_of_pos (by rw [ht]; rfl)]
    show t.toPolynomial + 0 = C t.coeff
    rw [add_zero, Term.toPolynomial, ht]
    rfl

/-- Constants are the polynomials without variables. -/
theorem isConstant_iff : p.isConstant = true ↔ p.vars = [] := by
  unfold isConstant
  rw [List.all_eq_true, List.eq_nil_iff_forall_not_mem]
  constructor
  · intro h v hv
    obtain ⟨t, ht, hpos⟩ := mem_vars_iff_exists.1 hv
    rw [← Monomial.toExponents_apply, Monomial.isUnit_iff.1 (h t ht)] at hpos
    exact lt_irrefl 0 hpos
  · intro h t ht
    refine Monomial.isUnit_iff.2 (Finsupp.ext fun v => ?_)
    rw [Monomial.toExponents_apply]
    exact Nat.eq_zero_of_not_pos fun hpos => h v (mem_vars_iff_exists.2 ⟨t, ht, hpos⟩)

/-! ## Rational values -/

/-- A rational in the place of a variable. -/
theorem toPolynomial_evalAt (p : MvPoly) (v : Var) (q : ℚ) :
    (p.evalAt v q).toPolynomial = (inVar v p.toPolynomial).eval (C q) := by
  rw [evalAt, toPolynomial_ofTerms]
  refine termsPolynomial_map
    ((Polynomial.evalRingHom (C q)).comp (inVar v).toRingHom).toAddMonoidHom (fun t => ?_) p.terms
  show monomial (t.monomial.without v).toExponents (t.coeff * q ^ t.monomial.degree v)
    = (inVar v t.toPolynomial).eval (C q)
  rw [Term.toPolynomial, inVar_monomial, Polynomial.eval_monomial, Monomial.toExponents_without,
    Monomial.toExponents_apply, ← C_pow, mul_comm, mul_comm (monomial _ _), C_mul_monomial]

/-- And a value for the others. -/
theorem aeval_evalAt {A : Type*} [CommRing A] [Algebra ℚ A] (p : MvPoly) (v : Var) (q : ℚ)
    (σ : Var → A) : aeval σ (p.evalAt v q).toPolynomial
      = aeval (Function.update σ v (algebraMap ℚ A q)) p.toPolynomial := by
  have hq : (aeval σ : MvPolynomial Var ℚ →ₐ[ℚ] A).toRingHom (C q) = algebraMap ℚ A q :=
    aeval_C σ q
  rw [toPolynomial_evalAt, ← eval₂_inVar, ← hq, Polynomial.eval₂_at_apply]
  rfl

/-- The variable is gone, and no other one has come. -/
theorem mem_vars_of_mem_vars_evalAt {q : ℚ} (h : w ∈ (p.evalAt v q).vars) : w ∈ p.vars ∧ w ≠ v := by
  rw [mem_vars_iff, MvPolynomial.mem_vars_iff_mem_support] at h
  obtain ⟨e, he, hw⟩ := h
  rw [evalAt, toPolynomial_ofTerms] at he
  obtain ⟨t, ht, rfl⟩ := exists_of_mem_support he
  obtain ⟨u, hu, rfl⟩ := List.mem_map.1 ht
  rw [Monomial.toExponents_without, Finsupp.support_erase, Finset.mem_erase,
    Finsupp.mem_support_iff, Monomial.toExponents_apply] at hw
  exact ⟨mem_vars_iff_exists.2 ⟨u, hu, Nat.pos_of_ne_zero hw.2⟩, hw.1⟩

/-! ## Polynomials in the place of a variable -/

/-- Horner's scheme over the coefficients gives the value of the polynomial in `v` at `r`. -/
theorem toPolynomial_substitute (p : MvPoly) (v : Var) (r : MvPoly) :
    (p.substitute v r).toPolynomial = (inVar v p.toPolynomial).eval r.toPolynomial := by
  have hhorner : ∀ (n : ℕ) (c : ℕ → MvPoly),
      (((List.range n).map c).foldr (fun c acc => (acc.mul r).add c) zero).toPolynomial
        = ∑ k ∈ Finset.range n, (c k).toPolynomial * r.toPolynomial ^ k := by
    intro n
    induction n with
    | zero =>
      intro c
      rfl
    | succ n ih =>
      intro c
      rw [List.range_succ_eq_map, List.map_cons, List.map_map, List.foldr_cons, toPolynomial_add,
        toPolynomial_mul, ih, Finset.sum_range_succ', Finset.sum_mul, pow_zero, mul_one]
      congr 1
      refine Finset.sum_congr rfl fun k _ => ?_
      rw [pow_succ, mul_assoc]
      rfl
  rw [substitute, coefficients, hhorner, Polynomial.eval_eq_sum_range, natDegree_inVar]
  refine Finset.sum_congr rfl fun k _ => ?_
  rw [toPolynomial_coeff]

/-- The value of `r` in the place of `v`, even if `v` occurs in `r`. -/
theorem aeval_substitute {A : Type*} [CommRing A] [Algebra ℚ A] (p : MvPoly) (v : Var)
    (r : MvPoly) (σ : Var → A) : aeval σ (p.substitute v r).toPolynomial
      = aeval (Function.update σ v (aeval σ r.toPolynomial)) p.toPolynomial := by
  rw [toPolynomial_substitute, ← eval₂_inVar]
  exact (Polynomial.eval₂_at_apply (aeval σ : MvPolynomial Var ℚ →ₐ[ℚ] A).toRingHom
    r.toPolynomial).symm

/-- The variable is gone, and only those of `r` have come. -/
theorem mem_vars_of_mem_vars_substitute {r : MvPoly} (h : w ∈ (p.substitute v r).vars) :
    (w ∈ p.vars ∧ w ≠ v) ∨ w ∈ r.vars := by
  rw [mem_vars_iff, toPolynomial_substitute, Polynomial.eval_eq_sum_range] at h
  obtain ⟨k, -, hk⟩ := Finset.mem_biUnion.1 (vars_sum_subset _ _ h)
  rcases Finset.mem_union.1 (vars_mul _ _ hk) with hc | hr
  · obtain ⟨hp, hv⟩ := mem_vars_coeff_inVar v hc
    exact .inl ⟨mem_vars_iff.2 hp, hv⟩
  · exact .inr (mem_vars_iff.2 (vars_pow _ _ hr))

end MvPoly

end AlgebraicReal
