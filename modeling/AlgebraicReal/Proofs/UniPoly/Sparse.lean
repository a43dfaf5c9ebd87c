import AlgebraicReal.Proofs.MvPoly.Division
import AlgebraicReal.Proofs.UniPoly.Polynomial
import AlgebraicReal.UniPoly.Sparse

/-!
# Dense polynomials among the sparse ones

A dense polynomial read as a sparse one is the same polynomial in its variable, and a sparse
polynomial without other variables is read back as a dense one (`exists_toUniPoly`).
-/

open MvPolynomial

namespace AlgebraicReal

/-! ## From dense to sparse -/

/-- The sparse form of a polynomial in one variable stands for the same polynomial. -/
theorem UniPoly.toPolynomial_toMvPoly (u : UniPoly) :
    u.toMvPoly.toPolynomial = Polynomial.aeval (X u.var) u.toPolynomial := by
  have h : ∀ (cs : List ℚ) (k : ℕ), MvPoly.termsPolynomial
      ((cs.zipIdx k).map fun c => ⟨c.1, .power u.var c.2⟩)
        = X u.var ^ k * Polynomial.aeval (X u.var) (UniPoly.coeffsPolynomial cs) := by
    intro cs
    induction cs with
    | nil =>
      intro k
      rw [show UniPoly.coeffsPolynomial [] = 0 from rfl, map_zero, mul_zero]
      rfl
    | cons c cs ih =>
      intro k
      rw [List.zipIdx_cons, List.map_cons, UniPoly.coeffsPolynomial_cons, map_add, map_mul,
        Polynomial.aeval_X, Polynomial.aeval_C, mul_add]
      show Term.toPolynomial _ + MvPoly.termsPolynomial _ = _
      rw [ih (k + 1), Term.toPolynomial, Monomial.toExponents_power, MvPolynomial.algebraMap_eq,
        ← C_mul_X_pow_eq_monomial, pow_succ]
      ring
  unfold UniPoly.toMvPoly MvPoly.ofCoeffs
  rw [MvPoly.toPolynomial_ofTerms, h, pow_zero, one_mul]
  rfl

/-- Seen in its variable, its coefficients are constants. -/
theorem inVar_toMvPoly {u : UniPoly} {v : Var} (hv : u.var = v) :
    inVar v u.toMvPoly.toPolynomial = u.toPolynomial.map C := by
  subst hv
  rw [UniPoly.toPolynomial_toMvPoly, ← Polynomial.aeval_algHom_apply, inVar_X_self,
    Polynomial.aeval_X_left_eq_map]
  rfl

theorem degree_toMvPoly {u : UniPoly} {v : Var} (hv : u.var = v) :
    u.toMvPoly.degree v = u.degree := by
  rw [← MvPoly.natDegree_inVar, inVar_toMvPoly hv,
    Polynomial.natDegree_map_eq_of_injective (C_injective Var ℚ), UniPoly.natDegree_toPolynomial]

theorem toMvPoly_ne_zero {u : UniPoly} (hu : u.toPolynomial ≠ 0) : u.toMvPoly.toPolynomial ≠ 0 := by
  intro h
  have hmap := inVar_toMvPoly (u := u) rfl
  rw [h, map_zero, eq_comm, Polynomial.map_eq_zero_iff (C_injective Var ℚ)] at hmap
  exact hu hmap

/-- It has no other variable. -/
theorem toMvPoly_mem_polynomialsIn {u : UniPoly} {vs : List Var} (h : u.var ∈ vs) :
    u.toMvPoly.toPolynomial ∈ polynomialsIn vs := by
  rw [UniPoly.toPolynomial_toMvPoly, Polynomial.aeval_eq_sum_range]
  exact sum_mem fun k _ => Subalgebra.smul_mem _ (pow_mem (X_mem_polynomialsIn h) k) _

/-! ## From sparse to dense -/

/-- A polynomial without other variables can be read as one in `v`. -/
theorem MvPoly.exists_toUniPoly {p : MvPoly} {v : Var} (h : ∀ w ∈ p.vars, w = v) :
    ∃ u, p.toUniPoly v = .ok u ∧ p.toPolynomial = Polynomial.aeval (X v) u.toPolynomial := by
  have hfind : p.vars.find? (· ≠ v) = none := by
    rw [List.find?_eq_none]
    intro w hw
    simpa using h w hw
  refine ⟨_, by rw [toUniPoly, hfind], ?_⟩
  have hconst : ∀ k, (p.coeff v k).toPolynomial = C (p.coeff v k).constantValue := by
    intro k
    refine toPolynomial_of_isConstant (isConstant_iff.2 (List.eq_nil_iff_forall_not_mem.2 ?_))
    intro w hw
    obtain ⟨hwp, hwv⟩ := mem_vars_of_mem_vars_coeff hw
    exact hwv (h w hwp)
  have hmap : inVar v p.toPolynomial
      = (UniPoly.ofCoeffs v ((p.coefficients v).map (·.constantValue))).toPolynomial.map C := by
    refine Polynomial.ext fun k => ?_
    rw [← toPolynomial_coeff, hconst, Polynomial.coeff_map, UniPoly.toPolynomial_ofCoeffs,
      UniPoly.coeff_coeffsPolynomial, ← getD_coefficients]
    exact congrArg C (List.getD_map _ zero (·.constantValue)).symm
  rw [← Polynomial.eval_map_algebraMap, MvPolynomial.algebraMap_eq, ← hmap, eval_X_inVar]

/-- No other variable occurs in what is read as a dense polynomial. -/
theorem MvPoly.eq_of_mem_vars {p : MvPoly} {v w : Var} {u : UniPoly} (h : p.toUniPoly v = .ok u)
    (hw : w ∈ p.vars) : w = v := by
  unfold toUniPoly at h
  cases hfind : p.vars.find? (· ≠ v) with
  | some w' =>
    rw [hfind] at h
    cases h
  | none => simpa using List.find?_eq_none.1 hfind w hw

/-- The dense form exists if there is no other variable. -/
theorem MvPoly.exists_toUniPoly_iff {p : MvPoly} {v : Var} :
    (∃ u, p.toUniPoly v = .ok u) ↔ ∀ w ∈ p.vars, w = v := by
  constructor
  · intro h w hw
    obtain ⟨u, hu⟩ := h
    exact eq_of_mem_vars hu hw
  · intro h
    obtain ⟨u, hu, -⟩ := exists_toUniPoly h
    exact ⟨u, hu⟩

/-- What is read as a dense polynomial is the polynomial. -/
theorem MvPoly.eq_of_toUniPoly {p : MvPoly} {v : Var} {u : UniPoly} (h : p.toUniPoly v = .ok u) :
    p.toPolynomial = Polynomial.aeval (X v) u.toPolynomial := by
  obtain ⟨u', hu', heq⟩ := exists_toUniPoly fun _ => eq_of_mem_vars h
  rw [h] at hu'
  cases hu'
  exact heq

/-- Only a polynomial without other variables is read as a dense one, and reading that one as a sparse
polynomial again gives it back. -/
theorem MvPoly.eq_toMvPoly_of_toUniPoly {p : MvPoly} {v : Var} {u : UniPoly}
    (h : p.toUniPoly v = .ok u) : u.var = v ∧ p = u.toMvPoly := by
  have hvar : u.var = v := by
    unfold toUniPoly at h
    split at h
    next => cases h
    next =>
      cases h
      rfl
  refine ⟨hvar, toPolynomial_injective ?_⟩
  rw [eq_of_toUniPoly h, UniPoly.toPolynomial_toMvPoly, hvar]

/-- A dense polynomial is read back from the sparse one. -/
theorem MvPoly.toUniPoly_toMvPoly (u : UniPoly) : u.toMvPoly.toUniPoly u.var = .ok u := by
  have hmem : u.toMvPoly.toPolynomial ∈ polynomialsIn [u.var] :=
    toMvPoly_mem_polynomialsIn (List.mem_singleton.2 rfl)
  obtain ⟨u', hu', -⟩ := exists_toUniPoly fun w hw =>
    List.mem_singleton.1 (mem_polynomialsIn_iff.1 hmem w hw)
  obtain ⟨hvar, heq⟩ := eq_toMvPoly_of_toUniPoly hu'
  have hmap := inVar_toMvPoly (u := u) rfl
  rw [heq, inVar_toMvPoly hvar] at hmap
  have hcoeffs := UniPoly.coeffs_eq_of_toPolynomial_eq
    (Polynomial.map_injective C (C_injective Var ℚ) hmap)
  rw [hu', UniPoly.ext hvar hcoeffs]

/-- Of the variables in increasing order the least one with a property is found. -/
theorem MvPoly.isLeast_of_find?_vars {p : MvPoly} {P : Var → Bool} {w : Var}
    (h : p.vars.find? P = some w) : IsLeast {u | u ∈ p.vars ∧ P u = true} w := by
  obtain ⟨hw, as, bs, hvars, has⟩ := List.find?_eq_some_iff_append.1 h
  have hsorted := p.sorted_vars
  rw [hvars] at hsorted ⊢
  refine ⟨⟨List.mem_append_right as List.mem_cons_self, hw⟩, ?_⟩
  intro u hu
  rcases List.mem_append.1 hu.1 with hmem | hmem
  · -- no entry before the first one found has the property
    have hnot := has u hmem
    rw [hu.2] at hnot
    cases hnot
  · rcases List.mem_cons.1 hmem with rfl | hmem
    · exact UInt32.le_refl u
    · have hbs := (List.pairwise_append.1 hsorted).2.1
      exact UInt32.le_of_lt ((List.pairwise_cons.1 hbs).1 u hmem)

/-- The only error names the least other variable. -/
theorem MvPoly.toUniPoly_eq_error {p : MvPoly} {v : Var} {e : Error}
    (h : p.toUniPoly v = .error e) :
    ∃ w, e = .notUnivariate v w ∧ IsLeast {w | w ∈ p.vars ∧ w ≠ v} w := by
  unfold toUniPoly at h
  split at h
  next w hw =>
    cases h
    have hleast := isLeast_of_find?_vars hw
    simp only [decide_eq_true_eq] at hleast
    exact ⟨w, rfl, hleast⟩
  next => cases h

/-- Values of a polynomial that has been read as a dense one. -/
theorem MvPoly.aeval_of_toUniPoly {p : MvPoly} {v : Var} {u : UniPoly}
    (h : p.toPolynomial = Polynomial.aeval (X v) u.toPolynomial) {A : Type*} [CommRing A]
    [Algebra ℚ A] (σ : Var → A) :
    aeval σ p.toPolynomial = Polynomial.aeval (σ v) u.toPolynomial := by
  rw [h, ← Polynomial.aeval_algHom_apply, aeval_X]

theorem eval_toMvPoly (u : UniPoly) (x : Var → ℚ) :
    eval x u.toMvPoly.toPolynomial = u.eval (x u.var) := by
  have h := MvPoly.aeval_of_toUniPoly (UniPoly.toPolynomial_toMvPoly u) x
  rwa [Polynomial.coe_aeval_eq_eval, UniPoly.eval_toPolynomial, aeval_eq_eval] at h

/-- At a rational it is the constant value. -/
theorem evalAt_toMvPoly (u : UniPoly) (c : ℚ) :
    u.toMvPoly.evalAt u.var c = MvPoly.constant (u.eval c) := by
  refine MvPoly.toPolynomial_injective ?_
  rw [MvPoly.toPolynomial_evalAt, inVar_toMvPoly rfl, Polynomial.eval_map,
    Polynomial.eval₂_at_apply, UniPoly.eval_toPolynomial, MvPoly.toPolynomial_constant]

end AlgebraicReal
