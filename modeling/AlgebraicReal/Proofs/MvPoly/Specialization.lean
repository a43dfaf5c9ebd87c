import AlgebraicReal.Proofs.Interval
import AlgebraicReal.Proofs.MvPoly.Variables
import AlgebraicReal.Isolator

/-!
# The polynomial in one variable that is left

If all variables but `v` have real values, a polynomial becomes one in `v` over the reals
(`MvPoly.specialize`). Its coefficients are the values of the coefficients, and dropping powers
whose coefficients vanish does not change it.
-/

open MvPolynomial

namespace AlgebraicReal.MvPoly

variable {p : MvPoly} {v w : Var} {a : Var → ℝ}

/-- The polynomial in `v` when the other variables have the given values. -/
noncomputable def specialize (p : MvPoly) (v : Var) (a : Var → ℝ) : Polynomial ℝ :=
  (inVar v p.toPolynomial).map (aeval a : MvPolynomial Var ℚ →ₐ[ℚ] ℝ).toRingHom

/-- The value at a real is that of the polynomial with the real for the variable. -/
theorem eval_specialize (p : MvPoly) (v : Var) (a : Var → ℝ) (y : ℝ) :
    (p.specialize v a).eval y = aeval (Function.update a v y) p.toPolynomial :=
  eval_map_inVar v a y p.toPolynomial

/-- The coefficients are the values of the coefficients. -/
theorem coeff_specialize (p : MvPoly) (v : Var) (a : Var → ℝ) (k : ℕ) :
    (p.specialize v a).coeff k = aeval a (p.coeff v k).toPolynomial := by
  rw [specialize, Polynomial.coeff_map, toPolynomial_coeff]
  rfl

/-- Above the degree the coefficients vanish. -/
theorem coeff_specialize_of_degree_lt {k : ℕ} (h : p.degree v < k) :
    (p.specialize v a).coeff k = 0 := by
  rw [coeff_specialize, coeff_eq_zero_of_degree_lt h, toPolynomial_zero, map_zero]

/-! ## Truncation -/

/-- Coefficients up to the bound are kept, the others are gone. -/
theorem coeff_inVar_truncate (p : MvPoly) (v : Var) (d k : ℕ) :
    (inVar v (p.truncate v d).toPolynomial).coeff k
      = if k ≤ d then (inVar v p.toPolynomial).coeff k else 0 := by
  rw [truncate, toPolynomial_ofTerms, toPolynomial, coeff_inVar_termsPolynomial,
    coeff_inVar_termsPolynomial, List.filter_filter]
  split
  next h =>
    congr 2
    refine List.filter_congr fun t _ => ?_
    rw [Bool.and_eq_left_iff_imp, decide_eq_true_iff, decide_eq_true_iff]
    rintro rfl
    exact h
  next h =>
    rw [List.filter_eq_nil_iff.2]
    · rfl
    · intro t _ ht
      rw [Bool.and_eq_true, decide_eq_true_iff, decide_eq_true_iff] at ht
      exact h (ht.1 ▸ ht.2)

/-- Only powers whose coefficients vanish are dropped. -/
theorem specialize_truncate {d : ℕ} (h : (p.specialize v a).natDegree ≤ d) :
    (p.truncate v d).specialize v a = p.specialize v a := by
  refine Polynomial.ext fun k => ?_
  have hcoeff : ((p.truncate v d).specialize v a).coeff k
      = aeval a ((inVar v (p.truncate v d).toPolynomial).coeff k) := Polynomial.coeff_map _ _
  rw [hcoeff, coeff_inVar_truncate]
  split
  next => exact (Polynomial.coeff_map _ _).symm
  next hk => rw [map_zero, Polynomial.coeff_eq_zero_of_natDegree_lt (by omega)]

/-- No variable is new. -/
theorem mem_vars_of_mem_vars_truncate {d : ℕ} (h : w ∈ (p.truncate v d).vars) : w ∈ p.vars := by
  rw [mem_vars_iff, MvPolynomial.mem_vars_iff_mem_support] at h
  obtain ⟨e, he, hw⟩ := h
  rw [truncate, toPolynomial_ofTerms] at he
  obtain ⟨t, ht, rfl⟩ := exists_of_mem_support he
  rw [Finsupp.mem_support_iff, Monomial.toExponents_apply] at hw
  exact mem_vars_iff_exists.2 ⟨t, (List.mem_filter.1 ht).1, Nat.pos_of_ne_zero hw⟩

end AlgebraicReal.MvPoly
