import AlgebraicReal.Proofs.Interval
import AlgebraicReal.UniPoly.Division

/-!
# Dense polynomials as polynomials over the rationals and the reals

`UniPoly.toPolynomial` reads the coefficient list of a dense polynomial as an element of `ℚ[X]`, and
`UniPoly.overReal` takes it on to `ℝ[X]`, where its roots live. Every operation on coefficient lists
is an operation of the polynomial ring under this reading; trimming is invisible to it. The variable
that a dense polynomial carries takes no part.
-/

open Polynomial

namespace AlgebraicReal.UniPoly

/-- The polynomial with the listed coefficients, the constant one first. -/
noncomputable def coeffsPolynomial : List ℚ → ℚ[X]
  | [] => 0
  | c :: cs => coeffsPolynomial cs * X + C c

/-- The polynomial over the rationals that a dense polynomial stands for. -/
noncomputable def toPolynomial (p : UniPoly) : ℚ[X] := coeffsPolynomial p.coeffs

/-- The same polynomial over the reals. -/
noncomputable def overReal (p : UniPoly) : ℝ[X] := p.toPolynomial.map (algebraMap ℚ ℝ)

/-! ## Coefficient lists -/

theorem coeffsPolynomial_cons (c : ℚ) (cs : List ℚ) :
    coeffsPolynomial (c :: cs) = coeffsPolynomial cs * X + C c := rfl

/-- The entries of the list are the coefficients. -/
theorem coeff_coeffsPolynomial : ∀ (cs : List ℚ) (k : ℕ),
    (coeffsPolynomial cs).coeff k = cs.getD k 0
  | [], k => by simp [coeffsPolynomial]
  | c :: cs, 0 => by simp [coeffsPolynomial]
  | c :: cs, k + 1 => by
    rw [coeffsPolynomial_cons, coeff_add, coeff_mul_X, coeff_C_succ, add_zero,
      coeff_coeffsPolynomial cs k, List.getD_cons_succ]

/-- Zeros at the end are not seen by the polynomial. -/
theorem coeffsPolynomial_consTrim (c : ℚ) (cs : List ℚ) :
    coeffsPolynomial (consTrim c cs) = coeffsPolynomial cs * X + C c := by
  unfold consTrim
  split
  next h =>
    rw [h.1, h.2]
    simp [coeffsPolynomial]
  next => rfl

/-- Zeros at the end of the list add nothing. -/
theorem coeffsPolynomial_trim : ∀ cs : List ℚ, coeffsPolynomial (trim cs) = coeffsPolynomial cs
  | [] => rfl
  | c :: cs => by
    show coeffsPolynomial (consTrim c (trim cs)) = _
    rw [coeffsPolynomial_consTrim, coeffsPolynomial_trim cs, coeffsPolynomial_cons]

/-- Horner's scheme. -/
theorem eval_coeffsPolynomial (x : ℚ) : ∀ cs : List ℚ,
    (coeffsPolynomial cs).eval x = evalCoeffs cs x
  | [] => by simp [coeffsPolynomial, evalCoeffs]
  | c :: cs => by
    rw [coeffsPolynomial_cons, eval_add, eval_mul, eval_X, eval_C, eval_coeffsPolynomial x cs,
      evalCoeffs_cons]

/-- A list of the coefficients of degree below `n` ends with the coefficient of degree `n - 1`. -/
theorem natDegree_coeffsPolynomial {cs : List ℚ} (h : cs.getLast? ≠ some 0) :
    (coeffsPolynomial cs).natDegree = cs.length - 1 := by
  cases cs with
  | nil => simp [coeffsPolynomial]
  | cons c ds =>
    have hlast : (coeffsPolynomial (c :: ds)).coeff ds.length ≠ 0 := by
      rw [coeff_coeffsPolynomial, List.getD_eq_getElem?_getD]
      intro h0
      apply h
      rw [List.getLast?_eq_getElem?]
      have hlt : ds.length < (c :: ds).length := by simp
      rw [List.getElem?_eq_getElem hlt] at h0
      show (c :: ds)[ds.length]? = some 0
      rw [List.getElem?_eq_getElem hlt]
      exact congrArg some h0
    refine le_antisymm ?_ (le_natDegree_of_ne_zero hlast)
    refine natDegree_le_iff_coeff_eq_zero.2 fun k hk => ?_
    rw [coeff_coeffsPolynomial]
    exact List.getD_eq_default _ _ hk

/-! ## The polynomial of a dense polynomial -/

theorem toPolynomial_ofCoeffs (v : Var) (cs : List ℚ) :
    (ofCoeffs v cs).toPolynomial = coeffsPolynomial cs := coeffsPolynomial_trim cs

/-- What is beyond the list is zero. -/
theorem coeff_toPolynomial (p : UniPoly) (k : ℕ) : p.toPolynomial.coeff k = p.coeffs.getD k 0 :=
  coeff_coeffsPolynomial _ _

/-- The last coefficient of a list is not zero, so the length gives the degree. -/
theorem natDegree_toPolynomial (p : UniPoly) : p.toPolynomial.natDegree = p.degree :=
  natDegree_coeffsPolynomial p.trimmed

theorem ne_zero_of_degree_pos {p : UniPoly} (hdeg : 0 < p.degree) : p.toPolynomial ≠ 0 := by
  intro h
  rw [← natDegree_toPolynomial, h, natDegree_zero] at hdeg
  exact lt_irrefl 0 hdeg

/-- Dense polynomials with the same polynomial have the same coefficients. -/
theorem coeffs_eq_of_toPolynomial_eq {p q : UniPoly} (h : p.toPolynomial = q.toPolynomial) :
    p.coeffs = q.coeffs := by
  -- two trimmed lists of the same entries: the longer one would end in a zero
  have key : ∀ {cs ds : List ℚ}, cs.getLast? ≠ some 0 → (∀ k, cs.getD k 0 = ds.getD k 0) →
      cs.length ≤ ds.length := by
    intro cs ds hcs hk
    by_contra hlt
    push Not at hlt
    apply hcs
    have hpos : cs.length - 1 < cs.length := by omega
    rw [List.getLast?_eq_getElem?, List.getElem?_eq_getElem hpos, Option.some.injEq]
    have := hk (cs.length - 1)
    rw [List.getD_eq_default ds _ (by omega), List.getD_eq_getElem _ _ hpos] at this
    exact this
  have hk : ∀ k, p.coeffs.getD k 0 = q.coeffs.getD k 0 := fun k => by
    rw [← coeff_toPolynomial, ← coeff_toPolynomial, h]
  have hlen : p.coeffs.length = q.coeffs.length :=
    le_antisymm (key p.trimmed hk) (key q.trimmed fun k => (hk k).symm)
  refine List.ext_getElem hlen fun k h₁ h₂ => ?_
  rw [← List.getD_eq_getElem _ 0 h₁, ← List.getD_eq_getElem _ 0 h₂, hk k]

/-- Only the empty list is the zero polynomial. -/
theorem toPolynomial_eq_zero_iff {p : UniPoly} : p.toPolynomial = 0 ↔ p.isZero = true := by
  rw [isZero_iff]
  constructor
  · intro h
    exact coeffs_eq_of_toPolynomial_eq (q := zero p.var) h
  · intro h
    unfold toPolynomial
    rw [h]
    rfl

theorem toPolynomial_ne_zero_iff {p : UniPoly} : p.toPolynomial ≠ 0 ↔ ¬p.isZero = true :=
  not_congr toPolynomial_eq_zero_iff

/-- The leading coefficient is the last of the list. -/
theorem leadingCoeff_toPolynomial (p : UniPoly) : p.toPolynomial.leadingCoeff = p.leadingCoeff := by
  rw [Polynomial.leadingCoeff, natDegree_toPolynomial, coeff_toPolynomial]
  unfold degree leadingCoeff
  rw [List.getLastD_eq_getLast?, List.getLast?_eq_getElem?, List.getD_eq_getElem?_getD]

/-- Constants are the polynomials of degree zero, zero included. -/
theorem isConstant_iff_natDegree {p : UniPoly} :
    p.isConstant = true ↔ p.toPolynomial.natDegree = 0 := by
  rw [natDegree_toPolynomial]
  unfold isConstant degree
  rw [decide_eq_true_iff]
  omega

theorem eval_toPolynomial (p : UniPoly) (x : ℚ) : p.toPolynomial.eval x = p.eval x :=
  eval_coeffsPolynomial x _

theorem toPolynomial_identity (v : Var) : (identity v).toPolynomial = X := by
  unfold identity
  rw [toPolynomial_ofCoeffs]
  simp [coeffsPolynomial]

theorem constantCoeff_eq (p : UniPoly) : p.constantCoeff = p.toPolynomial.coeff 0 := by
  rw [coeff_toPolynomial]
  unfold constantCoeff
  cases p.coeffs <;> rfl

/-! ## Arithmetic -/

/-- A multiple. Zero takes all coefficients away. -/
theorem toPolynomial_scale (p : UniPoly) (c : ℚ) :
    (p.scale c).toPolynomial = C c * p.toPolynomial := by
  unfold scale
  rw [toPolynomial_ofCoeffs]
  ext k
  rw [coeff_coeffsPolynomial, coeff_C_mul, coeff_toPolynomial, List.getD_eq_getElem?_getD,
    List.getD_eq_getElem?_getD, List.getElem?_map]
  cases p.coeffs[k]? with
  | none => simp
  | some a => simp [mul_comm]

/-- Division by the leading coefficient. -/
theorem toPolynomial_normalized (p : UniPoly) :
    p.normalized.toPolynomial = C p.toPolynomial.leadingCoeff⁻¹ * p.toPolynomial := by
  rw [normalized, toPolynomial_scale, leadingCoeff_toPolynomial]

/-- Normalizing makes a nonzero polynomial monic. -/
theorem monic_normalized {p : UniPoly} (h : p.toPolynomial ≠ 0) :
    p.normalized.toPolynomial.Monic := by
  rw [toPolynomial_normalized, mul_comm]
  exact monic_mul_leadingCoeff_inv h

/-- It keeps divisors and multiples. -/
theorem associated_normalized (p : UniPoly) :
    Associated p.normalized.toPolynomial p.toPolynomial := by
  by_cases h : p.toPolynomial = 0
  · rw [toPolynomial_normalized, h, mul_zero]
  · rw [toPolynomial_normalized]
    have hc : p.toPolynomial.leadingCoeff⁻¹ ≠ 0 := inv_ne_zero (leadingCoeff_ne_zero.2 h)
    exact associated_unit_mul_left _ _ (isUnit_C.2 (isUnit_iff_ne_zero.2 hc))

/-- By recursion on both lists. -/
theorem coeffsPolynomial_addCoeffs : ∀ cs ds : List ℚ,
    coeffsPolynomial (addCoeffs cs ds) = coeffsPolynomial cs + coeffsPolynomial ds
  | [], ds => by simp [addCoeffs, coeffsPolynomial]
  | c :: cs, [] => by simp [addCoeffs, coeffsPolynomial]
  | c :: cs, d :: ds => by
    rw [addCoeffs, coeffsPolynomial_cons, coeffsPolynomial_cons, coeffsPolynomial_cons,
      coeffsPolynomial_addCoeffs cs ds, C_add]
    ring

theorem coeffsPolynomial_map_mul (c : ℚ) : ∀ ds : List ℚ,
    coeffsPolynomial (ds.map (c * ·)) = C c * coeffsPolynomial ds
  | [] => by simp [coeffsPolynomial]
  | d :: ds => by
    rw [List.map_cons, coeffsPolynomial_cons, coeffsPolynomial_cons, coeffsPolynomial_map_mul c ds,
      C_mul]
    ring

/-- The first factor is taken apart: its constant coefficient scales the second one, the rest moves
the product up by one. -/
theorem coeffsPolynomial_mulCoeffs : ∀ cs ds : List ℚ,
    coeffsPolynomial (mulCoeffs cs ds) = coeffsPolynomial cs * coeffsPolynomial ds
  | [], ds => by simp [mulCoeffs, coeffsPolynomial]
  | c :: cs, ds => by
    rw [mulCoeffs, coeffsPolynomial_addCoeffs, coeffsPolynomial_map_mul, coeffsPolynomial_cons,
      coeffsPolynomial_cons, coeffsPolynomial_mulCoeffs cs ds, C_0]
    ring

/-- The product of dense polynomials. -/
theorem toPolynomial_mul (p q : UniPoly) :
    (p.mul q).toPolynomial = p.toPolynomial * q.toPolynomial := by
  unfold UniPoly.mul
  rw [toPolynomial_ofCoeffs, coeffsPolynomial_mulCoeffs]
  rfl

theorem getD_weighted : ∀ (k : ℕ) (cs : List ℚ) (j : ℕ),
    (weighted k cs).getD j 0 = cs.getD j 0 * ((k + j : ℕ) : ℚ)
  | _, [], _ => by simp [weighted]
  | k, c :: cs, 0 => by simp [weighted]
  | k, c :: cs, j + 1 => by
    rw [weighted, List.getD_cons_succ, List.getD_cons_succ, getD_weighted (k + 1) cs j]
    congr 2
    omega

/-- The derivative weights the coefficients by their exponents. -/
theorem toPolynomial_derivative (p : UniPoly) :
    p.derivative.toPolynomial = Polynomial.derivative p.toPolynomial := by
  unfold UniPoly.derivative
  rw [toPolynomial_ofCoeffs]
  ext k
  rw [coeff_coeffsPolynomial, getD_weighted, coeff_derivative, coeff_toPolynomial]
  have htail : p.coeffs.tail.getD k 0 = p.coeffs.getD (k + 1) 0 := by
    cases p.coeffs <;> simp
  rw [htail]
  push_cast
  ring

/-- And again. -/
theorem toPolynomial_iteratedDerivative : ∀ (k : ℕ) (p : UniPoly),
    (p.iteratedDerivative k).toPolynomial = Polynomial.derivative^[k] p.toPolynomial
  | 0, _ => rfl
  | k + 1, p => by
    show (p.derivative.iteratedDerivative k).toPolynomial = _
    rw [toPolynomial_iteratedDerivative k, toPolynomial_derivative, Function.iterate_succ_apply]

/-- Every other coefficient changes its sign. -/
theorem coeffsPolynomial_alternate : ∀ cs : List ℚ,
    coeffsPolynomial (alternate cs) = (coeffsPolynomial cs).comp (-X)
  | [] => by simp [alternate, coeffsPolynomial]
  | [c] => by simp [alternate, coeffsPolynomial]
  | c :: d :: cs => by
    simp only [alternate, coeffsPolynomial_cons, coeffsPolynomial_alternate cs, add_comp, mul_comp,
      X_comp, C_comp, C_neg]
    ring

/-- Reflecting puts `-X` in the place of `X`. -/
theorem toPolynomial_reflect (p : UniPoly) : p.reflect.toPolynomial = p.toPolynomial.comp (-X) := by
  unfold reflect
  rw [toPolynomial_ofCoeffs, coeffsPolynomial_alternate]
  rfl

theorem reflect_ne_zero {p : UniPoly} (h : p.toPolynomial ≠ 0) : p.reflect.toPolynomial ≠ 0 := by
  intro h0
  rw [toPolynomial_reflect] at h0
  have hback := congrArg (fun f => f.comp (-X)) h0
  simp only [comp_assoc, neg_comp, X_comp, neg_neg, comp_X, zero_comp] at hback
  exact h hback

/-- Monic polynomials in the same variable that divide each other are the same. -/
theorem eq_of_associated {p q : UniPoly} (hv : p.var = q.var) (hp : p.toPolynomial.Monic)
    (hq : q.toPolynomial.Monic) (h : Associated p.toPolynomial q.toPolynomial) : p = q :=
  UniPoly.ext hv (coeffs_eq_of_toPolynomial_eq (eq_of_monic_of_associated hp hq h))

/-- The reflected polynomial made monic is that of the opposite numbers. -/
theorem associated_reflect_normalized (p : UniPoly) :
    Associated p.reflect.normalized.toPolynomial (p.toPolynomial.comp (-X)) := by
  rw [← toPolynomial_reflect]
  exact associated_normalized p.reflect

/-- Reflecting a monic polynomial twice gives it back. -/
theorem reflect_normalized_reflect_normalized {p : UniPoly} (hp : p.toPolynomial.Monic) :
    p.reflect.normalized.reflect.normalized = p := by
  have hq := monic_normalized (reflect_ne_zero hp.ne_zero)
  refine eq_of_associated rfl (monic_normalized (reflect_ne_zero hq.ne_zero)) hp ?_
  have h := (associated_reflect_normalized p).map (compRingHom (-X))
  rw [coe_compRingHom_apply, coe_compRingHom_apply, comp_neg_X_comp_neg_X] at h
  exact (associated_reflect_normalized _).trans h

/-- Reflecting keeps factors apart: a square in the reflected polynomial comes from a square in the
polynomial. -/
theorem squarefree_reflect_normalized {p : UniPoly} (h : Squarefree p.toPolynomial) :
    Squarefree p.reflect.normalized.toPolynomial := by
  intro a ha
  have hdvd := map_dvd (compRingHom (-X)) (ha.trans (associated_reflect_normalized p).dvd)
  rw [map_mul, coe_compRingHom_apply, coe_compRingHom_apply, comp_neg_X_comp_neg_X] at hdvd
  have hunit := (h _ hdvd).map (compRingHom (-X))
  rwa [coe_compRingHom_apply, comp_neg_X_comp_neg_X] at hunit

/-! ## Over the reals -/

/-- At a rational the two evaluations agree. -/
theorem eval_overReal (p : UniPoly) (q : ℚ) : p.overReal.eval (q : ℝ) = (p.eval q : ℚ) := by
  have h : p.overReal.eval (algebraMap ℚ ℝ q) = algebraMap ℚ ℝ (p.toPolynomial.eval q) :=
    eval_map_apply _ _
  rw [eval_toPolynomial] at h
  exact h

theorem overReal_eq_zero_iff {p : UniPoly} : p.overReal = 0 ↔ p.isZero = true := by
  unfold overReal
  rw [Polynomial.map_eq_zero, toPolynomial_eq_zero_iff]

theorem overReal_ne_zero_iff {p : UniPoly} : p.overReal ≠ 0 ↔ ¬p.isZero = true :=
  not_congr overReal_eq_zero_iff

theorem overReal_withVar (p : UniPoly) (v : Var) : (p.withVar v).overReal = p.overReal := rfl

theorem overReal_scale (p : UniPoly) (c : ℚ) :
    (p.scale c).overReal = C (c : ℝ) * p.overReal := by
  unfold overReal
  rw [toPolynomial_scale, Polynomial.map_mul, map_C]
  rfl

theorem overReal_derivative (p : UniPoly) :
    p.derivative.overReal = Polynomial.derivative p.overReal := by
  unfold overReal
  rw [toPolynomial_derivative, derivative_map]

/-- Normalizing moves no root. -/
theorem overReal_normalized (p : UniPoly) :
    p.normalized.overReal = C ((p.leadingCoeff : ℚ) : ℝ)⁻¹ * p.overReal := by
  unfold overReal
  rw [toPolynomial_normalized, Polynomial.map_mul, map_C, leadingCoeff_toPolynomial, map_inv₀]
  rfl

/-- The graph is reflected at the vertical axis. -/
theorem overReal_reflect (p : UniPoly) : p.reflect.overReal = p.overReal.comp (-X) := by
  unfold overReal
  rw [toPolynomial_reflect, map_comp, Polynomial.map_neg, map_X]

/-- To be made monic changes no root. -/
theorem isRoot_normalized {p : UniPoly} {x : ℝ} :
    p.normalized.overReal.IsRoot x ↔ p.overReal.IsRoot x := by
  by_cases h : p.toPolynomial = 0
  · have hz : p.normalized.toPolynomial = 0 := by rw [toPolynomial_normalized, h, mul_zero]
    unfold overReal
    rw [h, hz]
  · unfold overReal
    rw [toPolynomial_normalized, Polynomial.map_mul, map_C, IsRoot.def, IsRoot.def, eval_mul,
      eval_C, mul_eq_zero]
    have hc : algebraMap ℚ ℝ p.toPolynomial.leadingCoeff⁻¹ ≠ 0 :=
      (map_ne_zero_iff _ (algebraMap ℚ ℝ).injective).2 (inv_ne_zero (leadingCoeff_ne_zero.2 h))
    exact or_iff_right hc

/-- Reflecting takes every root to its opposite. -/
theorem isRoot_reflect {p : UniPoly} {x : ℝ} :
    p.reflect.overReal.IsRoot x ↔ p.overReal.IsRoot (-x) := by
  unfold overReal
  rw [toPolynomial_reflect, Polynomial.map_comp, IsRoot.def, IsRoot.def, eval_comp]
  simp

/-- Rational roots are found by evaluation. -/
theorem isRoot_ratCast {p : UniPoly} {q : ℚ} :
    p.overReal.IsRoot (q : ℝ) ↔ p.isRoot q = true := by
  rw [IsRoot.def, eval_overReal, Rat.cast_eq_zero]
  unfold isRoot
  rw [decide_eq_true_iff]

end AlgebraicReal.UniPoly
