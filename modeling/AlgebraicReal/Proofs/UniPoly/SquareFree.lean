import AlgebraicReal.Proofs.UniPoly.CommonDivisor

/-!
# The square-free part

A polynomial divides a power of every polynomial that vanishes at all its complex roots
(`dvd_pow_natDegree`). So a polynomial without multiple factors is determined by its roots, up to a
constant, and two polynomials with the same roots have the same square-free part
(`squareFree_eq_of_roots`): that of a square-free part is itself, and that of a square is the one of
the base.
-/

open Polynomial

namespace AlgebraicReal.UniPoly

/-! ## What the roots determine -/

/-- An irreducible polynomial whose complex roots are roots of `s` divides `s`: it has a root, at
which a combination of the two cannot be one. -/
theorem irreducible_dvd_of_roots {q s : ℚ[X]} (hq : Irreducible q)
    (h : ∀ z : ℂ, aeval z q = 0 → aeval z s = 0) : q ∣ s := by
  by_contra hdvd
  obtain ⟨u, v, huv⟩ := hq.coprime_iff_not_dvd.2 hdvd
  have hdegree : q.degree ≠ 0 := hq.degree_pos.ne'
  obtain ⟨z, hz⟩ := IsAlgClosed.exists_aeval_eq_zero ℂ q hdegree
  have hone := congrArg (aeval z) huv
  rw [map_add, map_mul, map_mul, hz, h z hz, mul_zero, mul_zero, add_zero, map_one] at hone
  exact zero_ne_one hone

/-- Each irreducible factor of `p` is one of `s`, and `p` has at most as many as its degree says. -/
theorem dvd_pow_natDegree {p s : ℚ[X]} (hp : p ≠ 0)
    (h : ∀ z : ℂ, aeval z p = 0 → aeval z s = 0) : p ∣ s ^ p.natDegree := by
  induction p using WfDvdMonoid.induction_on_irreducible with
  | zero => exact absurd rfl hp
  | unit u hu => exact hu.dvd
  | mul a q ha hq ih =>
    have hqs : q ∣ s := irreducible_dvd_of_roots hq fun z hz =>
      h z (by rw [map_mul, hz, zero_mul])
    have has : a ∣ s ^ a.natDegree := ih ha fun z hz => h z (by rw [map_mul, hz, mul_zero])
    have hle : 1 + a.natDegree ≤ (q * a).natDegree := by
      rw [natDegree_mul hq.ne_zero ha]
      exact Nat.add_le_add_right hq.natDegree_pos _
    calc q * a ∣ s * s ^ a.natDegree := mul_dvd_mul hqs has
      _ = s ^ (1 + a.natDegree) := by rw [pow_add, pow_one]
      _ ∣ s ^ (q * a).natDegree := pow_dvd_pow s hle

theorem dvd_of_squarefree_of_roots {p s : ℚ[X]} (hp : p ≠ 0) (hsq : Squarefree p)
    (h : ∀ z : ℂ, aeval z p = 0 → aeval z s = 0) : p ∣ s := by
  by_cases hdegree : p.natDegree = 0
  · refine IsUnit.dvd ?_
    rw [isUnit_iff_degree_eq_zero, degree_eq_natDegree hp, hdegree]
    rfl
  · exact (hsq.dvd_pow_iff_dvd hdegree).1 (dvd_pow_natDegree hp h)

/-- A polynomial has one square-free part. -/
theorem IsSquareFreePart.unique {r r' p : UniPoly} (h : r.IsSquareFreePart p)
    (h' : r'.IsSquareFreePart p) : r.coeffs = r'.coeffs := by
  have hdvd := dvd_of_squarefree_of_roots h.monic.ne_zero h.squarefree
    fun z hz => (h'.roots z).2 ((h.roots z).1 hz)
  have hdvd' := dvd_of_squarefree_of_roots h'.monic.ne_zero h'.squarefree
    fun z hz => (h.roots z).2 ((h'.roots z).1 hz)
  exact coeffs_eq_of_toPolynomial_eq
    (eq_of_monic_of_associated h.monic h'.monic (associated_of_dvd_dvd hdvd hdvd'))

@[simp] theorem var_squareFree (p : UniPoly) : p.squareFree.var = p.var := by
  unfold squareFree
  split <;> rfl

/-- The square-free part depends on the roots only. -/
theorem squareFree_eq_of_roots {p q : UniPoly} (hv : p.var = q.var) (hp : p.toPolynomial ≠ 0)
    (hq : q.toPolynomial ≠ 0)
    (h : ∀ z : ℂ, aeval z p.toPolynomial = 0 ↔ aeval z q.toPolynomial = 0) :
    p.squareFree = q.squareFree := by
  refine UniPoly.ext (by rw [var_squareFree, var_squareFree, hv]) ?_
  have hpart := isSquareFreePart_squareFree hp
  refine IsSquareFreePart.unique (p := q) ?_ (isSquareFreePart_squareFree hq)
  exact ⟨hpart.monic, hpart.squarefree, fun z => (hpart.roots z).trans (h z)⟩

theorem squareFree_mul_self {p : UniPoly} (hp : p.toPolynomial ≠ 0) :
    (p.mul p).squareFree = p.squareFree := by
  have hmul : (p.mul p).toPolynomial ≠ 0 := by
    rw [toPolynomial_mul]
    exact mul_ne_zero hp hp
  refine squareFree_eq_of_roots rfl hmul hp fun z => ?_
  rw [toPolynomial_mul, map_mul, mul_self_eq_zero]

theorem squareFree_squareFree {p : UniPoly} (hp : p.toPolynomial ≠ 0) :
    p.squareFree.squareFree = p.squareFree :=
  squareFree_eq_of_roots (var_squareFree p) (squareFree_ne_zero hp) hp
    fun _ => aeval_squareFree_eq_zero_iff

/-! ## Divisors and simple roots -/

theorem squareFree_divides {p : UniPoly} (h : ¬p.isConstant = true) : p.squareFree.Divides p := by
  have hp := toPolynomial_ne_zero_iff.2 (not_isZero_of_not_isConstant h)
  refine divides_iff.2 ⟨toPolynomial_ne_zero_iff.1 (squareFree_ne_zero hp), ?_⟩
  exact (dvd_mul_right _ _).trans (associated_squareFree_mul h).dvd

/-- The square-free part and its derivative have no common divisor. -/
theorem coeffs_gcd_squareFree_derivative {p : UniPoly} (hp : p.toPolynomial ≠ 0) :
    (p.squareFree.gcd p.squareFree.derivative).coeffs = [1] := by
  set s := p.squareFree with hs
  have hcoprime : IsCoprime s.toPolynomial s.derivative.toPolynomial := by
    rw [toPolynomial_derivative]
    exact separable_squareFree hp
  have hunit := hcoprime.isUnit_of_dvd' (gcd_dvd_left s _) (gcd_dvd_right s _)
  have hmonic : (s.gcd s.derivative).toPolynomial.Monic := by
    have hsz := toPolynomial_ne_zero_iff.1 (squareFree_ne_zero hp)
    rw [Monic, leadingCoeff_toPolynomial]
    exact (isMonicGcd_gcd fun h => hsz h.1).leadingCoeff_eq
  refine coeffs_eq_of_toPolynomial_eq (q := constant s.var 1) ?_
  rw [hmonic.isUnit_iff.1 hunit, constant, toPolynomial_ofCoeffs, coeffsPolynomial_cons]
  simp [coeffsPolynomial]

/-- The square-free part of a polynomial of positive degree is a monic divisor with the same complex
roots, and the polynomial divides a power of it. Its roots are simple: it has no divisor in common
with its derivative. Taking the square-free part again changes nothing, nor does squaring before. -/
theorem squareFree_spec {p : UniPoly} (h : 0 < p.degree) :
    p.squareFree.leadingCoeff = 1
      ∧ p.squareFree.Divides p
      ∧ (∀ z : ℂ, aeval z p.squareFree.toPolynomial = 0 ↔ aeval z p.toPolynomial = 0)
      ∧ p.toPolynomial ∣ p.squareFree.toPolynomial ^ p.degree
      ∧ (p.squareFree.gcd p.squareFree.derivative).coeffs = [1]
      ∧ (∀ z : ℂ, aeval z p.squareFree.toPolynomial = 0 →
          aeval z p.squareFree.derivative.toPolynomial ≠ 0)
      ∧ p.squareFree.squareFree = p.squareFree
      ∧ (p.mul p).squareFree = p.squareFree := by
  have hp := ne_zero_of_degree_pos h
  have hconstant : ¬p.isConstant = true := by
    rw [isConstant_iff_natDegree, natDegree_toPolynomial]
    exact h.ne'
  have hroots : ∀ z : ℂ, aeval z p.squareFree.toPolynomial = 0 ↔ aeval z p.toPolynomial = 0 :=
    fun _ => aeval_squareFree_eq_zero_iff
  refine ⟨?_, squareFree_divides hconstant, hroots, ?_, coeffs_gcd_squareFree_derivative hp, ?_,
    squareFree_squareFree hp, squareFree_mul_self hp⟩
  · rw [← leadingCoeff_toPolynomial]
    exact monic_squareFree hp
  · -- all roots of `p` are roots of the square-free part, none more than `degree`-fold in `p`
    rw [← natDegree_toPolynomial]
    exact dvd_pow_natDegree hp fun z => (hroots z).2
  · intro z hz
    rw [toPolynomial_derivative]
    exact (separable_squareFree hp).aeval_derivative_ne_zero hz

/-- The square-free part of `2(x - 1)³(x² + 1)²` is `(x - 1)(x² + 1)`. -/
theorem squareFree_spec_multiple_roots :
    0 < (ofCoeffs 0 [-2, 6, -10, 14, -14, 10, -6, 2]).degree
      ∧ (ofCoeffs 0 [-2, 6, -10, 14, -14, 10, -6, 2]).squareFree = ofCoeffs 0 [-1, 1, -1, 1]
      ∧ (ofCoeffs 0 [-1, 1, -1, 1]).squareFree = ofCoeffs 0 [-1, 1, -1, 1]
      ∧ aeval Complex.I (ofCoeffs 0 [-1, 1, -1, 1]).derivative.toPolynomial ≠ 0 := by
  have hdegree : 0 < (ofCoeffs 0 [-2, 6, -10, 14, -14, 10, -6, 2]).degree := by decide +kernel
  have heq : (ofCoeffs 0 [-2, 6, -10, 14, -14, 10, -6, 2]).squareFree
      = ofCoeffs 0 [-1, 1, -1, 1] := by decide +kernel
  have hspec := squareFree_spec hdegree
  rw [heq] at hspec
  obtain ⟨-, -, -, -, -, hsimple, hagain, -⟩ := hspec
  refine ⟨hdegree, heq, hagain, hsimple _ ?_⟩
  rw [toPolynomial_ofCoeffs]
  simp only [coeffsPolynomial, map_add, map_mul, map_neg, map_one, map_zero, aeval_X]
  linear_combination (Complex.I - 1) * Complex.I_sq

end AlgebraicReal.UniPoly
