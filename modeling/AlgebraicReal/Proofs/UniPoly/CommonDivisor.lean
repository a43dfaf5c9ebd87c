import AlgebraicReal.Proofs.UniPoly.Division
import Mathlib.Analysis.Complex.Basic

/-!
# The greatest common divisor

`Divides` says what a caller of the division sees: it succeeds, and no remainder is left. A monic
common divisor that every common divisor divides is determined up to its variable
(`IsMonicGcd.unique`), so it does not depend on the order of the two polynomials. Euclid's algorithm
finds it (`isMonicGcd_gcd`), in no more divisions than its second argument has coefficients: the
algorithm with a limit on the divisions, `euclid?`, does not reach that limit
(`euclid?_eq_gcdLoop`).
-/

open Polynomial

namespace AlgebraicReal.UniPoly

/-! ## Divisibility -/

/-- The division of `p` by `d` leaves no remainder. -/
def Divides (d p : UniPoly) : Prop := ∃ k r, p.divRem? d = some (k, r) ∧ r.isZero = true

/-- Only a nonzero polynomial can divide, and then it divides in the polynomial ring. -/
theorem divides_iff {d p : UniPoly} :
    d.Divides p ↔ ¬d.isZero = true ∧ d.toPolynomial ∣ p.toPolynomial := by
  unfold Divides divRem?
  constructor
  · intro ⟨k, r, hdiv, hr⟩
    split at hdiv
    next => cases hdiv
    next hd =>
      cases hdiv
      refine ⟨hd, ?_⟩
      rw [toPolynomial_eq_quotient_mul_add p hd, toPolynomial_eq_zero_iff.2 hr, add_zero]
      exact dvd_mul_left _ _
  · intro ⟨hd, hdvd⟩
    rw [if_neg hd]
    refine ⟨_, _, rfl, ?_⟩
    have heq := toPolynomial_eq_quotient_mul_add p hd
    rw [← toPolynomial_eq_quotient_mul hd hdvd] at heq
    exact toPolynomial_eq_zero_iff.1 (left_eq_add.1 heq)

/-! ## What a greatest common divisor is -/

/-- A monic common divisor of `p` and `q` that all common divisors divide. -/
structure IsMonicGcd (g p q : UniPoly) : Prop where
  leadingCoeff_eq : g.leadingCoeff = 1
  divides_left : g.Divides p
  divides_right : g.Divides q
  greatest : ∀ d : UniPoly, d.Divides p → d.Divides q → d.Divides g

theorem IsMonicGcd.symm {g p q : UniPoly} (h : g.IsMonicGcd p q) : g.IsMonicGcd q p where
  leadingCoeff_eq := h.leadingCoeff_eq
  divides_left := h.divides_right
  divides_right := h.divides_left
  greatest d hq hp := h.greatest d hp hq

/-- Two polynomials have one greatest common divisor. -/
theorem IsMonicGcd.unique {g g' p q : UniPoly} (h : g.IsMonicGcd p q) (h' : g'.IsMonicGcd p q) :
    g.coeffs = g'.coeffs := by
  have hdvd := (divides_iff.1 (h'.greatest g h.divides_left h.divides_right)).2
  have hdvd' := (divides_iff.1 (h.greatest g' h'.divides_left h'.divides_right)).2
  apply coeffs_eq_of_toPolynomial_eq
  refine eq_of_monic_of_associated ?_ ?_ (associated_of_dvd_dvd hdvd hdvd')
  · rw [Monic, leadingCoeff_toPolynomial, h.leadingCoeff_eq]
  · rw [Monic, leadingCoeff_toPolynomial, h'.leadingCoeff_eq]

/-! ## What Euclid's algorithm finds -/

/-- Euclid's algorithm ends at a nonzero polynomial and makes it monic. -/
theorem monic_gcdLoop (a b : UniPoly) (h : ¬(a.isZero = true ∧ b.isZero = true)) :
    (gcdLoop a b).toPolynomial.Monic := by
  fun_induction gcdLoop a b with
  | case1 a b hb => exact monic_normalized (toPolynomial_ne_zero_iff.2 fun ha => h ⟨ha, hb⟩)
  | case2 a b hb ih => exact ih fun hzero => hb hzero.1

theorem isZero_gcd_iff {p q : UniPoly} :
    (p.gcd q).isZero = true ↔ p.isZero = true ∧ q.isZero = true := by
  have h := dvd_toPolynomial_gcd_iff (c := 0) (p := p) (q := q)
  simpa only [zero_dvd_iff, toPolynomial_eq_zero_iff] using h

theorem isMonicGcd_gcd {p q : UniPoly} (h : ¬(p.isZero = true ∧ q.isZero = true)) :
    (p.gcd q).IsMonicGcd p q where
  leadingCoeff_eq := by
    rw [← leadingCoeff_toPolynomial]
    exact monic_gcdLoop p (q.withVar p.var) h
  divides_left := divides_iff.2 ⟨fun hg => h (isZero_gcd_iff.1 hg), gcd_dvd_left p q⟩
  divides_right := divides_iff.2 ⟨fun hg => h (isZero_gcd_iff.1 hg), gcd_dvd_right p q⟩
  greatest d hp hq := by
    rw [divides_iff] at hp hq
    exact divides_iff.2 ⟨hp.1, dvd_toPolynomial_gcd_iff.2 ⟨hp.2, hq.2⟩⟩

theorem coeffs_gcd_comm (p q : UniPoly) : (p.gcd q).coeffs = (q.gcd p).coeffs := by
  by_cases h : p.isZero = true ∧ q.isZero = true
  · rw [isZero_iff.1 (isZero_gcd_iff.2 h), isZero_iff.1 (isZero_gcd_iff.2 h.symm)]
  · exact (isMonicGcd_gcd h).unique (isMonicGcd_gcd fun h' => h h'.symm).symm

/-! ## How many divisions it takes -/

/-- Euclid's algorithm with at most `n` divisions. -/
def euclid? (n : ℕ) (a b : UniPoly) : Option UniPoly :=
  if b.isZero then some a.normalized
  else
    match n with
    | 0 => none
    | n + 1 => euclid? n b (a.remainder b)

/-- Every division makes the second polynomial shorter. -/
theorem euclid?_eq_gcdLoop : ∀ {n : ℕ} (a : UniPoly) {b : UniPoly}, b.coeffs.length ≤ n →
    euclid? n a b = some (gcdLoop a b) := by
  intro n
  induction n with
  | zero =>
    intro a b hlen
    have hb : b.isZero = true := isZero_iff.2 (List.length_eq_zero_iff.1 (by omega))
    rw [euclid?, gcdLoop, if_pos hb, dif_pos hb]
  | succ n ih =>
    intro a b hlen
    by_cases hb : b.isZero = true
    · rw [euclid?, gcdLoop, if_pos hb, dif_pos hb]
    · have hlt := length_remainder_lt a hb
      rw [euclid?, gcdLoop, if_neg hb, dif_neg hb]
      exact ih b (by omega)

/-! ## The specification -/

/-- Euclid's algorithm ends, on all polynomials, after at most as many divisions as the second one
has coefficients. It finds zero for two zeros, and else the monic common divisor that every common
divisor divides, whose roots are the common roots, complex or real. The order of the two
polynomials does not matter. -/
theorem gcd_spec (p q : UniPoly) :
    (∀ n, q.coeffs.length ≤ n → euclid? n p (q.withVar p.var) = some (p.gcd q))
      ∧ ((p.gcd q).isZero = true ↔ p.isZero = true ∧ q.isZero = true)
      ∧ (p.gcd q).coeffs = (q.gcd p).coeffs
      ∧ (¬(p.isZero = true ∧ q.isZero = true) →
        (p.gcd q).IsMonicGcd p q
          ∧ (∀ z : ℂ, aeval z (p.gcd q).toPolynomial = 0
              ↔ aeval z p.toPolynomial = 0 ∧ aeval z q.toPolynomial = 0)
          ∧ ∀ x : ℝ, (p.gcd q).overReal.IsRoot x ↔ p.overReal.IsRoot x ∧ q.overReal.IsRoot x) := by
  refine ⟨fun n hn => euclid?_eq_gcdLoop p hn, isZero_gcd_iff, coeffs_gcd_comm p q, fun h => ?_⟩
  exact ⟨isMonicGcd_gcd h, fun z => aeval_gcd_eq_zero_iff, fun x => isRoot_gcd⟩

/-- The greatest common divisor of `(x² + 1)(x - 2)` and `3(x² + 1)²`, in two variables, is
`x² + 1`. -/
theorem gcd_spec_common_factor :
    ((ofCoeffs 0 [-2, 1, -2, 1]).gcd (ofCoeffs 1 [3, 0, 6, 0, 3])) = ofCoeffs 0 [1, 0, 1]
      ∧ (ofCoeffs 0 [1, 0, 1]).IsMonicGcd (ofCoeffs 0 [-2, 1, -2, 1])
          (ofCoeffs 1 [3, 0, 6, 0, 3]) := by
  have hspec := gcd_spec (ofCoeffs 0 [-2, 1, -2, 1]) (ofCoeffs 1 [3, 0, 6, 0, 3])
  have hrun : euclid? 5 (ofCoeffs 0 [-2, 1, -2, 1])
      ((ofCoeffs 1 [3, 0, 6, 0, 3]).withVar 0) = some (ofCoeffs 0 [1, 0, 1]) := by
    decide +kernel
  have hgcd := Option.some.inj ((hspec.1 5 (by decide +kernel)).symm.trans hrun)
  have hmonic := (hspec.2.2.2 (by decide +kernel)).1
  rw [hgcd] at hmonic
  exact ⟨hgcd, hmonic⟩

end AlgebraicReal.UniPoly
