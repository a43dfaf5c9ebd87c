import AlgebraicReal.Proofs.UniPoly.Polynomial

/-!
# Division, greatest common divisors and square-free parts over the rationals

The coefficient-wise division satisfies the division equation (`toPolynomial_eq_quotient_mul_add`),
and with the length bound on remainders this makes Euclid's algorithm compute a greatest common
divisor (`dvd_toPolynomial_gcd_iff`). The square-free part is a separable polynomial with the roots
of the polynomial it is made from (`separable_squareFree`, `aeval_squareFree_eq_zero_iff`); the
proof follows the multiplicity of one irreducible factor, or of one root, through `p`, its
derivative and their greatest common divisor.
-/

open Polynomial

namespace AlgebraicReal.UniPoly

/-! ## The division equation -/

theorem coeffsPolynomial_zipWith_sub (k : ℚ) : ∀ {s d : List ℚ}, s.length = d.length →
    coeffsPolynomial (List.zipWith (fun a b => a - k * b) s d)
      = coeffsPolynomial s - C k * coeffsPolynomial d
  | [], [], _ => by simp [coeffsPolynomial]
  | a :: s, b :: d, h => by
    have hlen : s.length = d.length := by simpa using h
    simp only [List.zipWith_cons_cons, coeffsPolynomial_cons, coeffsPolynomial_zipWith_sub k hlen,
      C_sub, C_mul]
    ring

/-- The induction follows the dividend: one more coefficient at the bottom, and at most one
subtraction of a multiple of the divisor. -/
theorem coeffsPolynomial_divideCoeffs {d : List ℚ} (hd : d ≠ []) (hlast : d.getLast? ≠ some 0) :
    ∀ p : List ℚ, coeffsPolynomial p
      = coeffsPolynomial (divideCoeffs d p).1 * coeffsPolynomial d
        + coeffsPolynomial (divideCoeffs d p).2
  | [] => by simp [divideCoeffs, coeffsPolynomial]
  | c :: p => by
    have ih := coeffsPolynomial_divideCoeffs hd hlast p
    have hlt := length_divideCoeffs_lt hd hlast p
    have hs := coeffsPolynomial_consTrim c (divideCoeffs d p).2
    simp only [divideCoeffs]
    split
    next =>
      rw [coeffsPolynomial_consTrim, coeffsPolynomial_consTrim, coeffsPolynomial_cons, ih, C_0]
      ring
    next hge =>
      have hle := length_consTrim_le c (divideCoeffs d p).2
      rw [coeffsPolynomial_trim, coeffsPolynomial_zipWith_sub _ (by omega),
        coeffsPolynomial_consTrim, hs, coeffsPolynomial_cons, ih]
      ring

theorem toPolynomial_eq_quotient_mul_add (p : UniPoly) {d : UniPoly} (h : ¬d.isZero = true) :
    p.toPolynomial
      = (p.quotient d).toPolynomial * d.toPolynomial + (p.remainder d).toPolynomial :=
  coeffsPolynomial_divideCoeffs (fun e => h (isZero_iff.2 e)) d.trimmed _

section

variable {d r : UniPoly}

theorem length_lt_iff (hd : ¬d.isZero = true) :
    r.coeffs.length < d.coeffs.length ↔ r.isZero = true ∨ r.degree < d.degree := by
  have hpos : 0 < d.coeffs.length := List.length_pos_iff.2 fun h0 => hd (isZero_iff.2 h0)
  unfold UniPoly.degree
  rw [isZero_iff, ← List.length_eq_zero_iff]
  omega

/-- What is reduced by a divisor has a smaller degree in the polynomial ring, zero included. -/
theorem degree_toPolynomial_lt (hd : ¬d.isZero = true)
    (hr : r.isZero = true ∨ r.degree < d.degree) :
    r.toPolynomial.degree < d.toPolynomial.degree := by
  rcases hr with hr | hr
  · rw [toPolynomial_eq_zero_iff.2 hr, degree_zero, bot_lt_iff_ne_bot, Ne, degree_eq_bot]
    exact toPolynomial_ne_zero_iff.2 hd
  · apply degree_lt_degree
    rwa [natDegree_toPolynomial, natDegree_toPolynomial]

end

/-- The remainder is zero or of smaller degree than the divisor. -/
theorem degree_remainder_lt (p : UniPoly) {d : UniPoly} (h : ¬d.isZero = true) :
    (p.remainder d).toPolynomial.degree < d.toPolynomial.degree :=
  degree_toPolynomial_lt h ((length_lt_iff h).1 (length_remainder_lt p h))

/-- A divisor leaves no remainder. -/
theorem toPolynomial_eq_quotient_mul {p d : UniPoly} (h : ¬d.isZero = true)
    (hdvd : d.toPolynomial ∣ p.toPolynomial) :
    p.toPolynomial = (p.quotient d).toPolynomial * d.toPolynomial := by
  have heq := toPolynomial_eq_quotient_mul_add p h
  have hr : d.toPolynomial ∣ (p.remainder d).toPolynomial := by
    rw [heq] at hdvd
    exact (dvd_add_right (dvd_mul_left _ _)).1 hdvd
  have hzero := eq_zero_of_dvd_of_degree_lt hr (degree_remainder_lt p h)
  rw [hzero, add_zero] at heq
  exact heq

/-! ## Greatest common divisors -/

/-- Euclid's algorithm keeps the common divisors of its two arguments. -/
theorem dvd_toPolynomial_gcdLoop_iff (c : ℚ[X]) (a b : UniPoly) :
    c ∣ (gcdLoop a b).toPolynomial ↔ c ∣ a.toPolynomial ∧ c ∣ b.toPolynomial := by
  fun_induction gcdLoop a b with
  | case1 a b hb =>
    rw [toPolynomial_eq_zero_iff.2 hb]
    rw [(associated_normalized a).dvd_iff_dvd_right]
    exact (and_iff_left (dvd_zero c)).symm
  | case2 a b hb ih =>
    rw [ih]
    have heq := toPolynomial_eq_quotient_mul_add a hb
    constructor
    · intro ⟨h₁, h₂⟩
      refine ⟨?_, h₁⟩
      rw [heq]
      exact dvd_add (dvd_mul_of_dvd_right h₁ _) h₂
    · intro ⟨h₁, h₂⟩
      refine ⟨h₂, ?_⟩
      rw [heq] at h₁
      exact (dvd_add_right (dvd_mul_of_dvd_right h₂ _)).1 h₁

theorem dvd_toPolynomial_gcd_iff {c : ℚ[X]} {p q : UniPoly} :
    c ∣ (p.gcd q).toPolynomial ↔ c ∣ p.toPolynomial ∧ c ∣ q.toPolynomial :=
  dvd_toPolynomial_gcdLoop_iff c p _

theorem gcd_dvd_left (p q : UniPoly) : (p.gcd q).toPolynomial ∣ p.toPolynomial :=
  (dvd_toPolynomial_gcd_iff.1 dvd_rfl).1

theorem gcd_dvd_right (p q : UniPoly) : (p.gcd q).toPolynomial ∣ q.toPolynomial :=
  (dvd_toPolynomial_gcd_iff.1 dvd_rfl).2

/-- The greatest common divisor with a nonzero polynomial is not zero. -/
theorem gcd_ne_zero {p q : UniPoly} (h : p.toPolynomial ≠ 0) : (p.gcd q).toPolynomial ≠ 0 :=
  ne_zero_of_dvd_ne_zero h (gcd_dvd_left p q)

/-- The roots of a greatest common divisor are the common roots, in every field that contains the
rationals. -/
theorem aeval_gcd_eq_zero_iff {K : Type*} [Field K] [Algebra ℚ K] {p q : UniPoly} {x : K} :
    aeval x (p.gcd q).toPolynomial = 0
      ↔ aeval x p.toPolynomial = 0 ∧ aeval x q.toPolynomial = 0 := by
  constructor
  · intro h
    exact ⟨aeval_eq_zero_of_dvd_aeval_eq_zero (gcd_dvd_left p q) h,
      aeval_eq_zero_of_dvd_aeval_eq_zero (gcd_dvd_right p q) h⟩
  · intro ⟨hp, hq⟩
    -- Bézout's identity is known for the divisor that the Euclidean domain provides
    have hdvd : EuclideanDomain.gcd p.toPolynomial q.toPolynomial ∣ (p.gcd q).toPolynomial :=
      dvd_toPolynomial_gcd_iff.2
        ⟨EuclideanDomain.gcd_dvd_left _ _, EuclideanDomain.gcd_dvd_right _ _⟩
    exact aeval_eq_zero_of_dvd_aeval_eq_zero hdvd (eval₂_gcd_eq_zero hp hq)

/-- The real roots of a greatest common divisor are the common real roots. -/
theorem isRoot_gcd {p q : UniPoly} {x : ℝ} :
    (p.gcd q).overReal.IsRoot x ↔ p.overReal.IsRoot x ∧ q.overReal.IsRoot x := by
  unfold overReal
  simp only [IsRoot.def, eval_map_algebraMap]
  exact aeval_gcd_eq_zero_iff

/-! ## Square-free parts -/

theorem not_isZero_of_not_isConstant {p : UniPoly} (h : ¬p.isConstant = true) :
    ¬p.isZero = true := by
  rw [isZero_iff]
  intro h0
  apply h
  unfold isConstant
  rw [h0]
  rfl

/-- The square-free part of a polynomial of positive degree is the cofactor of the greatest common
divisor of the polynomial and its derivative. -/
theorem associated_squareFree_mul {p : UniPoly} (h : ¬p.isConstant = true) :
    Associated (p.squareFree.toPolynomial * (p.gcd p.derivative).toPolynomial) p.toPolynomial := by
  have hg : ¬(p.gcd p.derivative).isZero = true :=
    toPolynomial_ne_zero_iff.1
      (gcd_ne_zero (toPolynomial_ne_zero_iff.2 (not_isZero_of_not_isConstant h)))
  have heq := toPolynomial_eq_quotient_mul hg (gcd_dvd_left p p.derivative)
  have hs : Associated p.squareFree.toPolynomial
      (p.quotient (p.gcd p.derivative)).toPolynomial := by
    unfold squareFree
    rw [if_neg h]
    exact associated_normalized _
  have hmul := hs.mul_right (p.gcd p.derivative).toPolynomial
  rwa [← heq] at hmul

theorem squareFree_ne_zero {p : UniPoly} (h : p.toPolynomial ≠ 0) :
    p.squareFree.toPolynomial ≠ 0 := by
  by_cases hc : p.isConstant = true
  · unfold squareFree
    rw [if_pos hc]
    exact (associated_normalized p).ne_zero_iff.2 h
  · exact left_ne_zero_of_mul ((associated_squareFree_mul hc).ne_zero_iff.2 h)

theorem squareFree_not_isZero {p : UniPoly} (h : ¬p.isZero = true) :
    ¬p.squareFree.isZero = true :=
  toPolynomial_ne_zero_iff.1 (squareFree_ne_zero (toPolynomial_ne_zero_iff.2 h))

theorem monic_squareFree {p : UniPoly} (h : p.toPolynomial ≠ 0) :
    p.squareFree.toPolynomial.Monic := by
  have hne := squareFree_ne_zero h
  unfold squareFree at hne ⊢
  split
  next => exact monic_normalized h
  next hc =>
    rw [if_neg hc] at hne
    exact monic_normalized ((associated_normalized _).ne_zero_iff.1 hne)

/-- A power of `q` that divides `p` divides the derivative of `p`, but for one factor. -/
theorem pow_dvd_derivative {q p : ℚ[X]} {k : ℕ} (h : q ^ (k + 1) ∣ p) :
    q ^ k ∣ Polynomial.derivative p := by
  obtain ⟨u, rfl⟩ := h
  rw [derivative_mul, derivative_pow_succ]
  refine dvd_add ?_ ?_
  · exact ((dvd_mul_left (q ^ k) _).mul_right _).mul_right _
  · exact (pow_dvd_pow q (Nat.le_succ k)).mul_right _

/-- Let `q` have multiplicity `k` in `p`. Then `q` has multiplicity at least `k - 1` in the greatest
common divisor with the derivative, and at most one is left for the square-free part. -/
theorem squarefree_toPolynomial_squareFree {p : UniPoly} (h : p.toPolynomial ≠ 0) :
    Squarefree p.squareFree.toPolynomial := by
  by_cases hc : p.isConstant = true
  · have hunit : IsUnit p.squareFree.toPolynomial := by
      unfold squareFree
      rw [if_pos hc]
      refine (associated_normalized p).isUnit_iff.2 ?_
      rw [isUnit_iff_degree_eq_zero, degree_eq_natDegree h, isConstant_iff_natDegree.1 hc]
      rfl
    exact hunit.squarefree
  rw [squarefree_iff_irreducible_sq_not_dvd_of_ne_zero (squareFree_ne_zero h)]
  intro q hq hdvd
  have hassoc := associated_squareFree_mul hc
  obtain ⟨k, u, hu, hpu⟩ : ∃ k u, p.toPolynomial = q ^ k * u ∧ ¬q ∣ u :=
    ⟨_, (FiniteMultiplicity.of_not_isUnit hq.not_isUnit h).exists_eq_pow_mul_and_not_dvd⟩
  have hqp : q ∣ p.toPolynomial :=
    (((dvd_mul_right q q).trans hdvd).mul_right _).trans hassoc.dvd
  -- the multiplicity is positive, so there is a power to lose in the derivative
  obtain ⟨j, rfl⟩ : ∃ j, k = j + 1 := by
    refine Nat.exists_eq_succ_of_ne_zero ?_
    rintro rfl
    rw [pow_zero, one_mul] at hu
    exact hpu (hu ▸ hqp)
  have hjp : q ^ (j + 1) ∣ p.toPolynomial := hu ▸ dvd_mul_right _ _
  have hg : q ^ j ∣ (p.gcd p.derivative).toPolynomial := by
    refine dvd_toPolynomial_gcd_iff.2 ⟨(pow_dvd_pow q (Nat.le_succ j)).trans hjp, ?_⟩
    rw [toPolynomial_derivative]
    exact pow_dvd_derivative hjp
  have hmul : q ^ (j + 1) * q ∣ q ^ (j + 1) * u := by
    rw [← hu]
    refine Dvd.dvd.trans ?_ hassoc.dvd
    have hprod := mul_dvd_mul hdvd hg
    have hpow : q * q * q ^ j = q ^ (j + 1) * q := by ring
    rwa [hpow] at hprod
  exact hpu ((mul_dvd_mul_iff_left (pow_ne_zero _ hq.ne_zero)).1 hmul)

/-- A monic polynomial without multiple factors is its own square-free part. -/
theorem squareFree_eq_self {p : UniPoly} (hp : p.toPolynomial.Monic)
    (h : Squarefree p.toPolynomial) : p.squareFree = p := by
  have hassoc : Associated p.squareFree.toPolynomial p.toPolynomial := by
    by_cases hc : p.isConstant = true
    · unfold squareFree
      rw [if_pos hc]
      exact associated_normalized p
    · have hcoprime : IsCoprime p.toPolynomial p.derivative.toPolynomial := by
        rw [toPolynomial_derivative]
        exact PerfectField.separable_iff_squarefree.2 h
      have hunit := hcoprime.isUnit_of_dvd' (gcd_dvd_left p _) (gcd_dvd_right p _)
      exact (associated_mul_unit_right _ _ hunit).trans (associated_squareFree_mul hc)
  refine eq_of_associated ?_ (monic_squareFree hp.ne_zero) hp hassoc
  unfold squareFree
  split <;> rfl

theorem separable_squareFree {p : UniPoly} (h : p.toPolynomial ≠ 0) :
    p.squareFree.toPolynomial.Separable :=
  PerfectField.separable_iff_squarefree.2 (squarefree_toPolynomial_squareFree h)

section

variable {K : Type*} [Field K] [Algebra ℚ K] {p : UniPoly} {x : K}

/-- The square-free part and the common divisor with the derivative share the multiplicities. -/
theorem rootMultiplicity_squareFree_add (hc : ¬p.isConstant = true) :
    rootMultiplicity x (p.squareFree.toPolynomial.map (algebraMap ℚ K))
        + rootMultiplicity x ((p.gcd p.derivative).toPolynomial.map (algebraMap ℚ K))
      = rootMultiplicity x (p.toPolynomial.map (algebraMap ℚ K)) := by
  have h0 := toPolynomial_ne_zero_iff.2 (not_isZero_of_not_isConstant hc)
  have hP : p.toPolynomial.map (algebraMap ℚ K) ≠ 0 :=
    (Polynomial.map_ne_zero_iff (algebraMap ℚ K).injective).2 h0
  have hmul := (associated_squareFree_mul hc).map (mapRingHom (algebraMap ℚ K))
  rw [map_mul] at hmul
  simp only [coe_mapRingHom] at hmul
  have hSG := hmul.ne_zero_iff.2 hP
  rw [← rootMultiplicity_mul hSG]
  exact le_antisymm (rootMultiplicity_le_rootMultiplicity_of_dvd hP hmul.dvd x)
    (rootMultiplicity_le_rootMultiplicity_of_dvd hSG hmul.symm.dvd x)

/-- A root loses one of its multiplicity in the derivative. -/
theorem rootMultiplicity_gcd_derivative_le (hc : ¬p.isConstant = true)
    (hroot : (p.toPolynomial.map (algebraMap ℚ K)).IsRoot x) :
    rootMultiplicity x ((p.gcd p.derivative).toPolynomial.map (algebraMap ℚ K))
      ≤ rootMultiplicity x (p.toPolynomial.map (algebraMap ℚ K)) - 1 := by
  have : CharZero K := algebraRat.charZero K
  have hP' : Polynomial.derivative (p.toPolynomial.map (algebraMap ℚ K)) ≠ 0 := by
    intro hd
    apply hc
    rw [isConstant_iff_natDegree, ← natDegree_map (algebraMap ℚ K)]
    exact derivative_eq_zero.1 hd
  rw [← derivative_rootMultiplicity_of_root hroot]
  refine rootMultiplicity_le_rootMultiplicity_of_dvd hP' ?_ x
  rw [derivative_map, ← toPolynomial_derivative]
  exact Polynomial.map_dvd _ (gcd_dvd_right p p.derivative)

/-- The square-free part has the same roots, in every field that contains the rationals: a root of
multiplicity `m` has multiplicity `m - 1` in the derivative, so dividing by the common divisor
leaves at least one. -/
theorem aeval_squareFree_eq_zero_iff :
    aeval x p.squareFree.toPolynomial = 0 ↔ aeval x p.toPolynomial = 0 := by
  by_cases hc : p.isConstant = true
  · unfold squareFree
    rw [if_pos hc]
    exact (((associated_normalized p).map (aeval x (R := ℚ))).eq_zero_iff)
  have h0 := toPolynomial_ne_zero_iff.2 (not_isZero_of_not_isConstant hc)
  constructor
  · intro hs
    obtain ⟨u, hu⟩ := (dvd_mul_right _ _).trans (associated_squareFree_mul hc).dvd
    rw [hu, map_mul, hs, zero_mul]
  · intro hx
    have hinj := (algebraMap ℚ K).injective
    have hroot : (p.toPolynomial.map (algebraMap ℚ K)).IsRoot x := by
      rw [IsRoot.def, eval_map_algebraMap, hx]
    have hpos := (rootMultiplicity_pos ((Polynomial.map_ne_zero_iff hinj).2 h0)).2 hroot
    have hsum := rootMultiplicity_squareFree_add (x := x) hc
    have hle := rootMultiplicity_gcd_derivative_le hc hroot
    have hSroot : (p.squareFree.toPolynomial.map (algebraMap ℚ K)).IsRoot x :=
      (rootMultiplicity_pos ((Polynomial.map_ne_zero_iff hinj).2 (squareFree_ne_zero h0))).1
        (by omega)
    rwa [IsRoot.def, eval_map_algebraMap] at hSroot

end

theorem isRoot_squareFree {p : UniPoly} {x : ℝ} :
    p.squareFree.overReal.IsRoot x ↔ p.overReal.IsRoot x := by
  unfold overReal
  rw [IsRoot.def, IsRoot.def, eval_map_algebraMap, eval_map_algebraMap]
  exact aeval_squareFree_eq_zero_iff

/-- The polynomial with leading coefficient one and simple roots, which are the roots of another
one. -/
structure IsSquareFreePart (r p : UniPoly) : Prop where
  monic : r.toPolynomial.Monic
  squarefree : Squarefree r.toPolynomial
  roots : ∀ z : ℂ, aeval z r.toPolynomial = 0 ↔ aeval z p.toPolynomial = 0

theorem isSquareFreePart_squareFree {p : UniPoly} (h : p.toPolynomial ≠ 0) :
    p.squareFree.IsSquareFreePart p where
  monic := monic_squareFree h
  squarefree := squarefree_toPolynomial_squareFree h
  roots _ := aeval_squareFree_eq_zero_iff

end AlgebraicReal.UniPoly
