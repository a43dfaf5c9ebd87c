import AlgebraicReal.Proofs.Thom.Realization

/-!
# The encoding of the opposite root

Reflecting a polynomial changes the sign of the derivatives of odd order at the opposite point, and
making the result monic that of all of them if the degree is odd. So the signs at the opposite root
are found from the parity of index and degree alone (`signs_reflect`). They are the signs that an
isolation of the reflected polynomial finds for this root, and a second change of sign restores the
first encoding (`negate_opposite`).
-/

open Polynomial

namespace AlgebraicReal

namespace Thom

open RefineM

variable {s : Store} {t u : Thom} {p : UniPoly} {x : ℝ}

/-! ## Signs of the reflected polynomial -/

/-- The derivatives of the reflected polynomial at the opposite point. -/
theorem eval_derivative_reflect (f : ℝ[X]) (k : ℕ) (x : ℝ) :
    (Polynomial.derivative^[k] (f.comp (-X))).eval (-x)
      = (-1) ^ k * (Polynomial.derivative^[k] f).eval x := by
  have hcomp : ∀ k, Polynomial.derivative^[k] (f.comp (-X))
      = (-1) ^ k * (Polynomial.derivative^[k] f).comp (-X) := by
    intro k
    induction k with
    | zero => simp
    | succ k ih =>
      rw [Function.iterate_succ_apply', ih, Function.iterate_succ_apply']
      have hconst : Polynomial.derivative ((-1) ^ k : ℝ[X]) = 0 := by
        rw [show ((-1) ^ k : ℝ[X]) = C ((-1) ^ k) by simp, derivative_C]
      rw [derivative_mul, hconst, derivative_comp, pow_succ]
      simp
  rw [hcomp]
  simp

theorem degree_reflect_normalized {p : UniPoly} (hp : p.toPolynomial.Monic) :
    p.reflect.normalized.degree = p.degree := by
  have hne : p.reflect.toPolynomial ≠ 0 := UniPoly.reflect_ne_zero hp.ne_zero
  rw [← UniPoly.natDegree_toPolynomial, ← UniPoly.natDegree_toPolynomial,
    natDegree_eq_of_degree_eq (degree_eq_degree_of_associated (UniPoly.associated_normalized _)),
    UniPoly.toPolynomial_reflect, natDegree_comp]
  simp

/-- The reflected polynomial, made monic. -/
theorem overReal_reflect_normalized {p : UniPoly} (hp : p.toPolynomial.Monic) :
    p.reflect.normalized.overReal = C ((-1) ^ p.degree) * p.overReal.comp (-X) := by
  have hmonic : p.overReal.Monic := hp.map (algebraMap ℚ ℝ)
  have hlc : (p.reflect.leadingCoeff : ℝ) = (-1) ^ p.degree := by
    rw [← UniPoly.leadingCoeff_overReal, UniPoly.overReal_reflect, leadingCoeff_comp (by simp),
      hmonic.leadingCoeff, UniPoly.natDegree_overReal]
    simp
  rw [UniPoly.overReal_normalized, UniPoly.overReal_reflect, hlc, ← inv_pow, inv_neg_one]

/-- The signs of the reflected polynomial at the opposite root. -/
theorem signs_reflect {p : UniPoly} (hp : p.toPolynomial.Monic) (x : ℝ) :
    reflectSigns p.degree ((derivatives p).map fun q => Sign.ofReal (q.overReal.eval x))
      = (derivatives p.reflect.normalized).map fun q => Sign.ofReal (q.overReal.eval (-x)) := by
  unfold reflectSigns derivatives
  rw [degree_reflect_normalized hp]
  refine List.ext_getElem (by simp) fun i _ _ => ?_
  simp only [List.getElem_map, List.getElem_zipIdx, List.getElem_range, zero_add,
    overReal_iteratedDerivative]
  rw [overReal_reflect_normalized hp, iterate_derivative_C_mul, eval_mul, eval_C,
    eval_derivative_reflect, ← mul_assoc, ← pow_add]
  split
  next h =>
    rw [Odd.neg_one_pow (Nat.odd_iff.2 (by omega)), neg_one_mul, Sign.ofReal_neg]
  next h => rw [Even.neg_one_pow (Nat.even_iff.2 (by omega)), one_mul]

/-- Both changes of a sign depend on the degree and the index, which stay. -/
theorem reflectSigns_reflectSigns (degree : ℕ) (signs : List Sign) :
    reflectSigns degree (reflectSigns degree signs) = signs := by
  refine List.ext_getElem ?_ fun i _ _ => ?_
  · rw [length_reflectSigns, length_reflectSigns]
  · simp only [reflectSigns, List.getElem_map, List.getElem_zipIdx, zero_add]
    split
    next => exact Sign.neg_neg _
    next => rfl

/-! ## The encoding -/

/-- The encoding of the opposite root has a locator of its own. -/
theorem negate_exact (hs : s.Valid) (h : t.Denotes s x) :
    Exact t.negate s fun u s' => u.Denotes s' (-x) ∧ u.poly = t.poly.reflect.normalized ∧
      u.signs = reflectSigns t.poly.degree t.signs := by
  refine Exact.get_bind ?_
  have hl := h.locates.negate
  unfold Locator.negate at hl
  rw [h.poly_eq] at hl
  have hmonic := UniPoly.monic_normalized (UniPoly.reflect_ne_zero h.monic.ne_zero)
  refine (Exact.allocate hs hl).bind fun id s' _ hval hid => Exact.pure hval ?_
  refine ⟨denotes_allocated hid hl rfl hmonic ?_, rfl, rfl⟩
  rw [h.signs]
  exact signs_reflect h.monic x

/-- Isolating the roots of the polynomial of an encoding finds an encoding of its root again, with
the same polynomial and the same signs. -/
theorem Denotes.realizeAll_exact (hs : s.Valid) (h : t.Denotes s x)
    (hsq : Squarefree t.poly.toPolynomial) :
    Exact (realizeAll t.poly) s fun ts s' => (∃ e ∈ ts, e.Denotes s' x) ∧
      ∀ e ∈ ts, e.Denotes s' x → e.poly = t.poly ∧ e.signs = t.signs := by
  have hself := UniPoly.squareFree_eq_self h.monic hsq
  have hall := (realizeAll_exactIf hs t.poly).exact (degree_pos_of_isRoot h.monic h.isRoot)
  refine hall.mono fun ts s' _ _ hts => ?_
  obtain ⟨xs, hxs, hts⟩ := hts
  constructor
  · have hx : x ∈ xs := (hxs.mem_iff x).2 ⟨h.isRoot, Set.mem_univ x⟩
    obtain ⟨e, he, henc⟩ := exists_of_mem_forall₂ hts.flip hx
    exact ⟨e, he, henc.denotes⟩
  · intro e he hex
    obtain ⟨y, -, henc⟩ := exists_of_mem_forall₂ hts he
    have hpoly : e.poly = t.poly := henc.poly_eq.trans hself
    refine ⟨hpoly, ?_⟩
    rw [hex.signs_eq, hpoly, h.signs_eq]

/-- What the encoding of the opposite root is: the root of the reflected polynomial, made monic, with
the signs of its derivatives there. -/
structure IsOpposite (t u : Thom) (s : Store) (x : ℝ) : Prop where
  denotes : u.Denotes s (-x)
  monic : u.poly.toPolynomial.Monic
  squarefree : Squarefree u.poly.toPolynomial
  associated : Associated u.poly.toPolynomial (t.poly.toPolynomial.comp (-X))
  poly_locator : (s.get u.locator).poly = u.poly
  isolates : u.poly.Isolates (s.get u.locator).interval (-x)
  length_signs : u.signs.length = t.poly.degree - 1
  signs : ∀ k < t.poly.degree - 1, u.signs[k]? =
    some (Sign.ofReal ((Polynomial.derivative^[k + 1] u.poly.overReal).eval (-x)))

theorem Denotes.isOpposite (h : t.Denotes s x) (hu : u.Denotes s (-x))
    (hsq : Squarefree t.poly.toPolynomial) (hp : u.poly = t.poly.reflect.normalized) :
    IsOpposite t u s x := by
  have hdegree := degree_reflect_normalized h.monic
  have hlocates := hu.locates.isolates
  rw [hu.poly_eq] at hlocates
  rw [← hp] at hdegree
  refine ⟨hu, hu.monic, ?_, ?_, hu.poly_eq, hlocates, ?_, fun k hk => ?_⟩
  · rw [hp]
    exact UniPoly.squarefree_reflect_normalized hsq
  · rw [hp]
    exact UniPoly.associated_reflect_normalized t.poly
  · rw [hu.signs_eq, length_signsAt, hdegree]
  · rw [hu.signs_eq]
    exact getElem?_signsAt _ _ (by rwa [hdegree])

/-- The encoding of the opposite root is found from an encoding alone, with the polynomial and the
signs that the isolation of its polynomial finds for that root in any later state. Its own opposite
has the polynomial, the signs and the root of the first encoding. -/
theorem negate_opposite (hs : s.Valid) (h : t.Denotes s x) (hsq : Squarefree t.poly.toPolynomial) :
    Exact t.negate s fun u s₁ => IsOpposite t u s₁ x ∧
      ∀ s₂, s₁.Narrowed s₂ → s₂.Valid →
        Exact (realizeAll u.poly) s₂ (fun ts s₃ => (∃ e ∈ ts, e.Denotes s₃ (-x)) ∧
          ∀ e ∈ ts, e.Denotes s₃ (-x) → e.poly = u.poly ∧ e.signs = u.signs) ∧
        Exact u.negate s₂ fun w s₃ => w.Denotes s₃ x ∧ w.poly = t.poly ∧ w.signs = t.signs := by
  refine (negate_exact hs h).mono fun u s₁ hn₁ hs₁ hu => ?_
  obtain ⟨hden, hpoly, hsigns⟩ := hu
  have hopp := (h.narrowed hs hn₁).isOpposite hden hsq hpoly
  refine ⟨hopp, fun s₂ hn₂ hs₂ => ⟨?_, ?_⟩⟩
  · exact (hden.narrowed hs₁ hn₂).realizeAll_exact hs₂ hopp.squarefree
  · refine (negate_exact hs₂ (hden.narrowed hs₁ hn₂)).mono fun w s₃ _ _ hw => ?_
    rw [neg_neg] at hw
    refine ⟨hw.1, ?_, ?_⟩
    · rw [hw.2.1, hpoly, UniPoly.reflect_normalized_reflect_normalized h.monic]
    · rw [hw.2.2, hsigns, hpoly, degree_reflect_normalized h.monic, reflectSigns_reflectSigns]

/-- The opposite of the square root of two is the root of `x² - 2` at which the derivative is
negative. -/
theorem negate_opposite_sqrtTwo :
    let t : Thom := { poly := .ofCoeffs 0 [-2, 0, 1], signs := [.positive], locator := 0 }
    t.Denotes .sqrtTwo √2 ∧ Squarefree t.poly.toPolynomial ∧
      Exact t.negate .sqrtTwo fun u s => u.Denotes s (-√2) ∧ u.signs = [.negative] := by
  intro t
  have hmonic : t.poly.toPolynomial.Monic := by
    rw [Monic, UniPoly.leadingCoeff_toPolynomial]
    decide +kernel
  have hsq : Squarefree t.poly.toPolynomial := by
    have hself : t.poly.squareFree = t.poly := by decide +kernel
    rw [← hself]
    exact UniPoly.squarefree_toPolynomial_squareFree hmonic.ne_zero
  have hpos : 0 < √2 := Real.sqrt_pos.2 two_pos
  have ht : t.Denotes .sqrtTwo √2 := by
    refine ⟨Nat.one_pos, Locator.locates_sqrtTwo, rfl, hmonic, ?_⟩
    rw [map_derivatives, signsAt_sqrtTwo, Sign.ofReal_of_pos (by positivity)]
  refine ⟨ht, hsq, (negate_opposite Store.valid_sqrtTwo ht hsq).mono fun u s _ _ hu => ?_⟩
  have hpoly : t.poly.toPolynomial.comp (-X) = t.poly.toPolynomial := by
    rw [← UniPoly.toPolynomial_reflect]
    exact congrArg UniPoly.coeffsPolynomial (by decide +kernel)
  have hassoc := hu.1.associated
  rw [hpoly] at hassoc
  have hcoeffs := UniPoly.coeffs_eq_of_toPolynomial_eq
    (eq_of_monic_of_associated hu.1.monic hmonic hassoc)
  refine ⟨hu.1.denotes, ?_⟩
  rw [hu.1.denotes.signs_eq, signsAt_eq_of_coeffs_eq hcoeffs, signsAt_sqrtTwo,
    Sign.ofReal_of_neg (by linarith)]

end Thom

end AlgebraicReal
