import AlgebraicReal.Proofs.MvPoly.Raw.Division
import AlgebraicReal.MvPoly.Raw.Determinant

/-!
# What a division finds

A quotient and a remainder belong together if they give the dividend back and no monomial of the
remainder is a multiple of the leading monomial of the divisor (`MvPoly.QuotientRemainder`). For a
divisor other than zero there is one such pair. The division by levels finds it, and so does the
reduction of leading terms, as long as the product of the quotient and the divisor fits into words
(`division_determined`); otherwise a remainder may come out that is none
(`not_quotientRemainder_of_wrap`). So the exact division succeeds on the multiples of the divisor and
on nothing else.
-/

open MvPolynomial

namespace AlgebraicReal

/-- Some product with `n` is `m`. -/
def Monomial.Divides (n m : Monomial) : Prop := ∃ c, n.mul c = m

/-- Divisibility is the order of the exponents, variable by variable. -/
theorem Monomial.divides_iff {n m : Monomial} : n.Divides m ↔ n.toExponents ≤ m.toExponents := by
  constructor
  · rintro ⟨c, rfl⟩
    rw [toExponents_mul]
    exact le_self_add
  · intro h
    cases hdiv : m.div? n with
    | none => exact absurd h (div?_eq_none_iff.1 hdiv)
    | some c => exact ⟨c, div?_eq_some_iff.1 hdiv⟩

namespace MvPoly

/-- The greatest monomial that occurs, which is that of the first term. -/
def leadingMonomial? (p : MvPoly) : Option Monomial := p.terms.head?.map (·.monomial)

/-- A quotient and a remainder of `p` by `d`. -/
structure QuotientRemainder (p d q r : MvPoly) : Prop where
  eq : p = (q.mul d).add r
  reduced : ∀ m ∈ d.leadingMonomial?, ∀ t ∈ r.terms, ¬m.Divides t.monomial

variable {p d q r : MvPoly}

theorem toPolynomial_ne_zero (hd : d ≠ zero) : d.toPolynomial ≠ 0 := fun h =>
  hd (toPolynomial_injective h)

/-- The leading monomial in the order of the polynomial ring. -/
theorem leadingMonomial?_eq_some (hd : d ≠ zero) :
    ∃ m, d.leadingMonomial? = some m ∧ m.toExponents = lexOrder.degree d.toPolynomial := by
  unfold leadingMonomial?
  cases hterms : d.terms with
  | nil => exact absurd (ext hterms) hd
  | cons lead tail => exact ⟨lead.monomial, rfl, (degree_of_cons hterms).symm⟩

/-- The same, said of the elements of the polynomial ring. -/
theorem quotientRemainder_iff (hd : d ≠ zero) : QuotientRemainder p d q r ↔
    IsDivision d.toPolynomial p.toPolynomial q.toPolynomial r.toPolynomial := by
  obtain ⟨m, hm, hdegree⟩ := leadingMonomial?_eq_some hd
  have heq : ((q.mul d).add r).toPolynomial
      = q.toPolynomial * d.toPolynomial + r.toPolynomial := by
    rw [toPolynomial_add, toPolynomial_mul]
  constructor
  · intro h
    refine ⟨?_, fun e he hle => ?_⟩
    · rw [h.eq, heq]
    · obtain ⟨t, ht, rfl⟩ := mem_support_iff.1 he
      rw [← hdegree] at hle
      exact h.reduced m hm t ht (Monomial.divides_iff.2 hle)
  · intro h
    refine ⟨toPolynomial_injective ?_, fun m' hm' t ht hdvd => ?_⟩
    · rw [heq, h.eq]
    · obtain rfl : m = m' := Option.some.inj (hm.symm.trans hm')
      refine h.reduced _ (mem_support_iff.2 ⟨t, ht, rfl⟩) ?_
      rw [← hdegree]
      exact Monomial.divides_iff.1 hdvd

/-! ## Division with remainder -/

theorem divRem?_eq_none_iff : p.divRem? d = none ↔ d = zero := by
  unfold divRem?
  split
  next h => exact iff_of_true rfl (isZero_iff.1 h)
  next h => exact iff_of_false nofun (mt isZero_iff.2 h)

/-- The division finds the pair that belongs together. -/
theorem divRem?_eq_some (hd : d ≠ zero) :
    p.divRem? d = some (q, r) ↔ QuotientRemainder p d q r :=
  (divRem?_eq_some_iff (toPolynomial_ne_zero hd)).trans (quotientRemainder_iff hd).symm

theorem exists_divRem? (hd : d ≠ zero) : ∃ q r, p.divRem? d = some (q, r) := by
  obtain ⟨⟨q, r⟩, h⟩ := Option.ne_none_iff_exists'.1 (mt divRem?_eq_none_iff.1 hd)
  exact ⟨q, r, h⟩

/-! ## Division without remainder -/

/-- A quotient without a remainder. -/
theorem quotientRemainder_zero_iff : QuotientRemainder p d q zero ↔ q.mul d = p := by
  have heq : (q.mul d).add zero = q.mul d := toPolynomial_injective (by
    rw [toPolynomial_add, toPolynomial_zero, add_zero])
  constructor
  · intro h
    rw [h.eq, heq]
  · intro h
    exact ⟨by rw [heq, h], fun _ _ t ht => absurd ht List.not_mem_nil⟩

/-- The exact division finds the quotient if there is one. -/
theorem divExact?_eq_some (hd : d ≠ zero) : p.divExact? d = some q ↔ q.mul d = p := by
  rw [← quotientRemainder_zero_iff, ← divRem?_eq_some hd]
  obtain ⟨q', r, hqr⟩ := exists_divRem? (p := p) hd
  unfold divExact?
  rw [hqr]
  simp only [Option.some_inj, Prod.mk.injEq]
  split
  next hr =>
    rw [isZero_iff] at hr
    rw [Option.some_inj]
    exact (and_iff_left hr).symm
  next hr => exact iff_of_false nofun fun h => hr (isZero_iff.2 h.2)

/-- A quotient in the polynomial ring is one among the polynomials. -/
theorem isSome_divExact?_iff (hd : d ≠ zero) :
    (p.divExact? d).isSome = true ↔ d.toPolynomial ∣ p.toPolynomial := by
  rw [Option.isSome_iff_exists]
  constructor
  · rintro ⟨q, hq⟩
    refine ⟨q.toPolynomial, ?_⟩
    rw [← (divExact?_eq_some hd).1 hq, toPolynomial_mul, mul_comm]
  · intro h
    refine ⟨p.quotient d, (divExact?_eq_some hd).2 (toPolynomial_injective ?_)⟩
    rw [toPolynomial_mul]
    exact toPolynomial_quotient (toPolynomial_ne_zero hd) h

theorem divExact?_mul_self (hd : d ≠ zero) : (p.mul d).divExact? d = some p :=
  (divExact?_eq_some hd).2 rfl

/-! ## The division that runs -/

namespace Raw

theorem divExact?_raw (h : p.DivisionFits d) :
    divExact? p.raw d.raw = (p.divExact? d).map MvPoly.raw := by
  unfold divExact? MvPoly.divExact?
  rw [divRem?_raw h]
  cases p.divRem? d with
  | none => rfl
  | some qr =>
    obtain ⟨q, r⟩ := qr
    simp only [Option.map_some, Prod.map_apply]
    cases hr : r.terms with
    | nil =>
      obtain rfl : r = .zero := ext hr
      rfl
    | cons t rest =>
      have hzero : ¬r.isZero = true := by
        rw [isZero, hr]
        exact Bool.false_ne_true
      rw [raw_of_cons hr, if_neg hzero]
      rfl

/-- Taking the product apart again multiplies nothing that did not fit before. -/
theorem divisionFits_mul (hd : d ≠ zero) (h : p.totalDegree + d.totalDegree < 2 ^ 32) :
    (p.mul d).DivisionFits d where
  dividend := fits_mul h
  divisor := (Nat.le_add_left _ _).trans_lt h
  product q r hqr := by
    have hpair := (divRem?_eq_some hd).2 (quotientRemainder_zero_iff.2 (rfl : p.mul d = p.mul d))
    rw [hqr] at hpair
    cases hpair
    exact h

/-- A division without remainder does not leave the words, as its product is the dividend. -/
theorem divisionFits_of_mul (hd : d ≠ zero) (hp : p.Fits) (hdfits : d.Fits) (h : q.mul d = p) :
    p.DivisionFits d where
  dividend := hp
  divisor := hdfits
  product q' r hqr := by
    have hpair := (divRem?_eq_some hd).2 (quotientRemainder_zero_iff.2 h)
    rw [hqr] at hpair
    cases hpair
    by_cases hq : q.isZero = true
    · rw [isZero_iff.1 hq, totalDegree_zero, zero_add]
      exact hdfits
    · rw [← totalDegree_mul hq (mt isZero_iff.1 hd), h]
      exact hp

/-- A division of term lists fails exactly if the divisor is zero. Otherwise, if the product of the
quotient and the divisor fits into words, it ends with the one quotient and the one remainder that
belong together, which give the dividend back. The exact division gives a quotient exactly if the
divisor divides the dividend in the polynomial ring, and then the only one; it takes a product that
fits back to what was multiplied, in whatever order the product was added up. -/
theorem division_determined (reading : Reading) (p d : MvPoly) (h : p.DivisionFits d) :
    (divRem? p.raw d.raw = none ↔ d = zero) ∧
    (d ≠ zero → ∃ q r : MvPoly, divRem? p.raw d.raw = some (q.raw, r.raw) ∧ q.Fits ∧ r.Fits ∧
      QuotientRemainder p d q r ∧ add (mul reading q.raw d.raw) r.raw = p.raw ∧
      ∀ q' r', QuotientRemainder p d q' r' → q' = q ∧ r' = r) ∧
    (d ≠ zero → ∀ q : Raw, divExact? p.raw d.raw = some q ↔
      ∃ f : MvPoly, f.raw = q ∧ ∀ g, g.mul d = p ↔ g = f) ∧
    (d ≠ zero → ((divExact? p.raw d.raw).isSome = true ↔ d.toPolynomial ∣ p.toPolynomial)) ∧
    (d ≠ zero → p.totalDegree + d.totalDegree < 2 ^ 32 →
      divExact? (mul reading p.raw d.raw) d.raw = some p.raw) := by
  refine ⟨?_, fun hd => ?_, fun hd q => ?_, fun hd => ?_, fun hd hfits => ?_⟩
  · rw [divRem?_raw h, Option.map_eq_none_iff, divRem?_eq_none_iff]
  · -- without a bound there is a quotient, and all that the division meets fits
    obtain ⟨q, r, hqr⟩ := exists_divRem? (p := p) hd
    obtain ⟨hq, hr⟩ := h.fits hqr
    have hpair := (divRem?_eq_some hd).1 hqr
    have hproduct := h.product q r hqr
    refine ⟨q, r, ?_, hq, hr, hpair, ?_, fun q' r' h' => ?_⟩
    · rw [divRem?_raw h, hqr]
      rfl
    · rw [mul_raw reading hproduct, add_raw (fits_mul hproduct) hr, ← hpair.eq]
    · rw [← divRem?_eq_some hd, hqr, Option.some_inj, Prod.mk.injEq] at h'
      exact ⟨h'.1.symm, h'.2.symm⟩
  · rw [divExact?_raw h, Option.map_eq_some_iff]
    refine exists_congr fun f => and_comm.trans (and_congr_right fun _ => ?_)
    constructor
    · intro hf g
      rw [← divExact?_eq_some hd, hf, Option.some_inj, eq_comm]
    · intro hf
      exact (divExact?_eq_some hd).2 ((hf f).2 rfl)
  · rw [divExact?_raw h, Option.isSome_map, isSome_divExact?_iff hd]
  · rw [mul_raw reading hfits, divExact?_raw (divisionFits_mul hd hfits), divExact?_mul_self hd,
      Option.map_some]

/-- `x0² x1 + x0 x1² + x1²` by `x0 x1 - 1`. -/
theorem division_determined_quadratic :
    let x := ofVar 0
    let y := ofVar 1
    let p := ((x.mul (x.mul y)).add (x.mul (y.mul y))).add (y.mul y)
    let d := (x.mul y).sub one
    p.DivisionFits d ∧ d ≠ zero ∧
      divRem? p.raw d.raw = some ((x.add y).raw, ((x.add (y.mul y)).add y).raw) ∧
      (∀ q r, QuotientRemainder p d q r → q = x.add y ∧ r = (x.add (y.mul y)).add y) ∧
      divExact? p.raw d.raw = none ∧
      divExact? (mul .forward p.raw d.raw) d.raw = some p.raw := by
  intro x y p d
  have hd : d ≠ zero := by decide_cbv
  have hcomputed : p.divRem? d = some (x.add y, (x.add (y.mul y)).add y) := by decide +kernel
  have hfits : p.DivisionFits d := by
    refine ⟨by decide_cbv, by decide_cbv, fun q r hqr => ?_⟩
    rw [hcomputed] at hqr
    cases hqr
    decide_cbv
  obtain ⟨-, hdivision, -, hexact, hmultiple⟩ := division_determined .forward p d hfits
  obtain ⟨q, r, hqr, hq, hr, -, -, hunique⟩ := hdivision hd
  rw [divRem?_raw hfits, hcomputed] at hqr
  obtain ⟨hq', hr'⟩ := Prod.mk.inj (Option.some.inj hqr)
  have hsum : (x.add y).Fits := by decide_cbv
  have hrest : ((x.add (y.mul y)).add y).Fits := by decide_cbv
  obtain rfl := raw_inj hsum hq hq'
  obtain rfl := raw_inj hrest hr hr'
  refine ⟨hfits, hd, ?_, hunique, ?_, hmultiple hd (by decide_cbv)⟩
  · rw [divRem?_raw hfits, hcomputed]
    rfl
  · rw [divExact?_raw hfits, show p.divExact? d = none by decide_cbv, Option.map_none]

/-- Where an exponent of the product wraps around, no quotient and remainder come out: from the
square of `x0` the divisor `x0 - x1 ^ (2 ^ 31 + 1)` leaves the square of `x1`. -/
theorem not_quotientRemainder_of_wrap : ¬∀ p d : MvPoly, p.Fits → d.Fits → d ≠ zero →
    ∃ q r : MvPoly, divRem? p.raw d.raw = some (q.raw, r.raw) ∧ q.Fits ∧ r.Fits ∧
      QuotientRemainder p d q r := by
  intro h
  set p : MvPoly := MvPoly.varPower 0 2
  set d : MvPoly := (ofVar 0).sub (MvPoly.varPower 1 2147483649)
  set f : MvPoly := (ofVar 0).add (MvPoly.varPower 1 2147483649)
  have hp : p.raw = varPower 0 2 := by decide_cbv
  have hd : d.raw = [⟨1, .power 0 1⟩, ⟨-1, .power 1 2147483649⟩] := by decide_cbv
  obtain ⟨q, r, hqr, hq, hr, hpair⟩ := h p d (by decide_cbv)
    (by decide_cbv) (by decide_cbv)
  have hcomputed : divRem? (varPower 0 2) [⟨1, .power 0 1⟩, ⟨-1, .power 1 2147483649⟩]
      = some ([⟨1, .power 0 1⟩, ⟨1, .power 1 2147483649⟩], varPower 1 2) := by cbv
  rw [hp, hd, hcomputed] at hqr
  obtain ⟨hq', hr'⟩ := Prod.mk.inj (Option.some.inj hqr)
  have hf : f.raw = q.raw := hq' ▸ by decide_cbv
  have hrest : (MvPoly.varPower 1 2).raw = r.raw := hr' ▸ by decide_cbv
  obtain rfl := raw_inj (by decide_cbv) hq hf
  obtain rfl := raw_inj (by decide_cbv) hr hrest
  exact absurd hpair.eq (by decide_cbv)

end Raw

end MvPoly

end AlgebraicReal
