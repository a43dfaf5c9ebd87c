import AlgebraicReal.UniPoly.LongDivision
import AlgebraicReal.Proofs.UniPoly.Division

/-!
# What a division of dense polynomials finds

A quotient and a remainder belong together if they give the dividend back and the remainder is zero
or of smaller degree than the divisor (`QuotientRemainder`). By a nonzero divisor there is one such
pair, because two remainders differ by a multiple of the divisor (`QuotientRemainder.unique`).

Long division in place finds it too. While it runs, the digits found so far times the divisor and
the rest of the dividend add up to the dividend, and the rest is zero from the divisor's reach at
the last digit on (`Underway`); every digit keeps that up (`Underway.findDigit?`), and no place is
missed. After the last digit the rest is shorter than the divisor, so it is the remainder.
-/

open Polynomial

namespace AlgebraicReal.UniPoly

/-! ## Quotients and remainders -/

/-- The sum, in the variable of the first polynomial. -/
def add (p q : UniPoly) : UniPoly := ofCoeffs p.var (addCoeffs p.coeffs q.coeffs)

theorem toPolynomial_add (p q : UniPoly) :
    (p.add q).toPolynomial = p.toPolynomial + q.toPolynomial := by
  unfold UniPoly.add
  rw [toPolynomial_ofCoeffs, coeffsPolynomial_addCoeffs]
  rfl

/-- A quotient and a remainder of `p` by `d`. -/
structure QuotientRemainder (p d q r : UniPoly) : Prop where
  eq : p = (q.mul d).add r
  var_eq : r.var = p.var
  reduced : r.isZero = true ∨ r.degree < d.degree

variable {p d q r q' r' : UniPoly}

/-- Two remainders differ by a multiple of the divisor, which is too small for one but zero. -/
theorem coeffs_eq_of_reduced (hd : ¬d.isZero = true)
    (h : q.toPolynomial * d.toPolynomial + r.toPolynomial
      = q'.toPolynomial * d.toPolynomial + r'.toPolynomial)
    (hr : r.isZero = true ∨ r.degree < d.degree) (hr' : r'.isZero = true ∨ r'.degree < d.degree) :
    q.coeffs = q'.coeffs ∧ r.coeffs = r'.coeffs := by
  have hmul : (q.toPolynomial - q'.toPolynomial) * d.toPolynomial
      = r'.toPolynomial - r.toPolynomial := by linear_combination h
  have hdegree : (r'.toPolynomial - r.toPolynomial).degree < d.toPolynomial.degree :=
    (degree_sub_le _ _).trans_lt
      (max_lt (degree_toPolynomial_lt hd hr') (degree_toPolynomial_lt hd hr))
  have hzero : r'.toPolynomial - r.toPolynomial = 0 :=
    eq_zero_of_dvd_of_degree_lt (hmul ▸ dvd_mul_left _ _) hdegree
  rw [hzero] at hmul
  have hq := (mul_eq_zero.1 hmul).resolve_right (toPolynomial_ne_zero_iff.2 hd)
  exact ⟨coeffs_eq_of_toPolynomial_eq (sub_eq_zero.1 hq),
    coeffs_eq_of_toPolynomial_eq (sub_eq_zero.1 hzero).symm⟩

/-- The identity, in the polynomial ring. -/
theorem QuotientRemainder.toPolynomial_eq (h : QuotientRemainder p d q r) :
    p.toPolynomial = q.toPolynomial * d.toPolynomial + r.toPolynomial := by
  conv_lhs => rw [h.eq]
  rw [toPolynomial_add, toPolynomial_mul]

theorem QuotientRemainder.var_quotient (h : QuotientRemainder p d q r) : q.var = p.var := by
  rw [h.eq]
  rfl

/-- Quotient and remainder are unique. -/
theorem QuotientRemainder.unique (hd : ¬d.isZero = true) (h : QuotientRemainder p d q r)
    (h' : QuotientRemainder p d q' r') : q = q' ∧ r = r' := by
  obtain ⟨hq, hr⟩ := coeffs_eq_of_reduced hd (h.toPolynomial_eq.symm.trans h'.toPolynomial_eq)
    h.reduced h'.reduced
  exact ⟨UniPoly.ext (h.var_quotient.trans h'.var_quotient.symm) hq,
    UniPoly.ext (h.var_eq.trans h'.var_eq.symm) hr⟩

theorem quotientRemainder_of_toPolynomial (hq : q.var = p.var) (hr : r.var = p.var)
    (h : p.toPolynomial = q.toPolynomial * d.toPolynomial + r.toPolynomial)
    (hreduced : r.isZero = true ∨ r.degree < d.degree) : QuotientRemainder p d q r where
  eq := by
    refine UniPoly.ext hq.symm (coeffs_eq_of_toPolynomial_eq ?_)
    rw [toPolynomial_add, toPolynomial_mul, h]
  var_eq := hr
  reduced := hreduced

/-- The division from the constant coefficient up finds the pair. -/
theorem quotientRemainder_quotient (p : UniPoly) (hd : ¬d.isZero = true) :
    QuotientRemainder p d (p.quotient d) (p.remainder d) :=
  quotientRemainder_of_toPolynomial rfl rfl (toPolynomial_eq_quotient_mul_add p hd)
    ((length_lt_iff hd).1 (length_remainder_lt p hd))

/-- Division finds the quotient and the remainder. -/
theorem divRem?_eq_some_iff (hd : ¬d.isZero = true) :
    p.divRem? d = some (q, r) ↔ QuotientRemainder p d q r := by
  have hspec := quotientRemainder_quotient p hd
  unfold divRem?
  rw [if_neg hd, Option.some_inj, Prod.mk.injEq]
  constructor
  · rintro ⟨rfl, rfl⟩
    exact hspec
  · exact fun h => hspec.unique hd h

/-- It refuses exactly to divide by zero. -/
theorem divRem?_eq_none_iff : p.divRem? d = none ↔ d.isZero = true := by
  unfold divRem?
  split
  next h => exact iff_of_true rfl h
  next h => exact iff_of_false nofun h

/-! ## Lists with zeros at the end -/

theorem trim_concat_zero (cs : List ℚ) : trim (cs ++ [0]) = trim cs := by
  unfold trim
  rw [List.foldr_append]
  rfl

/-- Zeros are popped until the last coefficient is not zero. -/
theorem popZeros_eq_trim (cs : List ℚ) : popZeros cs = trim cs := by
  fun_induction popZeros cs with
  | case1 cs h ih =>
    rw [ih, ← trim_concat_zero cs.dropLast, List.dropLast_append_getLast? 0 h]
  | case2 cs h => exact (trim_eq_self h).symm

theorem ofPopped_eq_ofCoeffs (v : Var) (cs : List ℚ) : ofPopped v cs = ofCoeffs v cs :=
  UniPoly.ext rfl (popZeros_eq_trim cs)

theorem coeffsPolynomial_replicate_zero (n : ℕ) :
    coeffsPolynomial (List.replicate n (0 : ℚ)) = 0 := by
  ext k
  rw [coeff_coeffsPolynomial, coeff_zero, List.getD_eq_getElem?_getD, List.getElem?_replicate]
  split <;> rfl

/-- Taking the start of a list changes nothing if only zeros follow. -/
theorem coeffsPolynomial_take {cs : List ℚ} {n : ℕ} (h : ∀ i, n ≤ i → cs.getD i 0 = 0) :
    coeffsPolynomial (cs.take n) = coeffsPolynomial cs := by
  ext k
  rw [coeff_coeffsPolynomial, coeff_coeffsPolynomial, List.getD_eq_getElem?_getD,
    List.getElem?_take]
  split
  next => rw [List.getD_eq_getElem?_getD]
  next hk => exact (h k (not_lt.1 hk)).symm

/-- A coefficient that is overwritten changes the polynomial by one power. -/
theorem coeffsPolynomial_set {cs : List ℚ} {i : ℕ} (hi : i < cs.length) (c : ℚ) :
    coeffsPolynomial (cs.set i c) = coeffsPolynomial cs + C (c - cs.getD i 0) * X ^ i := by
  ext k
  rw [coeff_add, coeff_C_mul_X_pow, coeff_coeffsPolynomial, coeff_coeffsPolynomial,
    List.getD_eq_getElem?_getD, List.getElem?_set]
  by_cases hk : i = k
  · subst hk
    rw [if_pos rfl, if_pos hi, if_pos rfl]
    simp
  · rw [if_neg hk, if_neg (Ne.symm hk), List.getD_eq_getElem?_getD, add_zero]

theorem getD_set_of_ne {cs : List ℚ} {i j : ℕ} (h : i ≠ j) (c : ℚ) :
    (cs.set i c).getD j 0 = cs.getD j 0 := by
  rw [List.getD_eq_getElem?_getD, List.getD_eq_getElem?_getD, List.getElem?_set_ne h]

/-! ## Subtracting a multiple of the divisor -/

/-- The induction follows the divisor; what is subtracted of it moves up by one place each time. -/
theorem exists_subtractAt? (k : ℚ) : ∀ {i : ℕ} {d cs : List ℚ}, i + d.length ≤ cs.length →
    ∃ cs', subtractAt? k i d cs = some cs' ∧ cs'.length = cs.length ∧
      coeffsPolynomial cs' = coeffsPolynomial cs - C k * coeffsPolynomial d * X ^ i
  | _, [], cs, _ => ⟨cs, rfl, rfl, by simp [coeffsPolynomial]⟩
  | i, c :: d, cs, hlen => by
    rw [List.length_cons] at hlen
    have hi : i < cs.length := by omega
    have hset : (cs.set i (cs[i] - k * c)).length = cs.length := List.length_set
    have hfit : i + 1 + d.length ≤ (cs.set i (cs[i] - k * c)).length := by omega
    obtain ⟨cs', hsub, hlen', hpoly⟩ := exists_subtractAt? k hfit
    refine ⟨cs', ?_, hlen'.trans hset, ?_⟩
    · rw [subtractAt?, List.getElem?_eq_getElem hi, Option.bind_eq_bind, Option.bind_some, put?,
        if_pos hi, Option.bind_eq_bind, Option.bind_some]
      exact hsub
    · rw [hpoly, coeffsPolynomial_set hi, List.getD_eq_getElem _ _ hi, coeffsPolynomial_cons,
        sub_sub_cancel_left, C_neg, C_mul]
      ring

/-- Skipping the subtraction of nothing makes no difference. -/
theorem exists_takeOff? (k : ℚ) {n : ℕ} {d cs : List ℚ} (h : n + d.length ≤ cs.length) :
    ∃ cs', takeOff? d n k cs = some cs' ∧ cs'.length = cs.length ∧
      coeffsPolynomial cs' = coeffsPolynomial cs - C k * coeffsPolynomial d * X ^ n := by
  unfold takeOff?
  split
  next hk =>
    refine ⟨cs, rfl, rfl, ?_⟩
    rw [hk, C_0, zero_mul, zero_mul, sub_zero]
  next => exact exists_subtractAt? k h

/-! ## The loop -/

/-- The division of `p` by `d` with the digits from place `n` up found. -/
structure Underway (p d : List ℚ) (n : ℕ) (quot rest : List ℚ) : Prop where
  length_rest : rest.length = p.length
  length_quot : quot.length + (d.length - 1) = p.length
  eq : coeffsPolynomial p
    = coeffsPolynomial quot * coeffsPolynomial d + coeffsPolynomial rest
  blank : ∀ i < n, quot.getD i 0 = 0
  cleared : ∀ i, n + (d.length - 1) ≤ i → rest.getD i 0 = 0

section

variable {a b : List ℚ} {n : ℕ} {quot rest : List ℚ}

/-- Before the first digit the invariant holds. -/
theorem underway_start (h : b.length ≤ a.length) :
    Underway a b (a.length - (b.length - 1)) (List.replicate (a.length - (b.length - 1)) 0) a where
  length_rest := rfl
  length_quot := by
    rw [List.length_replicate]
    omega
  eq := by rw [coeffsPolynomial_replicate_zero, zero_mul, zero_add]
  blank i _ := by
    rw [List.getD_eq_getElem?_getD, List.getElem?_replicate]
    split <;> rfl
  cleared i hi := List.getD_eq_default _ _ (by omega)

theorem getLastD_eq_coeff (b : List ℚ) :
    b.getLastD 0 = (coeffsPolynomial b).coeff (b.length - 1) := by
  rw [coeff_coeffsPolynomial, List.getLastD_eq_getLast?, List.getLast?_eq_getElem?,
    List.getD_eq_getElem?_getD]

/-- One more digit: the coefficient that it is made from becomes zero, and those above it stay. -/
theorem Underway.findDigit? (hb : b.getLastD 0 ≠ 0) (h : Underway a b (n + 1) quot rest)
    (hn : n < quot.length) :
    ∃ quot' rest', UniPoly.findDigit? b n quot rest = some (quot', rest') ∧
      Underway a b n quot' rest' := by
  have hlen := h.length_rest
  have hquot := h.length_quot
  have hpos : 0 < b.length := by
    rw [List.length_pos_iff]
    rintro rfl
    exact hb rfl
  have hfit : n + b.length ≤ rest.length := by omega
  have htop : n + (b.length - 1) < rest.length := by omega
  set k : ℚ := rest[n + (b.length - 1)] / b.getLastD 0 with hk
  -- no access leaves its list, so each of the three steps gives a result
  have hratio : ratio? rest[n + (b.length - 1)] (b.getLastD 0) = some k := if_neg hb
  have hput : put? quot n k = some (quot.set n k) := if_pos hn
  obtain ⟨rest', hrest, hlen', hpoly⟩ := exists_takeOff? k hfit
  refine ⟨quot.set n k, rest', ?_, ?_⟩
  · rw [UniPoly.findDigit?, List.getElem?_eq_getElem htop]
    simp only [Option.bind_eq_bind, Option.bind_some, hratio, hrest, hput]
    rfl
  constructor
  case length_rest => rw [hlen', hlen]
  case length_quot => rw [List.length_set, hquot]
  case eq =>
    rw [h.eq, hpoly, coeffsPolynomial_set hn, h.blank n (Nat.lt_succ_self n), sub_zero]
    ring
  case blank =>
    intro i hi
    rw [getD_set_of_ne (by omega)]
    exact h.blank i (by omega)
  case cleared =>
    intro i hi
    rw [← coeff_coeffsPolynomial, hpoly, coeff_sub, mul_assoc, coeff_C_mul, coeff_mul_X_pow',
      if_pos (by omega), coeff_coeffsPolynomial]
    rcases hi.eq_or_lt with rfl | hlt
    · -- the digit was chosen so that the leading coefficient, moved up, cancels this one
      rw [Nat.add_sub_cancel_left, ← getLastD_eq_coeff, List.getD_eq_getElem _ _ htop, hk,
        div_mul_cancel₀ _ hb, sub_self]
    · -- the divisor does not reach this far
      rw [h.cleared i (by omega), coeff_coeffsPolynomial, List.getD_eq_default _ _ (by omega),
        mul_zero, sub_self]

/-- All digits, by as many steps as there are places left. -/
theorem Underway.findDigits? (hb : b.getLastD 0 ≠ 0) : ∀ {n : ℕ} {quot rest : List ℚ},
    Underway a b n quot rest → n ≤ quot.length →
      ∃ quot' rest', UniPoly.findDigits? b n quot rest = some (quot', rest') ∧
        Underway a b 0 quot' rest'
  | 0, quot, rest, h, _ => ⟨quot, rest, rfl, h⟩
  | n + 1, quot, rest, h, hn => by
    obtain ⟨quot', rest', hdigit, h'⟩ := h.findDigit? hb hn
    have hlen := h.length_quot
    have hlen' := h'.length_quot
    obtain ⟨quot'', rest'', hdigits, hend⟩ := h'.findDigits? hb (by omega)
    refine ⟨quot'', rest'', ?_, hend⟩
    rw [UniPoly.findDigits?, hdigit]
    exact hdigits

end

/-- Long division does not fail at a nonzero divisor. -/
theorem exists_longDivide? (p : UniPoly) (hd : ¬d.isZero = true) :
    ∃ q r, p.longDivide? d = some (q, r) ∧ QuotientRemainder p d q r := by
  unfold longDivide?
  split
  next hshort =>
    refine ⟨_, _, rfl, quotientRemainder_of_toPolynomial rfl rfl ?_ ((length_lt_iff hd).1 hshort)⟩
    have hzero : (zero p.var).toPolynomial = 0 := toPolynomial_eq_zero_iff.2 rfl
    rw [hzero, zero_mul, zero_add]
  next hlong =>
    -- coefficient lists do not end in zero, so every ratio of the loop exists
    have hlc : d.coeffs.getLastD 0 ≠ 0 := by
      rw [← UniPoly.leadingCoeff, ← leadingCoeff_toPolynomial]
      exact leadingCoeff_ne_zero.2 (toPolynomial_ne_zero_iff.2 hd)
    have hstart := underway_start (not_lt.1 hlong)
    obtain ⟨quot, rest, hdigits, hend⟩ := hstart.findDigits? hlc (by rw [List.length_replicate])
    have hdigits' : findDigits? d.coeffs (p.coeffs.length - d.degree)
      (List.replicate (p.coeffs.length - d.degree) 0) p.coeffs = some (quot, rest) := hdigits
    have hcleared : ∀ i, d.degree ≤ i → rest.getD i 0 = 0 := fun i hi =>
      hend.cleared i (by rwa [zero_add])
    refine ⟨ofPopped p.var quot, ofPopped p.var (rest.take d.degree), ?_, ?_⟩
    · dsimp only
      rw [hdigits']
      rfl
    refine quotientRemainder_of_toPolynomial rfl rfl ?_ ((length_lt_iff hd).1 ?_)
    · rw [ofPopped_eq_ofCoeffs, ofPopped_eq_ofCoeffs, toPolynomial_ofCoeffs, toPolynomial_ofCoeffs,
        coeffsPolynomial_take hcleared]
      exact hend.eq
    · have hpos : 0 < d.coeffs.length := List.length_pos_iff.2 fun h0 => hd (isZero_iff.2 h0)
      have hle := length_trim_le (rest.take d.degree)
      rw [List.length_take] at hle
      rw [ofPopped_eq_ofCoeffs, coeffs_ofCoeffs]
      unfold UniPoly.degree at hle ⊢
      omega

/-- Both ways to divide come to the same, with every divisor. -/
theorem longDivRem?_eq (p d : UniPoly) : p.longDivRem? d = p.divRem? d := by
  unfold longDivRem?
  split
  next hd => exact (divRem?_eq_none_iff.2 hd).symm
  next hd =>
    obtain ⟨q, r, hlong, hqr⟩ := exists_longDivide? p hd
    rw [hlong, (divRem?_eq_some_iff hd).2 hqr]

/-! ## Both at once -/

/-- A division fails exactly if the divisor is zero. Otherwise it finds a quotient and a remainder
that give the dividend back, in the polynomial ring too, where the remainder is zero or of smaller
degree than the divisor. Neither list of coefficients ends in zero, and no other two polynomials
belong together in this way; so a quotient and a remainder that are put together are found again, in
the variable of the quotient. Long division in place comes to the same. -/
theorem longDivision_exact (p d : UniPoly) :
    p.longDivRem? d = p.divRem? d ∧
      (p.divRem? d = none ↔ d.isZero = true) ∧
      (¬d.isZero = true → ∃ q r, p.divRem? d = some (q, r) ∧ QuotientRemainder p d q r ∧
        p.toPolynomial = q.toPolynomial * d.toPolynomial + r.toPolynomial ∧
        q.coeffs.getLast? ≠ some 0 ∧ r.coeffs.getLast? ≠ some 0 ∧
        ∀ q' r', QuotientRemainder p d q' r' → q' = q ∧ r' = r) ∧
      (¬d.isZero = true → ∀ q r : UniPoly, (r.isZero = true ∨ r.degree < d.degree) →
        ((q.mul d).add r).divRem? d = some (q, r.withVar q.var)) := by
  refine ⟨longDivRem?_eq p d, divRem?_eq_none_iff, fun hd => ?_, fun hd q r hr => ?_⟩
  · have h := quotientRemainder_quotient p hd
    refine ⟨_, _, (divRem?_eq_some_iff hd).2 h, h, h.toPolynomial_eq, ?_, ?_, ?_⟩
    · exact (p.quotient d).trimmed
    · exact (p.remainder d).trimmed
    · intro q' r' h'
      exact h'.unique hd h
  · exact (divRem?_eq_some_iff hd).2 ⟨rfl, rfl, hr⟩

/-- `6x⁵ - x³ + 2x² - x + 4` by `3x³ + x + 1`, which is in another variable: the second digit of the
quotient is zero, and two zeros go from the end of the remainder. -/
theorem longDivision_exact_quintic :
    let p := ofCoeffs 0 [4, -1, 2, -1, 0, 6]
    let d := ofCoeffs 1 [1, 1, 0, 3]
    let q := ofCoeffs 0 [-1, 0, 2]
    let r := ofCoeffs 0 [5]
    ¬d.isZero = true ∧ r.var = q.var ∧ r.degree < d.degree ∧ p.longDivRem? d = some (q, r) ∧
      (∀ q' r', QuotientRemainder p d q' r' → q' = q ∧ r' = r) ∧
      ((q.mul d).add r).divRem? d = some (q, r) := by
  intro p d q r
  have hd : ¬d.isZero = true := by decide +kernel
  have hr : r.degree < d.degree := by decide +kernel
  obtain ⟨hlong, -, hfound, hagain⟩ := longDivision_exact p d
  have hcomputed : p.divRem? d = some (q, r) := by decide +kernel
  obtain ⟨q₁, r₁, hdivision, -, -, -, -, hunique⟩ := hfound hd
  rw [hcomputed, Option.some_inj, Prod.mk.injEq] at hdivision
  obtain ⟨rfl, rfl⟩ := hdivision
  exact ⟨hd, rfl, hr, hlong.trans hcomputed, hunique, hagain hd q r (.inr hr)⟩

end AlgebraicReal.UniPoly
