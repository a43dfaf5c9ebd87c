import AlgebraicReal.UniPoly.Basic

/-!
# Division with remainder, greatest common divisors and square-free parts

The division follows the coefficients of the dividend: the remainder of `c + x * p` is found from the
remainder of `p` by putting `c` before it and, if it has become as long as the divisor, subtracting
the multiple of the divisor that cancels the leading coefficient. So remainders are always shorter
than the divisor (`length_divideCoeffs_lt`), which is why Euclid's algorithm ends.
-/

namespace AlgebraicReal

namespace UniPoly

def divideCoeffs (d : List Rat) : List Rat → List Rat × List Rat
  | [] => ([], [])
  | c :: p =>
    let (q, r) := divideCoeffs d p
    let s := consTrim c r
    if s.length < d.length then (consTrim 0 q, s)
    else
      let k := s.getLastD 0 / d.getLastD 0
      (consTrim k q, trim (List.zipWith (fun a b => a - k * b) s d))

theorem getLast?_zipWith {f : Rat → Rat → Rat} :
    ∀ {s d : List Rat}, s ≠ [] → s.length = d.length →
      (List.zipWith f s d).getLast? = some (f (s.getLastD 0) (d.getLastD 0))
  | [], _, h, _ => absurd rfl h
  | [_], [_], _, _ => rfl
  | _ :: a :: s, _ :: b :: d, _, h => by
    have ih := getLast?_zipWith (f := f) (s := a :: s) (d := b :: d) (by simp)
      (by simpa using h)
    simpa [List.getLast?_cons_cons, List.getLastD] using ih

theorem length_divideCoeffs_lt {d : List Rat} (hd : d ≠ []) (hlast : d.getLast? ≠ some 0) :
    ∀ p : List Rat, (divideCoeffs d p).2.length < d.length
  | [] => by simpa [divideCoeffs] using List.length_pos_iff.2 hd
  | c :: p => by
    have ih := length_divideCoeffs_lt hd hlast p
    simp only [divideCoeffs]
    split
    · assumption
    · -- the remainder so far has become as long as `d`; the subtraction cancels its last entry
      have hle := length_consTrim_le c (divideCoeffs d p).2
      have hlen : (consTrim c (divideCoeffs d p).2).length = d.length := by omega
      have hne : consTrim c (divideCoeffs d p).2 ≠ [] := by
        intro h
        rw [h] at hlen
        exact hd (List.length_eq_zero_iff.1 hlen.symm)
      have hlc : d.getLastD 0 ≠ 0 := by
        rw [List.getLastD_eq_getLast?]
        cases h : d.getLast? with
        | none => exact absurd (List.getLast?_eq_none_iff.1 h) hd
        | some c => simpa [h] using hlast
      refine Nat.lt_of_lt_of_le (length_trim_lt ?_) ?_
      · rw [getLast?_zipWith hne hlen, Rat.div_mul_cancel hlc, Rat.sub_self]
      · simp [hlen]

theorem divideCoeffs_trimmed (d : List Rat) :
    ∀ p : List Rat, (divideCoeffs d p).1.getLast? ≠ some 0 ∧ (divideCoeffs d p).2.getLast? ≠ some 0
  | [] => by simp [divideCoeffs]
  | c :: p => by
    have ih := divideCoeffs_trimmed d p
    simp only [divideCoeffs]
    split
    · exact ⟨consTrim_trimmed ih.1, consTrim_trimmed ih.2⟩
    · exact ⟨consTrim_trimmed ih.1, trim_trimmed _⟩

/-- The quotient of a division by a nonzero polynomial. -/
def quotient (p d : UniPoly) : UniPoly :=
  ⟨p.var, (divideCoeffs d.coeffs p.coeffs).1, (divideCoeffs_trimmed _ _).1⟩

/-- The remainder of a division by a nonzero polynomial. -/
def remainder (p d : UniPoly) : UniPoly :=
  ⟨p.var, (divideCoeffs d.coeffs p.coeffs).2, (divideCoeffs_trimmed _ _).2⟩

theorem length_remainder_lt (p : UniPoly) {d : UniPoly} (h : ¬d.isZero = true) :
    (p.remainder d).coeffs.length < d.coeffs.length :=
  length_divideCoeffs_lt (fun e => h (isZero_iff.2 e)) d.trimmed _

/-- Quotient and remainder, unless the divisor is zero. -/
def divRem? (p d : UniPoly) : Option (UniPoly × UniPoly) :=
  if d.isZero then none else some (p.quotient d, p.remainder d)

/-- The algorithm of Euclid. -/
def gcdLoop (a b : UniPoly) : UniPoly :=
  if _h : b.isZero = true then a.normalized else gcdLoop b (a.remainder b)
termination_by b.coeffs.length
decreasing_by exact length_remainder_lt a _h

/-- The greatest common divisor, with leading coefficient one unless both polynomials are zero. -/
def gcd (p q : UniPoly) : UniPoly := gcdLoop p (q.withVar p.var)

/-- The polynomial with the same roots, all simple, and leading coefficient one. -/
def squareFree (p : UniPoly) : UniPoly :=
  if p.isConstant then p.normalized else (p.quotient (p.gcd p.derivative)).normalized

end UniPoly

end AlgebraicReal
