/-!
# Exact rational arithmetic

What the rest of the library asks of the rationals beyond their field operations: a fraction with a
checked denominator, the size of a stored fraction, a midpoint that lies strictly between its ends,
and the integer of an open interval that lies closest to zero.
-/

namespace AlgebraicReal.Rational

/-- The fraction `n / d` in lowest terms, if the denominator is nonzero. -/
def ofFraction? (n d : Int) : Option Rat :=
  if d = 0 then none else some (Rat.divInt n d)

/-- The number of binary digits of `n`; zero has none. -/
def bitLength (n : Nat) : Nat :=
  if n = 0 then 0 else n.log2 + 1

/-- The number of bits that hold the numerator and the denominator. -/
def bitSize (q : Rat) : Nat :=
  bitLength q.num.natAbs + bitLength q.den

/-- A fraction in lowest terms is an integer when its denominator is one. -/
def isInteger (q : Rat) : Bool := q.den == 1

def compare (a b : Rat) : Ordering := compareOfLessAndEq a b

def smaller (a b : Rat) : Rat := if a ≤ b then a else b

def larger (a b : Rat) : Rat := if a ≤ b then b else a

def midpoint (a b : Rat) : Rat := (a + b) / 2

/-- The integer strictly between `lo` and `hi` that is closest to zero. -/
def integerBetween (lo hi : Rat) : Option Rat :=
  if hi ≤ lo then none
  else if lo < 0 ∧ 0 < hi then some 0
  else
    let candidate : Rat := if 0 ≤ lo then lo.floor + 1 else hi.ceil - 1
    if lo < candidate ∧ candidate < hi then some candidate else none

/-- A whole number is written without its denominator. -/
def text (q : Rat) : String :=
  if q.den = 1 then toString q.num else toString q.num ++ "/" ++ toString q.den

theorem le_larger_left (a b : Rat) : a ≤ larger a b := by grind [larger]

theorem le_larger_right (a b : Rat) : b ≤ larger a b := by grind [larger]

theorem lt_midpoint {a b : Rat} (h : a < b) : a < midpoint a b := by
  unfold midpoint
  rw [Rat.lt_div_iff (by decide)]
  grind

theorem midpoint_lt {a b : Rat} (h : a < b) : midpoint a b < b := by
  unfold midpoint
  rw [Rat.div_lt_iff (by decide)]
  grind

theorem integerBetween_mem {lo hi q : Rat} (h : integerBetween lo hi = some q) :
    lo < q ∧ q < hi := by
  grind [integerBetween]

end AlgebraicReal.Rational
