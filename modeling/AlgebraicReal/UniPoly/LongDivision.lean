import AlgebraicReal.UniPoly.Division

/-!
# Long division in place

One list holds the dividend at first and the remainder at last. The digits of the quotient are found
from the highest place down: each is the ratio of the coefficient that it clears and the leading
coefficient of the divisor, and the multiple of the divisor, moved up to its place, is subtracted
from the list at once. A digit that is zero leaves the list alone, and a dividend shorter than the
divisor is the remainder as it stands.

The loop relies on its places and does not look whether they are there. Reading or writing outside
of a list, or dividing by zero, gives no result.
-/

namespace AlgebraicReal

namespace UniPoly

/-- The list without the zeros at its end, which are taken off one after the other. -/
def popZeros (cs : List Rat) : List Rat :=
  if _h : cs.getLast? = some 0 then popZeros cs.dropLast else cs
termination_by cs.length
decreasing_by
  have hne : cs ≠ [] := by
    rintro rfl
    cases _h
  have := List.length_pos_iff.2 hne
  rw [List.length_dropLast]
  omega

theorem popZeros_trimmed (cs : List Rat) : (popZeros cs).getLast? ≠ some 0 := by
  fun_induction popZeros cs with
  | case1 cs h ih => exact ih
  | case2 cs h => exact h

/-- The polynomial with the given coefficients, once the zeros at the end are taken off. -/
def ofPopped (v : Var) (cs : List Rat) : UniPoly := ⟨v, popZeros cs, popZeros_trimmed cs⟩

/-- Puts a number at a place of the list, if there is that place. -/
def put? (cs : List Rat) (i : Nat) (c : Rat) : Option (List Rat) :=
  if i < cs.length then some (cs.set i c) else none

def ratio? (a b : Rat) : Option Rat := if b = 0 then none else some (a / b)

/-- Subtracts `k` times a divisor, whose constant coefficient is at place `i`. -/
def subtractAt? (k : Rat) : (i : Nat) → (d cs : List Rat) → Option (List Rat)
  | _, [], cs => some cs
  | i, c :: d, cs => do
    let a ← cs[i]?
    let cs ← put? cs i (a - k * c)
    subtractAt? k (i + 1) d cs

/-- Takes what a digit `k` at place `n` stands for off the rest, if it stands for anything. -/
def takeOff? (d : List Rat) (n : Nat) (k : Rat) (rest : List Rat) : Option (List Rat) :=
  if k = 0 then some rest else subtractAt? k n d rest

/-- Finds the digit of the quotient at place `n`. -/
def findDigit? (d : List Rat) (n : Nat) (quot rest : List Rat) :
    Option (List Rat × List Rat) := do
  let top ← rest[n + (d.length - 1)]?
  let k ← ratio? top (d.getLastD 0)
  let rest ← takeOff? d n k rest
  let quot ← put? quot n k
  return (quot, rest)

/-- Finds the digits at all places below `n`, the highest first. -/
def findDigits? (d : List Rat) : (n : Nat) → (quot rest : List Rat) → Option (List Rat × List Rat)
  | 0, quot, rest => some (quot, rest)
  | n + 1, quot, rest => do
    let (quot, rest) ← findDigit? d n quot rest
    findDigits? d n quot rest

/-- Quotient and remainder of a division by a nonzero polynomial. -/
def longDivide? (p d : UniPoly) : Option (UniPoly × UniPoly) :=
  if p.coeffs.length < d.coeffs.length then some (zero p.var, p)
  else do
    let places := p.coeffs.length - d.degree
    let (quot, rest) ← findDigits? d.coeffs places (List.replicate places 0) p.coeffs
    return (ofPopped p.var quot, ofPopped p.var (rest.take d.degree))

/-- Quotient and remainder, unless the divisor is zero. -/
def longDivRem? (p d : UniPoly) : Option (UniPoly × UniPoly) :=
  if d.isZero then none else p.longDivide? d

end UniPoly

end AlgebraicReal
