import AlgebraicReal.Point

/-!
# A radius without a limit on the search

The factors of the variable are taken off by their number, and the radius is halved for as long as
the polynomial that is left has a root between its two ends. Nothing says that this comes to an end.
-/

namespace AlgebraicReal

/-- Halves `r` as long as the polynomial has a root from `-r` to `r`, the ends included. -/
def UniPoly.halveRadius (q : UniPoly) (r : Rat) : Option Rat := do
  let i ← Interval.closed? (-r) r
  if 0 < q.countRoots i then q |>.halveRadius (r / 2) else some r
partial_fixpoint

/-- A radius around zero inside which a nonzero polynomial has no root but zero; nothing if zero is
no root. Without a result if the halving never ends. -/
def AlgebraicPoint.searchRadius? (h : UniPoly) : Option (Option Rat) :=
  if h.constantCoeff ≠ 0 then some none
  else do
    let skip := (h.coeffs.takeWhile (· = 0)).length
    let r ← (UniPoly.ofCoeffs h.var (h.coeffs.drop skip)).halveRadius 1
    return some r

end AlgebraicReal
