import AlgebraicReal.UniPoly.Isolation

/-!
# Isolation with a worklist

The search for isolating intervals keeps the intervals that are still to be looked at in a list. It
takes the one that was added last, and puts the two halves of an interval with several roots in its
place. What it finds comes in the order of the search, and is sorted by the ends in the end.
-/

namespace AlgebraicReal

/-- By the lower ends, and with equal lower ends by the upper ends. -/
def Interval.sortsBefore (i j : Interval) : Bool := i.lo < j.lo ∨ i.lo = j.lo ∧ i.hi ≤ j.hi

namespace UniPoly

/-- Adds isolating intervals for the roots in the listed open intervals. Without a result if the
list never becomes empty or if one of the intervals would be empty. -/
def search (p : UniPoly) (chain : List UniPoly) (found : List Interval) :
    List (Rat × Rat) → Option (List Interval)
  | [] => some found
  | (a, b) :: queue => do
    let i ← Interval.open? a b
    match rootsIn chain i with
    | 0 => p |>.search chain found queue
    | 1 => p |>.search chain (found ++ [i]) queue
    | _ =>
      let mid := Rational.midpoint a b
      let found := found ++ if p.isRoot mid then [.point mid] else []
      p |>.search chain found ((mid, b) :: (a, mid) :: queue)
partial_fixpoint

/-- Isolating intervals for all real roots, from left to right. -/
def searchRoots? (p : UniPoly) (splitAtZero : Bool) : Option (List Interval) :=
  let s := p.squareFree
  if s.isConstant then some []
  else do
    let bound := s.cauchyBound
    let found ←
      if splitAtZero then
        search s s.sturmChain (if s.isRoot 0 then [.point 0] else []) [(0, bound), (-bound, 0)]
      else search s s.sturmChain [] [(-bound, bound)]
    return found.mergeSort Interval.sortsBefore

end UniPoly

end AlgebraicReal
