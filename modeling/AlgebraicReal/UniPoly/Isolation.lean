import AlgebraicReal.UniPoly.Sturm

/-!
# Isolating real roots

All real roots lie strictly inside Cauchy's bound. Starting from the interval between the two bounds,
an interval with more than one root is halved; a root at the midpoint becomes a point of its own, and
each half is treated in the same way. Since distinct roots lie a positive distance apart, the halving
comes to an end, but no bound on its depth is computed: the caller allows a number of rounds.
-/

namespace AlgebraicReal

namespace UniPoly

/-- The largest absolute value of `c / lc` for a coefficient `c` of the list. -/
def largestRatio (lc : Rat) (cs : List Rat) : Rat :=
  cs.foldr (fun c m => Rational.larger (c.abs / lc) m) 0

theorem largestRatio_nonneg (lc : Rat) (cs : List Rat) : 0 ≤ largestRatio lc cs := by
  induction cs with
  | nil => exact Rat.le_refl
  | cons c cs ih =>
    exact Rat.le_trans ih (Rational.le_larger_right _ _)

/-- Cauchy's bound: the absolute value of every root is smaller. -/
def cauchyBound (p : UniPoly) : Rat :=
  if p.isConstant then 1 else 1 + largestRatio p.leadingCoeff.abs p.coeffs.dropLast

theorem cauchyBound_pos (p : UniPoly) : 0 < p.cauchyBound := by
  have := largestRatio_nonneg p.leadingCoeff.abs p.coeffs.dropLast
  unfold cauchyBound
  split <;> grind

/-- Isolating intervals for the roots strictly between `a` and `b` of the polynomial `p` with the
given Sturm chain, from left to right, if the number of rounds allows it. -/
def bisect (p : UniPoly) (chain : List UniPoly) :
    (rounds : Nat) → (a b : Rat) → a < b → Option (List Interval)
  | 0, _, _, _ => none
  | rounds + 1, a, b, h =>
    match rootsIn chain (.between a b h) with
    | 0 => some []
    | 1 => some [.between a b h]
    | _ => do
      -- an open half does not hold the midpoint, so a root there is reported separately
      let mid := Rational.midpoint a b
      let left ← bisect p chain rounds a mid (Rational.lt_midpoint h)
      let right ← bisect p chain rounds mid b (Rational.midpoint_lt h)
      return left ++ (if p.isRoot mid then [.point mid] else []) ++ right

/-- Isolating intervals for all real roots, from left to right: each is an open interval with exactly
one root or the point at a rational root. With `splitAtZero`, a root at zero is a point and no open
interval contains zero. -/
def isolateRoots? (rounds : Nat) (p : UniPoly) (splitAtZero : Bool) : Option (List Interval) :=
  let s := p.squareFree
  if s.isConstant then some []
  else
    let chain := s.sturmChain
    have pos := s.cauchyBound_pos
    if splitAtZero then do
      let left ← bisect s chain rounds (-s.cauchyBound) 0 (by grind)
      let right ← bisect s chain rounds 0 s.cauchyBound pos
      return left ++ (if s.isRoot 0 then [.point 0] else []) ++ right
    else bisect s chain rounds (-s.cauchyBound) s.cauchyBound (by grind)

end UniPoly

end AlgebraicReal
