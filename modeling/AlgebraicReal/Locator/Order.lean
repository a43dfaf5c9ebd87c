import AlgebraicReal.Locator.Basic

/-!
# Comparing located roots

A root is compared with a rational by narrowing the rational out of its interval. Two roots are equal
if a common divisor of their polynomials has a root where the intervals overlap; otherwise both
intervals are narrowed in turn until they lie apart.
-/

namespace AlgebraicReal

namespace Locator

def compareRational (l : Locator) (q : Rat) : Except Error (Ordering × Locator) := do
  let (differs, l) ← l.avoid q
  let order : Ordering :=
    if !differs then .eq
    else match l.point? with
      | some v => Rational.compare v q
      -- `q` is outside now, so it lies at or beyond one of the ends
      | none => if q ≤ l.interval.lo then .gt else .lt
  return (order, l)

/-- The order of two intervals that lie apart. -/
def disjointOrder (i j : Interval) : Option Ordering :=
  if i.hi ≤ j.lo then some .lt else if j.hi ≤ i.lo then some .gt else none

/-- Whether the two roots are the same: a common divisor of the polynomials has a root in both
intervals. -/
def sameRoot (a b : Locator) : Bool :=
  match a.interval.intersect b.interval with
  | none => false
  | some overlap =>
    let g := if a.poly.coeffs = b.poly.coeffs then a.poly else a.poly.gcd b.poly
    0 < g.degree && 0 < g.countRoots overlap

/-- The order, if it can be read off: one of the roots is known exactly, or the intervals lie
apart. -/
def settleOrder (a b : Locator) : Except Error (Option Ordering × Locator × Locator) :=
  match a.point?, b.point? with
  | some v, _ => do
    let (order, b) ← b.compareRational v
    return (some order.swap, a, b)
  | none, some v => do
    let (order, a) ← a.compareRational v
    return (some order, a, b)
  | none, none => .ok (disjointOrder a.interval b.interval, a, b)

/-- The order of two different roots: narrows both until it can be read off. -/
def separate : Nat → Locator → Locator → Except Error (Ordering × Locator × Locator)
  | 0, _, _ => .error .exhausted
  | rounds + 1, a, b => do
    let (order, a, b) ← settleOrder (← a.refine) (← b.refine)
    match order with
    | some order => return (order, a, b)
    | none => separate rounds a b

def compare (rounds : Nat) (a b : Locator) : Except Error (Ordering × Locator × Locator) := do
  let (order, a, b) ← settleOrder a b
  match order with
  | some order => return (order, a, b)
  | none => if sameRoot a b then return (.eq, a, b) else separate rounds a b

end Locator

end AlgebraicReal
