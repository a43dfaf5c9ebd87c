import AlgebraicReal.Number.Basic

/-!
# The order of numbers

Numbers are ordered as reals, whatever their representations. Two Thom encodings are compared as
such; in every other pair an encoding takes part with its locator.
-/

namespace AlgebraicReal

def Form.compareRational (f : Form) (q : Rat) : RefineM Ordering :=
  match f with
  | .rational v => return Rational.compare v q
  | .root id => RefineM.ask id (·.compareRational q)
  | .thom t => t.compareRational q

namespace Number

def compare (x y : Number) : RefineM Ordering := do
  match ← x.current, ← y.current with
  | f, .rational q => f.compareRational q
  | .rational q, f => return (← f.compareRational q).swap
  | .thom t, .thom u => t.compare u
  | .root a, .root b => RefineM.compare a b
  | .thom t, .root b => RefineM.compare t.locator b
  | .root a, .thom u => RefineM.compare a u.locator

/-- Whether the numbers are equal, and whether the first one is less; one comparison answers both. -/
def checkOrder (x y : Number) : RefineM (Bool × Bool) := do
  let order ← x.compare y
  return (order = .eq, order = .lt)

def equal (x y : Number) : RefineM Bool := return (← x.checkOrder y).1

def less (x y : Number) : RefineM Bool := return (← x.checkOrder y).2

end Number

end AlgebraicReal
