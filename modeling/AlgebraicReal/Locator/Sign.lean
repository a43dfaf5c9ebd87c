import AlgebraicReal.Locator.Basic

/-!
# The sign of a polynomial at a located root

Whether a polynomial vanishes at the root is decided without narrowing: the greatest common divisor
with the defining polynomial must have a root in the interval. If it does not vanish, the interval is
narrowed until the polynomial has no root in it, and then any element of the interval shows the sign.
-/

namespace AlgebraicReal

namespace Locator

/-- Whether the root is a root of `q` too. -/
def isRootOf (l : Locator) (q : UniPoly) : Bool :=
  match l.point? with
  | some v => q.isRoot v
  | none =>
    if q.isZero then true
    else
      let g := l.poly.gcd q
      0 < g.degree && 0 < g.countRoots l.interval

/-- The sign at the root of a polynomial `q` that does not vanish there, given the Sturm chain of
`q`. -/
def signLoop (q : UniPoly) (chain : List UniPoly) : Nat → Locator → Except Error (Sign × Locator)
  | 0, _ => .error .exhausted
  | rounds + 1, l =>
    match l.point? with
    | some v => .ok (q.signAt v, l)
    | none =>
      if UniPoly.rootsIn chain l.interval = 0 then .ok (q.signAt l.interval.sample, l)
      else do signLoop q chain rounds (← l.refine)

/-- The sign of a polynomial at the root, with its chain computed once. -/
def sign (rounds : Nat) (q : UniPoly) (l : Locator) : Except Error (Sign × Locator) :=
  match l.point? with
  | some v => .ok (q.signAt v, l)
  | none => if l.isRootOf q then .ok (.zero, l) else signLoop q q.sturmChain rounds l

/-- The sign of the root itself. -/
def signOfRoot (l : Locator) : Except Error (Sign × Locator) := do
  let (differs, l) ← l.avoid 0
  return (if differs then l.interval.sign?.getD .zero else .zero, l)

/-- The signs at the root of the listed polynomials, one after the other. -/
def signs (rounds : Nat) : List UniPoly → Locator → Except Error (List Sign × Locator)
  | [], l => .ok ([], l)
  | q :: qs, l => do
    let (s, l) ← l.sign rounds q
    let (ss, l) ← l.signs rounds qs
    return (s :: ss, l)

end Locator

end AlgebraicReal
