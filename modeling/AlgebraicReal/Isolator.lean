import AlgebraicReal.Point

/-!
# Real roots under an assignment

The real roots in `v` of a polynomial whose other variables have values are found in four steps.

1. Rational values are put in.
2. Leading coefficients in `v` that vanish at the point are dropped. If all coefficients vanish, every
   number is a root and there is no list of roots.
3. The algebraic values are eliminated by resultants with their defining polynomials. The roots of
   this eliminant include the roots sought, and more: those that belong to other roots of the defining
   polynomials. If the eliminant is zero there is no list of roots either.
4. The roots of the eliminant are isolated, and those are kept at which the polynomial itself vanishes.

An isolator is a configuration of these steps together with a tally of the work done with it.
-/

namespace AlgebraicReal

structure IsolationConfig where
  /-- Isolate the roots of the square-free part of the eliminant. -/
  squareFree : Bool := true
  /-- Flag the numbers found as roots. -/
  markRoots : Bool := true
  /-- Report a root at zero on its own. -/
  splitAtZero : Bool := true
  deriving DecidableEq, Inhabited

variable {P : Type} [Arithmetic P]

namespace AlgebraicPoint

/-- The degree that is left of the listed coefficients, the highest one first, when those that vanish
at the point are dropped. -/
def effectiveDegree (point : AlgebraicPoint) : List P → RefineM (Option Nat)
  | [] => return none
  | c :: lower => do
    if (← point.sign c) = .zero then effectiveDegree point lower else return some lower.length

/-- Eliminates from `e` the coordinates that occur in it; also counts them. -/
def eliminant (s : Store) : AlgebraicPoint → P → Except Error (P × Nat)
  | [], e => .ok (e, 0)
  | c :: cs, e =>
    if Arithmetic.hasVar e c.1 then do
      let (e, n) ← eliminant s cs (← Arithmetic.eliminate e (definingPoly s c))
      return (e, n + 1)
    else eliminant s cs e

/-- Whether `p` vanishes where `v` has the rational value `q`. -/
def vanishesAt (point : AlgebraicPoint) (p : P) (v : Var) (q : Rat) : RefineM Bool :=
  if point.isEmpty then return true
  else return (← point.sign (Arithmetic.evalAt p v q)) = .zero

/-- Whether `p` vanishes where `v` has the value of a locator. -/
def vanishesAtRoot (point : AlgebraicPoint) (p : P) (v : Var) (id : LocatorId) :
    RefineM Bool :=
  if point.isEmpty then return true
  else return (← sign (point ++ [(v, id)]) p) = .zero

end AlgebraicPoint

/-- The number of a locator, kept off zero; the root of a linear polynomial is rational. -/
def Number.ofRoot (id : LocatorId) : RefineM Number := do
  RefineM.narrow id fun l => return (← l.avoid 0).2
  let l := (← get).get id
  return if l.poly.degree = 1 then ofRational (-l.poly.constantCoeff) else { stored := .root id }

/-- The number that an interval isolates as a root of the eliminant `e`, if `p` vanishes there. -/
def AlgebraicPoint.candidate (point : AlgebraicPoint) (p : P) (v : Var) (e : UniPoly)
    (i : Interval) : RefineM (Option Number) := do
  match i.point? with
  | some q => return if ← point.vanishesAt p v q then some (.ofRational q) else none
  | none =>
    let id ← RefineM.allocate (.fresh e i)
    if ← point.vanishesAtRoot p v id then return some (← Number.ofRoot id) else return none

/-- The numbers among the candidates at which `p` vanishes. -/
def AlgebraicPoint.keepRoots (point : AlgebraicPoint) (p : P) (v : Var) (e : UniPoly) :
    List Interval → RefineM (List Number)
  | [] => return []
  | i :: rest => do
    match ← point.candidate p v e i with
    | some x => return x :: (← point.keepRoots p v e rest)
    | none =>
      RefineM.count fun t => { t with rejected := t.rejected + 1 }
      point.keepRoots p v e rest

/-- The real roots in `v` of a polynomial of positive degree at an algebraic point, in ascending
order; nothing if the eliminant is zero. -/
def AlgebraicPoint.roots (point : AlgebraicPoint) (config : IsolationConfig) (p : P) (v : Var) :
    RefineM (Option (List Number)) := do
  let (e, eliminations) ← RefineM.ofExcept (point.eliminant (← get) p)
  RefineM.count fun t => { t with eliminations := t.eliminations + eliminations }
  if Arithmetic.isZero e then return none
  let e ← RefineM.ofExcept (Arithmetic.toUniPoly e v)
  let e := if config.squareFree then e.squareFree else e.normalized
  match e.isolateRoots? (← read) config.splitAtZero with
  | none => throw .exhausted
  | some intervals =>
    RefineM.count fun t => { t with candidates := t.candidates + intervals.length }
    let numbers ← point.keepRoots p v e intervals
    return some (numbers.map (·.withRootFlag config.markRoots))

/-- The real roots of `p` in `v`, in ascending order, where the other variables have the given values;
nothing if they are undefined. A value of `v` is not looked at. -/
def Arithmetic.rootsUnder (config : IsolationConfig) (p : P) (v : Var) (values : Assignment) :
    RefineM (Option (List Number)) := do
  RefineM.count fun t => { t with isolations := t.isolations + 1 }
  let g ← RefineM.ofExcept (PartialValue.of (← get) values p [v])
  match ← g.point.effectiveDegree (Arithmetic.coefficients g.poly v).reverse with
  -- the polynomial vanishes identically at the point
  | none => return none
  -- a constant other than zero
  | some 0 => return some []
  | some degree => g.point.roots config (Arithmetic.truncate g.poly v degree) v

/-- A configuration, and the work done with it. -/
structure Isolator where
  config : IsolationConfig := {}
  tally : Tally := {}
  deriving DecidableEq, Inhabited

namespace Isolator

/-- The real roots of `p` in `v`; the tally also grows if they cannot be found. -/
def isolate (iso : Isolator) (p : P) (v : Var) (values : Assignment) :
    RefineM (Except Error (Option (List Number)) × Isolator) := do
  let (outcome, tally) ← RefineM.metered iso.tally (Arithmetic.rootsUnder iso.config p v values)
  return (outcome, { iso with tally })

/-- The sign of `g` under an assignment; the tally also grows if it cannot be found. -/
def signUnder (iso : Isolator) (g : P) (values : Assignment) :
    RefineM (Except Error Sign × Isolator) := do
  let (outcome, tally) ← RefineM.metered iso.tally (Arithmetic.signUnder g values)
  return (outcome, { iso with tally })

def reset (iso : Isolator) : Isolator := { iso with tally := {} }

end Isolator

/-- The real roots of `p` in `v` in the usual configuration. -/
def Arithmetic.realRoots (p : P) (v : Var) (values : Assignment) :
    RefineM (Option (List Number)) :=
  rootsUnder {} p v values

end AlgebraicReal
