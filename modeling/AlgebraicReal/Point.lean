import AlgebraicReal.Number.Basic
import AlgebraicReal.Arithmetic

/-!
# Signs at algebraic points

An assignment gives numbers to variables. To find the sign of a polynomial `g` there, rational values
are put in; if one algebraic value is left, its locator decides.

With several algebraic values, resultants with their defining polynomials produce an annihilator: a
polynomial in one fresh variable that vanishes at the value of `g`. If zero is one of its roots, every
other root is at least some radius away from zero. The boxes around the algebraic values are refined
until the enclosure of `g` shows a sign or lies inside that radius; in the latter case the value, which
is a root of the annihilator, can only be zero.

The polynomials are those of any arithmetic.
-/

namespace AlgebraicReal

/-- Values of variables; the first entry of a variable counts. -/
abbrev Assignment := List (Var × Number)

/-- Values of variables that are held by locators. -/
abbrev AlgebraicPoint := List (Var × LocatorId)

/-- A polynomial into which rational values have been put, and the other values. -/
structure PartialValue (P : Type) where
  poly : P
  point : AlgebraicPoint
  deriving DecidableEq

variable {P : Type} [Arithmetic P]

namespace PartialValue

/-- Takes in the values of the listed variables, in this order. -/
def substitute (s : Store) (values : Assignment) :
    List Var → PartialValue P → Except Error (PartialValue P)
  | [], g => .ok g
  | v :: vs, g =>
    match values.lookup v with
    | none => .error (.unassigned v)
    | some x =>
      match x.form s with
      | .rational q => substitute s values vs { g with poly := Arithmetic.evalAt g.poly v q }
      | .root id => substitute s values vs { g with point := g.point ++ [(v, id)] }
      | .thom t => substitute s values vs { g with point := g.point ++ [(v, t.locator)] }

/-- Takes in the values of all variables of `p` but those in `except`. The smallest variable without
a value is reported before any value is used. -/
def of (s : Store) (values : Assignment) (p : P) (except : List Var) :
    Except Error (PartialValue P) :=
  substitute s values ((Arithmetic.vars p).filter (· ∉ except)) ⟨p, []⟩

end PartialValue

namespace AlgebraicPoint

/-- The defining polynomial of a coordinate, in the variable of the coordinate. -/
def definingPoly (s : Store) (c : Var × LocatorId) : UniPoly := (s.get c.2).poly.withVar c.1

def involved (point : AlgebraicPoint) (g : P) : AlgebraicPoint :=
  point.filter fun c => Arithmetic.hasVar g c.1

/-- A variable greater than all variables of `g` and of the point, as far as there is one. -/
def scratchVar (point : AlgebraicPoint) (g : P) : Var :=
  match (Arithmetic.vars g ++ point.map (·.1)).max? with
  | none => 0
  | some v => if v = 4294967295 then v else v + 1

/-- Eliminates the coordinates from `h`, one resultant for each. -/
def eliminate (s : Store) : AlgebraicPoint → P → Except Error P
  | [], h => .ok h
  | c :: cs, h => do eliminate s cs (← Arithmetic.eliminate h (definingPoly s c))

/-- A polynomial in the scratch variable that vanishes at the value of `g`. -/
def annihilator (s : Store) (point : AlgebraicPoint) (g : P) : Except Error P :=
  eliminate s point (Arithmetic.subFrom (point.scratchVar g) g)

def box (s : Store) (point : AlgebraicPoint) : Box :=
  point.map fun c => (c.1, ⟨(s.get c.2).interval.lo, (s.get c.2).interval.hi⟩)

/-- Halves `r` until the chain's polynomial has no root between `-r` and `r`. -/
def shrinkRadius (chain : List UniPoly) : Nat → Rat → Except Error Rat
  | 0, _ => .error .exhausted
  | rounds + 1, r =>
    match Interval.closed? (-r) r with
    | none => .error .emptyClosed
    | some i => if UniPoly.rootsIn chain i = 0 then .ok r else shrinkRadius chain rounds (r / 2)

/-- A radius around zero inside which a nonzero polynomial has no root but zero; nothing if zero is no
root. -/
def zeroFreeRadius (rounds : Nat) (h : UniPoly) : Except Error (Option Rat) :=
  if h.constantCoeff ≠ 0 then .ok none
  else do
    let cofactor := UniPoly.ofCoeffs h.var (h.coeffs.dropWhile (· = 0))
    return some (← shrinkRadius cofactor.sturmChain rounds 1)

/-- The radius for the annihilator of `g`, if zero is a root of it. -/
def radius (rounds : Nat) (s : Store) (point : AlgebraicPoint) (g : P) :
    Except Error (Option Rat) := do
  match Arithmetic.toUniPoly (← point.annihilator s g) (point.scratchVar g) with
  -- without a usable annihilator a zero cannot be recognised, only a sign
  | .ok h => if h.isZero then .ok none else zeroFreeRadius rounds h
  | .error _ => .ok none

theorem radius_of_annihilator {s : Store} {point : AlgebraicPoint} {g h : P}
    (hh : point.annihilator s g = .ok h) (rounds : Nat) :
    point.radius rounds s g = match Arithmetic.toUniPoly h (point.scratchVar g) with
      | .ok u => if u.isZero then .ok none else zeroFreeRadius rounds u
      | .error _ => .ok none := by
  unfold radius
  rw [hh]
  rfl

/-- Reads the sign of a value off a range in which it lies, where every value in `radius` is zero. -/
def readSign (radius : Option Rat) (r : Range) : Option Sign :=
  if radius.any fun e => -e < r.lo && r.hi < e then some .zero
  else if 0 < r.lo then some .positive
  else if r.hi < 0 then some .negative
  else none

/-- Refines the coordinates until the enclosure of `g` shows the sign. -/
def signLoop (point : AlgebraicPoint) (g : P) (radius : Option Rat) : Nat → RefineM Sign
  | 0 => throw .exhausted
  | rounds + 1 => do
    match Arithmetic.enclose g (point.box (← get)) with
    | none => return .zero
    | some range =>
      match readSign radius range with
      | some s => return s
      | none =>
        point.forM fun c => RefineM.narrow c.2 Locator.refine
        signLoop point g radius rounds

/-- The sign of `g` at the coordinates, which are those of its variables, by enclosures. -/
def signByEnclosure (point : AlgebraicPoint) (g : P) : RefineM Sign := do
  RefineM.count fun t => { t with eliminations := t.eliminations + point.length }
  let radius ← RefineM.ofExcept (point.radius (← read) (← get) g)
  point.signLoop g radius (← read)

/-- The sign of `g` at a point that has a coordinate for each variable of `g`. -/
def sign (point : AlgebraicPoint) (g : P) : RefineM Sign := do
  if Arithmetic.isConstant g then return .ofRat (Arithmetic.constantValue g)
  RefineM.count fun t => { t with zeroTests := t.zeroTests + 1 }
  match point.involved g with
  | [(v, id)] =>
    match Arithmetic.toUniPoly g v with
    | .ok u => RefineM.ask id (·.sign (← read) u)
    -- some variable of `g` has no coordinate
    | .error _ => signByEnclosure [(v, id)] g
  | several => several.signByEnclosure g

end AlgebraicPoint

/-- The sign of `g` under an assignment. -/
def Arithmetic.signUnder (g : P) (values : Assignment) : RefineM Sign := do
  let value ← RefineM.ofExcept (PartialValue.of (← get) values g [])
  value.point.sign value.poly

end AlgebraicReal
