import AlgebraicReal.Thom

/-!
# Real algebraic numbers

A number is a rational, a located root or a Thom encoding. It is a plain value: what a located root
knows about itself is in the store, so copies of a number share it.

When the interval of a located root has shrunk to a point, the number is the rational at that point.
`Number.form` gives a number in this simplified form, and every operation starts from it. A Thom
encoding stays one even when its locator is exact.

A flag tells whether a number came from a root computation. It is carried along and printed, and
takes no part in comparisons.
-/

namespace AlgebraicReal

/-- The ways to represent a number. -/
inductive Form where
  | rational (value : Rat)
  | root (id : LocatorId)
  | thom (encoding : Thom)
  deriving DecidableEq, Inhabited

/-- A real algebraic number. -/
structure Number where
  stored : Form
  isRoot : Bool := true
  deriving DecidableEq, Inhabited

namespace Number

/-! ## Building numbers -/

def ofRational (q : Rat) : Number := { stored := .rational q }

def ofInt (n : Int) : Number := ofRational n

def zero : Number := ofRational 0

/-- The root that a Thom encoding denotes. -/
def ofThom (t : Thom) : Number := { stored := .thom t }

/-- The same number with the flag set or cleared. -/
def withRootFlag (x : Number) (flag : Bool) : Number := { x with isRoot := flag }

/-- The number of a new locator. -/
def ofLocator (l : Locator) : RefineM Number := return { stored := .root (← RefineM.allocate l) }

/-- A stand-in for a variable: the root of the polynomial `v`, which is zero. -/
def ofVariable (v : Var) : RefineM Number := ofLocator (.origin v)

/-- The unique root of `p` in an interval, which must be open or a point. The root of a linear
polynomial and the root in a point are rational; otherwise the locator is kept off zero. -/
def ofInterval (p : UniPoly) (i : Interval) : RefineM Number := do
  if p.isConstant then throw .degeneratePolynomial
  let s := p.squareFree
  let roots := s.countRoots i
  if roots ≠ 1 ∨ ¬(i.isOpen ∨ i.isPoint) then throw (.invalidIsolatingInterval i roots)
  -- the square-free part has leading coefficient one
  if s.degree = 1 then return ofRational (-s.constantCoeff)
  match i.point? with
  | some q => return ofRational q
  | none =>
    let (_, l) ← RefineM.ofExcept ((Locator.fresh s i).avoid 0)
    ofLocator l

/-! ## Looking at numbers -/

/-- The simplified representation of a number. -/
def form (s : Store) (x : Number) : Form :=
  match x.stored with
  | .root id =>
    match (s.get id).point? with
    | some q => .rational q
    | none => .root id
  | f => f

@[simp] theorem form_withRootFlag (s : Store) (x : Number) (flag : Bool) :
    (x.withRootFlag flag).form s = x.form s := rfl

theorem form_ofRational (s : Store) (q : Rat) : (ofRational q).form s = .rational q := rfl

/-- The simplified form of a located root is never exact. -/
theorem point?_of_form_root {s : Store} {x : Number} {id : LocatorId} (h : x.form s = .root id) :
    (s.get id).point? = none := by
  unfold form at h
  split at h
  · split at h
    · cases h
    · cases h; assumption
  · next f hf => exact absurd h (hf id)

def locator? (s : Store) (x : Number) : Option Locator :=
  match x.form s with
  | .root id => some (s.get id)
  | _ => none

def isRational (s : Store) (x : Number) : Bool :=
  match x.form s with
  | .rational _ => true
  | _ => false

def isLocated (s : Store) (x : Number) : Bool := (x.locator? s).isSome

/-- Whether the number is held as a Thom encoding. -/
def isThom (s : Store) (x : Number) : Bool :=
  match x.form s with
  | .thom _ => true
  | _ => false

/-- The value of a number that is held as a rational. -/
def value (s : Store) (x : Number) : Except Error Rat :=
  match x.form s with
  | .rational q => .ok q
  | _ => .error .notNumeric

/-- A rational near the number: its value, or an element of its interval. -/
def branchingPoint (s : Store) (x : Number) : Rat :=
  match x.form s with
  | .rational q => q
  | .root id => (s.get id).interval.sample
  | .thom t => (s.get t.locator).interval.sample

/-- How often the interval of a located root has been narrowed. -/
def refinements (s : Store) (x : Number) : Option Nat := (x.locator? s).map (·.refinements)

def interval (s : Store) (x : Number) : Option Interval := (x.locator? s).map (·.interval)

def polynomial (s : Store) (x : Number) : Option UniPoly := (x.locator? s).map (·.poly)

/-- The Thom encoding of a number that is held as one. -/
def thom? (s : Store) (x : Number) : Option Thom :=
  match x.form s with
  | .thom t => some t
  | _ => none

/-- Two rationals with the number between them or equal to both. -/
def enclosure (s : Store) (x : Number) : Rat × Rat :=
  match x.form s with
  | .rational q => (q, q)
  | .root id => ((s.get id).interval.lo, (s.get id).interval.hi)
  | .thom t => ((s.get t.locator).interval.lo, (s.get t.locator).interval.hi)

/-- An estimate of the size in bits. -/
def size (s : Store) (x : Number) : Nat :=
  match x.form s with
  | .rational q => Rational.bitSize q
  | .root id =>
    let l := s.get id
    Rational.bitSize l.interval.lo + Rational.bitSize l.interval.hi * l.poly.degree
  | .thom t => t.size

/-- The kind of representation, the number in it, and `R` if the flag is set. -/
def text (s : Store) (x : Number) : String :=
  let body := match x.form s with
    | .rational q => "(NR " ++ Rational.text q
    | .root id => "(IR " ++ (s.get id).text
    | .thom t => "(TE " ++ t.text
  body ++ (if x.isRoot then " R)" else ")")

/-! ## Questions that may narrow the interval -/

/-- The simplified representation at this moment. -/
def current (x : Number) : RefineM Form := RefineM.reading fun s => x.form s

def sign (x : Number) : RefineM Sign := do
  match ← x.current with
  | .rational q => return .ofRat q
  | .root id => RefineM.ask id Locator.signOfRoot
  | .thom t => t.sign

def isZero (x : Number) : RefineM Bool := return (← x.sign) = .zero

def signOf (x : Number) (p : UniPoly) : RefineM Sign := do
  match ← x.current with
  | .rational q => return p.signAt q
  | .root id => RefineM.ask id (·.sign (← read) p)
  | .thom t => t.signOf p

def isRootOf (x : Number) (p : UniPoly) : RefineM Bool := do
  match ← x.current with
  | .rational q => return p.isRoot q
  | .root id => return ((← get).get id).isRootOf p
  | .thom t => return (← t.signOf p) = .zero

/-- Excludes a finite end of an interval from a locator that contains it. -/
def avoidBound (id : LocatorId) (b : Bound) : RefineM Unit := do
  match b.value? with
  | none => return ()
  | some q =>
    if ((← get).get id).interval.contains q then RefineM.narrow id fun l => return (← l.avoid q).2

def containedIn (x : Number) (i : Interval) : RefineM Bool := do
  match ← x.current with
  | .rational q => return i.contains q
  | .root id =>
    -- with both ends excluded, the locator lies inside `i` or beside it
    avoidBound id i.lower
    avoidBound id i.upper
    let l := (← get).get id
    match l.point? with
    | some q => return i.contains q
    | none => return i.covers l.interval
  | .thom t =>
    let above ← match i.lower with
      | .infinite => pure true
      | .strict a => pure ((← t.compareRational a) = .gt)
      | .weak a => pure ((← t.compareRational a) ≠ .lt)
    let below ← match i.upper with
      | .infinite => pure true
      | .strict b => pure ((← t.compareRational b) = .lt)
      | .weak b => pure ((← t.compareRational b) ≠ .gt)
    return above && below

/-- Narrows the interval of the number, if it has one. -/
def narrow (x : Number) (step : Locator → Except Error Locator) : RefineM Unit := do
  match ← x.current with
  | .rational _ => return ()
  | .root id => RefineM.narrow id step
  | .thom t => RefineM.narrow t.locator step

/-- Cuts the interval once. -/
def refine (x : Number) : RefineM Unit := x.narrow Locator.refine

/-- Narrows until `q` is outside, and tells whether the number differs from `q`. -/
def avoid (x : Number) (q : Rat) : RefineM Bool := do
  match ← x.current with
  | .rational v => return v ≠ q
  | .root id => RefineM.ask id (·.avoid q)
  | .thom t => RefineM.ask t.locator (·.avoid q)

/-- Narrows until the interval has no integer inside or the number is known to be one. -/
def settleIntegers (x : Number) : RefineM Unit := x.narrow Locator.settleIntegers

def isIntegral (x : Number) : RefineM Bool := do
  x.settleIntegers
  match ← x.current with
  | .rational q => return Rational.isInteger q
  | .root id => return ((← get).get id).isIntegral
  | .thom t => return ((← get).get t.locator).isIntegral

/-- The largest integer that is not above the number. Equal numbers have the same one, so it also
serves as their hash. -/
def floor (x : Number) : RefineM Rat := do
  x.settleIntegers
  match ← x.current with
  | .rational q => return q.floor
  | .root id => return ((← get).get id).interval.lo.floor
  | .thom t => return ((← get).get t.locator).interval.lo.floor

/-- The absolute value. A number that is not negative is returned with the locator it has. -/
def abs (x : Number) : RefineM Number := do
  let result : Number ← match ← x.current with
    | .rational q => pure (ofRational q.abs)
    | .root id => do
      if ← RefineM.ask id (·.avoid 0) then
        let l := (← get).get id
        if l.interval.isPositive then pure x else ofLocator l.negate
      else pure zero
    | .thom t => do
      if (← t.sign) = .negative then pure (ofThom (← t.negate)) else pure x
  return result.withRootFlag x.isRoot

/-- The same number with its polynomial in another variable, and with a locator of its own. -/
def withVar (x : Number) (v : Var) : RefineM Number := do
  let result ← match ← x.current with
    | .rational _ => pure x
    | .root id => do ofLocator (((← get).get id).withVar v)
    | .thom t => do pure (ofThom (← t.withVar v))
  return result.withRootFlag x.isRoot

end Number

end AlgebraicReal
