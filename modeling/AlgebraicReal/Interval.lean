import AlgebraicReal.Sign
import AlgebraicReal.Rational

/-!
# Intervals of rationals

An interval has two ends, each of which is infinite, excluded (`strict`) or included (`weak`). The
type holds nonempty intervals only, and an infinite end carries no number, so two intervals with the
same elements have the same ends: equality of intervals is equality of sets.

An isolating interval of a real root is always a point or has two strict ends.
-/

namespace AlgebraicReal

/-- One end of an interval. -/
inductive Bound where
  | infinite
  | strict (value : Rat)
  | weak (value : Rat)
  deriving DecidableEq, Inhabited

namespace Bound

/-- The number at a finite end; an infinite end reads as zero. -/
def value : Bound → Rat
  | infinite => 0
  | strict q => q
  | weak q => q

def value? : Bound → Option Rat
  | infinite => none
  | strict q => some q
  | weak q => some q

/-- Whether the end is finite and excluded. -/
def isStrict : Bound → Bool
  | strict _ => true
  | _ => false

/-- The end of the interval of opposite numbers. -/
def negate : Bound → Bound
  | infinite => infinite
  | strict q => strict (-q)
  | weak q => weak (-q)

/-- Whether some number lies between a lower and an upper end. -/
def leaveRoom : Bound → Bound → Bool
  | infinite, _ => true
  | _, infinite => true
  | weak a, weak b => a ≤ b
  | lower, upper => lower.value < upper.value

/-- Whether `q` lies above a lower end. -/
def isBelow (q : Rat) : Bound → Bool
  | infinite => true
  | strict a => a < q
  | weak a => a ≤ q

/-- Whether `q` lies below an upper end. -/
def isAbove (q : Rat) : Bound → Bool
  | infinite => true
  | strict b => q < b
  | weak b => q ≤ b

/-- Whether everything above the lower end `inner` is above the lower end `outer`. -/
def coversLower : Bound → Bound → Bool
  | infinite, _ => true
  | _, infinite => false
  | strict a, weak b => a < b
  | outer, inner => outer.value ≤ inner.value

/-- Whether everything below the upper end `inner` is below the upper end `outer`. -/
def coversUpper : Bound → Bound → Bool
  | infinite, _ => true
  | _, infinite => false
  | strict a, weak b => b < a
  | outer, inner => inner.value ≤ outer.value

def tighterLower (a b : Bound) : Bound := if a.coversLower b then b else a

def tighterUpper (a b : Bound) : Bound := if a.coversUpper b then b else a

end Bound

/-- Two ends with room between them. -/
structure Interval where
  lower : Bound
  upper : Bound
  nonempty : lower.leaveRoom upper = true
  deriving DecidableEq

namespace Interval

/-- The interval with the given ends, unless it would be empty. -/
def ofBounds? (lower upper : Bound) : Option Interval :=
  if h : lower.leaveRoom upper = true then some ⟨lower, upper, h⟩ else none

/-- The interval of the numbers strictly between `lo` and `hi`. -/
def between (lo hi : Rat) (h : lo < hi) : Interval :=
  ⟨.strict lo, .strict hi, decide_eq_true h⟩

/-- The open interval from `lo` to `hi`, unless it is empty. -/
def open? (lo hi : Rat) : Option Interval :=
  if h : lo < hi then some (between lo hi h) else none

/-- The closed interval from `lo` to `hi`, unless it is empty. -/
def closed? (lo hi : Rat) : Option Interval := ofBounds? (.weak lo) (.weak hi)

/-- The interval of a single rational. -/
def point (q : Rat) : Interval :=
  ⟨.weak q, .weak q, decide_eq_true Rat.le_refl⟩

def unbounded : Interval := ⟨.infinite, .infinite, rfl⟩

instance : Inhabited Interval := ⟨point 0⟩

/-- The number at the lower end; an infinite end reads as zero. -/
def lo (i : Interval) : Rat := i.lower.value

/-- The number at the upper end; an infinite end reads as zero. -/
def hi (i : Interval) : Rat := i.upper.value

/-- The single element of a point interval. -/
def point? (i : Interval) : Option Rat :=
  match i.lower, i.upper with
  | .weak a, .weak b => if a = b then some a else none
  | _, _ => none

def isPoint (i : Interval) : Bool := i.point?.isSome

/-- Whether both ends are finite and excluded. -/
def isOpen (i : Interval) : Bool := i.lower.isStrict && i.upper.isStrict

def isZero (i : Interval) : Bool := i.point? = some 0

/-- Whether every element is above zero. -/
def isPositive (i : Interval) : Bool :=
  match i.lower with
  | .infinite => false
  | .strict a => 0 ≤ a
  | .weak a => 0 < a

/-- Whether every element is below zero. -/
def isNegative (i : Interval) : Bool :=
  match i.upper with
  | .infinite => false
  | .strict b => b ≤ 0
  | .weak b => b < 0

/-- The sign that all elements share, if there is one. -/
def sign? (i : Interval) : Option Sign :=
  if i.isZero then some .zero
  else if i.isPositive then some .positive
  else if i.isNegative then some .negative
  else none

/-- Whether a rational is in the interval. -/
def contains (i : Interval) (q : Rat) : Bool := i.lower.isBelow q && i.upper.isAbove q

/-- Whether `inner` is a subset of `outer`. -/
def covers (outer inner : Interval) : Bool :=
  outer.lower.coversLower inner.lower && outer.upper.coversUpper inner.upper

/-- The common part of two intervals, unless they are disjoint. -/
def intersect (i j : Interval) : Option Interval :=
  ofBounds? (i.lower.tighterLower j.lower) (i.upper.tighterUpper j.upper)

def midpoint (i : Interval) : Rat := Rational.midpoint i.lo i.hi

def width (i : Interval) : Rat := i.hi - i.lo

/-- A representative element. A point has only one; an interval without a finite end on one side
gives zero or else an integer past its finite end; a bounded interval gives the integer strictly
inside that is closest to zero, or else its midpoint. -/
def sample (i : Interval) : Rat :=
  match i.point? with
  | some q => q
  | none =>
    match i.lower, i.upper with
    | .infinite, .infinite => 0
    | .infinite, upper => if i.contains 0 then 0 else upper.value.floor - 1
    | lower, .infinite => if i.contains 0 then 0 else lower.value.ceil + 1
    | lower, upper => (Rational.integerBetween lower.value upper.value).getD i.midpoint

theorem leaveRoom_negate {a b : Bound} (h : a.leaveRoom b = true) :
    b.negate.leaveRoom a.negate = true := by
  cases a <;> cases b <;> simp_all [Bound.leaveRoom, Bound.negate, Bound.value] <;> grind

/-- The interval of the opposite numbers. -/
def negate (i : Interval) : Interval :=
  ⟨i.upper.negate, i.lower.negate, leaveRoom_negate i.nonempty⟩

/-- The interval of absolute values of an interval whose elements share a sign; an interval around
zero is returned as it is. -/
def abs (i : Interval) : Interval := if i.isNegative then i.negate else i

/-- An infinite end is written `oo`; a bracket marks an included end, a parenthesis any other. -/
def text (i : Interval) : String :=
  let left := match i.lower with
    | .infinite => "(-oo"
    | .strict a => "(" ++ Rational.text a
    | .weak a => "[" ++ Rational.text a
  let right := match i.upper with
    | .infinite => "oo)"
    | .strict b => Rational.text b ++ ")"
    | .weak b => Rational.text b ++ "]"
  left ++ ", " ++ right

@[simp] theorem lo_between {a b : Rat} (h : a < b) : (between a b h).lo = a := rfl

@[simp] theorem hi_between {a b : Rat} (h : a < b) : (between a b h).hi = b := rfl

@[simp] theorem point?_between {a b : Rat} (h : a < b) : (between a b h).point? = none := rfl

@[simp] theorem point?_point (q : Rat) : (point q).point? = some q := by simp [point?, point]

theorem point?_of_open? {lo hi : Rat} {i : Interval} (h : open? lo hi = some i) :
    i.point? = none := by
  unfold open? at h
  split at h
  · cases h
    rfl
  · cases h

theorem eq_point_of_point? {i : Interval} {q : Rat} (h : i.point? = some q) : i = point q := by
  obtain ⟨lower, upper, room⟩ := i
  cases lower <;> cases upper <;> simp_all [point?, point]

theorem contains_iff {i : Interval} {q : Rat} :
    i.contains q = true ↔ i.lower.isBelow q = true ∧ i.upper.isAbove q = true := by
  simp [contains]

end Interval

end AlgebraicReal
