import AlgebraicReal.Interval

/-!
# Intervals without proofs

`Bound.Raw` keeps a number at every end, also at an infinite one, and the kind of the end apart from
it; nothing in `Interval.Raw` says that there is an element. `new?` looks at the elements and puts
zero at an infinite end. The other operations rely on this without looking: they build their results
from the stored numbers.

What can be built in these ways is an `Interval` with zero at its infinite ends.
-/

namespace AlgebraicReal

/-- How a number bounds an interval, if it does. -/
inductive Bound.Kind where
  | infinite
  | strict
  | weak
  deriving DecidableEq

/-- An end as a number and a kind; the number says nothing if the kind is infinite. -/
structure Bound.Raw where
  value : Rat
  kind : Bound.Kind
  deriving DecidableEq

namespace Bound.Raw

/-- The end with zero for a number that says nothing. -/
def normalize (b : Raw) : Raw := if b.kind = .infinite then ⟨0, .infinite⟩ else b

def negate (b : Raw) : Raw := ⟨-b.value, b.kind⟩

/-- Whether nothing lies between a lower and an upper end. -/
def excludeAll (lower upper : Raw) : Bool :=
  if lower.kind = .infinite ∨ upper.kind = .infinite then false
  else
    match Rational.compare lower.value upper.value with
    | .gt => true
    | .eq => lower.kind = .strict ∨ upper.kind = .strict
    | .lt => false

def isBelow (q : Rat) (b : Raw) : Bool :=
  match b.kind with
  | .infinite => true
  | .strict => b.value < q
  | .weak => b.value ≤ q

def isAbove (q : Rat) (b : Raw) : Bool :=
  match b.kind with
  | .infinite => true
  | .strict => q < b.value
  | .weak => q ≤ b.value

def coversLower (outer inner : Raw) : Bool :=
  match outer.kind, inner.kind with
  | .infinite, _ => true
  | _, .infinite => false
  | .strict, .weak => outer.value < inner.value
  | _, _ => outer.value ≤ inner.value

def coversUpper (outer inner : Raw) : Bool :=
  match outer.kind, inner.kind with
  | .infinite, _ => true
  | _, .infinite => false
  | .strict, .weak => inner.value < outer.value
  | _, _ => inner.value ≤ outer.value

/-- The kind of the tighter one of two finite ends at one number. -/
def joinKinds (a b : Raw) : Bound.Kind :=
  if a.kind = .strict ∨ b.kind = .strict then .strict else .weak

def tighterLower (a b : Raw) : Raw :=
  match a.kind, b.kind with
  | .infinite, _ => b
  | _, .infinite => a
  | _, _ =>
    match Rational.compare a.value b.value with
    | .gt => a
    | .lt => b
    | .eq => ⟨a.value, joinKinds a b⟩

def tighterUpper (a b : Raw) : Raw :=
  match a.kind, b.kind with
  | .infinite, _ => b
  | _, .infinite => a
  | _, _ =>
    match Rational.compare a.value b.value with
    | .lt => a
    | .gt => b
    | .eq => ⟨a.value, joinKinds a b⟩

end Bound.Raw

/-- Two ends of any kind, which need not leave room. -/
structure Interval.Raw where
  lower : Bound.Raw
  upper : Bound.Raw
  deriving DecidableEq

namespace Interval.Raw

/-- The interval with the given ends, unless it would be empty. -/
def new? (lower upper : Bound.Raw) : Option Raw :=
  let lower := lower.normalize
  let upper := upper.normalize
  if lower.excludeAll upper then none else some ⟨lower, upper⟩

def open? (lo hi : Rat) : Option Raw :=
  if lo < hi then some ⟨⟨lo, .strict⟩, ⟨hi, .strict⟩⟩ else none

def closed? (lo hi : Rat) : Option Raw :=
  if lo ≤ hi then some ⟨⟨lo, .weak⟩, ⟨hi, .weak⟩⟩ else none

def point (q : Rat) : Raw := ⟨⟨q, .weak⟩, ⟨q, .weak⟩⟩

def unbounded : Raw := ⟨⟨0, .infinite⟩, ⟨0, .infinite⟩⟩

def isPoint (i : Raw) : Bool :=
  i.lower.kind = .weak ∧ i.upper.kind = .weak ∧ i.lower.value = i.upper.value

def isZero (i : Raw) : Bool := i.isPoint && i.lower.value = 0

def isPositive (i : Raw) : Bool :=
  match i.lower.kind with
  | .infinite => false
  | .strict => 0 ≤ i.lower.value
  | .weak => 0 < i.lower.value

def isNegative (i : Raw) : Bool :=
  match i.upper.kind with
  | .infinite => false
  | .strict => i.upper.value ≤ 0
  | .weak => i.upper.value < 0

def sign? (i : Raw) : Option Sign :=
  if i.isZero then some .zero
  else if i.isPositive then some .positive
  else if i.isNegative then some .negative
  else none

def contains (i : Raw) (q : Rat) : Bool := i.lower.isBelow q && i.upper.isAbove q

def covers (outer inner : Raw) : Bool :=
  outer.lower.coversLower inner.lower && outer.upper.coversUpper inner.upper

def intersect (i j : Raw) : Option Raw :=
  new? (i.lower.tighterLower j.lower) (i.upper.tighterUpper j.upper)

def midpoint (i : Raw) : Rat := Rational.midpoint i.lower.value i.upper.value

/-- A point of the interval. On a half-line without zero it is an integer beyond the end. -/
def sample (i : Raw) : Rat :=
  if i.isPoint then i.lower.value
  else
    match i.lower.kind, i.upper.kind with
    | .infinite, .infinite => 0
    | .infinite, _ => if i.contains 0 then 0 else i.upper.value.floor - 1
    | _, .infinite => if i.contains 0 then 0 else i.lower.value.ceil + 1
    | _, _ => (Rational.integerBetween i.lower.value i.upper.value).getD i.midpoint

def negate (i : Raw) : Raw := ⟨i.upper.negate, i.lower.negate⟩

def abs (i : Raw) : Raw := if i.isNegative then i.negate else i

end Interval.Raw

end AlgebraicReal
