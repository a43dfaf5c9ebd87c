import AlgebraicReal.Number.Order

/-!
# Rationals around numbers

A sample is a rational below, above or between given numbers. It is an integer if possible, and so
stays small when the caller puts it into polynomials.
-/

namespace AlgebraicReal

namespace Number

def sampleBelow (s : Store) (x : Number) : Number :=
  let (lo, hi) := x.enclosure s
  ofRational (if lo = hi then lo.ceil - 1 else lo.floor)

def sampleAbove (s : Store) (x : Number) : Number :=
  let (lo, hi) := x.enclosure s
  ofRational (if lo = hi then hi.floor + 1 else hi.ceil)

/-- Refines two numbers, the first of which is less, until there is a gap between their enclosures,
and gives an element of the gap. -/
def sampleGap (x y : Number) : Nat → RefineM Number
  | 0 => throw .exhausted
  | rounds + 1 => do
    let s ← get
    match Interval.open? (x.enclosure s).2 (y.enclosure s).1 with
    | some gap => return ofRational gap.sample
    | none =>
      x.refine
      y.refine
      sampleGap x y rounds

/-- A rational strictly between two numbers, the first of which must be less. -/
def sampleBetween (x y : Number) : RefineM Number := do
  if ← x.less y then sampleGap x y (← read) else throw .invalidSampleRange

end Number

end AlgebraicReal
