import AlgebraicReal.UniPoly.Isolation
import AlgebraicReal.UniPoly.Sparse

/-!
# Locators

A locator holds a real root as a polynomial and an interval in which the root is the only one. Asking
a question about the root may narrow the interval; the polynomial never changes. A locator whose
interval has become a point is exact and is narrowed no further.

Every operation rests on one step, `split`: cut the interval at a number inside it and keep the half
that holds the root, or the number itself if it is the root. The interval of a locator is meant to be
open or a point and to isolate one root; `fresh` takes this on trust. Only a split that is asked of an
interval without that property can find a half empty, and that is the only error here.
-/

namespace AlgebraicReal

/-- A root of `poly`, located by an interval. -/
structure Locator where
  poly : UniPoly
  interval : Interval
  /-- How often the interval has been narrowed. -/
  refinements : Nat
  /-- The Sturm chain of the polynomial, kept because every step needs it. -/
  chain : List UniPoly
  chain_eq : chain = poly.sturmChain

namespace Locator

/-- A locator that has not been narrowed yet. -/
def fresh (poly : UniPoly) (interval : Interval) : Locator :=
  ⟨poly, interval, 0, poly.sturmChain, rfl⟩

/-- The root zero of the polynomial `v`. -/
def origin (v : Var) : Locator := fresh (.identity v) (.point 0)

instance : Inhabited Locator := ⟨origin 0⟩

/-- The root, once it is known exactly. -/
def point? (l : Locator) : Option Rat := l.interval.point?

/-- A smaller interval instead of the one there is, which counts as a refinement. -/
def narrow (l : Locator) (part : Interval) : Locator :=
  { l with interval := part, refinements := l.refinements + 1 }

/-- Cuts the interval at `pivot` and keeps what holds the root. -/
def split (l : Locator) (pivot : Rat) : Except Error Locator :=
  if l.poly.isRoot pivot then .ok (l.narrow (.point pivot))
  else
    match Interval.open? l.interval.lo pivot with
    | none => .error .emptyOpen
    | some left =>
      if UniPoly.rootsIn l.chain left = 1 then .ok (l.narrow left)
      else
        -- neither the pivot nor the left half has the root
        match Interval.open? pivot l.interval.hi with
        | none => .error .emptyOpen
        | some right => .ok (l.narrow right)

/-- Where `refine` cuts: at zero if zero is inside, at the midpoint otherwise. -/
def pivot (l : Locator) : Rat :=
  if l.interval.lo < 0 ∧ 0 < l.interval.hi then 0 else l.interval.midpoint

/-- Cuts the interval once; a point stays as it is. -/
def refine (l : Locator) : Except Error Locator :=
  match l.point? with
  | some _ => .ok l
  | none => l.split l.pivot

/-- Narrows until `q` is outside, and tells whether the root differs from `q`. -/
def avoid (l : Locator) (q : Rat) : Except Error (Bool × Locator) :=
  match l.point? with
  | some v => .ok (v ≠ q, l)
  | none =>
    if l.interval.contains q then do
      let l ← l.split q
      return (l.point? ≠ some q, l)
    else .ok (true, l)

/-- The number of integers strictly between the two ends of the interval. -/
def integersInside (l : Locator) : Nat := (l.interval.hi.ceil - l.interval.lo.floor - 1).toNat

/-- Narrows away the least integer inside, as often as the given number says. -/
def avoidIntegers : Nat → Locator → Except Error Locator
  | 0, l => .ok l
  | n + 1, l =>
    match l.point? with
    | some _ => .ok l
    | none =>
      let candidate : Rat := l.interval.lo.floor + 1
      if l.interval.hi ≤ candidate then .ok l
      else do
        let (_, l) ← l.avoid candidate
        avoidIntegers n l

/-- Narrows until the interval is a point or has no integer inside. Every step removes an integer, so
there are at most as many steps as integers. -/
def settleIntegers (l : Locator) : Except Error Locator := avoidIntegers l.integersInside l

/-- Whether the root is known to be an integer. -/
def isIntegral (l : Locator) : Bool :=
  match l.point? with
  | some v => Rational.isInteger v
  | none => false

/-- The root of the polynomial reflected at zero, which is the opposite of the root of `l`. -/
def negate (l : Locator) : Locator := fresh l.poly.reflect.normalized l.interval.negate

/-- The same root of the same polynomial in another variable, with a locator of its own. -/
def withVar (l : Locator) (v : Var) : Locator := fresh (l.poly.withVar v) l.interval

/-- The interval, then the polynomial. -/
def text (l : Locator) : String := l.interval.text ++ ", " ++ l.poly.text

@[simp] theorem poly_narrow (l : Locator) (i : Interval) : (l.narrow i).poly = l.poly := rfl

@[simp] theorem interval_narrow (l : Locator) (i : Interval) : (l.narrow i).interval = i := rfl

@[simp] theorem refinements_narrow (l : Locator) (i : Interval) :
    (l.narrow i).refinements = l.refinements + 1 := rfl

/-! ## What a step keeps -/

/-- A split narrows the interval once and does nothing else. -/
theorem eq_narrow_of_split {l l' : Locator} {q : Rat} (h : l.split q = .ok l') :
    l' = l.narrow l'.interval := by
  unfold split at h
  split at h
  · cases h; rfl
  · split at h
    · cases h
    · split at h
      · cases h; rfl
      · split at h
        · cases h
        · cases h; rfl

theorem poly_split {l l' : Locator} {q : Rat} (h : l.split q = .ok l') : l'.poly = l.poly := by
  rw [eq_narrow_of_split h, poly_narrow]

theorem refinements_split {l l' : Locator} {q : Rat} (h : l.split q = .ok l') :
    l'.refinements = l.refinements + 1 := by
  rw [eq_narrow_of_split h, refinements_narrow]

theorem refine_of_point {l : Locator} {v : Rat} (h : l.point? = some v) : l.refine = .ok l := by
  simp [refine, h]

theorem refine_of_not_point {l : Locator} (h : l.point? = none) :
    l.refine = l.split l.pivot := by
  simp [refine, h]

theorem poly_refine {l l' : Locator} (h : l.refine = .ok l') : l'.poly = l.poly := by
  unfold refine at h
  split at h
  · cases h; rfl
  · exact poly_split h

theorem poly_avoid {l l' : Locator} {q : Rat} {b : Bool} (h : l.avoid q = .ok (b, l')) :
    l'.poly = l.poly := by
  unfold avoid at h
  split at h
  · cases h; rfl
  · split at h
    · cases hs : l.split q with
      | error e => simp [hs, bind, Except.bind] at h
      | ok m =>
        simp only [hs, bind, Except.bind, pure, Except.pure, Except.ok.injEq,
          Prod.mk.injEq] at h
        rw [← h.2, poly_split hs]
    · cases h; rfl

/-! ## What a step leaves -/

/-- A cut leaves the number at which it was made or an open part. -/
theorem point?_split {l l' : Locator} {q : Rat} (h : l.split q = .ok l') :
    l'.point? = some q ∨ l'.point? = none := by
  unfold split at h
  split at h
  · cases h
    exact .inl (Interval.point?_point q)
  · right
    split at h
    · cases h
    next left hleft =>
      split at h
      · cases h
        exact Interval.point?_of_open? hleft
      · split at h
        · cases h
        next right hright =>
          cases h
          exact Interval.point?_of_open? hright

/-- Whether the root is the number to be avoided shows in the interval. -/
theorem point?_avoid {l l' : Locator} {q : Rat} {b : Bool} (hp : l.point? = none)
    (h : l.avoid q = .ok (b, l')) : l'.point? = if b then none else some q := by
  unfold avoid at h
  simp only [hp] at h
  split at h
  · cases hs : l.split q with
    | error e =>
      rw [hs] at h
      cases h
    | ok m =>
      rw [hs] at h
      cases h
      rcases point?_split hs with hm | hm <;> simp [hm]
  · cases h
    exact hp

end Locator

end AlgebraicReal
