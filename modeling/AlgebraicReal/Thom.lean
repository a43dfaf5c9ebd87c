import AlgebraicReal.Store

/-!
# Thom encodings

By Thom's lemma a real root of a square-free polynomial of degree `d` is determined by the signs that
the derivatives number one to `d - 1` have at it. An encoding keeps these signs together with a
locator, which decides what the signs alone do not: the order relative to rationals and to roots of
other polynomials.

Two roots of one polynomial are compared by their signs. At the highest derivative where the signs
differ, the next higher derivative has the same sign at both roots and none of the other sign between
them, so the derivative is monotone there and tells which root comes first.
-/

namespace AlgebraicReal

/-- A root of `poly` with the signs of its derivatives, the first derivative first. -/
structure Thom where
  poly : UniPoly
  signs : List Sign
  locator : LocatorId
  deriving DecidableEq, Inhabited

namespace Thom

/-- The derivatives whose signs are kept. -/
def derivatives (p : UniPoly) : List UniPoly :=
  (List.range (p.degree - 1)).map fun k => p.iteratedDerivative (k + 1)

/-- The encoding of the root of `p` that an interval isolates. -/
def ofInterval (p : UniPoly) (i : Interval) : RefineM Thom := do
  let (signs, l) ← RefineM.ofExcept ((Locator.fresh p i).signs (← read) (derivatives p))
  return { poly := p, signs, locator := ← RefineM.allocate l }

/-- The encodings of all real roots, in ascending order. -/
def realizeAll (p : UniPoly) : RefineM (List Thom) := do
  if p.isConstant then throw .degeneratePolynomial
  let s := p.squareFree
  match s.isolateRoots? (← read) true with
  | none => throw .exhausted
  | some intervals => intervals.mapM (ofInterval s)

/-- The encoding of the root at which the derivatives have the given signs. -/
def realize (p : UniPoly) (signs : List Sign) : RefineM Thom := do
  match (← realizeAll p).find? (·.signs = signs) with
  | some t => return t
  | none => throw .invalidThomEncoding

def sign (t : Thom) : RefineM Sign := RefineM.ask t.locator Locator.signOfRoot

/-- Whether the root is zero, which takes a closer look only if zero is a root at all. -/
def isZero (t : Thom) : RefineM Bool := do
  if t.poly.isRoot 0 then return (← t.sign) = .zero else return false

def signOf (t : Thom) (q : UniPoly) : RefineM Sign := do
  RefineM.ask t.locator (·.sign (← read) q)

def compareRational (t : Thom) (q : Rat) : RefineM Ordering :=
  RefineM.ask t.locator (·.compareRational q)

/-- Compares sign lists that start with the highest derivative; `above` is the sign of the derivative
before the first one listed. -/
def compareSigns (above : Sign) : List Sign → List Sign → Ordering
  | s :: ss, t :: ts =>
    if s = t then compareSigns s ss ts
    else if above = .negative then (s.compare t).swap
    else s.compare t
  | _, _ => .eq

/-- The order of two roots. The highest derivative of a polynomial with leading coefficient one is
positive. -/
def compare (t u : Thom) : RefineM Ordering :=
  if t.poly.coeffs = u.poly.coeffs then
    return compareSigns .positive t.signs.reverse u.signs.reverse
  else RefineM.compare t.locator u.locator

/-- The signs of the derivatives at the opposite root, where reflecting the polynomial changes the
sign of every other derivative, and making an odd degree monic that of all. -/
def reflectSigns (degree : Nat) (signs : List Sign) : List Sign :=
  signs.zipIdx.map fun (s, i) => if (i + degree) % 2 = 0 then s.neg else s

/-- The encoding of the opposite root, with a locator of its own. -/
def negate (t : Thom) : RefineM Thom := do
  let p := t.poly.reflect.normalized
  let l := (← get).get t.locator
  let locator ← RefineM.allocate (.fresh p l.interval.negate)
  return { poly := p, signs := reflectSigns t.poly.degree t.signs, locator }

/-- The same root of the same polynomial in another variable, with a locator of its own. -/
def withVar (t : Thom) (v : Var) : RefineM Thom := do
  let p := t.poly.withVar v
  let l := (← get).get t.locator
  let locator ← RefineM.allocate (.fresh p l.interval)
  return { t with poly := p, locator }

/-- An estimate of the size in bits. -/
def size (t : Thom) : Nat :=
  t.poly.coeffs.foldr (fun c n => Rational.bitSize c + n) 0 + t.signs.length

/-- The polynomial and the signs in brackets. -/
def text (t : Thom) : String :=
  t.poly.text ++ " [" ++ ", ".intercalate (t.signs.map Sign.text) ++ "]"

theorem compareSigns_self : ∀ (above : Sign) (signs : List Sign), compareSigns above signs signs = .eq
  | _, [] => rfl
  | _, s :: ss => by simp [compareSigns, compareSigns_self s ss]

theorem length_reflectSigns (degree : Nat) (signs : List Sign) :
    (reflectSigns degree signs).length = signs.length := by
  simp [reflectSigns]

end Thom

end AlgebraicReal
