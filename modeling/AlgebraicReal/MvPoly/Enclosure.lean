import AlgebraicReal.MvPoly.Basic

/-!
# Enclosing the range of a polynomial

Given a closed range for every variable, `MvPoly.enclose` computes a range that holds every value of
the polynomial on the box: ranges are raised to powers, multiplied and added end by end, one term at
a time. The result depends on how the polynomial is written and may be wider than the true range,
but on smaller boxes it never grows, and on a point it is the value.
-/

namespace AlgebraicReal

structure Range where
  lo : Rat
  hi : Rat
  deriving DecidableEq, Inhabited

namespace Range

def point (q : Rat) : Range := ⟨q, q⟩

/-- The sums of a number of each range. -/
def add (r s : Range) : Range := ⟨r.lo + s.lo, r.hi + s.hi⟩

/-- The products of a number of each range; its ends are among the products of the ends. -/
def mul (r s : Range) : Range :=
  let a := r.lo * s.lo
  let b := r.lo * s.hi
  let c := r.hi * s.lo
  let d := r.hi * s.hi
  ⟨Rational.smaller (Rational.smaller a b) (Rational.smaller c d),
    Rational.larger (Rational.larger a b) (Rational.larger c d)⟩

/-- The multiples by `c`. -/
def scale (r : Range) (c : Rat) : Range :=
  if c < 0 then ⟨r.hi * c, r.lo * c⟩ else ⟨r.lo * c, r.hi * c⟩

/-- The `k`-th powers. An even power turns at zero. -/
def pow (r : Range) (k : Nat) : Range :=
  if k % 2 = 1 ∨ 0 ≤ r.lo then ⟨r.lo ^ k, r.hi ^ k⟩
  else if r.hi ≤ 0 then ⟨r.hi ^ k, r.lo ^ k⟩
  else ⟨0, Rational.larger (r.lo ^ k) (r.hi ^ k)⟩

theorem point_add_point (a b : Rat) : (point a).add (point b) = point (a + b) := rfl

theorem point_mul_point (a b : Rat) : (point a).mul (point b) = point (a * b) := by
  simp [point, mul, Rational.smaller, Rational.larger]

theorem point_scale (a c : Rat) : (point a).scale c = point (a * c) := by
  simp [point, scale]

theorem point_pow (a : Rat) (k : Nat) : (point a).pow k = point (a ^ k) := by
  unfold point pow
  split
  · rfl
  next h =>
    rw [if_pos (Rat.le_of_lt (Rat.not_le.1 fun h0 => h (Or.inr h0)))]

end Range

/-- A range for some of the variables; the first entry of a variable counts. -/
abbrev Box := List (Var × Range)

/-- The range of a product of powers, if each variable has one. -/
def Box.enclosePowers (box : Box) : List (Var × Nat) → Option Range
  | [] => some (.point 1)
  | (v, k) :: rest => do
    let r ← box.lookup v
    let s ← box.enclosePowers rest
    return (r.pow k).mul s

/-- The range of a sum of terms, if each variable has one. -/
def Box.encloseTerms (box : Box) : List (Rat × List (Var × Nat)) → Option Range
  | [] => some (.point 0)
  | (c, powers) :: rest => do
    let r ← box.enclosePowers powers
    let s ← box.encloseTerms rest
    return (r.scale c).add s

/-- A range for the values of `p` on a box, if the box has a range for each variable of `p`. -/
def MvPoly.enclose (p : MvPoly) (box : Box) : Option Range := box.encloseTerms p.summands

end AlgebraicReal
