/-!
# Signs

The sign of an exact quantity, ordered `negative < zero < positive`, with the two operations under
which taking a sign is a homomorphism: negation and multiplication.
-/

namespace AlgebraicReal

/-- The sign of a number. -/
inductive Sign where
  | negative
  | zero
  | positive
  deriving DecidableEq, Repr, Inhabited

namespace Sign

def ofRat (q : Rat) : Sign :=
  if q = 0 then zero else if 0 < q then positive else negative

/-- The sign as `-1`, `0` or `1`. -/
def toInt : Sign → Int
  | negative => -1
  | zero => 0
  | positive => 1

def neg : Sign → Sign
  | negative => positive
  | zero => zero
  | positive => negative

def mul : Sign → Sign → Sign
  | zero, _ => zero
  | _, zero => zero
  | positive, s => s
  | negative, s => s.neg

/-- Signs are ordered as the numbers `-1`, `0` and `1`. -/
def compare (s t : Sign) : Ordering := Ord.compare s.toInt t.toInt

/-- One character: `-`, `0` or `+`. -/
def text : Sign → String
  | negative => "-"
  | zero => "0"
  | positive => "+"

theorem toInt_injective {s t : Sign} (h : s.toInt = t.toInt) : s = t := by
  cases s <;> cases t <;> simp_all [toInt]

theorem neg_neg (s : Sign) : s.neg.neg = s := by cases s <;> rfl

theorem toInt_neg (s : Sign) : s.neg.toInt = -s.toInt := by cases s <;> rfl

theorem toInt_mul (s t : Sign) : (s.mul t).toInt = s.toInt * t.toInt := by
  cases s <;> cases t <;> rfl

theorem ofRat_eq_zero_iff {q : Rat} : ofRat q = zero ↔ q = 0 := by
  unfold ofRat
  split
  · simp_all
  · split <;> simp_all

theorem ofRat_eq_positive_iff {q : Rat} : ofRat q = positive ↔ 0 < q := by
  unfold ofRat
  split
  · subst_vars; simp
  · split <;> simp_all

end Sign

end AlgebraicReal
