import Mathlib
import AlgebraicReal.Interval

/-!
# The reals in an interval

An interval with rational ends is read as the set of the reals between them (`Interval.reals`). The
isolating intervals of this library are of two shapes only, a point and an interval with two strict
ends; `Interval.Isolating` names them. Signs of reals are those of rationals, carried over.
-/

namespace AlgebraicReal

/-- A short cut. The algebra of the reals over the rationals rests on this instance, and has one
form wherever a rational polynomial is taken at reals. -/
instance charZero_real : CharZero ℝ := inferInstance

theorem Rational.abs_eq_abs (q : ℚ) : q.abs = |q| := by
  unfold Rat.abs
  split
  next h => rw [abs_of_nonneg h]
  next h => rw [abs_of_neg (not_le.1 h)]

/-- If there are integers in an open interval, the one that is found is closer to zero than all
others. -/
theorem Rational.integerBetween_closest {lo hi : ℚ} {j : ℤ} (hj : lo < j ∧ (j : ℚ) < hi) :
    ∃ i : ℤ, integerBetween lo hi = some (i : ℚ) ∧
      ∀ k : ℤ, lo < k → (k : ℚ) < hi → k ≠ i → |i| < |k| := by
  have hlt : ¬hi ≤ lo := not_le.2 (hj.1.trans hj.2)
  unfold integerBetween
  rw [if_neg hlt]
  by_cases h0 : lo < 0 ∧ 0 < hi
  · rw [if_pos h0]
    exact ⟨0, rfl, fun k _ _ hk => by rw [abs_zero]; exact abs_pos.2 hk⟩
  · rw [if_neg h0]
    by_cases hpos : 0 ≤ lo
    · -- the least integer above the lower end
      have hleast : ∀ k : ℤ, lo < k → lo.floor + 1 ≤ k := fun k hk => Rat.floor_lt_iff.2 hk
      have hfloor : 0 ≤ lo.floor := Rat.le_floor_iff.2 (by exact_mod_cast hpos)
      have hlo : lo < ((lo.floor + 1 : ℤ) : ℚ) := by exact_mod_cast Rat.floor_lt_iff.1 (Int.lt_succ _)
      have hhi : ((lo.floor + 1 : ℤ) : ℚ) < hi := (Int.cast_le.2 (hleast j hj.1)).trans_lt hj.2
      rw [Int.cast_add, Int.cast_one] at hlo hhi
      refine ⟨lo.floor + 1, ?_, fun k hk _ hne => ?_⟩
      · simp only [if_pos hpos, if_pos (And.intro hlo hhi), Int.cast_add, Int.cast_one]
      · have := hleast k hk
        rw [abs_of_pos (by omega), abs_of_pos (by omega)]
        omega
    · -- the greatest integer below the upper end
      have hneg : hi ≤ 0 := not_lt.1 fun h => h0 ⟨not_le.1 hpos, h⟩
      have hgreatest : ∀ k : ℤ, (k : ℚ) < hi → k ≤ hi.ceil - 1 := fun k hk => by
        have := Rat.lt_ceil_iff.2 hk
        omega
      have hceil : hi.ceil ≤ 0 := Rat.ceil_le_iff.2 (by exact_mod_cast hneg)
      have hhi : ((hi.ceil - 1 : ℤ) : ℚ) < hi := Rat.lt_ceil_iff.1 (Int.pred_self_lt _)
      have hlo : lo < ((hi.ceil - 1 : ℤ) : ℚ) :=
        hj.1.trans_le (Int.cast_le.2 (hgreatest j hj.2))
      rw [Int.cast_sub, Int.cast_one] at hlo hhi
      refine ⟨hi.ceil - 1, ?_, fun k _ hk hne => ?_⟩
      · simp only [if_neg hpos, if_pos (And.intro hlo hhi), Int.cast_sub, Int.cast_one]
      · have := hgreatest k hk
        rw [abs_of_neg (by omega), abs_of_neg (by omega)]
        omega

/-- The sign of a real number. -/
noncomputable def Sign.ofReal (x : ℝ) : Sign :=
  if x = 0 then .zero else if 0 < x then .positive else .negative

namespace Sign

/-- On rationals it is the computed sign. -/
theorem ofReal_ratCast (q : ℚ) : ofReal (q : ℝ) = ofRat q := by
  unfold ofReal ofRat
  simp only [Rat.cast_eq_zero, Rat.cast_pos]

theorem ofReal_eq_zero_iff {x : ℝ} : ofReal x = zero ↔ x = 0 := by
  unfold ofReal
  split
  next h => simp [h]
  next h => split <;> simp [h]

theorem ofReal_eq_positive_iff {x : ℝ} : ofReal x = positive ↔ 0 < x := by
  unfold ofReal
  split
  next h => simp [h]
  next h => split <;> simp_all

theorem ofReal_eq_negative_iff {x : ℝ} : ofReal x = negative ↔ x < 0 := by
  unfold ofReal
  split
  next h => simp [h]
  next h =>
    split
    next hpos => simp [hpos.le]
    next hneg => simpa using lt_of_le_of_ne (not_lt.1 hneg) h

theorem ofReal_of_pos {x : ℝ} (h : 0 < x) : ofReal x = positive := ofReal_eq_positive_iff.2 h

theorem ofReal_of_neg {x : ℝ} (h : x < 0) : ofReal x = negative := ofReal_eq_negative_iff.2 h

/-- The opposite has the opposite sign. -/
theorem ofReal_neg (x : ℝ) : ofReal (-x) = (ofReal x).neg := by
  rcases lt_trichotomy x 0 with h | h | h
  · rw [ofReal_of_neg h, ofReal_of_pos (neg_pos.2 h)]
    rfl
  · rw [h, neg_zero, ofReal_eq_zero_iff.2 rfl]
    rfl
  · rw [ofReal_of_pos h, ofReal_of_neg (neg_lt_zero.2 h)]
    rfl

/-- A positive factor does not matter. -/
theorem ofReal_mul_of_pos {c : ℝ} (hc : 0 < c) (x : ℝ) : ofReal (c * x) = ofReal x := by
  unfold ofReal
  simp only [mul_eq_zero, hc.ne', false_or, mul_pos_iff_of_pos_left hc]

/-- Signs compare as the numbers they are the signs of, if these have different signs. -/
theorem compare_ofReal {x y : ℝ} (h : ofReal x ≠ ofReal y) :
    (ofReal x).compare (ofReal y) = cmp x y := by
  rcases lt_trichotomy x 0 with hx | rfl | hx <;> rcases lt_trichotomy y 0 with hy | rfl | hy
  · exact absurd ((ofReal_of_neg hx).trans (ofReal_of_neg hy).symm) h
  · rw [(cmp_eq_lt_iff _ _).2 hx, ofReal_of_neg hx, ofReal_eq_zero_iff.2 rfl]
    rfl
  · rw [(cmp_eq_lt_iff _ _).2 (hx.trans hy), ofReal_of_neg hx, ofReal_of_pos hy]
    rfl
  · rw [(cmp_eq_gt_iff _ _).2 hy, ofReal_of_neg hy, ofReal_eq_zero_iff.2 rfl]
    rfl
  · exact absurd rfl h
  · rw [(cmp_eq_lt_iff _ _).2 hy, ofReal_of_pos hy, ofReal_eq_zero_iff.2 rfl]
    rfl
  · rw [(cmp_eq_gt_iff _ _).2 (hy.trans hx), ofReal_of_pos hx, ofReal_of_neg hy]
    rfl
  · rw [(cmp_eq_gt_iff _ _).2 hx, ofReal_of_pos hx, ofReal_eq_zero_iff.2 rfl]
    rfl
  · exact absurd ((ofReal_of_pos hx).trans (ofReal_of_pos hy).symm) h

end Sign

/-- Whether a real lies above a lower end. -/
def Bound.Below (x : ℝ) : Bound → Prop
  | .infinite => True
  | .strict a => (a : ℝ) < x
  | .weak a => (a : ℝ) ≤ x

/-- Whether a real lies below an upper end. -/
def Bound.Above (x : ℝ) : Bound → Prop
  | .infinite => True
  | .strict b => x < (b : ℝ)
  | .weak b => x ≤ (b : ℝ)

namespace Bound

/-- On rationals the computed test is the one on reals. -/
theorem isBelow_iff_below {b : Bound} {q : ℚ} : b.isBelow q = true ↔ b.Below (q : ℝ) := by
  cases b <;> simp [isBelow, Below]

theorem isAbove_iff_above {b : Bound} {q : ℚ} : b.isAbove q = true ↔ b.Above (q : ℝ) := by
  cases b <;> simp [isAbove, Above]

end Bound

namespace Interval

/-- The reals in an interval. -/
def reals (i : Interval) : Set ℝ := {x | i.lower.Below x ∧ i.upper.Above x}

/-- The shapes of an isolating interval: a point or an interval with two excluded ends. -/
inductive Isolating : Interval → Prop
  | point (q : ℚ) : Isolating (.point q)
  | between (a b : ℚ) (h : a < b) : Isolating (.between a b h)

@[simp] theorem reals_between {a b : ℚ} (h : a < b) :
    (between a b h).reals = Set.Ioo (a : ℝ) b := rfl

@[simp] theorem reals_point (q : ℚ) : (point q).reals = {(q : ℝ)} := by
  ext x
  show (q : ℝ) ≤ x ∧ x ≤ q ↔ x = q
  constructor
  · intro h
    exact le_antisymm h.2 h.1
  · rintro rfl
    exact ⟨le_rfl, le_rfl⟩

/-- The test for membership is membership. -/
theorem contains_iff_mem_reals {i : Interval} {q : ℚ} :
    i.contains q = true ↔ (q : ℝ) ∈ i.reals := by
  rw [contains_iff, Bound.isBelow_iff_below, Bound.isAbove_iff_above]
  exact Iff.rfl

end Interval

namespace Bound

/-- A lower end that covers another one has everything above it that the other has. -/
theorem below_of_coversLower {x : ℝ} : ∀ {a b : Bound}, a.coversLower b = true → b.Below x →
    a.Below x
  | .infinite, _, _, _ => trivial
  | .strict _, .infinite, h, _ | .weak _, .infinite, h, _ => by cases h
  | .strict _, .weak _, h, hb => (Rat.cast_lt.2 (of_decide_eq_true h)).trans_le hb
  | .strict _, .strict _, h, hb => (Rat.cast_le.2 (of_decide_eq_true h)).trans_lt hb
  | .weak _, .strict _, h, hb => ((Rat.cast_le.2 (of_decide_eq_true h)).trans_lt hb).le
  | .weak _, .weak _, h, hb => (Rat.cast_le.2 (of_decide_eq_true h)).trans hb

/-- What covers an upper end admits what that admits. -/
theorem above_of_coversUpper {x : ℝ} : ∀ {a b : Bound}, a.coversUpper b = true → b.Above x →
    a.Above x
  | .infinite, _, _, _ => trivial
  | .strict _, .infinite, h, _ | .weak _, .infinite, h, _ => by cases h
  | .strict _, .weak _, h, hb => lt_of_le_of_lt hb (Rat.cast_lt.2 (of_decide_eq_true h))
  | .strict _, .strict _, h, hb => lt_of_lt_of_le hb (Rat.cast_le.2 (of_decide_eq_true h))
  | .weak _, .strict _, h, hb => (lt_of_lt_of_le hb (Rat.cast_le.2 (of_decide_eq_true h))).le
  | .weak _, .weak _, h, hb => le_trans hb (Rat.cast_le.2 (of_decide_eq_true h))

/-- Of two lower ends one covers the other. -/
theorem coversLower_total : ∀ {a b : Bound}, ¬a.coversLower b = true → b.coversLower a = true
  | .infinite, _, h => absurd rfl h
  | .strict _, .infinite, _ | .weak _, .infinite, _ => rfl
  | .strict _, .weak _, h => decide_eq_true (not_lt.1 fun hlt => h (decide_eq_true hlt))
  | .strict _, .strict _, h | .weak _, .weak _, h =>
    decide_eq_true (le_of_not_ge fun hle => h (decide_eq_true hle))
  | .weak _, .strict _, h => decide_eq_true (lt_of_not_ge fun hle => h (decide_eq_true hle))

/-- Of two upper ends one covers the other. -/
theorem coversUpper_total : ∀ {a b : Bound}, ¬a.coversUpper b = true → b.coversUpper a = true
  | .infinite, _, h => absurd rfl h
  | .strict _, .infinite, _ | .weak _, .infinite, _ => rfl
  | .strict _, .weak _, h => decide_eq_true (not_lt.1 fun hlt => h (decide_eq_true hlt))
  | .strict _, .strict _, h | .weak _, .weak _, h =>
    decide_eq_true (le_of_not_ge fun hle => h (decide_eq_true hle))
  | .weak _, .strict _, h => decide_eq_true (lt_of_not_ge fun hle => h (decide_eq_true hle))

/-- The tighter end admits what both admit. -/
theorem below_tighterLower {a b : Bound} {x : ℝ} :
    (a.tighterLower b).Below x ↔ a.Below x ∧ b.Below x := by
  unfold tighterLower
  split
  next h => exact ⟨fun hb => ⟨below_of_coversLower h hb, hb⟩, fun hx => hx.2⟩
  next h => exact ⟨fun ha => ⟨ha, below_of_coversLower (coversLower_total h) ha⟩, fun hx => hx.1⟩

theorem above_tighterUpper {a b : Bound} {x : ℝ} :
    (a.tighterUpper b).Above x ↔ a.Above x ∧ b.Above x := by
  unfold tighterUpper
  split
  next h => exact ⟨fun hb => ⟨above_of_coversUpper h hb, hb⟩, fun hx => hx.2⟩
  next h => exact ⟨fun ha => ⟨ha, above_of_coversUpper (coversUpper_total h) ha⟩, fun hx => hx.1⟩

/-- Two ends with a real between them leave room. -/
theorem leaveRoom_of_below_of_above {x : ℝ} : ∀ {a b : Bound}, a.Below x → b.Above x →
    a.leaveRoom b = true
  | .infinite, _, _, _ => rfl
  | .strict _, .infinite, _, _ | .weak _, .infinite, _, _ => rfl
  | .strict _, .strict _, ha, hb => decide_eq_true (Rat.cast_lt.1 (lt_trans ha hb))
  | .strict _, .weak _, ha, hb => decide_eq_true (Rat.cast_lt.1 (lt_of_lt_of_le ha hb))
  | .weak _, .strict _, ha, hb => decide_eq_true (Rat.cast_lt.1 (lt_of_le_of_lt ha hb))
  | .weak _, .weak _, ha, hb => decide_eq_true (Rat.cast_le.1 (le_trans ha hb))

end Bound

namespace Interval

/-- The intersection, as a set. -/
theorem mem_reals_of_intersect {i j k : Interval} (h : i.intersect j = some k) {x : ℝ} :
    x ∈ k.reals ↔ x ∈ i.reals ∧ x ∈ j.reals := by
  unfold intersect ofBounds? at h
  split at h
  next =>
    cases h
    show Bound.Below x _ ∧ Bound.Above x _ ↔ _
    rw [Bound.below_tighterLower, Bound.above_tighterUpper]
    exact ⟨fun hx => ⟨⟨hx.1.1, hx.2.1⟩, hx.1.2, hx.2.2⟩,
      fun hx => ⟨⟨hx.1.1, hx.2.1⟩, hx.1.2, hx.2.2⟩⟩
  next => cases h

/-- Intervals with a common real have an intersection. -/
theorem intersect_ne_none {i j : Interval} {x : ℝ} (hi : x ∈ i.reals) (hj : x ∈ j.reals) :
    i.intersect j ≠ none := by
  unfold intersect ofBounds?
  have room := Bound.leaveRoom_of_below_of_above
    (Bound.below_tighterLower.2 ⟨hi.1, hj.1⟩) (Bound.above_tighterUpper.2 ⟨hi.2, hj.2⟩)
  rw [dif_pos room]
  exact Option.some_ne_none _

/-- The mirror image, as a set. -/
theorem mem_reals_negate {i : Interval} {x : ℝ} : x ∈ i.negate.reals ↔ -x ∈ i.reals := by
  have hl : ∀ b : Bound, b.negate.Below x ↔ b.Above (-x) := fun b => by
    cases b with
    | infinite => exact Iff.rfl
    | strict q =>
      show ((-q : ℚ) : ℝ) < x ↔ -x < q
      rw [Rat.cast_neg, neg_lt]
    | weak q =>
      show ((-q : ℚ) : ℝ) ≤ x ↔ -x ≤ q
      rw [Rat.cast_neg, neg_le]
  have hu : ∀ b : Bound, b.negate.Above x ↔ b.Below (-x) := fun b => by
    cases b with
    | infinite => exact Iff.rfl
    | strict q =>
      show x < ((-q : ℚ) : ℝ) ↔ (q : ℝ) < -x
      rw [Rat.cast_neg, lt_neg]
    | weak q =>
      show x ≤ ((-q : ℚ) : ℝ) ↔ (q : ℝ) ≤ -x
      rw [Rat.cast_neg, le_neg]
  exact (and_congr (hl i.upper) (hu i.lower)).trans and_comm

/-- A point or an open interval is mirrored to one. -/
theorem Isolating.negate {i : Interval} (h : i.Isolating) : i.negate.Isolating := by
  cases h with
  | point q => exact .point (-q)
  | between a b hab => exact .between (-b) (-a) (neg_lt_neg hab)

theorem sample_between {a b : ℚ} (h : a < b) : (between a b h).sample
    = (Rational.integerBetween a b).getD (Rational.midpoint a b) := rfl

/-- The sample of an open interval lies inside. -/
theorem sample_between_mem {a b : ℚ} (h : a < b) :
    a < (between a b h).sample ∧ (between a b h).sample < b := by
  rw [sample_between]
  cases hk : Rational.integerBetween a b with
  | none => exact ⟨Rational.lt_midpoint h, Rational.midpoint_lt h⟩
  | some q => exact Rational.integerBetween_mem hk

/-- If there are integers in it, the sample of an open interval is the one closest to zero. -/
theorem sample_between_closest {a b : ℚ} (h : a < b) {j : ℤ} (hj : a < j ∧ (j : ℚ) < b) :
    ∃ i : ℤ, (between a b h).sample = i ∧ ∀ k : ℤ, a < k → (k : ℚ) < b → k ≠ i → |i| < |k| := by
  obtain ⟨i, hi, hclosest⟩ := Rational.integerBetween_closest hj
  refine ⟨i, ?_, hclosest⟩
  rw [sample_between, hi]
  rfl

end Interval

end AlgebraicReal
