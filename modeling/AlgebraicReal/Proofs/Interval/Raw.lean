import AlgebraicReal.Proofs.Interval.Elements
import AlgebraicReal.Interval.Raw

/-!
# Stored intervals as sets of rationals

Every interval that can be built is stored as an `Interval` with zero at its infinite ends
(`Obtainable.exists_raw`), and the operations on stored ends and intervals are those on `Bound` and
`Interval`. So what the elements say about intervals they say about stored ones
(`elements_exact`), also that there is only one way to store a set.
-/

namespace AlgebraicReal

namespace Rational

variable {a b : ℚ}

theorem compare_of_lt (h : a < b) : compare a b = .lt := by
  rw [compare, compareOfLessAndEq, if_pos h]

theorem compare_self (a : ℚ) : compare a a = .eq := by
  rw [compare, compareOfLessAndEq, if_neg (lt_irrefl a), if_pos rfl]

theorem compare_of_gt (h : b < a) : compare a b = .gt := by
  rw [compare, compareOfLessAndEq, if_neg h.not_gt, if_neg h.ne']

end Rational

/-! ## Ends -/

namespace Bound

/-- How an end is kept. -/
def kind : Bound → Kind
  | infinite => .infinite
  | strict _ => .strict
  | weak _ => .weak

/-- The end as it is stored. -/
def raw (b : Bound) : Raw := ⟨b.value, b.kind⟩

/-- The end that is meant. -/
def Raw.meant (b : Raw) : Bound :=
  match b.kind with
  | .infinite => infinite
  | .strict => strict b.value
  | .weak => weak b.value

variable {a b : Bound} {q : ℚ}

/-- What is meant by the stored form of an end is that end. -/
@[simp] theorem meant_raw (b : Bound) : b.raw.meant = b := by cases b <;> rfl

/-- The number at an infinite end is lost. -/
theorem Raw.normalize_eq (b : Raw) : b.normalize = b.meant.raw := by
  obtain ⟨value, kind⟩ := b
  cases kind <;> rfl

/-- A stored end is judged by what it means. -/
theorem Raw.isBelow_eq (b : Raw) : b.isBelow q = b.meant.isBelow q := by
  obtain ⟨value, kind⟩ := b
  cases kind <;> rfl

theorem Raw.isAbove_eq (b : Raw) : b.isAbove q = b.meant.isAbove q := by
  obtain ⟨value, kind⟩ := b
  cases kind <;> rfl

theorem negate_raw (b : Bound) : b.raw.negate = b.negate.raw := by
  cases b <;> rfl

theorem coversLower_raw (a b : Bound) : a.raw.coversLower b.raw = a.coversLower b := by
  cases a <;> cases b <;> rfl

theorem coversUpper_raw (a b : Bound) : a.raw.coversUpper b.raw = a.coversUpper b := by
  cases a <;> cases b <;> rfl

/-- Two finite ends are compared by their numbers; at one number the kinds decide. -/
theorem excludeAll_raw (a b : Bound) : a.raw.excludeAll b.raw = !a.leaveRoom b := by
  cases a with
  | infinite => cases b <;> rfl
  | strict c | weak c =>
    cases b with
    | infinite => rfl
    | strict d | weak d =>
      rcases lt_trichotomy c d with h | rfl | h
      · simp [Raw.excludeAll, raw, kind, value, leaveRoom, Rational.compare_of_lt h, h, h.le]
      · simp [Raw.excludeAll, raw, kind, value, leaveRoom, Rational.compare_self]
      · simp [Raw.excludeAll, raw, kind, value, leaveRoom, Rational.compare_of_gt h, h, h.not_gt]

/-- Of two stored ends the tighter one is taken, also at equal numbers. -/
theorem tighterLower_raw (a b : Bound) :
    a.raw.tighterLower b.raw = (a.tighterLower b).raw := by
  cases a with
  | infinite => cases b <;> rfl
  | strict c | weak c =>
    cases b with
    | infinite => rfl
    | strict d | weak d =>
      rcases lt_trichotomy c d with h | rfl | h
      · simp [Raw.tighterLower, raw, kind, value, tighterLower, coversLower,
          Rational.compare_of_lt h, h, h.le]
      · simp [Raw.tighterLower, Raw.joinKinds, raw, kind, value, tighterLower, coversLower,
          Rational.compare_self]
      · simp [Raw.tighterLower, raw, kind, value, tighterLower, coversLower,
          Rational.compare_of_gt h, h.not_ge, h.not_gt]

theorem tighterUpper_raw (a b : Bound) :
    a.raw.tighterUpper b.raw = (a.tighterUpper b).raw := by
  cases a with
  | infinite => cases b <;> rfl
  | strict c | weak c =>
    cases b with
    | infinite => rfl
    | strict d | weak d =>
      rcases lt_trichotomy c d with h | rfl | h
      · simp [Raw.tighterUpper, raw, kind, value, tighterUpper, coversUpper,
          Rational.compare_of_lt h, h.not_ge, h.not_gt]
      · simp [Raw.tighterUpper, Raw.joinKinds, raw, kind, value, tighterUpper, coversUpper,
          Rational.compare_self]
      · simp [Raw.tighterUpper, raw, kind, value, tighterUpper, coversUpper,
          Rational.compare_of_gt h, h, h.le]

end Bound

namespace Interval

variable {i j : Interval}

/-- The interval as it is stored. -/
def raw (i : Interval) : Raw := ⟨i.lower.raw, i.upper.raw⟩

/-- The check for emptiness is that of ends that leave room. -/
theorem new?_eq (lower upper : Bound.Raw) :
    Raw.new? lower upper = (ofBounds? lower.meant upper.meant).map raw := by
  unfold Raw.new? ofBounds?
  simp only [Bound.Raw.normalize_eq, Bound.excludeAll_raw]
  by_cases h : lower.meant.leaveRoom upper.meant = true
  · rw [dif_pos h, if_neg (by simp [h]), Option.map_some, raw]
  · rw [dif_neg h, if_pos (by simp [h]), Option.map_none]

/-- So elements are those of the ends that are meant. -/
theorem contains_meant (i : Raw) (q : ℚ) :
    i.contains q = (i.lower.meant.isBelow q && i.upper.meant.isAbove q) := by
  rw [Raw.contains, Bound.Raw.isBelow_eq, Bound.Raw.isAbove_eq]

theorem contains_raw (i : Interval) (q : ℚ) : i.raw.contains q = i.contains q := by
  rw [contains_meant, raw, Bound.meant_raw, Bound.meant_raw, contains]

/-- Inclusion compares stored ends. -/
theorem covers_raw (i j : Interval) : i.raw.covers j.raw = i.covers j := by
  unfold Raw.covers covers raw
  rw [Bound.coversLower_raw, Bound.coversUpper_raw]

/-- The intersection of what is stored is stored. -/
theorem intersect_raw (i j : Interval) : i.raw.intersect j.raw = (i.intersect j).map raw := by
  unfold Raw.intersect raw
  rw [new?_eq, Bound.tighterLower_raw, Bound.tighterUpper_raw, Bound.meant_raw, Bound.meant_raw]
  rfl

theorem negate_raw (i : Interval) : i.raw.negate = i.negate.raw := by
  unfold Raw.negate raw
  rw [Bound.negate_raw, Bound.negate_raw]
  rfl

/-- A point has two closed ends with one number. -/
theorem isPoint_raw (i : Interval) : i.raw.isPoint = i.isPoint := by
  obtain ⟨lower, upper, room⟩ := i
  cases lower <;> cases upper
  case weak.weak c d =>
    by_cases h : c = d <;>
      simp [Raw.isPoint, isPoint, point?, raw, Bound.raw, Bound.kind, Bound.value, h]
  all_goals rfl

theorem isZero_raw (i : Interval) : i.raw.isZero = i.isZero := by
  rw [Raw.isZero, isPoint_raw]
  unfold isPoint isZero
  cases hp : i.point? with
  | none => rfl
  | some q =>
    rw [eq_point_of_point? hp]
    exact decide_eq_decide.2 Option.some_inj.symm

/-- The sign is read off the ends. -/
theorem isPositive_raw (i : Interval) : i.raw.isPositive = i.isPositive := by
  obtain ⟨lower, upper, room⟩ := i
  cases lower <;> rfl

theorem isNegative_raw (i : Interval) : i.raw.isNegative = i.isNegative := by
  obtain ⟨lower, upper, room⟩ := i
  cases upper <;> rfl

theorem sign?_raw (i : Interval) : i.raw.sign? = i.sign? := by
  rw [Raw.sign?, isZero_raw, isPositive_raw, isNegative_raw, sign?]

/-- Both samples go through the same cases. -/
theorem sample_raw (i : Interval) : i.raw.sample = i.sample := by
  unfold Raw.sample sample
  rw [isPoint_raw]
  unfold isPoint
  cases hp : i.point? with
  | some q =>
    rw [eq_point_of_point? hp]
    rfl
  | none =>
    simp only [contains_raw]
    obtain ⟨lower, upper, room⟩ := i
    cases lower <;> cases upper <;> rfl

/-- The absolute value is the interval, its mirror image or their hull. -/
theorem abs_raw (i : Interval) : i.raw.abs = i.abs.raw := by
  unfold Raw.abs abs
  rw [isNegative_raw, negate_raw]
  split <;> rfl

end Interval

namespace Interval.Raw

/-- The intervals that can be built. -/
inductive Obtainable : Raw → Prop
  | new {lower upper : Bound.Raw} {i : Raw} (h : new? lower upper = some i) : Obtainable i
  | between {lo hi : ℚ} {i : Raw} (h : open? lo hi = some i) : Obtainable i
  | closed {lo hi : ℚ} {i : Raw} (h : closed? lo hi = some i) : Obtainable i
  | point (q : ℚ) : Obtainable (point q)
  | unbounded : Obtainable unbounded
  | intersect {i j k : Raw} (hi : Obtainable i) (hj : Obtainable j) (h : i.intersect j = some k) :
      Obtainable k
  | negate {i : Raw} (hi : Obtainable i) : Obtainable i.negate
  | abs {i : Raw} (hi : Obtainable i) : Obtainable i.abs

/-- Whatever is built is an interval with elements, stored with zero at its infinite ends. -/
theorem Obtainable.exists_raw {r : Raw} (h : Obtainable r) : ∃ i : Interval, i.raw = r := by
  -- every way to obtain an interval ends in one whose bounds leave room
  induction h with
  | new h =>
    rw [new?_eq, Option.map_eq_some_iff] at h
    obtain ⟨i, -, hi⟩ := h
    exact ⟨i, hi⟩
  | @between lo hi i h =>
    unfold open? at h
    split at h
    next hlt =>
      cases h
      exact ⟨.between lo hi hlt, rfl⟩
    next => cases h
  | @closed lo hi i h =>
    unfold closed? at h
    split at h
    next hle =>
      cases h
      exact ⟨⟨.weak lo, .weak hi, decide_eq_true hle⟩, rfl⟩
    next => cases h
  | point q => exact ⟨.point q, rfl⟩
  | unbounded => exact ⟨.unbounded, rfl⟩
  | intersect _ _ h ihi ihj =>
    obtain ⟨i, rfl⟩ := ihi
    obtain ⟨j, rfl⟩ := ihj
    rw [intersect_raw, Option.map_eq_some_iff] at h
    obtain ⟨k, -, hk⟩ := h
    exact ⟨k, hk⟩
  | negate _ ih =>
    obtain ⟨i, rfl⟩ := ih
    exact ⟨i.negate, (negate_raw i).symm⟩
  | abs _ ih =>
    obtain ⟨i, rfl⟩ := ih
    exact ⟨i.abs, (abs_raw i).symm⟩

/-- Two ends are refused if they leave out every rational, and keep their meaning if not. Of
intervals that can be built, the inclusion, the intersection, the opposite and the sign are those of
their elements, the sample is an element, and intervals with the same elements are stored in the
same way. -/
theorem elements_exact {i j : Raw} (hi : Obtainable i) (hj : Obtainable j) :
    (∀ lower upper, new? lower upper = none ↔ ∀ q, ¬Raw.contains ⟨lower, upper⟩ q = true) ∧
    (∀ lower upper k, new? lower upper = some k →
      ∀ q, k.contains q = Raw.contains ⟨lower, upper⟩ q) ∧
    (i.covers j = true ↔ ∀ q, j.contains q = true → i.contains q = true) ∧
    (i.intersect j = none ↔ ∀ q, ¬(i.contains q = true ∧ j.contains q = true)) ∧
    (∀ k, i.intersect j = some k →
      ∀ q, k.contains q = true ↔ i.contains q = true ∧ j.contains q = true) ∧
    (∀ q, i.negate.contains q = i.contains (-q)) ∧
    (∀ s, i.sign? = some s ↔ ∀ q, i.contains q = true → Sign.ofRat q = s) ∧
    i.contains i.sample = true ∧
    ((∀ q, i.contains q = j.contains q) → i = j) := by
  -- what can be obtained is well formed, so the laws are those of well-formed intervals
  obtain ⟨i, rfl⟩ := hi.exists_raw
  obtain ⟨j, rfl⟩ := hj.exists_raw
  refine ⟨fun lower upper => ?_, fun lower upper k hk q => ?_, ?_, ?_, fun k hk q => ?_,
    fun q => ?_, fun s => ?_, ?_, fun h => ?_⟩
  · rw [new?_eq, Option.map_eq_none_iff, ofBounds?_eq_none_iff]
    simp only [contains_meant, Bool.and_eq_true]
  · rw [new?_eq, Option.map_eq_some_iff] at hk
    obtain ⟨k, hk, rfl⟩ := hk
    rw [contains_raw, contains_meant, Interval.contains, (ends_of_ofBounds? hk).1,
      (ends_of_ofBounds? hk).2]
  · simp only [covers_raw, contains_raw, covers_iff_forall]
  · simp only [intersect_raw, contains_raw, Option.map_eq_none_iff, intersect_eq_none_iff]
  · rw [intersect_raw, Option.map_eq_some_iff] at hk
    obtain ⟨k, hk, rfl⟩ := hk
    simp only [contains_raw, contains_of_intersect hk]
  · rw [negate_raw, contains_raw, contains_raw, contains_negate]
  · simp only [sign?_raw, contains_raw, sign?_eq_some_iff]
  · rw [contains_raw, sample_raw]
    exact i.sample_mem
  · simp only [contains_raw] at h
    rw [eq_of_contains_eq h]

/-- The half-line up to `3`, built with a number at its infinite end, and what lies between `1` and
`5`. -/
theorem elements_exact_half_line :
    Obtainable ⟨⟨0, .infinite⟩, ⟨3, .weak⟩⟩ ∧ Obtainable ⟨⟨1, .strict⟩, ⟨5, .strict⟩⟩ ∧
    ∃ k, Raw.intersect ⟨⟨0, .infinite⟩, ⟨3, .weak⟩⟩ ⟨⟨1, .strict⟩, ⟨5, .strict⟩⟩ = some k ∧
      k = ⟨⟨1, .strict⟩, ⟨3, .weak⟩⟩ ∧ ∀ q, k.contains q = true ↔
        Raw.contains ⟨⟨0, .infinite⟩, ⟨3, .weak⟩⟩ q = true ∧
          Raw.contains ⟨⟨1, .strict⟩, ⟨5, .strict⟩⟩ q = true := by
  have hnew : new? ⟨7, .infinite⟩ ⟨3, .weak⟩ = some ⟨⟨0, .infinite⟩, ⟨3, .weak⟩⟩ := by
    decide +kernel
  have hopen : open? 1 5 = some ⟨⟨1, .strict⟩, ⟨5, .strict⟩⟩ := by decide +kernel
  have hmeet : Raw.intersect ⟨⟨0, .infinite⟩, ⟨3, .weak⟩⟩ ⟨⟨1, .strict⟩, ⟨5, .strict⟩⟩
      = some ⟨⟨1, .strict⟩, ⟨3, .weak⟩⟩ := by decide +kernel
  obtain ⟨-, -, -, -, hk, -⟩ := elements_exact (.new hnew) (.between hopen)
  exact ⟨.new hnew, .between hopen, _, hmeet, rfl, hk _ hmeet⟩

end Interval.Raw

end AlgebraicReal
