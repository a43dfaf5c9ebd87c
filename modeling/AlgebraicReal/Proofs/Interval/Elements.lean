import AlgebraicReal.Proofs.Interval.Sample

/-!
# What the elements of an interval determine

Every interval has an element, its sample, and so it has elements below every number above its lower
end (`exists_contains_lt`). An end with all elements of an interval on its side therefore covers the
end of the interval (`coversLower_iff`). This makes the inclusion of intervals that of their
elements, makes intervals with the same elements equal, and makes a shared sign the inclusion in a
half-line. Upper ends are lower ends of the opposite numbers.
-/

namespace AlgebraicReal

theorem Sign.ofRat_eq_negative_iff {q : ℚ} : ofRat q = negative ↔ q < 0 := by
  rw [← ofReal_ratCast, ofReal_eq_negative_iff, Rat.cast_lt_zero]

namespace Bound

variable {a b : Bound} {q : ℚ}

theorem value?_eq_none_iff : b.value? = none ↔ b = infinite := by
  cases b <;> simp [value?]

/-- An end is mirrored at zero. -/
theorem isBelow_negate : b.negate.isBelow q = b.isAbove (-q) := by
  cases b with
  | infinite => rfl
  | strict c => exact decide_eq_decide.2 neg_lt
  | weak c => exact decide_eq_decide.2 neg_le

theorem coversLower_negate : a.negate.coversLower b.negate = a.coversUpper b := by
  cases a <;> cases b
  case strict.weak => exact decide_eq_decide.2 neg_lt_neg_iff
  case strict.strict | weak.strict | weak.weak => exact decide_eq_decide.2 neg_le_neg_iff
  all_goals rfl

/-- Mirrored twice, an end is itself. -/
theorem negate_injective : Function.Injective negate := by
  intro a b h
  cases a <;> cases b <;> simp_all [negate]

/-- Lower ends that cover each other are the same. -/
theorem eq_of_coversLower : ∀ {a b : Bound}, a.coversLower b = true → b.coversLower a = true → a = b
  | .infinite, .infinite, _, _ => rfl
  | .infinite, .strict _, _, h | .infinite, .weak _, _, h => by cases h
  | .strict _, .infinite, h, _ | .weak _, .infinite, h, _ => by cases h
  | .strict _, .strict _, h, h' =>
    congrArg strict (le_antisymm (of_decide_eq_true h) (of_decide_eq_true h'))
  | .weak _, .weak _, h, h' =>
    congrArg weak (le_antisymm (of_decide_eq_true h) (of_decide_eq_true h'))
  | .strict _, .weak _, h, h' => absurd (of_decide_eq_true h) (not_lt.2 (of_decide_eq_true h'))
  | .weak _, .strict _, h, h' => absurd (of_decide_eq_true h') (not_lt.2 (of_decide_eq_true h))

/-- Ends that cover each other are the same. -/
theorem eq_of_coversUpper (hab : a.coversUpper b = true) (hba : b.coversUpper a = true) :
    a = b := by
  rw [← coversLower_negate] at hab hba
  exact negate_injective (eq_of_coversLower hab hba)

end Bound

namespace Interval

variable {i j k : Interval} {q : ℚ}

/-! ## Inclusion -/

/-- Between the lower end and `t` everything is an element, unless an element lies further up. -/
theorem exists_contains_lt {t : ℚ} (h : ∀ c, i.lower.value? = some c → c < t) :
    ∃ q, i.contains q = true ∧ q < t := by
  rcases lt_or_ge i.sample t with hlt | hge
  · exact ⟨i.sample, i.sample_mem, hlt⟩
  · obtain ⟨q, hq, hqt⟩ : ∃ q, i.lower.isBelow q = true ∧ q < t := by
      cases hv : i.lower.value? with
      | none => exact ⟨t - 1, by rw [Bound.value?_eq_none_iff.1 hv]; rfl, sub_one_lt t⟩
      | some c =>
        exact ⟨Rational.midpoint c t, Bound.isBelow_of_lt hv (Rational.lt_midpoint (h c hv)),
          Rational.midpoint_lt (h c hv)⟩
    have hs := (contains_iff.1 i.sample_mem).2
    exact ⟨q, contains_iff.2 ⟨hq, Bound.isAbove_of_le hs (hqt.le.trans hge)⟩, hqt⟩

/-- An included end is an element. -/
theorem contains_of_lower_eq_weak {c : ℚ} (h : i.lower = .weak c) : i.contains c = true := by
  have hs := contains_iff.1 i.sample_mem
  rw [h] at hs
  refine contains_iff.2 ⟨?_, Bound.isAbove_of_le hs.2 (of_decide_eq_true hs.1)⟩
  rw [h]
  exact decide_eq_true le_rfl

/-- A lower end covers that of an interval if it is below all elements. -/
theorem coversLower_iff {b : Bound} :
    b.coversLower i.lower = true ↔ ∀ q, i.contains q = true → b.isBelow q = true := by
  constructor
  · intro h q hq
    rw [Bound.isBelow_iff_below]
    exact Bound.below_of_coversLower h (Bound.isBelow_iff_below.1 (contains_iff.1 hq).1)
  · intro h
    -- no element is below a finite end `b`
    have hle : ∀ t, b.value? = some t → ∀ q, i.contains q = true → t ≤ q := fun t ht q hq => by
      have hbelow := h q hq
      cases b <;> cases ht
      · exact (of_decide_eq_true hbelow : t < q).le
      · exact of_decide_eq_true hbelow
    have hfinite : ∀ t, b.value? = some t → ∃ c, i.lower.value? = some c ∧ t ≤ c := fun t ht => by
      by_contra hnone
      obtain ⟨q, hq, hqt⟩ := exists_contains_lt (i := i) (t := t) fun c hc =>
        not_le.1 fun hct => hnone ⟨c, hc, hct⟩
      exact absurd (hle t ht q hq) (not_le.2 hqt)
    cases b with
    | infinite => rfl
    | strict t =>
      obtain ⟨c, hc, hct⟩ := hfinite t rfl
      cases hl : i.lower with
      | infinite =>
        rw [hl] at hc
        cases hc
      | strict c' =>
        rw [hl] at hc
        cases hc
        exact decide_eq_true hct
      | weak c' => exact h c' (contains_of_lower_eq_weak hl)
    | weak t =>
      obtain ⟨c, hc, hct⟩ := hfinite t rfl
      cases hl : i.lower <;> rw [hl] at hc <;> cases hc <;> exact decide_eq_true hct

theorem coversUpper_iff {b : Bound} :
    b.coversUpper i.upper = true ↔ ∀ q, i.contains q = true → b.isAbove q = true := by
  rw [← Bound.coversLower_negate, show i.upper.negate = i.negate.lower from rfl, coversLower_iff,
    neg_surjective.forall]
  simp only [contains_negate, Bound.isBelow_negate, neg_neg]

/-- One interval covers another if it has all its elements. Neither is empty, so this is read off
the ends. -/
theorem covers_iff_forall : i.covers j = true ↔ ∀ q, j.contains q = true → i.contains q = true := by
  simp only [covers, Bool.and_eq_true, coversLower_iff, coversUpper_iff, contains_iff]
  exact ⟨fun h q hq => ⟨h.1 q hq, h.2 q hq⟩,
    fun h => ⟨fun q hq => (h q hq).1, fun q hq => (h q hq).2⟩⟩

/-- An interval is determined by its elements. -/
theorem eq_of_contains_eq (h : ∀ q, i.contains q = j.contains q) : i = j := by
  have hij : i.covers j = true := covers_iff_forall.2 fun q hq => (h q).trans hq
  have hji : j.covers i = true := covers_iff_forall.2 fun q hq => (h q).symm.trans hq
  rw [covers, Bool.and_eq_true] at hij hji
  have hl := Bound.eq_of_coversLower hij.1 hji.1
  have hu := Bound.eq_of_coversUpper hij.2 hji.2
  cases i
  cases j
  cases hl
  cases hu
  rfl

/-! ## Emptiness, intersection and sign -/

/-- Two ends leave room if some rational lies between. -/
theorem leaveRoom_iff {a b : Bound} :
    a.leaveRoom b = true ↔ ∃ q, a.isBelow q = true ∧ b.isAbove q = true := by
  constructor
  · intro h
    exact ⟨_, contains_iff.1 (sample_mem ⟨a, b, h⟩)⟩
  · rintro ⟨q, ha, hb⟩
    exact Bound.leaveRoom_of_below_of_above (Bound.isBelow_iff_below.1 ha)
      (Bound.isAbove_iff_above.1 hb)

/-- The ends are refused exactly if nothing lies between them. -/
theorem ofBounds?_eq_none_iff {a b : Bound} :
    ofBounds? a b = none ↔ ∀ q, ¬(a.isBelow q = true ∧ b.isAbove q = true) := by
  unfold ofBounds?
  rw [dite_eq_right_iff, ← not_exists, ← leaveRoom_iff]
  simp

theorem ends_of_ofBounds? {a b : Bound} (h : ofBounds? a b = some k) :
    k.lower = a ∧ k.upper = b := by
  unfold ofBounds? at h
  split at h <;> cases h
  exact ⟨rfl, rfl⟩

/-- The elements of an intersection are those of both. -/
theorem contains_of_intersect (h : i.intersect j = some k) (q : ℚ) :
    k.contains q = true ↔ i.contains q = true ∧ j.contains q = true := by
  simp only [contains_iff_mem_reals]
  exact mem_reals_of_intersect h

/-- There is no intersection exactly if no element is common. -/
theorem intersect_eq_none_iff :
    i.intersect j = none ↔ ∀ q, ¬(i.contains q = true ∧ j.contains q = true) := by
  constructor
  · intro h q hq
    exact intersect_ne_none (contains_iff_mem_reals.1 hq.1) (contains_iff_mem_reals.1 hq.2) h
  · intro h
    by_contra hne
    obtain ⟨k, hk⟩ := Option.ne_none_iff_exists'.1 hne
    exact h k.sample ((contains_of_intersect hk _).1 k.sample_mem)

/-- The tests of the sign are statements on all elements. -/
theorem isPositive_iff : i.isPositive = true ↔ ∀ q, i.contains q = true → 0 < q := by
  have hcovers : i.isPositive = (Bound.strict 0).coversLower i.lower := by
    unfold isPositive
    cases i.lower <;> rfl
  rw [hcovers, coversLower_iff]
  simp only [Bound.isBelow, decide_eq_true_iff]

theorem isNegative_iff : i.isNegative = true ↔ ∀ q, i.contains q = true → q < 0 := by
  have hcovers : i.isNegative = (Bound.strict 0).coversUpper i.upper := by
    unfold isNegative
    cases i.upper <;> rfl
  rw [hcovers, coversUpper_iff]
  simp only [Bound.isAbove, decide_eq_true_iff]

theorem contains_point {p : ℚ} : (point p).contains q = true ↔ q = p := by
  rw [contains_iff_mem_reals, reals_point, Set.mem_singleton_iff, Rat.cast_inj]

/-- Zero alone is the interval of all zeros. -/
theorem isZero_iff : i.isZero = true ↔ ∀ q, i.contains q = true → q = 0 := by
  unfold isZero
  rw [decide_eq_true_iff]
  constructor
  · intro h q hq
    rw [eq_point_of_point? h] at hq
    exact contains_point.1 hq
  · intro h
    have hzero : i.contains 0 = true := h _ i.sample_mem ▸ i.sample_mem
    have heq : i = point 0 := eq_of_contains_eq fun q => by
      rw [Bool.eq_iff_iff, contains_point]
      exact ⟨h q, fun hq => hq ▸ hzero⟩
    rw [heq, point?_point]

/-- The sign of an interval is the sign of all its elements. An element tells apart which of the
three it is. -/
theorem sign?_eq_some_iff {s : Sign} :
    i.sign? = some s ↔ ∀ q, i.contains q = true → Sign.ofRat q = s := by
  have hpos : i.isPositive = true → ¬i.isZero = true := fun h h0 =>
    (isPositive_iff.1 h _ i.sample_mem).ne' (isZero_iff.1 h0 _ i.sample_mem)
  have hneg : i.isNegative = true → ¬i.isZero = true ∧ ¬i.isPositive = true := fun h =>
    ⟨fun h0 => (isNegative_iff.1 h _ i.sample_mem).ne (isZero_iff.1 h0 _ i.sample_mem),
      fun h' => lt_asymm (isNegative_iff.1 h _ i.sample_mem) (isPositive_iff.1 h' _ i.sample_mem)⟩
  cases s with
  | zero =>
    simp only [Sign.ofRat_eq_zero_iff, ← isZero_iff]
    unfold sign?
    split_ifs <;> simp_all
  | positive =>
    simp only [Sign.ofRat_eq_positive_iff, ← isPositive_iff]
    unfold sign?
    split_ifs <;> simp_all
  | negative =>
    simp only [Sign.ofRat_eq_negative_iff, ← isNegative_iff]
    unfold sign?
    split_ifs <;> simp_all

end Interval

end AlgebraicReal
