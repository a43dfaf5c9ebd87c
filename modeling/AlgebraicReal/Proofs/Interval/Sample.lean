import AlgebraicReal.Proofs.Interval

/-!
# Representative elements

Of a point, of the whole line and of a half-line around zero the sample is the integer closest to
zero, and of a bounded interval it is the one closest to zero of those strictly inside, or else the
midpoint. On a half-line beside zero the sample is one past the end rounded outwards, which is the
closest integer only if the end is an excluded integer. So the sample is always an element
(`sample_mem`), and `Overlooks` tells when it is not the integer closest to zero although there is
one.
-/

namespace AlgebraicReal

/-- What is found between two numbers is an integer. -/
theorem Rational.exists_int_of_integerBetween {lo hi q : ℚ} (h : integerBetween lo hi = some q) :
    ∃ k : ℤ, q = k := by
  unfold integerBetween at h
  split at h
  next => cases h
  next =>
    split at h
    next =>
      cases h
      exact ⟨0, rfl⟩
    next =>
      by_cases hlo : 0 ≤ lo
      · simp only [if_pos hlo, Option.ite_none_right_eq_some, Option.some_inj] at h
        exact ⟨lo.floor + 1, by rw [← h.2, Int.cast_add, Int.cast_one]⟩
      · simp only [if_neg hlo, Option.ite_none_right_eq_some, Option.some_inj] at h
        exact ⟨hi.ceil - 1, by rw [← h.2, Int.cast_sub, Int.cast_one]⟩

namespace Bound

variable {b : Bound} {p q c : ℚ}

/-- What is above a number is above all smaller ones. -/
theorem isAbove_of_le (h : b.isAbove q = true) (hpq : p ≤ q) : b.isAbove p = true := by
  cases b with
  | infinite => rfl
  | strict c => exact decide_eq_true (hpq.trans_lt (of_decide_eq_true h))
  | weak c => exact decide_eq_true (hpq.trans (of_decide_eq_true h))

theorem isBelow_of_ge (h : b.isBelow p = true) (hpq : p ≤ q) : b.isBelow q = true := by
  cases b with
  | infinite => rfl
  | strict c => exact decide_eq_true ((of_decide_eq_true h).trans_le hpq)
  | weak c => exact decide_eq_true ((of_decide_eq_true h).trans hpq)

/-- Whatever lies strictly beyond the number of an end lies beyond the end. -/
theorem isBelow_of_lt (h : b.value? = some c) (hq : c < q) : b.isBelow q = true := by
  cases b <;> cases h
  · exact decide_eq_true hq
  · exact decide_eq_true hq.le

theorem isAbove_of_lt (h : b.value? = some c) (hq : q < c) : b.isAbove q = true := by
  cases b <;> cases h
  · exact decide_eq_true hq
  · exact decide_eq_true hq.le

theorem value?_negate (h : b.value? = some c) : b.negate.value? = some (-c) := by
  cases b <;> cases h <;> rfl

/-- A mirrored end excludes the opposite number. -/
theorem negate_eq_strict_iff : b.negate = .strict c ↔ b = .strict (-c) := by
  cases b with
  | infinite => simp only [negate, reduceCtorEq]
  | strict a => rw [negate, strict.injEq, strict.injEq, neg_eq_iff_eq_neg]
  | weak a => simp only [negate, reduceCtorEq]

theorem value_eq (h : b.value? = some c) : b.value = c := by
  cases b <;> cases h <;> rfl

/-- A number beyond an end is at the end only if the end is included. -/
theorem eq_weak_iff_of_isBelow (h : b.value? = some c) (hq : b.isBelow q = true) :
    b = .weak q ↔ ¬c < q := by
  cases b <;> cases h
  · exact iff_of_false nofun fun hc => hc (of_decide_eq_true hq)
  · rw [weak.injEq, not_lt]
    exact ⟨fun heq => heq.ge, fun hle => le_antisymm (of_decide_eq_true hq) hle⟩

/-- An end that has the number itself is a closed one there. -/
theorem eq_weak_iff_of_isAbove (h : b.value? = some c) (hq : b.isAbove q = true) :
    b = .weak q ↔ ¬q < c := by
  cases b <;> cases h
  · exact iff_of_false nofun fun hc => hc (of_decide_eq_true hq)
  · rw [weak.injEq, not_lt]
    exact ⟨fun heq => heq.le, fun hle => le_antisymm hle (of_decide_eq_true hq)⟩

end Bound

namespace Interval

variable {i : Interval} {a b q : ℚ}

/-- Intervals have no holes. -/
theorem contains_of_le_of_le {p r : ℚ} (hp : i.contains p = true) (hr : i.contains r = true)
    (hpq : p ≤ q) (hqr : q ≤ r) : i.contains q = true :=
  contains_iff.2 ⟨Bound.isBelow_of_ge (contains_iff.1 hp).1 hpq,
    Bound.isAbove_of_le (contains_iff.1 hr).2 hqr⟩

theorem contains_negate : i.negate.contains q = i.contains (-q) := by
  rw [Bool.eq_iff_iff, contains_iff_mem_reals, contains_iff_mem_reals, mem_reals_negate,
    Rat.cast_neg]

/-! ## The shapes of an interval -/

/-- The shapes that the sample tells apart. -/
inductive Shape (i : Interval) : Prop
  | point (q : ℚ) (h : i = .point q)
  | unbounded (h : i = .unbounded)
  | below (b : ℚ) (hl : i.lower = .infinite) (hu : i.upper.value? = some b)
  | above (a : ℚ) (hl : i.lower.value? = some a) (hu : i.upper = .infinite)
  | bounded (a b : ℚ) (hl : i.lower.value? = some a) (hu : i.upper.value? = some b) (hab : a < b)

/-- Every interval is a point, the whole line, a half-line or bounded with room inside. -/
theorem shape (i : Interval) : Shape i := by
  obtain ⟨lower, upper, room⟩ := i
  cases lower with
  | infinite =>
    cases upper with
    | infinite => exact .unbounded rfl
    | strict b | weak b => exact .below b rfl rfl
  | strict a =>
    cases upper with
    | infinite => exact .above a rfl rfl
    | strict b | weak b => exact .bounded a b rfl rfl (of_decide_eq_true room)
  | weak a =>
    cases upper with
    | infinite => exact .above a rfl rfl
    | strict b => exact .bounded a b rfl rfl (of_decide_eq_true room)
    | weak b =>
      rcases (of_decide_eq_true room : a ≤ b).eq_or_lt with rfl | hab
      · exact .point a rfl
      · exact .bounded a b rfl rfl hab

theorem sample_point (q : ℚ) : (point q).sample = q := by
  unfold sample
  rw [point?_point]

theorem sample_unbounded : unbounded.sample = 0 := rfl

/-- What is taken from a half-line below. -/
theorem sample_below (hl : i.lower = .infinite) (hu : i.upper.value? = some b) :
    i.sample = if i.contains 0 then 0 else ((b.floor - 1 : ℤ) : ℚ) := by
  obtain ⟨lower, upper, room⟩ := i
  cases hl
  cases upper <;> cases hu <;> simp [sample, point?, Bound.value]

/-- What is taken from a half-line above. -/
theorem sample_above (hl : i.lower.value? = some a) (hu : i.upper = .infinite) :
    i.sample = if i.contains 0 then 0 else ((a.ceil + 1 : ℤ) : ℚ) := by
  obtain ⟨lower, upper, room⟩ := i
  cases hu
  cases lower <;> cases hl <;> simp [sample, point?, Bound.value]

/-- What is taken from a bounded interval does not depend on whether its ends are included. -/
theorem sample_bounded (hl : i.lower.value? = some a) (hu : i.upper.value? = some b) (hab : a < b) :
    i.sample = (between a b hab).sample := by
  obtain ⟨lower, upper, room⟩ := i
  cases lower <;> cases hl <;> cases upper <;> cases hu <;>
    simp [sample, point?, Bound.value, between, hab.ne, midpoint, lo, hi]

/-- Between two finite ends everything is an element. -/
theorem contains_of_lt_of_lt (hl : i.lower.value? = some a) (hu : i.upper.value? = some b)
    (haq : a < q) (hqb : q < b) : i.contains q = true :=
  contains_iff.2 ⟨Bound.isBelow_of_lt hl haq, Bound.isAbove_of_lt hu hqb⟩

/-! ## The sample is an element -/

theorem contains_unbounded : unbounded.contains q = true := rfl

/-- Whatever is taken is an element. -/
theorem sample_mem (i : Interval) : i.contains i.sample = true := by
  -- only a half-line without zero needs an integer beyond its end
  cases i.shape with
  | point q h =>
    rw [h, sample_point, contains_iff_mem_reals, reals_point, Set.mem_singleton_iff]
  | unbounded h => rw [h, contains_unbounded]
  | below b hl hu =>
    rw [sample_below hl hu]
    split
    next h => exact h
    next =>
      refine contains_iff.2 ⟨by rw [hl]; rfl, Bound.isAbove_of_lt hu ?_⟩
      have hfloor : (b.floor : ℚ) ≤ b := Rat.floor_le _
      push_cast
      linarith
  | above a hl hu =>
    rw [sample_above hl hu]
    split
    next h => exact h
    next =>
      refine contains_iff.2 ⟨Bound.isBelow_of_lt hl ?_, by rw [hu]; rfl⟩
      have hceil : a ≤ (a.ceil : ℚ) := Rat.le_ceil
      push_cast
      linarith
  | bounded a b hl hu hab =>
    rw [sample_bounded hl hu hab]
    have hmem := sample_between_mem hab
    exact contains_of_lt_of_lt hl hu hmem.1 hmem.2

/-! ## The integer closest to zero -/

/-- The integer in the interval that is closer to zero than all others in it. -/
def ClosestInteger (i : Interval) (k : ℤ) : Prop :=
  i.contains k = true ∧ ∀ m : ℤ, i.contains m = true → m ≠ k → |k| < |m|

/-- An element zero is closest to itself. -/
theorem ClosestInteger.eq_zero {k : ℤ} (h : i.ClosestInteger k) (h0 : i.contains 0 = true) :
    k = 0 := by
  by_contra hne
  have hlt := h.2 0 (by rwa [Int.cast_zero]) (Ne.symm hne)
  rw [abs_zero] at hlt
  exact absurd (abs_nonneg k) (not_le.2 hlt)

/-- Two integers as close to zero as each other are opposite, and then zero is closer. -/
theorem exists_closestInteger {m : ℤ} (hm : i.contains m = true) : ∃ k, i.ClosestInteger k := by
  obtain ⟨k, hk, hmin⟩ := (measure Int.natAbs).wf.has_min {n : ℤ | i.contains n = true} ⟨m, hm⟩
  have hle : ∀ n : ℤ, i.contains n = true → k.natAbs ≤ n.natAbs := fun n hn => not_lt.1 (hmin n hn)
  refine ⟨k, hk, fun n hn hne => ?_⟩
  rw [Int.abs_eq_natAbs, Int.abs_eq_natAbs, Nat.cast_lt]
  rcases (hle n hn).lt_or_eq with hlt | heq
  · exact hlt
  · have hzero : i.contains ((0 : ℤ) : ℚ) = true := by
      rcases le_total 0 k with hpos | hneg
      · exact contains_of_le_of_le hn hk (Int.cast_le.2 (by omega)) (Int.cast_le.2 hpos)
      · exact contains_of_le_of_le hk hn (Int.cast_le.2 hneg) (Int.cast_le.2 (by omega))
    have := hle 0 hzero
    omega

/-- On a half-line below zero the closest integer is the greatest one. -/
theorem ClosestInteger.not_contains_succ {k : ℤ} (h : i.ClosestInteger k)
    (hl : i.lower = .infinite) (h0 : ¬i.contains 0 = true) :
    ¬i.contains ((k + 1 : ℤ) : ℚ) = true := by
  intro hsucc
  have hneg : k + 1 < 0 := by
    by_contra hge
    refine h0 (contains_iff.2 ⟨by rw [hl]; rfl, Bound.isAbove_of_le (contains_iff.1 hsucc).2 ?_⟩)
    exact_mod_cast not_lt.1 hge
  have hlt := h.2 (k + 1) hsucc (by omega)
  rw [abs_of_neg (by omega), abs_of_neg (by omega)] at hlt
  omega

/-- On a half-line below, the sample is the closest integer if the end excludes the integer after
it, and one less otherwise. -/
theorem sample_below_closest {k : ℤ} (h : i.ClosestInteger k) (hl : i.lower = .infinite)
    (hu : i.upper.value? = some b) (h0 : ¬i.contains 0 = true) :
    i.sample = if i.upper = .strict (k + 1) then (k : ℚ) else k - 1 := by
  have hsucc := h.not_contains_succ hl h0
  have hk := h.1
  have hbelow : ∀ q, i.lower.isBelow q = true := fun q => by rw [hl]; rfl
  rw [contains_iff, and_iff_right (hbelow _)] at hsucc hk
  rw [sample_below hl hu, if_neg h0]
  have hfloor : ∀ n : ℤ, (n : ℚ) ≤ b → b < (n + 1 : ℤ) → b.floor = n := fun n hn hn' =>
    le_antisymm (Int.lt_add_one_iff.1 (Rat.floor_lt_iff.2 hn')) (Rat.le_floor_iff.2 hn)
  -- the end rounded down is `k`, but for an excluded end at the next integer
  cases hupper : i.upper with
  | infinite =>
    rw [hupper] at hu
    cases hu
  | weak c =>
    rw [hupper] at hu hk hsucc
    cases hu
    rw [if_neg nofun, hfloor k (of_decide_eq_true hk)
      (not_le.1 fun hle => hsucc (decide_eq_true hle))]
    push_cast
    rfl
  | strict c =>
    rw [hupper] at hu hk hsucc
    cases hu
    have hkb : (k : ℚ) < b := of_decide_eq_true hk
    have hle : b ≤ (k + 1 : ℤ) := not_lt.1 fun hlt => hsucc (decide_eq_true hlt)
    rcases hle.eq_or_lt with rfl | hlt
    · rw [hfloor (k + 1) le_rfl (by push_cast; linarith), if_pos (by push_cast; rfl)]
      push_cast
      ring
    · have hne : ¬Bound.strict b = .strict (k + 1) := fun heq => by
        cases heq
        push_cast at hlt
        exact lt_irrefl _ hlt
      rw [hfloor k hkb.le hlt, if_neg hne]
      push_cast
      rfl

/-! ## Half-lines above are opposite to half-lines below -/

/-- The mirrored interval has the opposite closest integer. -/
theorem ClosestInteger.negate {k : ℤ} (h : i.ClosestInteger k) : i.negate.ClosestInteger (-k) := by
  refine ⟨by rw [contains_negate, Int.cast_neg, neg_neg, h.1], fun m hm hne => ?_⟩
  rw [contains_negate, ← Int.cast_neg] at hm
  rw [abs_neg, ← abs_neg m]
  exact h.2 (-m) hm fun heq => hne (by rw [← heq, neg_neg])

/-- And the opposite sample, if it is a half-line. -/
theorem sample_above_eq (hl : i.lower.value? = some a) (hu : i.upper = .infinite) :
    i.sample = -i.negate.sample := by
  have hl' : i.negate.lower = .infinite := congrArg Bound.negate hu
  have hzero : i.negate.contains 0 = i.contains 0 := by rw [contains_negate, neg_zero]
  rw [sample_above hl hu, sample_below hl' (Bound.value?_negate hl), hzero,
    Rat.ceil_eq_neg_floor_neg]
  split
  next => rw [neg_zero]
  next =>
    push_cast
    ring

/-- So the case above follows from the case below. -/
theorem sample_above_closest {k : ℤ} (h : i.ClosestInteger k) (hl : i.lower.value? = some a)
    (hu : i.upper = .infinite) (h0 : ¬i.contains 0 = true) :
    i.sample = if i.lower = .strict (k - 1) then (k : ℚ) else k + 1 := by
  have hl' : i.negate.lower = .infinite := congrArg Bound.negate hu
  have hzero : ¬i.negate.contains 0 = true := by rwa [contains_negate, neg_zero]
  have hend : i.negate.upper = .strict ((-k : ℤ) + 1) ↔ i.lower = .strict (k - 1) := by
    refine Bound.negate_eq_strict_iff.trans ?_
    rw [Int.cast_neg, neg_add, neg_neg, ← sub_eq_add_neg]
  rw [sample_above_eq hl hu, sample_below_closest h.negate hl' (Bound.value?_negate hl) hzero]
  simp only [hend]
  split
  next =>
    push_cast
    ring
  next =>
    push_cast
    ring

/-! ## Bounded intervals -/

/-- The closest integer is the sample of a bounded interval exactly if it is not an end. -/
theorem sample_bounded_eq_iff {k : ℤ} (h : i.ClosestInteger k) (hl : i.lower.value? = some a)
    (hu : i.upper.value? = some b) (hab : a < b) : i.sample = k ↔ a < k ∧ (k : ℚ) < b := by
  rw [sample_bounded hl hu hab]
  constructor
  · intro hk
    rw [← hk]
    exact sample_between_mem hab
  · intro hk
    obtain ⟨j, hj, hclosest⟩ := sample_between_closest hab hk
    have hmem := sample_between_mem hab
    rw [hj] at hmem ⊢
    -- both are closest to zero, one in the interval and one in its interior
    by_contra hne
    have hjk := hclosest k hk.1 hk.2 fun heq => hne (by rw [heq])
    have hkj := h.2 j (contains_of_lt_of_lt hl hu hmem.1 hmem.2) fun heq => hne (by rw [heq])
    exact lt_asymm hjk hkj

theorem point?_bounded (hl : i.lower.value? = some a) (hu : i.upper.value? = some b)
    (hab : a < b) : i.point? = none := by
  by_contra hp
  obtain ⟨q, hq⟩ := Option.ne_none_iff_exists'.1 hp
  obtain rfl := eq_point_of_point? hq
  cases hl
  cases hu
  exact lt_irrefl _ hab

/-- A bounded interval without an integer has its midpoint as the sample. -/
theorem sample_bounded_midpoint (h : ∀ m : ℤ, ¬i.contains m = true) (hl : i.lower.value? = some a)
    (hu : i.upper.value? = some b) (hab : a < b) : i.sample = i.midpoint := by
  have hmid : i.midpoint = Rational.midpoint a b := by
    rw [midpoint, lo, hi, Bound.value_eq hl, Bound.value_eq hu]
  rw [sample_bounded hl hu hab, sample_between, hmid]
  cases hk : Rational.integerBetween a b with
  | none => rfl
  | some q =>
    obtain ⟨k, rfl⟩ := Rational.exists_int_of_integerBetween hk
    have hmem := Rational.integerBetween_mem hk
    exact absurd (contains_of_lt_of_lt hl hu hmem.1 hmem.2) (h k)

/-! ## When the closest integer is overlooked -/

/-- The closest integer `k` is not the sample: it is an included end of a bounded interval, or on a
half-line beside zero it is not the neighbour of an excluded integer. -/
def Overlooks (i : Interval) (k : ℤ) : Prop :=
  match i.lower, i.upper with
  | .infinite, .infinite => False
  | .infinite, upper => k ≠ 0 ∧ upper ≠ .strict (k + 1)
  | lower, .infinite => k ≠ 0 ∧ lower ≠ .strict (k - 1)
  | lower, upper => lower ≠ upper ∧ (lower = .weak k ∨ upper = .weak k)

/-- A half-line below overlooks its closest integer unless that is zero or the end excludes the
integer after it. -/
theorem overlooks_below {k : ℤ} (hl : i.lower = .infinite) (hu : i.upper.value? = some b) :
    i.Overlooks k ↔ k ≠ 0 ∧ i.upper ≠ .strict (k + 1) := by
  obtain ⟨lower, upper, room⟩ := i
  cases hl
  cases upper <;> cases hu <;> exact Iff.rfl

theorem overlooks_above {k : ℤ} (hl : i.lower.value? = some a) (hu : i.upper = .infinite) :
    i.Overlooks k ↔ k ≠ 0 ∧ i.lower ≠ .strict (k - 1) := by
  obtain ⟨lower, upper, room⟩ := i
  cases hu
  cases lower <;> cases hl <;> exact Iff.rfl

/-- A bounded interval overlooks it at an end. -/
theorem overlooks_bounded {k : ℤ} (hl : i.lower.value? = some a) (hu : i.upper.value? = some b)
    (hab : a < b) (hk : i.contains k = true) : i.Overlooks k ↔ ¬(a < k ∧ (k : ℚ) < b) := by
  have hends : i.Overlooks k ↔ i.lower ≠ i.upper ∧ (i.lower = .weak k ∨ i.upper = .weak k) := by
    obtain ⟨lower, upper, room⟩ := i
    cases lower <;> cases hl <;> cases upper <;> cases hu <;> exact Iff.rfl
  have hne : i.lower ≠ i.upper := fun heq => by
    rw [heq, hu, Option.some_inj] at hl
    exact hab.ne' hl
  rw [hends, and_iff_right hne, not_and_or]
  exact or_congr (Bound.eq_weak_iff_of_isBelow hl (contains_iff.1 hk).1)
    (Bound.eq_weak_iff_of_isAbove hu (contains_iff.1 hk).2)

/-- On a half-line the closest integer is the sample if it is zero or the end allows it, and else
the sample lies `d` further. -/
theorem sample_half_line {k : ℤ} {allowed : Prop} [Decidable allowed] {d : ℚ} (hd : d ≠ 0)
    (h : i.ClosestInteger k) (hzero : i.contains 0 = true → i.sample = 0)
    (hbeside : ¬i.contains 0 = true → i.sample = if allowed then (k : ℚ) else k + d) :
    (i.sample = k ↔ ¬(k ≠ 0 ∧ ¬allowed)) ∧ (k ≠ 0 ∧ ¬allowed → i.sample = k + d) := by
  by_cases h0 : i.contains 0 = true
  · obtain rfl := h.eq_zero h0
    rw [hzero h0, Int.cast_zero]
    exact ⟨iff_of_true rfl fun hne => hne.1 rfl, fun hne => absurd rfl hne.1⟩
  · have hk : k ≠ 0 := by
      rintro rfl
      exact h0 h.1
    rw [hbeside h0, and_iff_right hk, not_not]
    split
    next hend => exact ⟨iff_of_true rfl hend, fun hne => absurd hend hne⟩
    next hend => exact ⟨iff_of_false (fun heq => hd (add_eq_left.1 heq)) hend, fun _ => rfl⟩

/-- Where the closest integer is overlooked, the sample is its neighbour. -/
theorem sample_below_eq_iff {k : ℤ} (h : i.ClosestInteger k) (hl : i.lower = .infinite)
    (hu : i.upper.value? = some b) :
    (i.sample = k ↔ ¬i.Overlooks k) ∧ (i.Overlooks k → i.sample = k - 1) := by
  rw [overlooks_below hl hu, sub_eq_add_neg]
  refine sample_half_line (neg_ne_zero.2 one_ne_zero) h (fun h0 => ?_) fun h0 => ?_
  · rw [sample_below hl hu, if_pos h0]
  · rw [sample_below_closest h hl hu h0, sub_eq_add_neg]

theorem sample_above_eq_iff {k : ℤ} (h : i.ClosestInteger k) (hl : i.lower.value? = some a)
    (hu : i.upper = .infinite) :
    (i.sample = k ↔ ¬i.Overlooks k) ∧ (i.Overlooks k → i.sample = k + 1) := by
  rw [overlooks_above hl hu]
  refine sample_half_line one_ne_zero h (fun h0 => ?_) (sample_above_closest h hl hu)
  rw [sample_above hl hu, if_pos h0]

theorem not_overlooks_point {k : ℤ} : ¬(point q).Overlooks k := fun h => h.1 rfl

/-- The sample and the closest integer, for every shape. -/
theorem ClosestInteger.sample_eq_iff {k : ℤ} (h : i.ClosestInteger k) :
    i.sample = k ↔ ¬i.Overlooks k := by
  cases i.shape with
  | point q hq =>
    subst hq
    have hk := h.1
    rw [contains_iff_mem_reals, reals_point, Set.mem_singleton_iff, Rat.cast_inj] at hk
    rw [sample_point, hk]
    exact iff_of_true rfl not_overlooks_point
  | unbounded hi =>
    subst hi
    rw [h.eq_zero rfl, sample_unbounded, Int.cast_zero]
    exact iff_of_true rfl nofun
  | below b hl hu => exact (sample_below_eq_iff h hl hu).1
  | above a hl hu => exact (sample_above_eq_iff h hl hu).1
  | bounded a b hl hu hab =>
    rw [sample_bounded_eq_iff h hl hu hab, overlooks_bounded hl hu hab h.1, not_not]

/-- Without an integer in the interval, which is then no half-line, nothing is searched for. -/
theorem sample_of_no_integer (h : ∀ m : ℤ, ¬i.contains m = true) :
    i.sample = i.point?.getD i.midpoint := by
  have hmem := i.sample_mem
  have hzero : ¬i.contains 0 = true := by rw [← Int.cast_zero]; exact h 0
  cases i.shape with
  | point q hq => rw [hq, sample_point, point?_point, Option.getD_some]
  | unbounded hi =>
    subst hi
    exact absurd rfl hzero
  | below b hl hu =>
    rw [sample_below hl hu, if_neg hzero] at hmem
    exact absurd hmem (h _)
  | above a hl hu =>
    rw [sample_above hl hu, if_neg hzero] at hmem
    exact absurd hmem (h _)
  | bounded a b hl hu hab =>
    rw [sample_bounded_midpoint h hl hu hab, point?_bounded hl hu hab, Option.getD_none]

/-- The sample if the closest integer is overlooked. -/
theorem ClosestInteger.sample_of_overlooks {k : ℤ} (h : i.ClosestInteger k)
    (hover : i.Overlooks k) :
    (i.lower = .infinite → i.sample = k - 1) ∧ (i.upper = .infinite → i.sample = k + 1) ∧
      (i.lower ≠ .infinite → i.upper ≠ .infinite →
        ∃ h : i.lo < i.hi, i.sample = (between i.lo i.hi h).sample) := by
  have hfinite : ∀ {b : Bound} {c : ℚ}, b.value? = some c → b ≠ .infinite := by
    rintro b c hc rfl
    cases hc
  cases i.shape with
  | point q hq =>
    subst hq
    exact absurd hover not_overlooks_point
  | unbounded hi =>
    subst hi
    exact absurd hover nofun
  | below b hl hu =>
    exact ⟨fun _ => (sample_below_eq_iff h hl hu).2 hover, fun hinf => absurd hinf (hfinite hu),
      fun hne => absurd hl hne⟩
  | above a hl hu =>
    exact ⟨fun hinf => absurd hinf (hfinite hl), fun _ => (sample_above_eq_iff h hl hu).2 hover,
      fun _ hne => absurd hu hne⟩
  | bounded a b hl hu hab =>
    obtain rfl := Bound.value_eq hl
    obtain rfl := Bound.value_eq hu
    exact ⟨fun hinf => absurd hinf (hfinite hl), fun hinf => absurd hinf (hfinite hu),
      fun _ _ => ⟨hab, sample_bounded hl hu hab⟩⟩

/-- Without an integer in the interval the sample is the point or the midpoint. With one, it is the
integer closest to zero unless that is overlooked; then it is the next one away from zero on a
half-line, and the sample of the interior if both ends are finite. -/
theorem sample_exact (i : Interval) :
    ((∀ m : ℤ, ¬i.contains m = true) → i.sample = i.point?.getD i.midpoint) ∧
    ∀ m : ℤ, i.contains m = true → ∃ k, i.ClosestInteger k ∧ (i.sample = k ↔ ¬i.Overlooks k) ∧
      (i.Overlooks k →
        (i.lower = .infinite → i.sample = k - 1) ∧ (i.upper = .infinite → i.sample = k + 1) ∧
        (i.lower ≠ .infinite → i.upper ≠ .infinite →
          ∃ h : i.lo < i.hi, i.sample = (between i.lo i.hi h).sample)) := by
  refine ⟨sample_of_no_integer, fun m hm => ?_⟩
  obtain ⟨k, hk⟩ := exists_closestInteger hm
  exact ⟨k, hk, hk.sample_eq_iff, hk.sample_of_overlooks⟩

/-- The interval from one, included, to two, excluded, has one as an end and no integer inside. -/
theorem sample_exact_half_open :
    (⟨.weak 1, .strict 2, by decide⟩ : Interval).contains ((1 : ℤ) : ℚ) = true ∧
    ∃ k h, (⟨.weak 1, .strict 2, by decide⟩ : Interval).ClosestInteger k ∧
      (⟨.weak 1, .strict 2, by decide⟩ : Interval).sample = (between 1 2 h).sample := by
  have hone : (⟨.weak 1, .strict 2, by decide⟩ : Interval).contains ((1 : ℤ) : ℚ) = true := by
    decide +kernel
  obtain ⟨k, hk, hiff, hover⟩ := (sample_exact _).2 1 hone
  have hne : (⟨.weak 1, .strict 2, by decide⟩ : Interval).sample ≠ k := by
    have hs : (⟨.weak 1, .strict 2, by decide⟩ : Interval).sample = 3 / 2 := by decide +kernel
    rw [hs]
    intro h
    have hden := congrArg Rat.den h
    rw [Rat.den_intCast] at hden
    exact absurd hden (by decide +kernel)
  obtain ⟨h, hs⟩ := (hover (not_not.1 fun hn => hne (hiff.2 hn))).2.2 nofun nofun
  exact ⟨hone, k, h, hk, hs⟩

/-- Below `-1 / 2` the closest integer is `-1`, and the sample is `-2`. From one, included, to two,
excluded, it is one, and the sample is `3 / 2`. -/
theorem sample_not_closest :
    let below : Interval := ⟨.infinite, .strict (-1 / 2), rfl⟩
    let halfOpen : Interval := ⟨.weak 1, .strict 2, by decide⟩
    (below.ClosestInteger (-1) ∧ below.sample = -2) ∧
      halfOpen.ClosestInteger 1 ∧ halfOpen.sample = 3 / 2 := by
  refine ⟨⟨⟨by decide +kernel, fun m hm hne => ?_⟩, by decide +kernel⟩,
    ⟨by decide +kernel, fun m hm hne => ?_⟩, by decide +kernel⟩
  · have hlt : (m : ℚ) < -1 / 2 := of_decide_eq_true (contains_iff.1 hm).2
    have hneg : m < 0 := by
      have : (m : ℚ) < 0 := by linarith
      exact_mod_cast this
    rw [abs_neg, abs_one, abs_of_neg hneg]
    omega
  · have hle : (1 : ℚ) ≤ m := of_decide_eq_true (contains_iff.1 hm).1
    have hpos : 1 ≤ m := by exact_mod_cast hle
    rw [abs_one, abs_of_pos (by omega)]
    omega

end Interval

end AlgebraicReal
