import AlgebraicReal.Number.Sampling
import AlgebraicReal.Proofs.Number.Narrowing
import AlgebraicReal.Proofs.Number.Order

/-!
# Rationals around numbers

The enclosure of a number has it strictly inside, unless both ends are the number itself
(`enclosure_cases`), and this decides how an integer below or above it is found. The search between
two numbers stops at the first gap between the enclosures. Every round halves the spreads, so for
different numbers there is a gap at last (`exists_sampleGap`); what is taken from it is strictly
between the numbers and, if there are integers in the gap, the one closest to zero.
-/

namespace AlgebraicReal

open RefineM

/-- The root is strictly between the ends of the interval, or both ends. -/
theorem Locator.Locates.ends_cases {l : Locator} {x : ℝ} (h : l.Locates x) :
    (l.interval.lo = l.interval.hi ∧ x = l.interval.lo) ∨
      (l.interval.lo : ℝ) < x ∧ x < l.interval.hi := by
  cases hp : l.point? with
  | some q =>
    refine .inl ?_
    rw [h.eq_point hp, Interval.eq_point_of_point? hp]
    exact ⟨rfl, rfl⟩
  | none =>
    obtain ⟨a, b, hab, hi, hax, hxb⟩ := h.exists_between hp
    rw [hi]
    exact .inr ⟨hax, hxb⟩

namespace Number

variable {s t : Store} {m n : Number} {x y : ℝ}

/-! ## Enclosures -/

/-- The number is its enclosure, or lies strictly between the ends. -/
theorem enclosure_cases (h : n.Denotes s x) :
    ((n.enclosure s).1 = (n.enclosure s).2 ∧ x = (n.enclosure s).1) ∨
      ((n.enclosure s).1 : ℝ) < x ∧ x < (n.enclosure s).2 := by
  have hform := h.form
  unfold enclosure
  cases hf : n.form s <;> rw [hf] at hform
  case rational q => exact .inl ⟨rfl, hform⟩
  case root id => exact hform.2.ends_cases
  case thom u => exact hform.locates.ends_cases

theorem le_enclosure (h : n.Denotes s x) : x ≤ (n.enclosure s).2 := by
  rcases enclosure_cases h with ⟨he, hx⟩ | ⟨-, hlt⟩
  · rw [hx, he]
  · exact hlt.le

theorem enclosure_le (h : n.Denotes s x) : ((n.enclosure s).1 : ℝ) ≤ x := by
  rcases enclosure_cases h with ⟨-, hx⟩ | ⟨hlt, -⟩
  · exact hx.ge
  · exact hlt.le

/-- The ends of the enclosure are as far apart as the spread says. -/
theorem enclosure_width (h : n.Denotes s x) :
    ((n.enclosure s).2 : ℝ) - (n.enclosure s).1 ≤ n.spread s := by
  unfold Denotes at h
  unfold enclosure form spread
  cases hstored : n.stored with
  | rational q => simp only [sub_self, Rat.cast_zero, le_refl]
  | root id =>
    rw [hstored] at h
    cases hp : (s.get id).point? with
    | some q => simp only [hp, Locator.spread_of_point hp, sub_self, Rat.cast_zero, le_refl]
    | none =>
      simp only [hp]
      exact h.2.ends_near.2.2
  | thom u =>
    rw [hstored] at h
    exact h.locates.ends_near.2.2

/-! ## Below and above -/

/-- The sample below is an integer that is smaller. -/
theorem sampleBelow_lt (h : n.Denotes s x) :
    ∃ k : ℤ, n.sampleBelow s = ofRational k ∧ (k : ℝ) < x := by
  unfold sampleBelow
  rcases enclosure_cases h with ⟨he, hx⟩ | ⟨hlo, hhi⟩
  · refine ⟨(n.enclosure s).1.ceil - 1, ?_, ?_⟩
    · simp only [if_pos he, Int.cast_sub, Int.cast_one]
    · rw [hx]
      exact_mod_cast Rat.lt_ceil_iff.1 (sub_one_lt (n.enclosure s).1.ceil)
  · have hne : (n.enclosure s).1 ≠ (n.enclosure s).2 := fun he => by
      rw [he] at hlo
      exact lt_asymm hlo hhi
    refine ⟨(n.enclosure s).1.floor, ?_, ?_⟩
    · simp only [if_neg hne]
    · have hle : (((n.enclosure s).1.floor : ℤ) : ℝ) ≤ (n.enclosure s).1 := by
        exact_mod_cast Rat.floor_le _
      exact hle.trans_lt hlo

/-- The one above is an integer that is larger. -/
theorem lt_sampleAbove (h : n.Denotes s x) :
    ∃ k : ℤ, n.sampleAbove s = ofRational k ∧ x < k := by
  unfold sampleAbove
  rcases enclosure_cases h with ⟨he, hx⟩ | ⟨hlo, hhi⟩
  · refine ⟨(n.enclosure s).2.floor + 1, ?_, ?_⟩
    · simp only [if_pos he, Int.cast_add, Int.cast_one]
    · rw [hx, he]
      exact_mod_cast Rat.floor_lt_iff.1 (lt_add_one (n.enclosure s).2.floor)
  · have hne : (n.enclosure s).1 ≠ (n.enclosure s).2 := fun he => by
      rw [he] at hlo
      exact lt_asymm hlo hhi
    refine ⟨(n.enclosure s).2.ceil, ?_, ?_⟩
    · simp only [if_neg hne]
    · have hle : ((n.enclosure s).2 : ℝ) ≤ ((n.enclosure s).2.ceil : ℤ) := by
        exact_mod_cast Rat.le_ceil
      exact hhi.trans_le hle

/-! ## The gap between two numbers -/

/-- A rational in the gap between the enclosures of two numbers: an integer if there are any in the
gap, and then the one closest to zero. -/
structure InGap (s : Store) (m n : Number) (q : ℚ) : Prop where
  lower : (m.enclosure s).2 < q
  upper : q < (n.enclosure s).1
  closest : ∀ j : ℤ, (m.enclosure s).2 < j → (j : ℚ) < (n.enclosure s).1 →
    ∃ i : ℤ, q = i ∧ ∀ k : ℤ, (m.enclosure s).2 < k → (k : ℚ) < (n.enclosure s).1 → k ≠ i →
      |i| < |k|

/-- What lies in the gap lies between the numbers. -/
theorem InGap.between {q : ℚ} (h : InGap s m n q) (hm : m.Denotes s x) (hn : n.Denotes s y) :
    x < q ∧ (q : ℝ) < y :=
  ⟨(le_enclosure hm).trans_lt (Rat.cast_lt.2 h.lower),
    (Rat.cast_lt.2 h.upper).trans_le (enclosure_le hn)⟩

/-- The sample of the open interval between two enclosures lies in the gap. -/
theorem inGap_sample (h : (m.enclosure s).2 < (n.enclosure s).1) :
    InGap s m n (Interval.between _ _ h).sample where
  lower := (Interval.sample_between_mem h).1
  upper := (Interval.sample_between_mem h).2
  closest _ hj hj' := Interval.sample_between_closest h ⟨hj, hj'⟩

/-- Once the enclosures are apart, the search ends with the sample between them. -/
theorem exec_sampleGap_of_lt (h : (m.enclosure s).2 < (n.enclosure s).1) (fuel rounds : ℕ) :
    exec (sampleGap m n (fuel + 1)) rounds s =
      (.ok (ofRational (Interval.between _ _ h).sample), s) := by
  rw [sampleGap, exec_get_bind]
  unfold Interval.open?
  rw [dif_pos h]
  rfl

/-- Until then both numbers are refined. -/
theorem exec_sampleGap_of_not_lt (h : ¬(m.enclosure s).2 < (n.enclosure s).1) (fuel rounds : ℕ) :
    exec (sampleGap m n (fuel + 1)) rounds s =
      exec (do m.refine; n.refine; sampleGap m n fuel) rounds s := by
  rw [sampleGap, exec_get_bind]
  unfold Interval.open?
  rw [dif_neg h]

/-- Whatever the search returns lies in the gap that is there in the end. -/
theorem sampleGap_safe : ∀ (fuel : ℕ) {s : Store}, s.Valid → m.Denotes s x → n.Denotes s y →
    Safe (sampleGap m n fuel) s fun k t => ∃ q, k = ofRational q ∧ InGap t m n q
  | 0, _, hs, _, _ => Safe.throw hs nofun nofun
  | fuel + 1, s, hs, hm, hn => by
    by_cases hgap : (m.enclosure s).2 < (n.enclosure s).1
    · have hfound : Safe (pure (ofRational (Interval.between _ _ hgap).sample)) s fun k t =>
          ∃ q, k = ofRational q ∧ InGap t m n q := Safe.pure hs ⟨_, rfl, inGap_sample hgap⟩
      intro rounds o t he
      rw [exec_sampleGap_of_lt hgap] at he
      exact hfound rounds o t he
    · have hround : Safe (do m.refine; n.refine; sampleGap m n fuel) s fun k t =>
          ∃ q, k = ofRational q ∧ InGap t m n q := by
        refine (refine_exact hs hm).safe.bind fun _ t₁ hnar₁ hval₁ _ => ?_
        refine (refine_exact hval₁ (hn.narrowed hs hnar₁)).safe.bind fun _ t₂ hnar₂ hval₂ _ => ?_
        have hnar := hnar₁.trans hnar₂
        exact sampleGap_safe fuel hval₂ (hm.narrowed hs hnar) (hn.narrowed hs hnar)
      intro rounds o t he
      rw [exec_sampleGap_of_not_lt hgap] at he
      exact hround rounds o t he

theorem exists_sampleGap_of_lt (h : (m.enclosure s).2 < (n.enclosure s).1) (j : ℕ) :
    ∃ k t N, ∀ fuel > j, ∀ rounds ≥ N, exec (sampleGap m n fuel) rounds s = (.ok k, t) := by
  refine ⟨ofRational (Interval.between _ _ h).sample, s, 0, fun fuel hfuel rounds _ => ?_⟩
  obtain ⟨f, rfl⟩ := Nat.exists_eq_succ_of_ne_zero (Nat.ne_zero_of_lt hfuel)
  exact exec_sampleGap_of_lt h f rounds

/-- Numbers that are further apart than twice a distance have a gap between their enclosures once
the spreads are no more than that distance. As each round halves the spreads, the search ends. -/
theorem exists_sampleGap {δ : ℝ} (hδ : 2 * δ < y - x) : ∀ (j : ℕ) {s : Store}, s.Valid →
    m.Denotes s x → n.Denotes s y → (m.spread s : ℝ) ≤ δ * 2 ^ j → (n.spread s : ℝ) ≤ δ * 2 ^ j →
      ∃ k t N, ∀ fuel > j, ∀ rounds ≥ N, exec (sampleGap m n fuel) rounds s = (.ok k, t) := by
  intro j
  induction j with
  | zero =>
    intro s hs hm hn hspread hspread'
    have hwidth := enclosure_width hm
    have hwidth' := enclosure_width hn
    have hgap : (m.enclosure s).2 < (n.enclosure s).1 := by
      have hle := enclosure_le hm
      have hle' := le_enclosure hn
      rw [pow_zero, mul_one] at hspread hspread'
      exact (Rat.cast_lt (K := ℝ)).1 (by linarith)
    exact exists_sampleGap_of_lt hgap 0
  | succ j ih =>
    intro s hs hm hn hspread hspread'
    by_cases hgap : (m.enclosure s).2 < (n.enclosure s).1
    · exact exists_sampleGap_of_lt hgap (j + 1)
    · obtain ⟨_, t₁, N₁, hnar₁, hval₁, hhalf₁, he₁⟩ := (refine_exact hs hm).settles
      have hn₁ := hn.narrowed hs hnar₁
      obtain ⟨_, t₂, N₂, hnar₂, hval₂, hhalf₂, he₂⟩ := (refine_exact hval₁ hn₁).settles
      have hm₁ := hm.narrowed hs hnar₁
      -- each number is refined once in the round, and the other step does not widen it
      have hfirst : (m.spread t₂ : ℝ) ≤ m.spread s / 2 := by
        exact_mod_cast (hm₁.spread_le hnar₂).trans hhalf₁
      have hsecond : (n.spread t₂ : ℝ) ≤ n.spread s / 2 := by
        have hle := hn.spread_le hnar₁
        exact_mod_cast hhalf₂.trans (by linarith)
      rw [pow_succ] at hspread hspread'
      obtain ⟨k, t, N, he⟩ := ih hval₂ (hm₁.narrowed hval₁ hnar₂) (hn₁.narrowed hval₁ hnar₂)
        (by linarith) (by linarith)
      refine ⟨k, t, max N₁ (max N₂ N), fun fuel hfuel rounds hrounds => ?_⟩
      obtain ⟨f, rfl⟩ := Nat.exists_eq_succ_of_ne_zero (Nat.ne_zero_of_lt hfuel)
      rw [exec_sampleGap_of_not_lt hgap, exec_bind, he₁ rounds (by omega)]
      simp only
      rw [exec_bind, he₂ rounds (by omega)]
      exact he f (Nat.lt_of_succ_lt_succ hfuel) rounds (by omega)

/-- Between different numbers a gap is found. -/
theorem sampleGap_exact (hs : s.Valid) (hm : m.Denotes s x) (hn : n.Denotes s y) (hxy : x < y) :
    Exact (do sampleGap m n (← read)) s fun k t => ∃ q, k = ofRational q ∧ InGap t m n q := by
  have hsafe : Safe (do sampleGap m n (← read)) s fun k t =>
      ∃ q, k = ofRational q ∧ InGap t m n q := Safe.read_bind fun rounds =>
    sampleGap_safe rounds hs hm hn
  refine ⟨hsafe, ?_⟩
  have hδ : 0 < (y - x) / 3 := div_pos (sub_pos.2 hxy) three_pos
  obtain ⟨j, hj⟩ := exists_le_mul_two_pow (max (m.spread s) (n.spread s) : ℝ) hδ
  obtain ⟨k, t, N, he⟩ := exists_sampleGap (by linarith) j hs hm hn ((le_max_left _ _).trans hj)
    ((le_max_right _ _).trans hj)
  exact hsafe.settles (N := max (j + 1) N) fun rounds hrounds =>
    he rounds (by omega) rounds (by omega)

/-- There is a sample if the first number is smaller. -/
theorem sampleBetween_exactIf (hs : s.Valid) (hm : m.Denotes s x) (hn : n.Denotes s y) :
    ExactIf (x < y) (m.sampleBetween n) s fun k t => ∃ q, k = ofRational q ∧ InGap t m n q := by
  refine (less_exact hs hm hn).exactIf.bind fun b t hnar hval hb => ?_
  split
  next hlt =>
    exact (sampleGap_exact hval (hm.narrowed hs hnar) (hn.narrowed hs hnar) (hb.1 hlt)).exactIf
  next hlt => exact ExactIf.throw hval nofun nofun (hb.not.1 hlt)

/-- Otherwise the range is refused. -/
theorem sampleBetween_refuses (hs : s.Valid) (hm : m.Denotes s x) (hn : n.Denotes s y)
    (hyx : y ≤ x) : Refuses (m.sampleBetween n) s .invalidSampleRange := by
  refine (less_exact hs hm hn).refuses_bind fun b t _ hval hb => ?_
  rw [if_neg (hb.not.2 (not_lt.2 hyx))]
  exact Refuses.throw hval nofun nofun

/-- Around a number there are integers, whatever its form and its interval. Between two numbers the
search ends: in an error exactly if the first is not less, and otherwise with a rational strictly
between them, an integer closest to zero if the gap at the end has any. -/
theorem sample_strict (hs : s.Valid) (hm : m.Denotes s x) (hn : n.Denotes s y) (ht : s.Narrowed t)
    (hval : t.Valid) :
    (∃ k : ℤ, m.sampleBelow t = ofRational k ∧ (k : ℝ) < x) ∧
    (∃ k : ℤ, m.sampleAbove t = ofRational k ∧ x < k) ∧
    (Refuses (m.sampleBetween n) t .invalidSampleRange ↔ y ≤ x) ∧
    (x < y → Exact (m.sampleBetween n) t fun k u =>
      ∃ q : ℚ, k = ofRational q ∧ x < q ∧ (q : ℝ) < y ∧ InGap u m n q) := by
  have hmt := hm.narrowed hs ht
  have hnt := hn.narrowed hs ht
  have hexact := sampleBetween_exactIf hval hmt hnt
  refine ⟨sampleBelow_lt hmt, lt_sampleAbove hmt, ⟨fun hrefuses => not_lt.1 fun hxy => ?_,
    sampleBetween_refuses hval hmt hnt⟩, fun hxy => ?_⟩
  · obtain ⟨k, u, N, -, -, -, he⟩ := (hexact.exact hxy).settles
    exact hrefuses.not_ok N k u (he N le_rfl)
  · refine (hexact.exact hxy).mono fun k u hnar _ hk => ?_
    obtain ⟨q, rfl, hq⟩ := hk
    have hbetween := hq.between (hmt.narrowed hval hnar) (hnt.narrowed hval hnar)
    exact ⟨q, rfl, hbetween.1, hbetween.2, hq⟩

/-- One and the interval of the square root of two touch, but there is a rational between them; the
square root and a copy of it have none. -/
theorem sample_one_sqrtTwo :
    (Exact ((ofRational 1).sampleBetween sqrtTwo) .sqrtTwo fun k _ =>
      ∃ q : ℚ, k = ofRational q ∧ 1 < (q : ℝ) ∧ (q : ℝ) < √2) ∧
    Refuses (sqrtTwo.sampleBetween (sqrtTwo.withRootFlag false)) .sqrtTwo .invalidSampleRange := by
  have hs := Store.valid_sqrtTwo
  have hone : (ofRational 1).Denotes .sqrtTwo 1 := by
    exact_mod_cast denotes_ofRational .sqrtTwo 1
  have hcopy : (sqrtTwo.withRootFlag false).Denotes .sqrtTwo √2 := denotes_sqrtTwo
  obtain ⟨-, -, -, hbetween⟩ := sample_strict hs hone denotes_sqrtTwo (.refl _) hs
  obtain ⟨-, -, hrefuses, -⟩ := sample_strict hs denotes_sqrtTwo hcopy (.refl _) hs
  refine ⟨(hbetween Real.one_lt_sqrt_two).mono fun k _ _ _ hk => ?_, hrefuses.2 le_rfl⟩
  obtain ⟨q, hq, hlt, hlt', -⟩ := hk
  exact ⟨q, hq, hlt, hlt'⟩

end Number

end AlgebraicReal
