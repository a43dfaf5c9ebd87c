import AlgebraicReal.Proofs.Store

/-!
# Refining again and again

A refinement cuts the interval at its midpoint, but while zero is strictly inside it cuts at zero,
and such a cut may take away next to nothing. It is made only once: after it zero is an end of the
interval or outside (`Locates.not_straddles_refine`), and no narrowing of any kind brings it back
(`Narrows.not_straddles`). The spread counts an interval around zero twice, so every refinement
halves it, the one at zero included; that pays for the one refinement by which the widths lag
behind.
-/

namespace AlgebraicReal

/-- A point, or an open interval of at most the given width that does not have zero inside. -/
inductive Interval.Shrunk (w : ℚ) : Interval → Prop
  | point (q : ℚ) : Shrunk w (.point q)
  | between {a b : ℚ} (hab : a < b) (hwidth : b - a ≤ w) (hzero : ¬(a < 0 ∧ 0 < b)) :
      Shrunk w (.between a b hab)

namespace Locator

variable {l l' : Locator} {x : ℝ} {w : ℚ} {n k : ℕ}

/-! ## Zero strictly inside -/

/-- Zero is strictly between the ends. -/
def Straddles (l : Locator) : Prop := l.interval.lo < 0 ∧ 0 < l.interval.hi

theorem not_straddles_of_point {q : ℚ} (hp : l.point? = some q) : ¬l.Straddles := by
  unfold Straddles
  rw [Interval.eq_point_of_point? hp]
  exact fun h => lt_asymm h.1 h.2

theorem straddles_iff {a b : ℚ} {hab : a < b} (hi : l.interval = .between a b hab) :
    l.Straddles ↔ (0 : ℝ) ∈ Set.Ioo (a : ℝ) b := by
  unfold Straddles
  rw [hi, Interval.lo_between, Interval.hi_between, Set.mem_Ioo, Rat.cast_lt_zero, Rat.cast_pos]

/-- What is outside stays outside, whatever narrows the interval. -/
theorem Narrows.not_straddles (h : l.Locates x) (hnar : Narrows k l l') (h0 : ¬l.Straddles) :
    ¬l'.Straddles := by
  intro h0'
  cases hp' : l'.point? with
  | some q => exact not_straddles_of_point hp' h0'
  | none =>
    cases hp : l.point? with
    | some q =>
      rw [hnar.eq_of_point hp] at h0'
      exact h0 h0'
    | none =>
      obtain ⟨a, b, hab, hi, -, -⟩ := h.exists_between hp
      obtain ⟨a', b', hab', hi', -, -⟩ := (hnar.locates h).exists_between hp'
      have hsub := hnar.subset h
      rw [hi, hi', Interval.reals_between, Interval.reals_between] at hsub
      exact h0 ((straddles_iff hi).2 (hsub ((straddles_iff hi').1 h0')))

/-- After one refinement zero is not strictly inside. -/
theorem Locates.not_straddles_refine (h : l.Locates x) (hr : l.refine = .ok l') :
    ¬l'.Straddles := by
  by_cases h0 : l.Straddles
  · cases hp : l.point? with
    | some q => exact absurd h0 (not_straddles_of_point hp)
    | none =>
      -- the cut is made at zero, which is an end of either part
      obtain ⟨a, b, hab, hi, -, -⟩ := h.exists_between hp
      have hpivot : l.pivot = 0 := if_pos h0
      have hends := (straddles_iff hi).1 h0
      have ha : a < 0 := Rat.cast_lt_zero.1 hends.1
      have hb : 0 < b := Rat.cast_pos.1 hends.2
      rw [refine_of_not_point hp, hpivot, h.split_eq hi ha hb] at hr
      cases hr
      unfold Straddles cutPart
      rw [interval_narrow]
      split
      next => exact fun hc => lt_irrefl _ hc.1
      next =>
        split
        next => exact fun hc => lt_irrefl _ hc.2
        next => exact fun hc => lt_irrefl _ hc.1
  · obtain ⟨m, k, he, hnar⟩ := h.refine_eq
    rw [hr] at he
    cases he
    exact hnar.not_straddles h h0

/-! ## Many refinements -/

/-- Refines as often as the number says. -/
def refineTimes (l : Locator) : ℕ → Except Error Locator
  | 0 => .ok l
  | n + 1 => do
    let m ← l.refineTimes n
    m.refine

theorem refineTimes_succ {m : Locator} (h : l.refineTimes n = .ok m) :
    l.refineTimes (n + 1) = m.refine := by
  rw [refineTimes, h]
  rfl

/-- The refinements succeed, and every one of them halves the spread. -/
theorem Locates.refineTimes_eq (h : l.Locates x) (n : ℕ) :
    ∃ l' k, l.refineTimes n = .ok l' ∧ Narrows k l l' ∧ l'.spread ≤ l.spread / 2 ^ n := by
  induction n with
  | zero => exact ⟨l, 0, rfl, .refl l, by rw [pow_zero, div_one]⟩
  | succ n ih =>
    obtain ⟨m, k, he, hnar, hspread⟩ := ih
    have hm := hnar.locates h
    obtain ⟨l', j, hr, hnar'⟩ := hm.refine_eq
    refine ⟨l', k + j, (refineTimes_succ he).trans hr, hnar.trans hnar', ?_⟩
    calc l'.spread ≤ m.spread / 2 := hm.spread_refine hr
      _ ≤ l.spread / 2 ^ n / 2 := div_le_div_of_nonneg_right hspread zero_le_two
      _ = l.spread / 2 ^ (n + 1) := by rw [div_div, pow_succ]

/-- From the first refinement on zero is not strictly inside. -/
theorem Locates.not_straddles_refineTimes (h : l.Locates x) (hn : 1 ≤ n)
    (he : l.refineTimes n = .ok l') : ¬l'.Straddles := by
  obtain ⟨k, rfl⟩ := Nat.exists_eq_add_of_le' hn
  obtain ⟨m, j, hm, hnar, -⟩ := h.refineTimes_eq k
  rw [refineTimes_succ hm] at he
  exact (hnar.locates h).not_straddles_refine he

theorem spread_le_two_mul_width (h : 0 ≤ l.interval.width) : l.spread ≤ 2 * l.interval.width := by
  unfold spread
  split
  next => exact le_rfl
  next => linarith

theorem Locates.width_nonneg (h : l.Locates x) : 0 ≤ l.interval.width := by
  obtain ⟨hlo, hhi, -⟩ := h.ends_near
  exact sub_nonneg.2 (Rat.cast_le.1 (hlo.trans hhi))

theorem Locates.shrunk (h : l.Locates x) (h0 : ¬l.Straddles) (hw : l.interval.width ≤ w) :
    l.interval.Shrunk w := by
  cases hp : l.point? with
  | some q =>
    rw [Interval.eq_point_of_point? hp]
    exact .point q
  | none =>
    obtain ⟨a, b, hab, hi, -, -⟩ := h.exists_between hp
    unfold Straddles at h0
    rw [hi] at h0 hw ⊢
    exact .between hab hw h0

/-- The width lags one halving behind. -/
theorem Locates.shrunk_refineTimes (h : l.Locates x) (hn : 1 ≤ n) :
    ∃ l' k, l.refineTimes n = .ok l' ∧ Narrows k l l' ∧
      l'.interval.Shrunk (l.interval.width / 2 ^ (n - 1)) := by
  obtain ⟨l', k, he, hnar, hspread⟩ := h.refineTimes_eq n
  refine ⟨l', k, he, hnar, (hnar.locates h).shrunk (h.not_straddles_refineTimes hn he) ?_⟩
  have hpow : (2 : ℚ) ^ n = 2 * 2 ^ (n - 1) := by
    rw [← pow_succ', Nat.sub_add_cancel hn]
  calc l'.interval.width ≤ l'.spread := l'.width_le_spread
    _ ≤ l.spread / 2 ^ n := hspread
    _ ≤ 2 * l.interval.width / 2 ^ n :=
      div_le_div_of_nonneg_right (spread_le_two_mul_width h.width_nonneg) (by positivity)
    _ = l.interval.width / 2 ^ (n - 1) := by rw [hpow, mul_div_mul_left _ _ two_ne_zero]

/-- Halving gets below every bound. -/
theorem exists_div_two_pow_lt (w : ℚ) {e : ℚ} (he : 0 < e) :
    ∃ N, ∀ n, N ≤ n → w / 2 ^ n < e := by
  obtain ⟨N, hN⟩ := pow_unbounded_of_one_lt (w / e) one_lt_two
  refine ⟨N, ?_⟩
  intro n hn
  have hpow : (2 : ℚ) ^ N ≤ 2 ^ n := pow_le_pow_right₀ one_le_two hn
  rw [div_lt_iff₀ (by positivity)]
  calc w < 2 ^ N * e := (div_lt_iff₀ he).1 hN
    _ ≤ 2 ^ n * e := mul_le_mul_of_nonneg_right hpow he.le
    _ = e * 2 ^ n := mul_comm _ _

/-- After any number of refinements, but at least one, the interval is a point, or open and at most
as wide as it was at first, divided by two to the number less one; and zero is not strictly inside
any more, then or after further narrowings of any kind. So the refinements reach a point or get
below every positive width, and stay there. -/
theorem refine_converges (h : l.Locates x) :
    (∀ n, 1 ≤ n → ∃ l', l.refineTimes n = .ok l' ∧ l'.Locates x ∧
      l'.interval.Shrunk (l.interval.width / 2 ^ (n - 1)) ∧
      ∀ k m, Narrows k l' m → ¬(m.interval.lo < 0 ∧ 0 < m.interval.hi)) ∧
    ∀ e : ℚ, 0 < e → ∃ N, ∀ n, N ≤ n → ∃ l', l.refineTimes n = .ok l' ∧ l'.Locates x ∧
      ((∃ q, l'.interval = .point q) ∨ l'.interval.width < e) := by
  constructor
  · intro n hn
    obtain ⟨l', k, he, hnar, hshrunk⟩ := h.shrunk_refineTimes hn
    have hl' := hnar.locates h
    refine ⟨l', he, hl', hshrunk, ?_⟩
    intro j m hm
    exact hm.not_straddles hl' (h.not_straddles_refineTimes hn he)
  · intro e he
    -- the first refinement may cut at zero and leave a wide interval, the rest halve it
    obtain ⟨N, hN⟩ := exists_div_two_pow_lt l.interval.width he
    refine ⟨N + 1, ?_⟩
    intro n hn
    obtain ⟨l', k, hl, hnar, hshrunk⟩ := h.shrunk_refineTimes (n := n) (by omega)
    refine ⟨l', hl, hnar.locates h, ?_⟩
    have hlt := hN (n - 1) (by omega)
    generalize l'.interval = i at hshrunk
    cases hshrunk with
    | point q => exact .inl ⟨q, rfl⟩
    | between hab hwidth hzero => exact .inr (hwidth.trans_lt hlt)

/-- The square root of two, in an interval with zero inside. -/
def wideSqrtTwo : Locator := .fresh (.ofCoeffs 0 [-2, 0, 1]) (.between (-1) 2 (by decide))

theorem locates_wideSqrtTwo : wideSqrtTwo.Locates √2 := by
  have hmem : ((-1 : ℚ) : ℝ) < √2 ∧ √2 < ((2 : ℚ) : ℝ) := by
    constructor
    · exact lt_of_lt_of_le (by norm_num) (Real.sqrt_nonneg 2)
    · exact (Real.sqrt_lt' (by norm_num)).2 (by norm_num)
  refine locates_fresh (by decide) ⟨.between (-1) 2 (by decide), ?_⟩
  refine Set.eq_singleton_iff_unique_mem.2
    ⟨⟨UniPoly.isRoot_sqrtTwo.2 (Real.sq_sqrt zero_le_two), hmem⟩, ?_⟩
  intro y hy
  have hsq : y ^ 2 = √2 ^ 2 := by
    rw [UniPoly.isRoot_sqrtTwo.1 hy.1, Real.sq_sqrt zero_le_two]
  rcases sq_eq_sq_iff_eq_or_eq_neg.1 hsq with h | h
  · exact h
  · -- the other root is below the interval
    have hlo : ((-1 : ℚ) : ℝ) < y := hy.2.1
    rw [h, Rat.cast_neg, Rat.cast_one] at hlo
    linarith [Real.one_lt_sqrt_two]

/-- The first refinement leaves two of three units, the fifth less than a fifth of one. -/
theorem refine_converges_wideSqrtTwo :
    wideSqrtTwo.interval.width = 3 ∧
    (∃ l', wideSqrtTwo.refineTimes 1 = .ok l' ∧ l'.interval = .between 0 2 (by decide)) ∧
    ∃ l', wideSqrtTwo.refineTimes 5 = .ok l' ∧ l'.Locates √2 ∧ l'.interval.Shrunk (3 / 16) := by
  have hwidth : wideSqrtTwo.interval.width = 3 := by
    show (2 : ℚ) - -1 = 3
    norm_num
  refine ⟨hwidth, ?_, ?_⟩
  · have hi : wideSqrtTwo.interval = .between (-1) 2 (by decide) := rfl
    have hpivot : wideSqrtTwo.pivot = 0 := if_pos (by decide)
    have hpos : ((0 : ℚ) : ℝ) < √2 := by
      rw [Rat.cast_zero]
      exact Real.sqrt_pos.2 two_pos
    have hcut := locates_wideSqrtTwo.split_eq (q := 0) hi (by decide) (by decide)
    have hone : wideSqrtTwo.refineTimes 1 = wideSqrtTwo.split 0 := by
      rw [refineTimes_succ rfl, refine_of_not_point rfl, hpivot]
    refine ⟨_, hone.trans hcut, ?_⟩
    rw [interval_narrow, cutPart, if_neg hpos.ne', if_neg hpos.not_gt]
  · obtain ⟨l', he, hl', hshrunk, -⟩ := (refine_converges locates_wideSqrtTwo).1 5 (by decide)
    refine ⟨l', he, hl', ?_⟩
    have hbound : wideSqrtTwo.interval.width / 2 ^ (5 - 1) = 3 / 16 := by
      rw [hwidth]
      norm_num
    rwa [hbound] at hshrunk

end Locator

end AlgebraicReal
