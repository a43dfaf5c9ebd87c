import AlgebraicReal.Proofs.Locator.Narrowing

/-!
# Integers in the interval of a locator

Settling the integers cuts at the least integer inside, again and again. What is kept of a cut is the
integer itself, the part below it, which has no integer, or the part above it, which has one integer
less. So the number of integers inside bounds the number of cuts, and the locator ends exact or with
an interval without integers (`settleIntegers_eq`). Then the lower end shows the integer part of the
root, and only an exact locator can have an integer as its root.
-/

namespace AlgebraicReal

theorem Rational.isInteger_iff {q : ℚ} : Rational.isInteger q = true ↔ ∃ k : ℤ, (q : ℝ) = k := by
  unfold Rational.isInteger
  rw [beq_iff_eq, Rat.den_eq_one_iff]
  constructor
  · intro h
    exact ⟨q.num, by exact_mod_cast h.symm⟩
  · rintro ⟨k, hk⟩
    obtain rfl : q = k := by exact_mod_cast hk
    rw [Rat.num_intCast]

/-- An interval in which no integer is left to be told apart: a point, or open without an integer. -/
def Interval.IntegersSettled (i : Interval) : Prop :=
  i.isPoint = true ∨ i.isOpen = true ∧ ∀ k : ℤ, (k : ℝ) ∉ i.reals

/-- The first integer above the lower end lies beyond the interval. -/
theorem Interval.IntegersSettled.of_le {a b : ℚ} {hab : a < b} (h : b ≤ a.floor + 1) :
    (between a b hab).IntegersSettled := by
  refine .inr ⟨rfl, fun k hk => ?_⟩
  have hk' : (a : ℝ) < k ∧ (k : ℝ) < b := hk
  norm_cast at hk'
  have hle : ((a.floor + 1 : ℤ) : ℚ) ≤ k := Int.cast_le.2 (Rat.floor_lt_iff.2 hk'.1)
  rw [Int.cast_add, Int.cast_one] at hle
  exact absurd hk'.2 (not_lt.2 (h.trans hle))

theorem Interval.IntegersSettled.notMem {i : Interval} (h : i.IntegersSettled)
    (hp : i.point? = none) (k : ℤ) : (k : ℝ) ∉ i.reals := by
  rcases h with hpt | ⟨-, hfree⟩
  · rw [isPoint, hp] at hpt
    cases hpt
  · exact hfree k

namespace Locator

variable {l m : Locator} {x : ℝ}

/-- A locator without integers inside is settled. -/
theorem Locates.settled_of_integersInside (h : l.Locates x)
    (h0 : l.point? = none → l.integersInside = 0) : l.interval.IntegersSettled := by
  cases hp : l.point? with
  | some q =>
    rw [Interval.eq_point_of_point? hp]
    exact .inl (by rw [Interval.isPoint, Interval.point?_point]; rfl)
  | none =>
    obtain ⟨a, b, hab, hi, -, -⟩ := h.exists_between hp
    have hzero := h0 hp
    unfold integersInside at hzero
    rw [hi, Interval.lo_between, Interval.hi_between] at hzero
    rw [hi]
    refine .of_le ?_
    have hceil : b.ceil ≤ a.floor + 1 := by omega
    exact_mod_cast Rat.ceil_le_iff.1 hceil

/-- A part of the interval without its least integer has one integer less, if it is not a point. -/
theorem Locates.integersInside_lt (h : l.Locates x) {k : ℕ} (hnar : Narrows k l m)
    (hp : l.point? = none) (hlt : (l.interval.lo.floor : ℚ) + 1 < l.interval.hi)
    (hout : m.interval.contains (l.interval.lo.floor + 1) = false) (hpm : m.point? = none) :
    m.integersInside < l.integersInside := by
  obtain ⟨a, b, hab, hi, -, -⟩ := h.exists_between hp
  obtain ⟨a', b', hab', hi', -, -⟩ := (hnar.locates h).exists_between hpm
  have hsub := hnar.subset h
  rw [hi, hi', Interval.reals_between, Interval.reals_between,
    Set.Ioo_subset_Ioo_iff (Rat.cast_lt.2 hab'), Rat.cast_le, Rat.cast_le] at hsub
  rw [hi, Interval.lo_between] at hout hlt
  rw [Interval.hi_between] at hlt
  unfold integersInside
  rw [hi, hi', Interval.lo_between, Interval.lo_between, Interval.hi_between, Interval.hi_between]
  -- the candidate was inside, so there was an integer
  have hcand : a.floor + 1 < b.ceil := Rat.lt_ceil_iff.2 (by exact_mod_cast hlt)
  have hfloor : a.floor ≤ a'.floor := Rat.floor_monotone hsub.1
  have hceil : b'.ceil ≤ b.ceil := Rat.ceil_le_iff.2 (hsub.2.trans Rat.le_ceil)
  rw [Bool.eq_false_iff, ne_eq, hi', Interval.contains_iff_mem_reals, Interval.reals_between,
    Set.mem_Ioo, not_and_or, not_lt, not_lt, Rat.cast_le, Rat.cast_le] at hout
  rcases hout with hle | hle
  · have hup : a.floor + 1 ≤ a'.floor := Rat.le_floor_iff.2 (by exact_mod_cast hle)
    omega
  · have hdown : b'.ceil ≤ a.floor + 1 := Rat.ceil_le_iff.2 (by exact_mod_cast hle)
    omega

/-- The integers inside are settled after at most as many steps as there are of them. -/
theorem Locates.avoidIntegers_eq : ∀ (n : ℕ) {l : Locator}, l.Locates x →
    (l.point? = none → l.integersInside ≤ n) →
      ∃ l' k, avoidIntegers n l = .ok l' ∧ Narrows k l l' ∧ l'.interval.IntegersSettled
  | 0, l, h, hn =>
    ⟨l, 0, rfl, .refl l, h.settled_of_integersInside fun hp => Nat.le_zero.1 (hn hp)⟩
  | n + 1, l, h, hn => by
    rw [avoidIntegers]
    cases hp : l.point? with
    | some v =>
      exact ⟨l, 0, rfl, .refl l, h.settled_of_integersInside fun hnone => by
        rw [hp] at hnone
        cases hnone⟩
    | none =>
      simp only
      split
      next hle =>
        obtain ⟨a, b, hab, hi, -, -⟩ := h.exists_between hp
        refine ⟨l, 0, rfl, .refl l, ?_⟩
        rw [hi] at hle ⊢
        exact .of_le hle
      next hlt =>
        obtain ⟨m, k, hm, hnar, hout⟩ := h.avoid_eq (l.interval.lo.floor + 1)
        -- one integer less lies inside, unless the interval has become a point
        have hbound : m.point? = none → m.integersInside ≤ n := by
          intro hpm
          have hne : x ≠ ((l.interval.lo.floor + 1 : ℚ) : ℝ) := by
            intro hx
            have hpt := point?_avoid hp hm
            rw [hpm, decide_eq_false (not_not.2 hx)] at hpt
            cases hpt
          have := h.integersInside_lt hnar hp (not_le.1 hlt) (hout hne) hpm
          have := hn hp
          omega
        obtain ⟨l', k', hl', hnar', hsettled⟩ :=
          Locates.avoidIntegers_eq n (hnar.locates h) hbound
        refine ⟨l', k + k', ?_, hnar.trans hnar', hsettled⟩
        rw [hm]
        exact hl'

theorem Locates.settleIntegers_eq (h : l.Locates x) :
    ∃ l' n, l.settleIntegers = .ok l' ∧ Narrows n l l' ∧ l'.interval.IntegersSettled :=
  h.avoidIntegers_eq l.integersInside fun _ => le_rfl

/-! ## What a settled locator shows -/

/-- The integer part of the lower end is that of the root. -/
theorem Locates.floor_lo (h : l.Locates x) (hs : l.interval.IntegersSettled) :
    l.interval.lo.floor = ⌊x⌋ := by
  cases hp : l.point? with
  | some v =>
    rw [h.eq_point hp, Interval.eq_point_of_point? hp, Rat.floor_cast]
    rfl
  | none =>
    obtain ⟨a, b, hab, hi, hax, hxb⟩ := h.exists_between hp
    have hfree := hs.notMem hp ⌊x⌋
    rw [hi, Interval.lo_between]
    rw [hi, Interval.reals_between] at hfree
    refine le_antisymm (Int.le_floor.2 ?_) (not_lt.1 fun hlt => hfree ⟨?_, ?_⟩)
    · have hle : ((a.floor : ℤ) : ℝ) ≤ a := by exact_mod_cast Rat.floor_le a
      exact hle.trans hax.le
    · exact_mod_cast Rat.floor_lt_iff.1 hlt
    · exact (Int.floor_le x).trans_lt hxb

/-- The root is an integer exactly if the locator shows it. -/
theorem Locates.isIntegral_iff (h : l.Locates x) (hs : l.interval.IntegersSettled) :
    l.isIntegral = true ↔ ∃ k : ℤ, x = k := by
  unfold isIntegral
  cases hp : l.point? with
  | some v =>
    rw [h.eq_point hp]
    exact Rational.isInteger_iff
  | none =>
    refine iff_of_false Bool.false_ne_true ?_
    rintro ⟨k, rfl⟩
    exact hs.notMem hp k h.mem

end Locator

end AlgebraicReal
