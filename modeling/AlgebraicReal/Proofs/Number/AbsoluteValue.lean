import AlgebraicReal.Proofs.Number.Order
import AlgebraicReal.Proofs.Thom.Opposite

/-!
# The absolute value

Keeping a locator off zero tells whether its root is zero, and then the ends of the interval show
the sign. A negative root is replaced by the root of the reflected polynomial in the opposite
interval, an encoding by that of the opposite root, and everything else stays. So the absolute value
is held as the number is, except that zero becomes rational (`Number.IsAbs`), and it equals the
number exactly if this is not negative (`abs_spec`).
-/

namespace AlgebraicReal

namespace Number

open RefineM

variable {s t : Store} {n m : Number} {x : ℝ} {q : ℚ} {id : LocatorId}

/-! ## How a number is held -/

/-- A rational passes the test for rationals only. -/
theorem held_rational (h : n.form s = .rational q) :
    n.isRational s = true ∧ n.isLocated s = false ∧ n.isThom s = false := by
  simp [isRational, isLocated, locator?, isThom, h]

/-- A number with a locator passes the one for locators only. -/
theorem held_root (h : n.form s = .root id) :
    n.isRational s = false ∧ n.isLocated s = true ∧ n.isThom s = false := by
  simp [isRational, isLocated, locator?, isThom, h]

/-- An encoding passes the one for encodings only. -/
theorem held_thom {u : Thom} (h : n.form s = .thom u) :
    n.isRational s = false ∧ n.isLocated s = false ∧ n.isThom s = true := by
  simp [isRational, isLocated, locator?, isThom, h]

/-- Only a locator is simplified. -/
theorem stored_of_form_root (h : n.form s = .root id) : n.stored = .root id := by
  unfold form at h
  split at h
  next hid =>
    split at h
    next => cases h
    next =>
      rw [hid]
      exact h
  next => exact h

/-- Only a stored encoding has the form of one. -/
theorem stored_of_form_thom {u : Thom} (h : n.form s = .thom u) : n.stored = .thom u := by
  unfold form at h
  split at h
  next => split at h <;> cases h
  next => exact h

theorem form_of_stored_root (h : n.stored = .root id) (hp : (s.get id).point? = none) :
    n.form s = .root id := by
  simp only [form, h, hp]

theorem form_of_stored_thom {u : Thom} (h : n.stored = .thom u) : n.form s = .thom u := by
  simp only [form, h]

/-! ## The sign of a locator -/

/-- A root with zero outside its interval has the sign that the ends show. -/
theorem isPositive_iff_pos {l : Locator} (hl : l.Locates x) (hx : x ≠ 0)
    (h0 : l.interval.contains 0 = false) : l.interval.isPositive = true ↔ 0 < x := by
  have hs := hl.sign?_interval hx h0
  have hz : ¬l.interval.isZero = true := by
    intro hz
    have hpt : l.point? = some 0 := of_decide_eq_true hz
    exact hx ((hl.eq_point hpt).trans Rat.cast_zero)
  unfold Interval.sign? at hs
  rw [if_neg hz] at hs
  split at hs
  next hpos =>
    rw [Option.some.injEq, eq_comm, Sign.ofReal_eq_positive_iff] at hs
    exact iff_of_true hpos hs
  next hpos =>
    refine iff_of_false hpos fun hlt => ?_
    rw [Sign.ofReal_of_pos hlt] at hs
    split at hs <;> cases hs

/-- Keeping a locator off zero tells whether its root is zero, and then the interval shows the sign.
It makes a locator exact only at zero. -/
theorem avoidZero_exact (hs : s.Valid) (hid : id < s.locators.size) (hl : (s.get id).Locates x) :
    Exact (RefineM.ask id (·.avoid 0)) s fun b t =>
      b = decide (x ≠ 0) ∧ (x ≠ 0 → ((t.get id).interval.isPositive = true ↔ 0 < x)) ∧
        (x ≠ 0 → (s.get id).point? = none → (t.get id).point? = none) := by
  obtain ⟨l, k, he, hnar, hout⟩ := hl.avoid_eq 0
  rw [Rat.cast_zero] at he hout
  refine Exact.ask (P := fun b l' => b = decide (x ≠ 0) ∧
    (x ≠ 0 → (l'.interval.isPositive = true ↔ 0 < x)) ∧
      (x ≠ 0 → (s.get id).point? = none → l'.point? = none)) hs hid
    ⟨_, l, k, he, hnar, rfl, fun hx => ?_, fun hx hp => ?_⟩
  · exact isPositive_iff_pos (hnar.locates hl) hx (hout hx)
  · rw [Locator.point?_avoid hp he, decide_eq_true hx, if_pos rfl]

/-- The opposite of a locator is exact only if the locator is. -/
theorem point?_negate {l : Locator} (hl : l.Locates x) (hp : l.point? = none) :
    l.negate.point? = none := by
  obtain ⟨a, b, hab, hinterval, -, -⟩ := hl.exists_between hp
  show l.interval.negate.point? = none
  rw [hinterval]
  rfl

/-- The number of a new locator that is not exact is held by it. -/
theorem ofLocator_root_exact (hs : s.Valid) {l : Locator} (hl : l.Locates x)
    (hp : l.point? = none) :
    Exact (ofLocator l) s fun m t => m.Denotes t x ∧ ∃ k, m.form t = .root k := by
  refine (Exact.allocate hs hl).bind fun k t _ hval hk => Exact.pure hval ⟨⟨hk.1, ?_⟩, k, ?_⟩
  · rw [hk.2]
    exact hl
  · refine form_of_stored_root rfl ?_
    rw [hk.2]
    exact hp

/-! ## The absolute value -/

/-- What the absolute value of a number is: its real with the sign removed, with the same flag and
held in the same way, but for a located zero, which becomes rational. -/
structure IsAbs (s : Store) (n : Number) (x : ℝ) (t : Store) (m : Number) : Prop where
  denotes : m.Denotes t |x|
  isRoot_eq : m.isRoot = n.isRoot
  rational_iff : m.isRational t = true ↔ n.isRational s = true ∨ n.isLocated s = true ∧ x = 0
  located_iff : m.isLocated t = true ↔ n.isLocated s = true ∧ x ≠ 0
  thom_iff : m.isThom t = true ↔ n.isThom s = true

theorem IsAbs.of_held (hden : m.Denotes t |x|) (hr : m.isRational t = n.isRational s)
    (hl : m.isLocated t = n.isLocated s) (ht : m.isThom t = n.isThom s)
    (hx : n.isLocated s = true → x ≠ 0) : IsAbs s n x t (m.withRootFlag n.isRoot) where
  denotes := hden
  isRoot_eq := rfl
  rational_iff := by
    have hnot : ¬(n.isLocated s = true ∧ x = 0) := fun h => hx h.1 h.2
    rw [or_iff_left hnot, ← hr]
    rfl
  located_iff := by
    rw [and_iff_left_of_imp hx, ← hl]
    rfl
  thom_iff := by
    rw [← ht]
    rfl

/-- A rational stays a rational. -/
theorem IsAbs.of_rational (hden : m.Denotes t |x|) (hn : n.form s = .rational q) {r : ℚ}
    (hm : m.form t = .rational r) : IsAbs s n x t (m.withRootFlag n.isRoot) := by
  obtain ⟨h₁, h₂, h₃⟩ := held_rational hn
  obtain ⟨h₁', h₂', h₃'⟩ := held_rational hm
  refine .of_held hden (h₁'.trans h₁.symm) (h₂'.trans h₂.symm) (h₃'.trans h₃.symm) fun h => ?_
  rw [h₂] at h
  cases h

/-- A number with a locator other than zero has an absolute value with a locator. -/
theorem IsAbs.of_root {k : LocatorId} (hden : m.Denotes t |x|) (hn : n.form s = .root id)
    (hx : x ≠ 0) (hm : m.form t = .root k) : IsAbs s n x t (m.withRootFlag n.isRoot) := by
  obtain ⟨h₁, h₂, h₃⟩ := held_root hn
  obtain ⟨h₁', h₂', h₃'⟩ := held_root hm
  exact .of_held hden (h₁'.trans h₁.symm) (h₂'.trans h₂.symm) (h₃'.trans h₃.symm) fun _ => hx

/-- An encoding has an encoding, even if it is of zero. -/
theorem IsAbs.of_thom {u w : Thom} (hden : m.Denotes t |x|) (hn : n.form s = .thom u)
    (hm : m.form t = .thom w) : IsAbs s n x t (m.withRootFlag n.isRoot) := by
  obtain ⟨h₁, h₂, h₃⟩ := held_thom hn
  obtain ⟨h₁', h₂', h₃'⟩ := held_thom hm
  refine .of_held hden (h₁'.trans h₁.symm) (h₂'.trans h₂.symm) (h₃'.trans h₃.symm) fun h => ?_
  rw [h₂] at h
  cases h

/-- A locator of zero becomes the rational zero. -/
theorem IsAbs.zero (hn : n.form s = .root id) (hx : x = 0) :
    IsAbs s n x t (Number.zero.withRootFlag n.isRoot) := by
  obtain ⟨h₁, h₂, h₃⟩ := held_root hn
  have hm : (Number.zero.withRootFlag n.isRoot).form t = .rational 0 := rfl
  obtain ⟨h₁', h₂', h₃'⟩ := held_rational hm
  refine ⟨?_, rfl, by simp [h₂, h₁', hx], by simp [h₂', hx], by simp [h₃, h₃']⟩
  show |x| = ((0 : ℚ) : ℝ)
  rw [hx, abs_zero, Rat.cast_zero]

/-- A located root has three cases, by its sign. -/
theorem abs_exact_root (hs : s.Valid) (h : n.Denotes s x) (hform : n.form s = .root id) :
    Exact n.abs s fun m t => IsAbs s n x t m := by
  refine Exact.form_bind ?_
  have hf := h.form
  rw [hform] at hf ⊢
  refine (avoidZero_exact hs hf.1 hf.2).bind fun b t hn hval hb => ?_
  obtain ⟨rfl, hsign, hpoint⟩ := hb
  by_cases hx : x = 0
  · rw [if_neg (by simp [hx])]
    exact Exact.pure hval (.zero hform hx)
  · rw [if_pos (decide_eq_true hx)]
    refine Exact.get_bind ?_
    have hl := hn.locates hf.1 hf.2
    -- the cut at zero has not made the locator exact, so the result is held by a locator as well
    have hp := hpoint hx (point?_of_form_root hform)
    by_cases hpos : (t.get id).interval.isPositive = true
    · simp only [if_pos hpos]
      refine Exact.pure hval (.of_root ?_ hform hx
        (form_of_stored_root (stored_of_form_root hform) hp))
      rw [abs_of_pos ((hsign hx).1 hpos)]
      exact h.narrowed hs hn
    · simp only [if_neg hpos]
      have hneg : |x| = -x := abs_of_nonpos (not_lt.1 ((hsign hx).not.1 hpos))
      refine (ofLocator_root_exact hval hl.negate (point?_negate hl hp)).bind
        fun m u _ hval' hm => Exact.pure hval' ?_
      obtain ⟨hden, k, hk⟩ := hm
      rw [← hneg] at hden
      exact .of_root hden hform hx hk

/-- For an encoding the sign tells whether it is the encoding itself or its opposite. -/
theorem abs_exact_thom (hs : s.Valid) (h : n.Denotes s x) {u : Thom} (hform : n.form s = .thom u) :
    Exact n.abs s fun m t => IsAbs s n x t m := by
  refine Exact.form_bind ?_
  have hf := h.form
  rw [hform] at hf ⊢
  refine (Thom.sign_exact hs hf).bind fun o t hn hval ho => ?_
  by_cases hneg : o = .negative
  · rw [if_pos hneg]
    rw [ho, Sign.ofReal_eq_negative_iff] at hneg
    refine (Thom.negate_exact hval (Thom.Denotes.narrowed hf hs hn)).bind fun w t' _ hval' hw =>
      Exact.pure hval' (.of_thom (w := w) ?_ hform rfl)
    rw [abs_of_neg hneg]
    exact hw.1
  · rw [if_neg hneg]
    rw [ho, Sign.ofReal_eq_negative_iff, not_lt] at hneg
    refine Exact.pure hval (.of_thom ?_ hform (form_of_stored_thom (stored_of_form_thom hform)))
    rw [abs_of_nonneg hneg]
    exact h.narrowed hs hn

/-- The absolute value is found in every form. -/
theorem abs_exact (hs : s.Valid) (h : n.Denotes s x) :
    Exact n.abs s fun m t => IsAbs s n x t m := by
  cases hform : n.form s with
  | rational q =>
    refine Exact.form_bind ?_
    have hf := h.form
    rw [hform] at hf ⊢
    refine Exact.pure hs (.of_rational (r := q.abs) ?_ hform rfl)
    show |x| = ((q.abs : ℚ) : ℝ)
    rw [show x = q from hf, Rational.abs_eq_abs, Rat.cast_abs]
  | root id => exact abs_exact_root hs h hform
  | thom u => exact abs_exact_thom hs h hform

/-- Taking the absolute value leaves the number as it is. The result equals the number if and only
if this is not negative, and its own absolute value, whatever has been narrowed in between. -/
theorem abs_spec (hs : s.Valid) (h : n.Denotes s x) :
    Exact n.abs s fun m t => IsAbs s n x t m ∧ n.Denotes t x ∧
      ∀ u, t.Narrowed u → u.Valid → n.Denotes u x ∧ m.Denotes u |x| ∧
        Exact (m.compare n) u (fun o _ => o = .eq ↔ 0 ≤ x) ∧
        Exact (m.equal n) u (fun b _ => b = true ↔ 0 ≤ x) ∧
        Exact m.abs u fun k w => IsAbs u m |x| w k ∧
          Exact (k.compare m) w (fun o _ => o = .eq) ∧ Exact (k.equal m) w fun b _ => b = true := by
  refine (abs_exact hs h).mono fun m t hn ht hm => ?_
  have hnt := h.narrowed hs hn
  refine ⟨hm, hnt, fun u hu huv => ?_⟩
  have hnu := hnt.narrowed ht hu
  -- both numbers keep what they denote, and all comparisons are of `x` and `|x|`
  have hmu := hm.denotes.narrowed ht hu
  refine ⟨hnu, hmu, ?_, ?_, ?_⟩
  · refine (compare_exact huv hmu hnu).mono fun o _ _ _ ho => ?_
    rw [ho, cmp_eq_eq_iff, abs_eq_self]
  · refine (equal_exact huv hmu hnu).mono fun b _ _ _ hb => ?_
    rw [hb, abs_eq_self]
  · refine (abs_exact huv hmu).mono fun k w hw hwv hk => ?_
    have hkw := hk.denotes
    rw [abs_abs] at hkw
    have hmw := hmu.narrowed huv hw
    refine ⟨hk, (compare_exact hwv hkw hmw).mono fun o _ _ _ ho => ?_,
      (equal_exact hwv hkw hmw).mono fun b _ _ _ hb => hb.2 rfl⟩
    rw [ho, cmp_self_eq_eq]

/-- The absolute value of the negative root of `x² - 2`, which is held by a locator. -/
theorem abs_negated_sqrtTwo :
    let s : Store := { locators := #[Locator.sqrtTwo.negate] }
    let n : Number := { stored := .root 0 }
    s.Valid ∧ n.Denotes s (-√2) ∧
      Exact n.abs s fun m t => m.Denotes t √2 ∧ m.isLocated t = true ∧
        Exact (m.equal n) t fun b _ => b = false := by
  intro s n
  have hlocates := Locator.locates_sqrtTwo.negate
  have hs : s.Valid := by
    intro id hid
    rw [Nat.lt_one_iff.1 hid]
    exact ⟨-√2, hlocates⟩
  have hn : n.Denotes s (-√2) := ⟨Nat.one_pos, hlocates⟩
  have hpos : 0 < √2 := Real.sqrt_pos.2 two_pos
  refine ⟨hs, hn, (abs_spec hs hn).mono fun m t _ ht hm => ⟨?_, ?_, ?_⟩⟩
  · have hden := hm.1.denotes
    rwa [abs_neg, abs_of_pos hpos] at hden
  · exact hm.1.located_iff.2 ⟨by decide +kernel, neg_ne_zero.2 hpos.ne'⟩
  · refine (hm.2.2 t (.refl t) ht).2.2.2.1.mono fun b _ _ _ hb => ?_
    rw [Bool.eq_false_iff, ne_eq, hb]
    linarith

end Number

end AlgebraicReal
