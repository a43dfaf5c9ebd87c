import AlgebraicReal.Proofs.Number.Basic

/-!
# Membership in an interval

A located root is first told apart from the finite ends of the interval. When neither end is inside
any more, the open interval of the locator lies inside the given interval or beside it, so that
inclusion of the one in the other is membership of the root (`covers_iff`). A rational is looked up,
and an encoding is compared with both ends.
-/

namespace AlgebraicReal

open RefineM

/-- A number is above a finite end of that value exactly if the end is weak. -/
theorem Bound.below_self_iff {b : Bound} {q : ℚ} (h : b.value? = some q) :
    b.Below (q : ℝ) ↔ b = .weak q := by
  cases b with
  | infinite => cases h
  | strict a =>
    cases h
    exact iff_of_false (lt_irrefl _) nofun
  | weak a =>
    cases h
    exact iff_of_true (le_refl (q : ℝ)) rfl

theorem Bound.above_self_iff {b : Bound} {q : ℚ} (h : b.value? = some q) :
    b.Above (q : ℝ) ↔ b = .weak q := by
  cases b with
  | infinite => cases h
  | strict a =>
    cases h
    exact iff_of_false (lt_irrefl _) nofun
  | weak a =>
    cases h
    exact iff_of_true (le_refl (q : ℝ)) rfl

/-- A lower end that is not strictly between `a` and `b` covers `a` exactly if it is below the
numbers in between. -/
theorem Bound.coversLower_iff_below {e : Bound} {a b : ℚ} {x : ℝ}
    (he : ∀ q, e.value? = some q → q ≤ a ∨ b ≤ q) (hax : (a : ℝ) < x) (hxb : x < b) :
    e.coversLower (.strict a) = true ↔ e.Below x := by
  have hab : a < b := Rat.cast_lt.1 (hax.trans hxb)
  have hbelow : ∀ {q : ℚ}, q ≤ a → (q : ℝ) < x := fun hq => (Rat.cast_le.2 hq).trans_lt hax
  have habove : ∀ {q : ℚ}, b ≤ q → x < (q : ℝ) := fun hq => hxb.trans_le (Rat.cast_le.2 hq)
  cases e with
  | infinite => exact iff_of_true rfl trivial
  | strict q =>
    show decide (q ≤ a) = true ↔ (q : ℝ) < x
    rw [decide_eq_true_iff]
    rcases he q rfl with hq | hq
    · exact iff_of_true hq (hbelow hq)
    · exact iff_of_false (not_le.2 (hab.trans_le hq)) (not_lt.2 (habove hq).le)
  | weak q =>
    show decide (q ≤ a) = true ↔ (q : ℝ) ≤ x
    rw [decide_eq_true_iff]
    rcases he q rfl with hq | hq
    · exact iff_of_true hq (hbelow hq).le
    · exact iff_of_false (not_le.2 (hab.trans_le hq)) (not_le.2 (habove hq))

theorem Bound.coversUpper_iff_above {e : Bound} {a b : ℚ} {x : ℝ}
    (he : ∀ q, e.value? = some q → q ≤ a ∨ b ≤ q) (hax : (a : ℝ) < x) (hxb : x < b) :
    e.coversUpper (.strict b) = true ↔ e.Above x := by
  have hab : a < b := Rat.cast_lt.1 (hax.trans hxb)
  have hbelow : ∀ {q : ℚ}, q ≤ a → (q : ℝ) < x := fun hq => (Rat.cast_le.2 hq).trans_lt hax
  have habove : ∀ {q : ℚ}, b ≤ q → x < (q : ℝ) := fun hq => hxb.trans_le (Rat.cast_le.2 hq)
  cases e with
  | infinite => exact iff_of_true rfl trivial
  | strict q =>
    show decide (b ≤ q) = true ↔ x < (q : ℝ)
    rw [decide_eq_true_iff]
    rcases he q rfl with hq | hq
    · exact iff_of_false (not_le.2 (hq.trans_lt hab)) (not_lt.2 (hbelow hq).le)
    · exact iff_of_true hq (habove hq)
  | weak q =>
    show decide (b ≤ q) = true ↔ x ≤ (q : ℝ)
    rw [decide_eq_true_iff]
    rcases he q rfl with hq | hq
    · exact iff_of_false (not_le.2 (hq.trans_lt hab)) (not_le.2 (hbelow hq))
    · exact iff_of_true hq (habove hq).le

namespace Locator

variable {l l' : Locator} {x : ℝ} {q : ℚ}

/-- A number has been told apart from the root: the interval does not contain it, unless it is a
point. -/
def Excludes (l : Locator) (q : ℚ) : Prop := l.point? = none → l.interval.contains q = false

theorem Excludes.narrows (hl : l.Locates x) (h : l.Excludes q) {n : ℕ} (hnar : Narrows n l l') :
    l'.Excludes q := by
  intro hp'
  have hp : l.point? = none := by
    by_contra hp
    obtain ⟨v, hv⟩ := Option.ne_none_iff_exists'.1 hp
    rw [hnar.eq_of_point hv, hv] at hp'
    cases hp'
  have hout := h hp
  rw [Bool.eq_false_iff, ne_eq, Interval.contains_iff_mem_reals] at hout ⊢
  exact fun hq => hout (hnar.subset hl hq)

theorem Locates.avoid_excludes (h : l.Locates x) (q : ℚ) :
    ∃ b l' n, l.avoid q = .ok (b, l') ∧ Narrows n l l' ∧ l'.Excludes q := by
  obtain ⟨l', n, he, hnar, hout⟩ := h.avoid_eq q
  refine ⟨_, l', n, he, hnar, fun hp' => hout ?_⟩
  rintro rfl
  -- at the root itself the locator has become exact
  cases hp : l.point? with
  | some v =>
    rw [hnar.eq_of_point hp, hp] at hp'
    cases hp'
  | none =>
    have hpt := point?_avoid hp he
    rw [hp', decide_eq_false (not_not.2 rfl)] at hpt
    cases hpt

/-- An open interval without the finite ends of `i` inside lies in `i` exactly if its root does. -/
theorem Locates.covers_iff (h : l.Locates x) (hp : l.point? = none) {i : Interval}
    (hlower : ∀ q, i.lower.value? = some q → l.Excludes q)
    (hupper : ∀ q, i.upper.value? = some q → l.Excludes q) :
    i.covers l.interval = true ↔ x ∈ i.reals := by
  obtain ⟨a, b, hab, hi, hax, hxb⟩ := h.exists_between hp
  have hbeside : ∀ q, l.Excludes q → q ≤ a ∨ b ≤ q := by
    intro q hq
    have hout := hq hp
    rw [hi, Bool.eq_false_iff, ne_eq, Interval.contains_iff_mem_reals, Interval.reals_between,
      Set.mem_Ioo, not_and_or, not_lt, not_lt, Rat.cast_le, Rat.cast_le] at hout
    exact hout
  unfold Interval.covers
  rw [hi, Bool.and_eq_true]
  exact and_congr
    (Bound.coversLower_iff_below (fun q hq => hbeside q (hlower q hq)) hax hxb)
    (Bound.coversUpper_iff_above (fun q hq => hbeside q (hupper q hq)) hax hxb)

end Locator

namespace Number

variable {s : Store} {n : Number} {x : ℝ}

/-- A finite end is told apart from the root, if it was not before. -/
theorem avoidBound_exact (hs : s.Valid) {id : LocatorId} (hid : id < s.locators.size)
    (hx : (s.get id).Locates x) (b : Bound) :
    Exact (avoidBound id b) s fun _ t => ∀ q, b.value? = some q → (t.get id).Excludes q := by
  unfold avoidBound
  cases hb : b.value? with
  | none => exact Exact.pure hs nofun
  | some q =>
    refine Exact.get_bind ?_
    split
    next =>
      obtain ⟨d, l, k, he, hnar, hout⟩ := hx.avoid_excludes q
      have hstep : Exact (RefineM.narrow id fun l => return (← l.avoid q).2) s fun _ t =>
          (t.get id).Excludes q := by
        refine Exact.narrow (P := fun l => l.Excludes q) hs hid ⟨l, k, ?_, hnar, hout⟩
        rw [he]
        rfl
      refine hstep.mono fun _ t _ _ ht q' hq' => ?_
      cases hq'
      exact ht
    next hq =>
      refine Exact.pure hs fun q' hq' _ => ?_
      cases hq'
      exact Bool.eq_false_iff.2 hq

/-- An encoding is compared with an end, where `strict` and `weak` tell from the comparison on which
side of the end it lies. What follows has the answer. -/
theorem compareEnd_bind {β : Type} {f : Bool → RefineM β} {R : β → Store → Prop}
    {strict weak : Ordering → Bool} {P : Bound → Prop} (hs : s.Valid) {u : Thom}
    (h : u.Denotes s x) (hinfinite : P .infinite)
    (hstrict : ∀ q : ℚ, strict (cmp x q) = true ↔ P (.strict q))
    (hweak : ∀ q : ℚ, weak (cmp x q) = true ↔ P (.weak q)) (b : Bound)
    (hf : ∀ r t, s.Narrowed t → t.Valid → (r = true ↔ P b) → Exact (f r) t R) :
    Exact (match b with
      | .infinite => pure true >>= f
      | .strict q => u.compareRational q >>= fun o => pure (strict o) >>= f
      | .weak q => u.compareRational q >>= fun o => pure (weak o) >>= f) s R := by
  cases b with
  | infinite => exact hf true s (.refl s) hs (iff_of_true rfl hinfinite)
  | strict q =>
    refine (Thom.compareRational_exact hs h q).bind fun o t hnar hval ho => hf _ t hnar hval ?_
    rw [ho]
    exact hstrict q
  | weak q =>
    refine (Thom.compareRational_exact hs h q).bind fun o t hnar hval ho => hf _ t hnar hval ?_
    rw [ho]
    exact hweak q

theorem containedIn_exact (hs : s.Valid) (h : n.Denotes s x) (i : Interval) :
    Exact (n.containedIn i) s fun b _ => b = true ↔ x ∈ i.reals := by
  refine Exact.current_bind h fun f hf => ?_
  cases f with
  | rational q =>
    refine Exact.pure hs ?_
    rw [show x = q from hf]
    exact Interval.contains_iff_mem_reals
  | root id =>
    refine (avoidBound_exact hs hf.1 hf.2 i.lower).bind fun _ t hnar hval hlower => ?_
    have hid := hf.1.trans_le hnar.size_le
    have hx := hnar.locates hf.1 hf.2
    refine (avoidBound_exact hval hid hx i.upper).bind fun _ u hnar' hval' hupper => ?_
    have hx' := hnar'.locates hid hx
    refine Exact.get_bind ?_
    -- what the first cut has excluded the second one leaves excluded
    obtain ⟨k, hcut⟩ := hnar'.narrows id hid
    cases hp : (u.get id).point? with
    | some q =>
      simp only [hp]
      refine Exact.pure hval' ?_
      rw [hx'.eq_point hp]
      exact Interval.contains_iff_mem_reals
    | none =>
      simp only [hp]
      exact Exact.pure hval' (hx'.covers_iff hp
        (fun q hq => (hlower q hq).narrows hx hcut) hupper)
  | thom u =>
    refine compareEnd_bind (P := Bound.Below x) hs hf trivial
      (fun q => by rw [decide_eq_true_iff, cmp_eq_gt_iff]; exact Iff.rfl)
      (fun q => by rw [decide_eq_true_iff, ne_eq, cmp_eq_lt_iff, not_lt]; exact Iff.rfl)
      i.lower fun above t hnar hval ha => ?_
    refine compareEnd_bind (P := Bound.Above x) hval (hf.narrowed hs hnar) trivial
      (fun q => by rw [decide_eq_true_iff, cmp_eq_lt_iff]; exact Iff.rfl)
      (fun q => by rw [decide_eq_true_iff, ne_eq, cmp_eq_gt_iff, not_lt]; exact Iff.rfl)
      i.upper fun below w _ hval' hb => ?_
    refine Exact.pure hval' ?_
    rw [Bool.and_eq_true]
    exact and_congr ha hb

/-- In all forms and in all later states, membership in an interval is that of the real. At an end of
the interval the number is inside if the end is, and in a point only the point itself is. -/
theorem containedIn_iff_mem (hs : s.Valid) (h : n.Denotes s x) {t : Store} (ht : s.Narrowed t)
    (hval : t.Valid) (i : Interval) :
    Exact (n.containedIn i) t (fun b _ => b = true ↔ x ∈ i.reals) ∧
    (∀ q, i.point? = some q → Exact (n.containedIn i) t fun b _ => b = true ↔ x = q) ∧
    (∀ q, i.lower.value? = some q → x = q →
      Exact (n.containedIn i) t fun b _ => b = true ↔ i.lower = .weak q ∧ i.upper.Above x) ∧
    ∀ q, i.upper.value? = some q → x = q →
      Exact (n.containedIn i) t fun b _ => b = true ↔ i.lower.Below x ∧ i.upper = .weak q := by
  have hexact := containedIn_exact hval (h.narrowed hs ht) i
  refine ⟨hexact, fun q hq => ?_, fun q hq hx => ?_, fun q hq hx => ?_⟩
  · refine hexact.mono fun b _ _ _ hb => ?_
    rw [hb, Interval.eq_point_of_point? hq, Interval.reals_point, Set.mem_singleton_iff]
  · refine hexact.mono fun b _ _ _ hb => hb.trans (and_congr_left fun _ => ?_)
    rw [hx]
    exact Bound.below_self_iff hq
  · refine hexact.mono fun b _ _ _ hb => hb.trans (and_congr_right fun _ => ?_)
    rw [hx]
    exact Bound.above_self_iff hq

/-- The square root of two lies between one and two, but not above three halves, which its interval
contains at first. -/
theorem containedIn_sqrtTwo :
    Exact (sqrtTwo.containedIn (.between 1 2 (by decide))) .sqrtTwo (fun b _ => b = true) ∧
    Exact (sqrtTwo.containedIn (.between (3 / 2) 2 (by norm_num))) .sqrtTwo
      fun b _ => b = false := by
  have hs := Store.valid_sqrtTwo
  obtain ⟨hin, -⟩ := containedIn_iff_mem hs denotes_sqrtTwo (.refl _) hs (.between 1 2 (by decide))
  obtain ⟨hout, -⟩ := containedIn_iff_mem hs denotes_sqrtTwo (.refl _) hs
    (.between (3 / 2) 2 (by norm_num))
  refine ⟨hin.mono fun b _ _ _ hb => hb.2 ?_, hout.mono fun b _ _ _ hb => ?_⟩
  · rw [Interval.reals_between, Rat.cast_one, Rat.cast_ofNat]
    exact ⟨Real.one_lt_sqrt_two, by linarith [Real.sqrt_two_lt_three_halves]⟩
  · rw [Bool.eq_false_iff, ne_eq, hb, Interval.reals_between]
    intro hmem
    have hlt : ((3 / 2 : ℚ) : ℝ) < √2 := hmem.1
    rw [Rat.cast_div, Rat.cast_ofNat, Rat.cast_ofNat] at hlt
    exact lt_asymm hlt Real.sqrt_two_lt_three_halves

end Number

end AlgebraicReal
