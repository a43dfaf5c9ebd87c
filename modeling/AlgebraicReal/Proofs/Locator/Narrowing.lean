import AlgebraicReal.Proofs.UniPoly.Isolation
import AlgebraicReal.Locator.Basic

/-!
# Narrowing keeps the root

A locator that isolates a root is cut at a number inside its interval, and what is kept isolates the
same root (`split_eq`): Sturm's count on the open left part is one exactly if the root lies there,
the cut itself having been looked at before. All operations on locators narrow by such cuts, one
after the other (`Narrows`), so what one cut keeps all of them keep.
-/

open Polynomial

namespace AlgebraicReal

namespace Locator

/-- What a locator is for: its polynomial is not zero, and its interval isolates the root. -/
structure Locates (l : Locator) (x : ℝ) : Prop where
  nonzero : ¬l.poly.isZero = true
  isolates : l.poly.Isolates l.interval x

variable {l l' m : Locator} {x : ℝ} {q : ℚ}

theorem Locates.isRoot (h : l.Locates x) : l.poly.overReal.IsRoot x := h.isolates.mem.1

theorem Locates.mem (h : l.Locates x) : x ∈ l.interval.reals := h.isolates.mem.2

theorem Locates.eq_of_isRoot (h : l.Locates x) {y : ℝ} (hy : l.poly.overReal.IsRoot y)
    (hmem : y ∈ l.interval.reals) : y = x := by
  have hin : y ∈ l.poly.realRoots ∩ l.interval.reals := ⟨hy, hmem⟩
  rw [h.isolates.unique] at hin
  exact hin

/-- A locator has one root. -/
theorem Locates.eq {y : ℝ} (h : l.Locates x) (h' : l.Locates y) : x = y :=
  h'.eq_of_isRoot h.isRoot h.mem

/-- The root of an exact locator is the number at which it stands. -/
theorem Locates.eq_point (h : l.Locates x) (hp : l.point? = some q) : x = q := by
  have hmem := h.mem
  rw [Interval.eq_point_of_point? hp, Interval.reals_point] at hmem
  exact hmem

/-- The interval of a locator that is not exact is open. -/
theorem Locates.exists_between (h : l.Locates x) (hp : l.point? = none) :
    ∃ a b hab, l.interval = .between a b hab ∧ (a : ℝ) < x ∧ x < b := by
  obtain ⟨hshape, -⟩ := h.isolates
  have hmem := h.mem
  unfold point? at hp
  generalize l.interval = i at hshape hmem hp
  cases hshape with
  | point q =>
    rw [Interval.point?_point] at hp
    cases hp
  | between a b hab => exact ⟨a, b, hab, rfl, hmem.1, hmem.2⟩

/-- A part of the interval that has the root isolates it. -/
theorem Locates.narrow (h : l.Locates x) {part : Interval} (hshape : part.Isolating)
    (hsub : part.reals ⊆ l.interval.reals) (hmem : x ∈ part.reals) :
    (l.narrow part).Locates x where
  nonzero := h.nonzero
  isolates := by
    refine ⟨hshape, Set.eq_singleton_iff_unique_mem.2 ⟨⟨h.isRoot, hmem⟩, fun y hy => ?_⟩⟩
    exact h.eq_of_isRoot hy.1 (hsub hy.2)

/-! ## One cut -/

/-- The part of an open interval that a cut keeps for a root. -/
noncomputable def cutPart (x : ℝ) {a q b : ℚ} (haq : a < q) (hqb : q < b) : Interval :=
  if x = q then .point q else if x < q then .between a q haq else .between q b hqb

theorem isolating_cutPart {a b : ℚ} (haq : a < q) (hqb : q < b) :
    (cutPart x haq hqb).Isolating := by
  unfold cutPart
  split
  next => exact .point q
  next =>
    split
    next => exact .between a q haq
    next => exact .between q b hqb

theorem mem_cutPart {a b : ℚ} (haq : a < q) (hqb : q < b) (hax : (a : ℝ) < x) (hxb : x < b) :
    x ∈ (cutPart x haq hqb).reals := by
  unfold cutPart
  split
  next h => rw [Interval.reals_point, h, Set.mem_singleton_iff]
  next hne =>
    split
    next h => exact ⟨hax, h⟩
    next h => exact ⟨lt_of_le_of_ne (not_lt.1 h) (Ne.symm hne), hxb⟩

theorem cutPart_subset {a b : ℚ} (haq : a < q) (hqb : q < b) :
    (cutPart x haq hqb).reals ⊆ Set.Ioo (a : ℝ) b := by
  have haq' : (a : ℝ) < q := Rat.cast_lt.2 haq
  have hqb' : (q : ℝ) < b := Rat.cast_lt.2 hqb
  unfold cutPart
  split
  next =>
    rw [Interval.reals_point, Set.singleton_subset_iff]
    exact ⟨haq', hqb'⟩
  next =>
    split
    next => exact Set.Ioo_subset_Ioo_right hqb'.le
    next => exact Set.Ioo_subset_Ioo_left haq'.le

/-- The cut itself is kept only if it is the root. -/
theorem notMem_cutPart {a b : ℚ} (haq : a < q) (hqb : q < b) (hx : x ≠ q) :
    (q : ℝ) ∉ (cutPart x haq hqb).reals := by
  unfold cutPart
  rw [if_neg hx]
  split
  next => exact fun h => lt_irrefl _ h.2
  next => exact fun h => lt_irrefl _ h.1

theorem point?_cutPart {a b : ℚ} (haq : a < q) (hqb : q < b) :
    (cutPart x haq hqb).point? = if x = q then some q else none := by
  unfold cutPart
  split
  next => exact Interval.point?_point q
  next => split <;> exact Interval.point?_between _

/-- Of the cut and what lies above it at least one is lost, and of the cut and what lies below it.
-/
theorem cutPart_ssubset {a b : ℚ} (haq : a < q) (hqb : q < b) :
    (cutPart x haq hqb).reals ⊂ Set.Ioo (a : ℝ) b := by
  refine (Set.ssubset_iff_of_subset (cutPart_subset haq hqb)).2 ?_
  have haq' : (a : ℝ) < q := Rat.cast_lt.2 haq
  have hqb' : (q : ℝ) < b := Rat.cast_lt.2 hqb
  by_cases hx : x = q
  · obtain ⟨y, hy, hyq⟩ := exists_between haq'
    refine ⟨y, ⟨hy, hyq.trans hqb'⟩, ?_⟩
    unfold cutPart
    rw [if_pos hx, Interval.reals_point]
    exact hyq.ne
  · exact ⟨q, ⟨haq', hqb'⟩, notMem_cutPart haq hqb hx⟩

/-- A cut inside the interval keeps the part that has the root. -/
theorem Locates.split_eq (h : l.Locates x) {a b : ℚ} {hab : a < b}
    (hi : l.interval = .between a b hab) (haq : a < q) (hqb : q < b) :
    l.split q = .ok (l.narrow (cutPart x haq hqb)) := by
  have hmem := h.mem
  rw [hi, Interval.reals_between] at hmem
  have haq' : (a : ℝ) < q := Rat.cast_lt.2 haq
  have hqb' : (q : ℝ) < b := Rat.cast_lt.2 hqb
  unfold split cutPart
  rw [hi]
  by_cases hx : x = q
  · have hroot : l.poly.isRoot q = true := UniPoly.isRoot_ratCast.1 (hx ▸ h.isRoot)
    rw [if_pos hroot, if_pos hx]
  · have hroot : ¬l.poly.isRoot q = true := by
      intro hr
      have hq : (q : ℝ) ∈ l.interval.reals := by
        rw [hi]
        exact ⟨haq', hqb'⟩
      exact hx (h.eq_of_isRoot (UniPoly.isRoot_ratCast.2 hr) hq).symm
    rw [if_neg hroot, if_neg hx, Interval.lo_between, Interval.hi_between]
    unfold Interval.open?
    rw [dif_pos haq, dif_pos hqb]
    have hcount : UniPoly.rootsIn l.chain (.between a q haq)
        = (l.poly.realRoots ∩ Set.Ioo (a : ℝ) q).ncard := by
      rw [l.chain_eq]
      exact UniPoly.rootsIn_between h.nonzero haq
    -- a root in the left part is a root in the whole interval
    have hleft : ∀ y ∈ l.poly.realRoots ∩ Set.Ioo (a : ℝ) q, y = x := by
      intro y hy
      refine h.eq_of_isRoot hy.1 ?_
      rw [hi]
      exact ⟨hy.2.1, hy.2.2.trans hqb'⟩
    by_cases hlt : x < q
    · have hone : l.poly.realRoots ∩ Set.Ioo (a : ℝ) q = {x} :=
        Set.eq_singleton_iff_unique_mem.2 ⟨⟨h.isRoot, hmem.1, hlt⟩, hleft⟩
      simp only [hcount, hone, Set.ncard_singleton, if_true, if_pos hlt]
    · have hnone : l.poly.realRoots ∩ Set.Ioo (a : ℝ) q = ∅ := by
        refine Set.eq_empty_of_forall_notMem fun y hy => hlt ?_
        rw [← hleft y hy]
        exact hy.2.2
      simp only [hcount, hnone, Set.ncard_empty, if_neg hlt]
      rfl

/-- One narrowing: the interval is cut at a number inside. -/
def CutTo (l l' : Locator) : Prop :=
  ∃ q, l.point? = none ∧ l.interval.contains q = true ∧ l.split q = .ok l'

/-- Cutting strictly narrows the interval, is counted, and keeps the root. -/
theorem CutTo.spec (h : l.Locates x) (hc : l.CutTo l') :
    l'.Locates x ∧ l'.poly = l.poly ∧ l'.refinements = l.refinements + 1 ∧
      l'.interval.reals ⊂ l.interval.reals := by
  obtain ⟨q, hp, hq, hs⟩ := hc
  obtain ⟨a, b, hab, hi, hax, hxb⟩ := h.exists_between hp
  rw [hi, Interval.contains_iff_mem_reals] at hq
  have haq : a < q := Rat.cast_lt.1 hq.1
  have hqb : q < b := Rat.cast_lt.1 hq.2
  rw [h.split_eq hi haq hqb] at hs
  cases hs
  refine ⟨h.narrow (isolating_cutPart haq hqb) ?_ (mem_cutPart haq hqb hax hxb), rfl, rfl, ?_⟩
  · rw [hi]
    exact cutPart_subset haq hqb
  · rw [hi]
    exact cutPart_ssubset haq hqb

/-- A cut inside the interval succeeds. -/
theorem Locates.exists_cut (h : l.Locates x) (hp : l.point? = none)
    (hq : l.interval.contains q = true) : ∃ l', l.split q = .ok l' ∧ l.CutTo l' := by
  obtain ⟨a, b, hab, hi, -, -⟩ := h.exists_between hp
  have hq' := hq
  rw [hi, Interval.contains_iff_mem_reals] at hq'
  have hs := h.split_eq hi (Rat.cast_lt.1 hq'.1) (Rat.cast_lt.1 hq'.2)
  exact ⟨_, hs, q, hp, hq, hs⟩

/-! ## Any number of cuts -/

/-- The second locator comes from the first one by the given number of cuts. -/
inductive Narrows : ℕ → Locator → Locator → Prop
  | refl (l : Locator) : Narrows 0 l l
  | cut {n : ℕ} {l m m' : Locator} : Narrows n l m → m.CutTo m' → Narrows (n + 1) l m'

theorem Narrows.trans {n k : ℕ} (h : Narrows n l l') : ∀ {m}, Narrows k l' m → Narrows (n + k) l m
  | _, .refl _ => h
  | _, .cut h' hc => .cut (h.trans h') hc

theorem Narrows.locates {n : ℕ} (hl : l.Locates x) : ∀ {l'}, Narrows n l l' → l'.Locates x
  | _, .refl _ => hl
  | _, .cut h hc => (hc.spec (h.locates hl)).1

theorem Narrows.poly_eq {n : ℕ} (hl : l.Locates x) : ∀ {l'}, Narrows n l l' → l'.poly = l.poly
  | _, .refl _ => rfl
  | _, .cut h hc => (hc.spec (h.locates hl)).2.1.trans (h.poly_eq hl)

theorem Narrows.refinements_eq (hl : l.Locates x) : ∀ {n l'}, Narrows n l l' →
    l'.refinements = l.refinements + n
  | _, _, .refl _ => rfl
  | _, _, .cut h hc => by
    rw [(hc.spec (h.locates hl)).2.2.1, h.refinements_eq hl, Nat.add_assoc]

theorem Narrows.subset {n : ℕ} (hl : l.Locates x) : ∀ {l'}, Narrows n l l' →
    l'.interval.reals ⊆ l.interval.reals
  | _, .refl _ => subset_rfl
  | _, .cut h hc => (hc.spec (h.locates hl)).2.2.2.subset.trans (h.subset hl)

/-- An exact locator is not cut any more. -/
theorem Narrows.eq_of_point (hp : l.point? = some q) : ∀ {n l'}, Narrows n l l' → l' = l
  | _, _, .refl _ => rfl
  | _, _, .cut h hc => by
    obtain ⟨_, hnone, -⟩ := hc
    rw [h.eq_of_point hp, hp] at hnone
    cases hnone

/-! ## The narrowing operations -/

/-- The pivot of a refinement lies inside. -/
theorem pivot_mem (h : l.Locates x) (hp : l.point? = none) :
    l.interval.contains l.pivot = true := by
  obtain ⟨a, b, hab, hi, -, -⟩ := h.exists_between hp
  rw [Interval.contains_iff_mem_reals, hi, pivot, hi, Interval.lo_between, Interval.hi_between]
  split
  next h0 => exact ⟨Rat.cast_lt.2 h0.1, Rat.cast_lt.2 h0.2⟩
  next =>
    exact ⟨Rat.cast_lt.2 (Rational.lt_midpoint hab), Rat.cast_lt.2 (Rational.midpoint_lt hab)⟩

/-- Refinement cuts once, unless the locator is exact. -/
theorem Locates.refine_eq (h : l.Locates x) :
    ∃ l' n, l.refine = .ok l' ∧ Narrows n l l' := by
  cases hp : l.point? with
  | some v => exact ⟨l, 0, refine_of_point hp, .refl l⟩
  | none =>
    obtain ⟨l', hs, hc⟩ := h.exists_cut hp (pivot_mem h hp)
    exact ⟨l', 1, by rw [refine_of_not_point hp, hs], .cut (.refl l) hc⟩

/-- Avoiding a number cuts there if it is inside, and tells whether it is the root. -/
theorem Locates.avoid_eq (h : l.Locates x) (q : ℚ) :
    ∃ l' n, l.avoid q = .ok (decide (x ≠ q), l') ∧ Narrows n l l' ∧
      (x ≠ q → l'.interval.contains q = false) := by
  classical
  cases hp : l.point? with
  | some v =>
    have hx := h.eq_point hp
    refine ⟨l, 0, ?_, .refl l, ?_⟩
    · unfold avoid
      simp only [hp, hx, ne_eq, Rat.cast_inj]
    · intro hne
      rw [Bool.eq_false_iff, ne_eq, Interval.contains_iff_mem_reals,
        Interval.eq_point_of_point? hp, Interval.reals_point]
      exact fun hq => hne (hx.trans hq.symm)
  | none =>
    obtain ⟨a, b, hab, hi, hax, hxb⟩ := h.exists_between hp
    unfold avoid
    simp only [hp]
    by_cases hq : l.interval.contains q = true
    · rw [if_pos hq]
      obtain ⟨l', hs, hc⟩ := h.exists_cut hp hq
      have hq' := hq
      rw [hi, Interval.contains_iff_mem_reals] at hq'
      have haq : a < q := Rat.cast_lt.1 hq'.1
      have hqb : q < b := Rat.cast_lt.1 hq'.2
      have heq := h.split_eq hi haq hqb
      rw [hs, Except.ok.injEq] at heq
      -- the answer is read off the part that is kept: it is the point `q` exactly if the root is `q`
      refine ⟨l', 1, ?_, .cut (.refl l) hc, ?_⟩
      · rw [hs]
        show Except.ok (decide (l'.point? ≠ some q), l') = _
        rw [heq, point?, interval_narrow, point?_cutPart]
        split
        next hx => simp [hx]
        next hx => simp [hx]
      · intro hne
        rw [Bool.eq_false_iff, ne_eq, Interval.contains_iff_mem_reals, heq, interval_narrow]
        exact notMem_cutPart haq hqb hne
    · -- the root lies in the interval and `q` does not
      rw [if_neg hq]
      have hne : x ≠ q := by
        rintro rfl
        exact hq (Interval.contains_iff_mem_reals.2 h.mem)
      refine ⟨l, 0, ?_, .refl l, fun _ => Bool.eq_false_iff.2 hq⟩
      rw [decide_eq_true hne]

/-! ## New locators -/

theorem locates_fresh {p : UniPoly} {i : Interval} (hp : ¬p.isZero = true) (hi : p.Isolates i x) :
    (fresh p i).Locates x := ⟨hp, hi⟩

/-- The polynomial reflected at zero has the opposite root in the opposite interval. -/
theorem Locates.negate (h : l.Locates x) : l.negate.Locates (-x) := by
  have hroots : ∀ y, y ∈ l.poly.reflect.normalized.realRoots ↔ -y ∈ l.poly.realRoots := fun y =>
    UniPoly.isRoot_normalized.trans UniPoly.isRoot_reflect
  refine locates_fresh ?_ ⟨h.isolates.isolating.negate, ?_⟩
  · have hne := UniPoly.reflect_ne_zero (UniPoly.toPolynomial_ne_zero_iff.2 h.nonzero)
    exact UniPoly.toPolynomial_ne_zero_iff.1 (UniPoly.monic_normalized hne).ne_zero
  · refine Set.eq_singleton_iff_unique_mem.2 ⟨⟨(hroots _).2 ?_, ?_⟩, fun y hy => ?_⟩
    · rw [neg_neg]
      exact h.isRoot
    · rw [Interval.mem_reals_negate, neg_neg]
      exact h.mem
    · rw [← h.eq_of_isRoot ((hroots y).1 hy.1) (Interval.mem_reals_negate.1 hy.2), neg_neg]

/-- The name of the variable does not matter. -/
theorem Locates.withVar (h : l.Locates x) (v : Var) : (l.withVar v).Locates x :=
  locates_fresh h.nonzero ⟨h.isolates.isolating, h.isolates.unique⟩

theorem locates_origin (v : Var) : (origin v).Locates 0 := by
  have hX : (UniPoly.identity v).overReal = X := by
    unfold UniPoly.overReal
    rw [UniPoly.toPolynomial_identity, map_X]
  refine locates_fresh ?_ ⟨.point 0, ?_⟩
  · rw [← UniPoly.overReal_ne_zero_iff, hX]
    exact X_ne_zero
  · rw [Interval.reals_point, Rat.cast_zero]
    refine Set.inter_eq_right.2 (Set.singleton_subset_iff.2 ?_)
    show (UniPoly.identity v).overReal.IsRoot 0
    rw [hX, IsRoot.def, eval_X]

/-! ## Refining converges -/

/-- A bound for the length of the interval that every refinement halves. A refinement at zero need
not halve the length, but it happens once at most. -/
def spread (l : Locator) : ℚ :=
  if l.interval.lo < 0 ∧ 0 < l.interval.hi then 2 * l.interval.width else l.interval.width

theorem spread_of_point (hp : l.point? = some q) : l.spread = 0 := by
  unfold spread Interval.width
  rw [Interval.eq_point_of_point? hp]
  show (if q < 0 ∧ 0 < q then 2 * (q - q) else q - q) = 0
  rw [sub_self, mul_zero, ite_self]

theorem spread_narrow_between {a b : ℚ} (hab : a < b) (h : ¬(a < 0 ∧ 0 < b)) :
    (l.narrow (.between a b hab)).spread = b - a := by
  unfold spread Interval.width
  rw [interval_narrow, Interval.lo_between, Interval.hi_between, if_neg h]

/-- A cut that leaves no part with zero strictly inside bounds the spread by the longer part. -/
theorem spread_narrow_cutPart {a b w : ℚ} (haq : a < q) (hqb : q < b) (h : ¬(a < 0 ∧ 0 < q))
    (h' : ¬(q < 0 ∧ 0 < b)) (hl : q - a ≤ w) (hr : b - q ≤ w) :
    (l.narrow (cutPart x haq hqb)).spread ≤ w := by
  unfold cutPart
  split
  next =>
    have hpt : (l.narrow (.point q)).point? = some q := Interval.point?_point q
    rw [spread_of_point hpt]
    exact (sub_pos.2 haq).le.trans hl
  next =>
    split
    next =>
      rw [spread_narrow_between haq h]
      exact hl
    next =>
      rw [spread_narrow_between hqb h']
      exact hr

theorem Locates.spread_refine (h : l.Locates x) (hr : l.refine = .ok l') :
    l'.spread ≤ l.spread / 2 := by
  cases hp : l.point? with
  | some v =>
    rw [refine_of_point hp] at hr
    cases hr
    rw [spread_of_point hp, zero_div]
  | none =>
    obtain ⟨a, b, hab, hi, -, -⟩ := h.exists_between hp
    rw [refine_of_not_point hp] at hr
    have hpivot := pivot_mem h hp
    rw [Interval.contains_iff_mem_reals, hi] at hpivot
    have haq : a < l.pivot := Rat.cast_lt.1 hpivot.1
    have hqb : l.pivot < b := Rat.cast_lt.1 hpivot.2
    rw [h.split_eq hi haq hqb] at hr
    cases hr
    by_cases h0 : a < 0 ∧ 0 < b
    · -- the cut is at zero, and the spread is twice the length
      have hq : l.pivot = 0 := by
        unfold pivot
        rw [hi]
        exact if_pos h0
      have hs : l.spread / 2 = b - a := by
        unfold spread Interval.width
        rw [hi, Interval.lo_between, Interval.hi_between, if_pos h0]
        ring
      rw [hs]
      refine spread_narrow_cutPart haq hqb ?_ ?_ ?_ ?_ <;> rw [hq]
      · exact fun hc => lt_irrefl _ hc.2
      · exact fun hc => lt_irrefl _ hc.1
      · linarith
      · linarith
    · -- the cut is at the midpoint, and neither part has zero strictly inside
      have hq : l.pivot = (a + b) / 2 := by
        unfold pivot
        rw [hi]
        exact if_neg h0
      have hs : l.spread / 2 = (b - a) / 2 := by
        unfold spread Interval.width
        rw [hi, Interval.lo_between, Interval.hi_between, if_neg h0]
      rw [hs]
      refine spread_narrow_cutPart haq hqb ?_ ?_ ?_ ?_
      · exact fun hc => h0 ⟨hc.1, hc.2.trans hqb⟩
      · exact fun hc => h0 ⟨haq.trans hc.1, hc.2⟩
      · rw [hq]
        linarith
      · rw [hq]
        linarith

theorem width_le_spread (l : Locator) : l.interval.width ≤ l.spread := by
  unfold spread
  split
  next h0 =>
    have hw : 0 ≤ l.interval.width := sub_nonneg.2 (h0.1.trans h0.2).le
    linarith
  next => exact le_rfl

/-- The ends of the interval are as close to the root as the spread says. -/
theorem Locates.ends_near (h : l.Locates x) :
    (l.interval.lo : ℝ) ≤ x ∧ x ≤ l.interval.hi ∧
      (l.interval.hi : ℝ) - l.interval.lo ≤ l.spread := by
  have hw : (l.interval.hi : ℝ) - l.interval.lo ≤ l.spread := by
    rw [← Rat.cast_sub]
    exact Rat.cast_le.2 l.width_le_spread
  refine ⟨?_, ?_, hw⟩
  all_goals
    cases hp : l.point? with
    | some v =>
      rw [h.eq_point hp, Interval.eq_point_of_point? hp]
      exact le_rfl
    | none =>
      obtain ⟨a, b, hab, hi, hax, hxb⟩ := h.exists_between hp
      rw [hi]
      first
        | exact hax.le
        | exact hxb.le

theorem Locates.spread_nonneg (h : l.Locates x) : 0 ≤ l.spread := by
  have hends := h.ends_near
  have hnonneg : (0 : ℝ) ≤ l.spread := by linarith
  exact_mod_cast hnonneg

/-- Cuts do not lengthen the interval. -/
theorem Narrows.spread_le (h : l.Locates x) {n : ℕ} (hnar : Narrows n l l') :
    l'.spread ≤ l.spread := by
  cases hp' : l'.point? with
  | some v =>
    rw [spread_of_point hp']
    exact h.spread_nonneg
  | none =>
    cases hp : l.point? with
    | some v => rw [hnar.eq_of_point hp]
    | none =>
      obtain ⟨a, b, hab, hi, -, -⟩ := h.exists_between hp
      obtain ⟨a', b', hab', hi', -, -⟩ := (hnar.locates h).exists_between hp'
      have hsub := hnar.subset h
      rw [hi, hi', Interval.reals_between, Interval.reals_between,
        Set.Ioo_subset_Ioo_iff (Rat.cast_lt.2 hab'), Rat.cast_le, Rat.cast_le] at hsub
      unfold spread Interval.width
      rw [hi, hi', Interval.lo_between, Interval.lo_between, Interval.hi_between,
        Interval.hi_between]
      split
      next h0 =>
        -- zero was inside before
        rw [if_pos ⟨hsub.1.trans_lt h0.1, h0.2.trans_le hsub.2⟩]
        linarith
      next =>
        split <;> linarith

/-- All members of the interval are as close to the root as the spread says. -/
theorem Locates.dist_lt_of_mem (h : l.Locates x) {δ : ℝ} (hδ : 0 < δ) (hs : l.spread ≤ δ) {y : ℝ}
    (hy : y ∈ l.interval.reals) : |y - x| < δ := by
  cases hp : l.point? with
  | some v =>
    rw [Interval.eq_point_of_point? hp, Interval.reals_point] at hy
    rw [hy, h.eq_point hp, sub_self, abs_zero]
    exact hδ
  | none =>
    obtain ⟨a, b, hab, hi, hax, hxb⟩ := h.exists_between hp
    have hw := h.ends_near.2.2
    rw [hi, Interval.reals_between] at hy
    rw [hi, Interval.lo_between, Interval.hi_between] at hw
    rw [abs_lt]
    constructor <;> linarith [hy.1, hy.2]

end Locator

end AlgebraicReal
