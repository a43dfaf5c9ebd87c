import AlgebraicReal.Proofs.Locator.Sign
import AlgebraicReal.Locator.Order

/-!
# The order of located roots

Comparisons give the order of the roots. Two roots are recognised as equal by a common divisor on
the overlap of the intervals (`sameRoot_iff`); different ones lie apart once the intervals are short
enough (`exists_compare`).
-/

open Polynomial

namespace AlgebraicReal

theorem Rational.compare_eq_cmp (a b : ℚ) : Rational.compare a b = cmp (a : ℝ) b := by
  unfold Rational.compare compareOfLessAndEq
  rcases lt_trichotomy a b with h | rfl | h
  · rw [if_pos h, (cmp_eq_lt_iff _ _).2 (Rat.cast_lt.2 h)]
  · rw [if_neg (lt_irrefl a), if_pos rfl, cmp_self_eq_eq]
  · rw [if_neg h.not_gt, if_neg h.ne', (cmp_eq_gt_iff _ _).2 (Rat.cast_lt.2 h)]

namespace Locator

variable {a b : Locator} {x y : ℝ}

/-- A rational is compared exactly, with one cut at most. -/
theorem Locates.compareRational_eq (h : a.Locates x) (q : ℚ) :
    ∃ a' n, a.compareRational q = .ok (cmp x q, a') ∧ Narrows n a a' := by
  obtain ⟨a', n, he, hnar, hout⟩ := h.avoid_eq q
  have h' := hnar.locates h
  refine ⟨a', n, ?_, hnar⟩
  unfold compareRational
  rw [he]
  by_cases hx : x = q
  · rw [hx, cmp_self_eq_eq]
    simp [bind, Except.bind, pure, Except.pure]
  · simp only [bind, Except.bind, pure, Except.pure, hx, ne_eq, not_false_eq_true, decide_true,
      Bool.not_true, Bool.false_eq_true, if_false, Except.ok.injEq, Prod.mk.injEq, and_true]
    cases hp : a'.point? with
    | some v =>
      rw [h'.eq_point hp]
      exact Rational.compare_eq_cmp v q
    | none =>
      simp only
      obtain ⟨lo, hi, hab, hint, hlo, hhi⟩ := h'.exists_between hp
      -- the rational is outside the open interval, below or above it
      have hq := hout hx
      rw [hint, Bool.eq_false_iff, ne_eq, Interval.contains_iff_mem_reals, Interval.reals_between,
        Set.mem_Ioo, not_and_or, not_lt, not_lt, Rat.cast_le, Rat.cast_le] at hq
      rw [hint, Interval.lo_between]
      split
      next hle =>
        rw [(cmp_eq_gt_iff _ _).2 (lt_of_le_of_lt (Rat.cast_le.2 hle) hlo)]
      next hle =>
        have hge : hi ≤ q := hq.resolve_left hle
        rw [(cmp_eq_lt_iff _ _).2 (lt_of_lt_of_le hhi (Rat.cast_le.2 hge))]

/-- The test for equality is exact, whatever the intervals. -/
theorem sameRoot_iff (ha : a.Locates x) (hb : b.Locates y) : a.sameRoot b = true ↔ x = y := by
  unfold sameRoot
  cases hi : a.interval.intersect b.interval with
  | none =>
    refine iff_of_false Bool.false_ne_true ?_
    rintro rfl
    exact Interval.intersect_ne_none ha.mem hb.mem hi
  | some overlap =>
    simp only
    -- in both cases the roots of the divisor are the common roots
    have hg : ∃ g : UniPoly,
        (if a.poly.coeffs = b.poly.coeffs then a.poly else a.poly.gcd b.poly) = g ∧
        ¬g.isZero = true ∧ ∀ z, g.overReal.IsRoot z ↔
          a.poly.overReal.IsRoot z ∧ b.poly.overReal.IsRoot z := by
      split
      next hc =>
        refine ⟨a.poly, rfl, ha.nonzero, fun z => ?_⟩
        have hpoly : b.poly.overReal = a.poly.overReal := by
          unfold UniPoly.overReal UniPoly.toPolynomial
          rw [hc]
        rw [hpoly, and_self]
      next =>
        exact ⟨_, rfl, UniPoly.toPolynomial_ne_zero_iff.1
          (UniPoly.gcd_ne_zero (UniPoly.toPolynomial_ne_zero_iff.2 ha.nonzero)),
          fun z => UniPoly.isRoot_gcd⟩
    obtain ⟨g, hgeq, hgz, hroots⟩ := hg
    rw [hgeq, UniPoly.exists_isRoot_iff hgz]
    constructor
    · rintro ⟨z, hz, hmem⟩
      have hmem' := (Interval.mem_reals_of_intersect hi).1 hmem
      have hz' := (hroots z).1 hz
      rw [← ha.eq_of_isRoot hz'.1 hmem'.1, ← hb.eq_of_isRoot hz'.2 hmem'.2]
    · rintro rfl
      exact ⟨x, (hroots x).2 ⟨ha.isRoot, hb.isRoot⟩,
        (Interval.mem_reals_of_intersect hi).2 ⟨ha.mem, hb.mem⟩⟩

/-- Intervals that lie apart show the order. -/
theorem eq_cmp_of_disjointOrder (ha : a.Locates x) (hb : b.Locates y) (hpa : a.point? = none)
    {o : Ordering} (h : disjointOrder a.interval b.interval = some o) : o = cmp x y := by
  obtain ⟨lo, hi, hab, hint, hlo, hhi⟩ := ha.exists_between hpa
  have hbends := hb.ends_near
  unfold disjointOrder at h
  rw [hint, Interval.lo_between, Interval.hi_between] at h
  split at h
  next hle =>
    cases h
    have hle' : (hi : ℝ) ≤ b.interval.lo := Rat.cast_le.2 hle
    exact ((cmp_eq_lt_iff _ _).2 (lt_of_lt_of_le hhi (hle'.trans hbends.1))).symm
  next =>
    split at h
    next hle =>
      cases h
      have hle' : (b.interval.hi : ℝ) ≤ lo := Rat.cast_le.2 hle
      exact ((cmp_eq_gt_iff _ _).2 (lt_of_le_of_lt (hbends.2.1.trans hle') hlo)).symm
    next => cases h

/-- What can be read off is right, and if nothing can both locators are left as they are. -/
theorem settleOrder_eq (ha : a.Locates x) (hb : b.Locates y) :
    ∃ o a' b' n k, settleOrder a b = .ok (o, a', b') ∧ Narrows n a a' ∧ Narrows k b b' ∧
      (∀ r, o = some r → r = cmp x y) ∧
      (o = none → a' = a ∧ b' = b ∧ disjointOrder a.interval b.interval = none) := by
  unfold settleOrder
  cases hpa : a.point? with
  | some v =>
    obtain ⟨b', k, he, hnar⟩ := hb.compareRational_eq v
    refine ⟨some (cmp x y), a, b', 0, k, ?_, .refl a, hnar, fun r hr => (Option.some.inj hr).symm,
      nofun⟩
    simp only [bind, Except.bind, pure, Except.pure, he]
    rw [← ha.eq_point hpa, cmp_swap]
  | none =>
    cases hpb : b.point? with
    | some v =>
      obtain ⟨a', n, he, hnar⟩ := ha.compareRational_eq v
      refine ⟨some (cmp x y), a', b, n, 0, ?_, hnar, .refl b, fun r hr => (Option.some.inj hr).symm,
        nofun⟩
      simp only [bind, Except.bind, pure, Except.pure, he]
      rw [← hb.eq_point hpb]
    | none =>
      exact ⟨_, a, b, 0, 0, rfl, .refl a, .refl b, fun r hr => eq_cmp_of_disjointOrder ha hb hpa hr,
        fun ho => ⟨rfl, rfl, ho⟩⟩

/-! ## Separating different roots -/

theorem separate_step {a₁ b₁ a₂ b₂ : Locator} {o : Option Ordering} (hea : a.refine = .ok a₁)
    (heb : b.refine = .ok b₁) (he : settleOrder a₁ b₁ = .ok (o, a₂, b₂)) (rounds : ℕ) :
    separate (rounds + 1) a b
      = o.elim (separate rounds a₂ b₂) fun order => .ok (order, a₂, b₂) := by
  rw [separate, hea, heb]
  simp only [bind, Except.bind, he]
  cases o <;> rfl

theorem separate_eq (ha : a.Locates x) (hb : b.Locates y) (rounds : ℕ) :
    separate rounds a b = .error .exhausted ∨
      ∃ a' b' n k, separate rounds a b = .ok (cmp x y, a', b') ∧ Narrows n a a' ∧
        Narrows k b b' := by
  induction rounds generalizing a b with
  | zero => exact .inl rfl
  | succ rounds ih =>
    obtain ⟨a₁, n₁, hea, hna⟩ := ha.refine_eq
    obtain ⟨b₁, k₁, heb, hnb⟩ := hb.refine_eq
    obtain ⟨o, a₂, b₂, n₂, k₂, he, hna₂, hnb₂, ho, -⟩ :=
      settleOrder_eq (hna.locates ha) (hnb.locates hb)
    rw [separate_step hea heb he]
    cases o with
    | some order =>
      rw [ho order rfl]
      exact .inr ⟨a₂, b₂, _, _, rfl, hna.trans hna₂, hnb.trans hnb₂⟩
    | none =>
      rcases ih (hna₂.locates (hna.locates ha)) (hnb₂.locates (hnb.locates hb)) with
        h | ⟨a', b', n, k, h, hna', hnb'⟩
      · exact .inl h
      · exact .inr ⟨a', b', _, _, h, (hna.trans hna₂).trans hna', (hnb.trans hnb₂).trans hnb'⟩

theorem separate_succ {r : Ordering × Locator × Locator} {rounds : ℕ} :
    ∀ {a b : Locator}, separate rounds a b = .ok r → separate (rounds + 1) a b = .ok r := by
  induction rounds with
  | zero => exact nofun
  | succ rounds ih =>
    intro a b h
    rw [separate] at h ⊢
    cases hea : a.refine with
    | error e =>
      rw [hea] at h
      cases h
    | ok a₁ =>
      cases heb : b.refine with
      | error e =>
        rw [hea, heb] at h
        cases h
      | ok b₁ =>
        rw [hea, heb] at h
        simp only [bind, Except.bind] at h ⊢
        cases he : settleOrder a₁ b₁ with
        | error e =>
          rw [he] at h
          cases h
        | ok r₁ =>
          obtain ⟨o, a₂, b₂⟩ := r₁
          rw [he] at h
          cases o with
          | some order => exact h
          | none => exact ih h

/-- Short intervals around different roots lie apart. -/
theorem disjointOrder_ne_none (ha : a.Locates x) (hb : b.Locates y) (hxy : x ≠ y) {δ : ℝ}
    (hδ : 2 * δ ≤ |x - y|) (hsa : (a.spread : ℝ) ≤ δ) (hsb : (b.spread : ℝ) ≤ δ) :
    disjointOrder a.interval b.interval ≠ none := by
  obtain ⟨ha₁, ha₂, ha₃⟩ := ha.ends_near
  obtain ⟨hb₁, hb₂, hb₃⟩ := hb.ends_near
  unfold disjointOrder
  rcases lt_or_gt_of_ne hxy with hlt | hlt
  · rw [abs_of_neg (sub_neg.2 hlt)] at hδ
    have hle : (a.interval.hi : ℝ) ≤ b.interval.lo := by linarith
    rw [if_pos (Rat.cast_le.1 hle)]
    exact Option.some_ne_none _
  · rw [abs_of_pos (sub_pos.2 hlt)] at hδ
    have hle : (b.interval.hi : ℝ) ≤ a.interval.lo := by linarith
    rw [if_pos (Rat.cast_le.1 hle)]
    split <;> exact Option.some_ne_none _

/-- What a round does to locators of different roots: it answers, or it leaves both halved. -/
theorem exists_round (ha : a.Locates x) (hb : b.Locates y) (rounds : ℕ) :
    separate (rounds + 1) a b ≠ .error .exhausted ∨
      ∃ a₁ b₁, a₁.Locates x ∧ b₁.Locates y ∧ (a₁.spread : ℝ) ≤ a.spread / 2 ∧
        (b₁.spread : ℝ) ≤ b.spread / 2 ∧ disjointOrder a₁.interval b₁.interval = none ∧
        separate (rounds + 1) a b = separate rounds a₁ b₁ := by
  obtain ⟨a₁, n₁, hea, hna⟩ := ha.refine_eq
  obtain ⟨b₁, k₁, heb, hnb⟩ := hb.refine_eq
  obtain ⟨o, a₂, b₂, n₂, k₂, he, -, -, -, ho⟩ :=
    settleOrder_eq (hna.locates ha) (hnb.locates hb)
  rw [separate_step hea heb he]
  cases o with
  | some order => exact .inl nofun
  | none =>
    obtain ⟨rfl, rfl, hnone⟩ := ho rfl
    have hsa : (a₂.spread : ℝ) ≤ a.spread / 2 := by exact_mod_cast ha.spread_refine hea
    have hsb : (b₂.spread : ℝ) ≤ b.spread / 2 := by exact_mod_cast hb.spread_refine heb
    exact .inr ⟨a₂, b₂, hna.locates ha, hnb.locates hb, hsa, hsb, hnone, rfl⟩

theorem separate_ne_exhausted (hxy : x ≠ y) {δ : ℝ} (hδ : 2 * δ ≤ |x - y|) (rounds : ℕ) :
    ∀ {a b : Locator}, a.Locates x → b.Locates y → (a.spread : ℝ) ≤ δ * 2 ^ (rounds + 1) →
      (b.spread : ℝ) ≤ δ * 2 ^ (rounds + 1) → separate (rounds + 1) a b ≠ .error .exhausted := by
  induction rounds with
  | zero =>
    intro a b ha hb hsa hsb
    rcases exists_round ha hb 0 with h | ⟨a₁, b₁, ha₁, hb₁, hsa₁, hsb₁, hnone, -⟩
    · exact h
    · rw [zero_add, pow_one] at hsa hsb
      exact absurd hnone (disjointOrder_ne_none ha₁ hb₁ hxy hδ (by linarith) (by linarith))
  | succ rounds ih =>
    intro a b ha hb hsa hsb
    rcases exists_round ha hb (rounds + 1) with h | ⟨a₁, b₁, ha₁, hb₁, hsa₁, hsb₁, -, he⟩
    · exact h
    · rw [pow_succ] at hsa hsb
      rw [he]
      exact ih ha₁ hb₁ (by linarith) (by linarith)

/-- With enough rounds different roots are told apart, always with the same narrowing. -/
theorem exists_separate (ha : a.Locates x) (hb : b.Locates y) (hxy : x ≠ y) :
    ∃ a' b' n k N, Narrows n a a' ∧ Narrows k b b' ∧
      ∀ rounds ≥ N, separate rounds a b = .ok (cmp x y, a', b') := by
  have hδ : 0 < |x - y| / 2 := half_pos (abs_pos.2 (sub_ne_zero.2 hxy))
  obtain ⟨N, hN⟩ := exists_le_mul_two_pow (max a.spread b.spread : ℝ) (half_pos hδ)
  have hN₁ : (max a.spread b.spread : ℝ) ≤ |x - y| / 2 * 2 ^ (N + 1) := by
    refine hN.trans ?_
    rw [pow_succ]
    have hpow : (0 : ℝ) < 2 ^ N := by positivity
    nlinarith
  have hok := separate_ne_exhausted hxy (mul_div_cancel₀ |x - y| two_ne_zero).le N ha hb
    ((le_max_left _ _).trans hN₁) ((le_max_right _ _).trans hN₁)
  rcases separate_eq ha hb (N + 1) with h | ⟨a', b', n, k, h, hna, hnb⟩
  · exact absurd h hok
  · refine ⟨a', b', n, k, N + 1, hna, hnb, fun rounds hge => ?_⟩
    induction rounds, hge using Nat.le_induction with
    | base => exact h
    | succ rounds _ ih => exact separate_succ ih

/-! ## Comparing -/

theorem compare_of_settled {a' b' : Locator} {o : Option Ordering}
    (he : settleOrder a b = .ok (o, a', b')) (rounds : ℕ) :
    compare rounds a b =
      o.elim (if sameRoot a' b' then .ok (.eq, a', b') else separate rounds a' b')
      fun order => .ok (order, a', b') := by
  unfold compare
  rw [he]
  cases o <;> rfl

/-- Whatever number of rounds a comparison is given, it answers with the order of the roots or runs
out of rounds. -/
theorem compare_eq (ha : a.Locates x) (hb : b.Locates y) (rounds : ℕ) :
    compare rounds a b = .error .exhausted ∨
      ∃ a' b' n k, compare rounds a b = .ok (cmp x y, a', b') ∧ Narrows n a a' ∧
        Narrows k b b' := by
  obtain ⟨o, a₁, b₁, n, k, he, hna, hnb, ho, -⟩ := settleOrder_eq ha hb
  rw [compare_of_settled he]
  cases o with
  | some order =>
    rw [ho order rfl]
    exact .inr ⟨a₁, b₁, n, k, rfl, hna, hnb⟩
  | none =>
    rw [Option.elim_none]
    split
    next hs =>
      rw [(sameRoot_iff (hna.locates ha) (hnb.locates hb)).1 hs, cmp_self_eq_eq]
      exact .inr ⟨a₁, b₁, n, k, rfl, hna, hnb⟩
    next hs =>
      rcases separate_eq (hna.locates ha) (hnb.locates hb) rounds with
        h | ⟨a', b', n', k', h, hna', hnb'⟩
      · exact .inl h
      · exact .inr ⟨a', b', _, _, h, hna.trans hna', hnb.trans hnb'⟩

/-- With enough rounds two roots are compared, always with the same narrowing. -/
theorem exists_compare (ha : a.Locates x) (hb : b.Locates y) :
    ∃ a' b' n k N, Narrows n a a' ∧ Narrows k b b' ∧
      ∀ rounds ≥ N, compare rounds a b = .ok (cmp x y, a', b') := by
  obtain ⟨o, a₁, b₁, n, k, he, hna, hnb, ho, -⟩ := settleOrder_eq ha hb
  have ha₁ := hna.locates ha
  have hb₁ := hnb.locates hb
  cases o with
  | some order =>
    refine ⟨a₁, b₁, n, k, 0, hna, hnb, fun rounds _ => ?_⟩
    rw [compare_of_settled he, ho order rfl]
    rfl
  | none =>
    by_cases hs : a₁.sameRoot b₁ = true
    · refine ⟨a₁, b₁, n, k, 0, hna, hnb, fun rounds _ => ?_⟩
      rw [compare_of_settled he, Option.elim_none, if_pos hs, (sameRoot_iff ha₁ hb₁).1 hs,
        cmp_self_eq_eq]
    · obtain ⟨a', b', n', k', N, hna', hnb', h⟩ :=
        exists_separate ha₁ hb₁ ((sameRoot_iff ha₁ hb₁).not.1 hs)
      refine ⟨a', b', _, _, N, hna.trans hna', hnb.trans hnb', fun rounds hge => ?_⟩
      rw [compare_of_settled he, Option.elim_none, if_neg hs]
      exact h rounds hge

end Locator

end AlgebraicReal
