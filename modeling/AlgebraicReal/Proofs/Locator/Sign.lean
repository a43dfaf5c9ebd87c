import AlgebraicReal.Proofs.Locator.Narrowing
import AlgebraicReal.Locator.Sign

/-!
# Signs at located roots

The sign of a polynomial at a located root is exact. Zero is recognised by a common divisor
(`isRootOf_iff`); any other sign is read off once the interval has no root of the polynomial, which
happens when the interval is shorter than the distance to the nearest one (`exists_sign`).

A search is described by three facts: whatever it answers within its rounds is right, more rounds do
not change an answer, and some number of rounds suffices.
-/

open Polynomial

namespace AlgebraicReal

/-- A polynomial without roots between two points has the same sign at both. -/
theorem sign_eval_eq_of_no_root {f : ℝ[X]} {x y : ℝ} (h : ∀ z ∈ Set.uIcc x y, ¬f.IsRoot z) :
    Sign.ofReal (f.eval x) = Sign.ofReal (f.eval y) := by
  have hzero : (0 : ℝ) ∉ Set.uIcc (f.eval x) (f.eval y) := by
    intro h0
    obtain ⟨z, hz, hfz⟩ := intermediate_value_uIcc f.continuous.continuousOn h0
    exact h z hz hfz
  rw [Set.mem_uIcc, not_or, not_and_or, not_and_or, not_le, not_le, not_le, not_le] at hzero
  rcases hzero with ⟨h₁ | h₁, h₂ | h₂⟩
  · rw [Sign.ofReal_of_pos h₁, Sign.ofReal_of_pos h₂]
  · exact absurd h₁ h₂.not_gt
  · exact absurd h₁ h₂.not_gt
  · rw [Sign.ofReal_of_neg h₁, Sign.ofReal_of_neg h₂]

/-- Around a point at which a polynomial does not vanish it has no roots. -/
theorem exists_no_root_near {f : ℝ[X]} {x : ℝ} (h : f.eval x ≠ 0) :
    ∃ δ > 0, ∀ y, |y - x| < δ → ¬f.IsRoot y := by
  have hev : ∀ᶠ y in nhds x, f.eval y ≠ 0 := f.continuous.continuousAt.eventually_ne h
  obtain ⟨δ, hpos, hδ⟩ := Metric.eventually_nhds_iff.1 hev
  exact ⟨δ, hpos, fun y hy => hδ hy⟩

/-- Some number of halvings brings a bound below any positive one. -/
theorem exists_le_mul_two_pow (w : ℝ) {δ : ℝ} (hδ : 0 < δ) : ∃ n : ℕ, w ≤ δ * 2 ^ n := by
  obtain ⟨n, hn⟩ := pow_unbounded_of_one_lt (w / δ) one_lt_two
  rw [div_lt_iff₀ hδ] at hn
  exact ⟨n, by linarith⟩

/-- The reals in an open interval are connected. -/
theorem Interval.uIcc_subset_reals_between {a b : ℚ} (hab : a < b) {x y : ℝ}
    (hx : x ∈ (between a b hab).reals) (hy : y ∈ (between a b hab).reals) :
    Set.uIcc x y ⊆ (between a b hab).reals :=
  Set.OrdConnected.uIcc_subset Set.ordConnected_Ioo hx hy

/-- A polynomial that is not constant and of which Sturm's count is positive has a root there. -/
theorem UniPoly.exists_isRoot_iff {g : UniPoly} (hg : ¬g.isZero = true) (i : Interval) :
    (decide (0 < g.degree) && decide (0 < g.countRoots i)) = true
      ↔ ∃ y, g.overReal.IsRoot y ∧ y ∈ i.reals := by
  have hfin : (g.realRoots ∩ i.reals).Finite := (finite_realRoots hg).inter_of_left _
  rw [Bool.and_eq_true, decide_eq_true_iff, decide_eq_true_iff, countRoots_eq_ncard hg,
    Set.ncard_pos hfin]
  refine and_iff_right_of_imp fun ⟨y, hy, _⟩ => Nat.pos_of_ne_zero fun hdeg => ?_
  refine not_isRoot_of_isConstant hg ?_ y hy
  rw [isConstant_iff_natDegree, natDegree_toPolynomial, hdeg]

namespace Locator

variable {l : Locator} {x : ℝ}

/-- The test by the greatest common divisor is exact. -/
theorem Locates.isRootOf_iff (h : l.Locates x) (q : UniPoly) :
    l.isRootOf q = true ↔ q.overReal.IsRoot x := by
  unfold isRootOf
  cases hp : l.point? with
  | some v =>
    rw [h.eq_point hp]
    exact UniPoly.isRoot_ratCast.symm
  | none =>
    show (if q.isZero = true then true else _) = true ↔ _
    by_cases hq : q.isZero = true
    · rw [if_pos hq, UniPoly.overReal_eq_zero_iff.2 hq]
      exact iff_of_true rfl (by simp)
    · rw [if_neg hq]
      have hg : ¬(l.poly.gcd q).isZero = true :=
        UniPoly.toPolynomial_ne_zero_iff.1
          (UniPoly.gcd_ne_zero (UniPoly.toPolynomial_ne_zero_iff.2 h.nonzero))
      rw [UniPoly.exists_isRoot_iff hg]
      constructor
      · rintro ⟨y, hy, hmem⟩
        have hy' := UniPoly.isRoot_gcd.1 hy
        rw [← h.eq_of_isRoot hy'.1 hmem]
        exact hy'.2
      · exact fun hx => ⟨x, UniPoly.isRoot_gcd.2 ⟨h.isRoot, hx⟩, h.mem⟩

/-! ## The search for a sign -/

/-- Without roots in the interval the sample shows the sign. -/
theorem Locates.signAt_sample (h : l.Locates x) (hp : l.point? = none) {q : UniPoly}
    (hq : ¬q.isZero = true) (hnone : UniPoly.rootsIn q.sturmChain l.interval = 0) :
    q.signAt l.interval.sample = Sign.ofReal (q.overReal.eval x) := by
  obtain ⟨a, b, hab, hi, hax, hxb⟩ := h.exists_between hp
  have hempty : q.realRoots ∩ l.interval.reals = ∅ := by
    have hcount : (q.realRoots ∩ l.interval.reals).ncard = 0 := by
      rw [← UniPoly.countRoots_eq_ncard hq]
      exact hnone
    exact (Set.ncard_eq_zero ((UniPoly.finite_realRoots hq).inter_of_left _)).1 hcount
  have hsample := Interval.sample_between_mem hab
  rw [hi] at hempty ⊢
  rw [← UniPoly.ofReal_eval_overReal]
  refine sign_eval_eq_of_no_root fun z hz hroot => ?_
  have hmem := Interval.uIcc_subset_reals_between hab
    ⟨Rat.cast_lt.2 hsample.1, Rat.cast_lt.2 hsample.2⟩ ⟨hax, hxb⟩ hz
  have hin : z ∈ q.realRoots ∩ (Interval.between a b hab).reals := ⟨hroot, hmem⟩
  rw [hempty] at hin
  exact hin

/-- The search answers with the sign, or it runs out of rounds. -/
theorem Locates.signLoop_eq {q : UniPoly} (hq : ¬q.isZero = true) :
    ∀ (rounds : ℕ) {l : Locator}, l.Locates x →
      signLoop q q.sturmChain rounds l = .error .exhausted ∨
      ∃ l' n, signLoop q q.sturmChain rounds l = .ok (Sign.ofReal (q.overReal.eval x), l') ∧
        Narrows n l l'
  | 0, _, _ => .inl rfl
  | rounds + 1, l, h => by
    rw [signLoop]
    cases hp : l.point? with
    | some v =>
      refine .inr ⟨l, 0, ?_, .refl l⟩
      rw [h.eq_point hp, UniPoly.ofReal_eval_overReal]
    | none =>
      simp only
      split
      -- no root of `q` is near, so any point of the interval shows the sign
      next hnone =>
        refine .inr ⟨l, 0, ?_, .refl l⟩
        rw [h.signAt_sample hp hq hnone]
      next =>
        obtain ⟨m, n, hm, hnar⟩ := h.refine_eq
        rw [hm]
        show signLoop q q.sturmChain rounds m = _ ∨ ∃ l' n, signLoop q q.sturmChain rounds m = _ ∧ _
        rcases Locates.signLoop_eq hq rounds (hnar.locates h) with he | ⟨l', k, he, hnar'⟩
        · exact .inl he
        · exact .inr ⟨l', n + k, he, hnar.trans hnar'⟩

theorem signLoop_succ {q : UniPoly} {chain : List UniPoly} {r : Sign × Locator} :
    ∀ {rounds : ℕ} {l : Locator}, signLoop q chain rounds l = .ok r →
      signLoop q chain (rounds + 1) l = .ok r
  | 0, _, h => by cases h
  | rounds + 1, l, h => by
    rw [signLoop] at h ⊢
    cases hp : l.point? with
    | some v =>
      rw [hp] at h
      exact h
    | none =>
      rw [hp] at h
      simp only at h ⊢
      split at h
      next hz => rw [if_pos hz, h]
      next hz =>
        rw [if_neg hz]
        cases hm : l.refine with
        | error e =>
          rw [hm] at h
          cases h
        | ok m =>
          rw [hm] at h
          exact signLoop_succ h

/-- An interval that is shorter than the distance to the nearest root of the polynomial suffices. -/
theorem Locates.signLoop_ne_exhausted {q : UniPoly} (hq : ¬q.isZero = true) {δ : ℝ} (hpos : 0 < δ)
    (hδ : ∀ y, |y - x| < δ → ¬q.overReal.IsRoot y) :
    ∀ (rounds : ℕ) {l : Locator}, l.Locates x → (l.spread : ℝ) ≤ δ * 2 ^ rounds →
      signLoop q q.sturmChain (rounds + 1) l ≠ .error .exhausted
  | rounds, l, h, hs => by
    rw [signLoop]
    cases hp : l.point? with
    | some v => exact nofun
    | none =>
      simp only
      split
      next => exact nofun
      next hne =>
        cases rounds with
        -- the interval has become shorter than the gap to the next root of `q`
        | zero =>
          rw [pow_zero, mul_one] at hs
          refine absurd ?_ hne
          show q.countRoots l.interval = 0
          have hempty : q.realRoots ∩ l.interval.reals = ∅ :=
            Set.eq_empty_of_forall_notMem fun y hy =>
              hδ y (h.dist_lt_of_mem hpos hs hy.2) hy.1
          rw [UniPoly.countRoots_eq_ncard hq, hempty, Set.ncard_empty]
        | succ rounds =>
          obtain ⟨m, n, hm, hnar⟩ := h.refine_eq
          rw [hm]
          refine Locates.signLoop_ne_exhausted hq hpos hδ rounds (hnar.locates h) ?_
          have hhalf : (m.spread : ℝ) ≤ l.spread / 2 := by exact_mod_cast h.spread_refine hm
          rw [pow_succ] at hs
          linarith

/-! ## The sign -/

theorem Locates.not_isZero_of_not_isRootOf (h : l.Locates x) {q : UniPoly}
    (hr : ¬l.isRootOf q = true) : ¬q.isZero = true := fun hz => by
  rw [h.isRootOf_iff, UniPoly.overReal_eq_zero_iff.2 hz] at hr
  exact hr eval_zero

/-- At a number that is known exactly, and at a root of the polynomial, there is no search. -/
theorem Locates.sign_of_known (h : l.Locates x) {q : UniPoly}
    (hknown : ¬(l.point? = none ∧ ¬l.isRootOf q = true)) (rounds : ℕ) :
    l.sign rounds q = .ok (Sign.ofReal (q.overReal.eval x), l) := by
  unfold sign
  cases hp : l.point? with
  | some v => rw [h.eq_point hp, UniPoly.ofReal_eval_overReal]
  | none =>
    have hr : l.isRootOf q = true := not_not.1 fun hr => hknown ⟨hp, hr⟩
    rw [Sign.ofReal_eq_zero_iff.2 ((h.isRootOf_iff q).1 hr)]
    exact if_pos hr

theorem sign_of_search {q : UniPoly} (hp : l.point? = none) (hr : ¬l.isRootOf q = true)
    (rounds : ℕ) : l.sign rounds q = signLoop q q.sturmChain rounds l := by
  unfold sign
  rw [hp]
  exact if_neg hr

/-- Whatever number of rounds the search is given, it answers with the sign at the root or runs out
of rounds. -/
theorem Locates.sign_eq (h : l.Locates x) (q : UniPoly) (rounds : ℕ) :
    l.sign rounds q = .error .exhausted ∨
      ∃ l' n, l.sign rounds q = .ok (Sign.ofReal (q.overReal.eval x), l') ∧ Narrows n l l' := by
  by_cases hsearch : l.point? = none ∧ ¬l.isRootOf q = true
  · rw [sign_of_search hsearch.1 hsearch.2]
    exact Locates.signLoop_eq (h.not_isZero_of_not_isRootOf hsearch.2) rounds h
  · exact .inr ⟨l, 0, h.sign_of_known hsearch rounds, .refl l⟩

/-- With enough rounds the sign is found, always with the same narrowing. -/
theorem Locates.exists_sign (h : l.Locates x) (q : UniPoly) :
    ∃ l' n N, Narrows n l l' ∧
      ∀ rounds ≥ N, l.sign rounds q = .ok (Sign.ofReal (q.overReal.eval x), l') := by
  by_cases hsearch : l.point? = none ∧ ¬l.isRootOf q = true
  · obtain ⟨hp, hr⟩ := hsearch
    have hq := h.not_isZero_of_not_isRootOf hr
    obtain ⟨δ, hpos, hδ⟩ := exists_no_root_near ((h.isRootOf_iff q).not.1 hr)
    obtain ⟨N, hN⟩ := exists_le_mul_two_pow l.spread hpos
    rcases Locates.signLoop_eq hq (N + 1) h with he | ⟨l', n, he, hnar⟩
    · exact absurd he (Locates.signLoop_ne_exhausted hq hpos hδ N h hN)
    · refine ⟨l', n, N + 1, hnar, fun rounds hge => ?_⟩
      rw [sign_of_search hp hr]
      induction rounds, hge using Nat.le_induction with
      | base => exact he
      | succ rounds _ ih => exact signLoop_succ ih
  · exact ⟨l, 0, 0, .refl l, fun rounds _ => h.sign_of_known hsearch rounds⟩

/-- A root that is not zero has the sign of its interval, once zero is avoided. -/
theorem Locates.sign?_interval (h : l.Locates x) (hx : x ≠ 0)
    (h0 : l.interval.contains 0 = false) : l.interval.sign? = some (Sign.ofReal x) := by
  cases hp : l.point? with
  | some v =>
    have hv := h.eq_point hp
    rw [Interval.eq_point_of_point? hp, hv, Sign.ofReal_ratCast]
    have hv0 : v ≠ 0 := by
      rintro rfl
      exact hx (hv.trans Rat.cast_zero)
    unfold Interval.sign? Interval.isZero Interval.isPositive Interval.isNegative Sign.ofRat
    rw [Interval.point?_point, if_neg hv0]
    simp only [Option.some.injEq, hv0, decide_false, Bool.false_eq_true, if_false, Interval.point,
      decide_eq_true_eq]
    split
    next => rfl
    next hn => rw [if_pos (lt_of_le_of_ne (not_lt.1 hn) hv0)]
  | none =>
    obtain ⟨a, b, hab, hi, hax, hxb⟩ := h.exists_between hp
    rw [hi] at h0 ⊢
    -- zero is outside, so the open interval lies to one side of it
    have hout : ¬(a < 0 ∧ 0 < b) := by
      intro hc
      rw [Bool.eq_false_iff, ne_eq, Interval.contains_iff_mem_reals] at h0
      exact h0 ⟨Rat.cast_lt.2 hc.1, Rat.cast_lt.2 hc.2⟩
    unfold Interval.sign? Interval.isZero Interval.isPositive Interval.isNegative
    rw [Interval.point?_between]
    simp only [reduceCtorEq, decide_false, Bool.false_eq_true, if_false, Interval.between,
      decide_eq_true_eq]
    by_cases ha : 0 ≤ a
    · rw [if_pos ha, Sign.ofReal_of_pos (lt_of_le_of_lt (by exact_mod_cast ha) hax)]
    · have hb : b ≤ 0 := not_lt.1 fun hb => hout ⟨not_le.1 ha, hb⟩
      rw [if_neg ha, if_pos hb, Sign.ofReal_of_neg (lt_of_lt_of_le hxb (by exact_mod_cast hb))]

/-- The sign of the root itself takes no search. -/
theorem Locates.signOfRoot_eq (h : l.Locates x) :
    ∃ l' n, l.signOfRoot = .ok (Sign.ofReal x, l') ∧ Narrows n l l' := by
  obtain ⟨l', n, he, hnar, h0⟩ := h.avoid_eq 0
  refine ⟨l', n, ?_, hnar⟩
  unfold signOfRoot
  rw [he]
  rw [Rat.cast_zero] at h0 ⊢
  by_cases hx : x = 0
  · rw [hx, Sign.ofReal_eq_zero_iff.2 rfl]
    simp [bind, Except.bind, pure, Except.pure]
  · have hs := (hnar.locates h).sign?_interval hx (h0 hx)
    simp [bind, Except.bind, pure, Except.pure, hx, hs]

/-- Signs of several polynomials, one after the other. -/
theorem Locates.signs_eq (rounds : ℕ) : ∀ (qs : List UniPoly) {l : Locator}, l.Locates x →
    l.signs rounds qs = .error .exhausted ∨
      ∃ l' n, l.signs rounds qs = .ok (qs.map fun q => Sign.ofReal (q.overReal.eval x), l') ∧
        Narrows n l l'
  | [], l, _ => .inr ⟨l, 0, rfl, .refl l⟩
  | q :: qs, l, h => by
    rw [signs]
    rcases h.sign_eq q rounds with he | ⟨m, n, he, hnar⟩
    · rw [he]
      exact .inl rfl
    · rw [he]
      simp only [bind, Except.bind]
      rcases Locates.signs_eq rounds qs (hnar.locates h) with he' | ⟨l', k, he', hnar'⟩
      · left
        rw [he']
      · right
        refine ⟨l', n + k, ?_, hnar.trans hnar'⟩
        rw [he']
        rfl

theorem Locates.exists_signs : ∀ (qs : List UniPoly) {l : Locator}, l.Locates x →
    ∃ l' n N, Narrows n l l' ∧ ∀ rounds ≥ N,
      l.signs rounds qs = .ok (qs.map fun q => Sign.ofReal (q.overReal.eval x), l')
  | [], l, _ => ⟨l, 0, 0, .refl l, fun _ _ => rfl⟩
  | q :: qs, l, h => by
    obtain ⟨m, n, N, hnar, he⟩ := h.exists_sign q
    obtain ⟨l', k, N', hnar', he'⟩ := Locates.exists_signs qs (hnar.locates h)
    refine ⟨l', n + k, max N N', hnar.trans hnar', fun rounds hge => ?_⟩
    rw [signs, he rounds (le_of_max_le_left hge)]
    simp only [bind, Except.bind, he' rounds (le_of_max_le_right hge)]
    rfl

end Locator

end AlgebraicReal
