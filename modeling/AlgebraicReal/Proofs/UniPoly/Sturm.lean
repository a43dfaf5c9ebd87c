import AlgebraicReal.Proofs.UniPoly.Division
import AlgebraicReal.UniPoly.Sturm

/-!
# Sturm's theorem

Counting real roots by sign variations is exact: `rootsIn` on a Sturm chain is the number of
distinct real roots in the interval (`countRoots_eq_ncard`).

The proof looks at one function of a real argument, the sign variations of the chain plus the number
of roots up to that argument, and shows that it is locally constant (`variations_add_rootCount`).
Away from the roots of the first member the variations do not change: a later member that vanishes
stands between two members of opposite signs (`Interlaced`), and such a triple has one variation
whatever the sign in the middle is. At a root of the first member, which is simple, the variation
between it and its derivative is lost and the root is counted.
-/

open Polynomial Filter Topology

namespace AlgebraicReal

/-! ## Sign variations -/

namespace Sign

variable {s t : Sign}

theorem neg_ne_zero (hs : s ≠ zero) : s.neg ≠ zero := by
  cases s <;> simp_all [neg]

theorem ne_neg (hs : s ≠ zero) : s ≠ s.neg := by
  cases s <;> simp_all [neg]

theorem eq_or_eq_neg (hs : s ≠ zero) (ht : t ≠ zero) : t = s ∨ t = s.neg := by
  cases s <;> cases t <;> simp_all [neg]

end Sign

namespace UniPoly

theorem variations_cons_cons {s t : Sign} (hs : s ≠ .zero) (ht : t ≠ .zero) (l : List Sign) :
    variations (s :: t :: l) = (if s = t then 0 else 1) + variations (t :: l) := by
  unfold variations
  have e : ∀ {u : Sign} (m : List Sign), u ≠ .zero →
      (u :: m).filter (· ≠ .zero) = u :: m.filter (· ≠ .zero) := fun m hu =>
    List.filter_cons_of_pos (by simpa using hu)
  rw [e _ hs, e _ ht]
  rfl

theorem variations_singleton (s : Sign) : variations [s] = 0 := by cases s <;> rfl

/-- Between opposite signs there is one variation, whatever stands in the middle. -/
theorem variations_opposite {s : Sign} (hs : s ≠ .zero) (t : Sign) (l : List Sign) :
    variations (s :: t :: s.neg :: l) = 1 + variations (s.neg :: l) := by
  have hn := Sign.neg_ne_zero hs
  have hne := Sign.ne_neg hs
  have hzero : variations (s :: .zero :: s.neg :: l) = variations (s :: s.neg :: l) := by
    unfold variations
    rw [List.filter_cons_of_pos (by simpa using hs), List.filter_cons_of_neg (by simp),
      List.filter_cons_of_pos (l := s.neg :: l) (by simpa using hs)]
  rcases eq_or_ne t .zero with rfl | ht
  · rw [hzero, variations_cons_cons hs hn, if_neg hne]
  · rw [variations_cons_cons hs ht, variations_cons_cons ht hn]
    rcases Sign.eq_or_eq_neg hs ht with rfl | rfl
    · rw [if_pos rfl, if_neg hne, zero_add]
    · rw [if_neg hne, if_pos rfl, zero_add]

end UniPoly

/-! ## Chains of real polynomials -/

/-- The sign variations of a list of real polynomials at a real. -/
noncomputable def variationsOver (chain : List ℝ[X]) (x : ℝ) : ℕ :=
  UniPoly.variations (chain.map fun p => Sign.ofReal (p.eval x))

/-- The last member vanishes nowhere, and where another member but the first one vanishes its
neighbours have opposite signs. -/
def Interlaced : List ℝ[X] → Prop
  | [] => False
  | [f] => ∀ x, f.eval x ≠ 0
  | [_, g] => ∀ x, g.eval x ≠ 0
  | f :: g :: h :: l => (∀ x, g.eval x = 0 → f.eval x * h.eval x < 0) ∧ Interlaced (g :: h :: l)

theorem Interlaced.tail {f g : ℝ[X]} {l : List ℝ[X]} (h : Interlaced (f :: g :: l)) :
    Interlaced (g :: l) := by
  cases l with
  | nil => exact h
  | cons k l => exact h.2

/-- The sign of a polynomial that does not vanish at a point is the same nearby. -/
theorem eventually_sign_eq {p : ℝ[X]} {a : ℝ} (h : p.eval a ≠ 0) :
    ∀ᶠ x in 𝓝 a, Sign.ofReal (p.eval x) = Sign.ofReal (p.eval a) := by
  have hcont : ContinuousAt (fun x => p.eval x) a := p.continuous.continuousAt
  rcases lt_or_gt_of_ne h with hneg | hpos
  · filter_upwards [hcont.eventually_lt_const hneg] with x hx
    rw [Sign.ofReal_of_neg hx, Sign.ofReal_of_neg hneg]
  · filter_upwards [hcont.eventually_const_lt hpos] with x hx
    rw [Sign.ofReal_of_pos hx, Sign.ofReal_of_pos hpos]

/-- Near a point at which the first member does not vanish the variations do not change. The
induction goes down the chain by one member if the second one does not vanish either, and by two if
it does. -/
theorem Interlaced.eventually_variationsOver_eq {a : ℝ} : ∀ {f : ℝ[X]} {l : List ℝ[X]},
    Interlaced (f :: l) → f.eval a ≠ 0 →
      ∀ᶠ x in 𝓝 a, variationsOver (f :: l) x = variationsOver (f :: l) a
  | f, [], _, _ => Eventually.of_forall fun x => by
    rw [variationsOver, variationsOver, List.map_singleton, List.map_singleton,
      UniPoly.variations_singleton, UniPoly.variations_singleton]
  | f, g :: l, hl, hf => by
    have hfs : Sign.ofReal (f.eval a) ≠ .zero := fun e => hf (Sign.ofReal_eq_zero_iff.1 e)
    by_cases hg : g.eval a = 0
    · -- the vanishing member is not the last one
      cases l with
      | nil => exact absurd hg (hl a)
      | cons k l =>
        have hfk : f.eval a * k.eval a < 0 := hl.1 a hg
        have hk : k.eval a ≠ 0 := fun e => by rw [e, mul_zero] at hfk; exact lt_irrefl 0 hfk
        have hks : Sign.ofReal (k.eval a) = (Sign.ofReal (f.eval a)).neg := by
          rcases mul_neg_iff.1 hfk with ⟨h₁, h₂⟩ | ⟨h₁, h₂⟩
          · rw [Sign.ofReal_of_pos h₁, Sign.ofReal_of_neg h₂]
            rfl
          · rw [Sign.ofReal_of_neg h₁, Sign.ofReal_of_pos h₂]
            rfl
        have ih := hl.tail.tail.eventually_variationsOver_eq hk
        filter_upwards [eventually_sign_eq hf, eventually_sign_eq hk, ih] with x h₁ h₂ h₃
        unfold variationsOver at h₃ ⊢
        simp only [List.map_cons] at h₃ ⊢
        rw [h₂, hks] at h₃
        rw [h₁, h₂, hks, UniPoly.variations_opposite hfs, UniPoly.variations_opposite hfs, h₃]
    · -- neither of the first two vanishes, so both keep their signs
      have hgs : Sign.ofReal (g.eval a) ≠ .zero := fun e => hg (Sign.ofReal_eq_zero_iff.1 e)
      have ih := hl.tail.eventually_variationsOver_eq hg
      filter_upwards [eventually_sign_eq hf, eventually_sign_eq hg, ih] with x h₁ h₂ h₃
      unfold variationsOver at h₃ ⊢
      simp only [List.map_cons] at h₃ ⊢
      rw [h₂] at h₃
      rw [h₁, h₂, UniPoly.variations_cons_cons hfs hgs, UniPoly.variations_cons_cons hfs hgs, h₃]

/-! ## Counting the roots of a real polynomial -/

/-- The number of distinct roots with a property. -/
noncomputable def rootCount (f : ℝ[X]) (P : ℝ → Prop) : ℕ := {y | f.IsRoot y ∧ P y}.ncard

theorem finite_roots_with {f : ℝ[X]} (hf : f ≠ 0) (P : ℝ → Prop) :
    {y | f.IsRoot y ∧ P y}.Finite :=
  f.roots.toFinset.finite_toSet.subset fun _ hy =>
    Multiset.mem_toFinset.2 ((mem_roots hf).2 hy.1)

theorem rootCount_congr {f : ℝ[X]} {P Q : ℝ → Prop} (h : ∀ y, f.IsRoot y → (P y ↔ Q y)) :
    rootCount f P = rootCount f Q := by
  unfold rootCount
  congr 1
  ext y
  exact and_congr_right (h y)

theorem rootCount_eq_zero {f : ℝ[X]} {P : ℝ → Prop} (h : ∀ y, f.IsRoot y → ¬P y) :
    rootCount f P = 0 := by
  have hempty : {y | f.IsRoot y ∧ P y} = ∅ :=
    Set.eq_empty_of_forall_notMem fun y hy => h y hy.1 hy.2
  unfold rootCount
  rw [hempty, Set.ncard_empty]

/-- Exclusive properties are counted apart. -/
theorem rootCount_or {f : ℝ[X]} (hf : f ≠ 0) {P Q : ℝ → Prop} (h : ∀ y, P y → ¬Q y) :
    rootCount f (fun y => P y ∨ Q y) = rootCount f P + rootCount f Q := by
  unfold rootCount
  rw [← Set.ncard_union_eq _ (finite_roots_with hf P) (finite_roots_with hf Q)]
  · congr 1
    ext y
    exact and_or_left
  · exact Set.disjoint_left.2 fun y hp hq => h y hp.2 hq.2

theorem rootCount_eq (f : ℝ[X]) (c : ℝ) [Decidable (f.IsRoot c)] :
    rootCount f (· = c) = if f.IsRoot c then 1 else 0 := by
  unfold rootCount
  split
  next h =>
    rw [Set.ncard_eq_one]
    refine ⟨c, Set.ext fun y => ?_⟩
    exact ⟨fun hy => hy.2, fun hy => ⟨hy ▸ h, hy⟩⟩
  next h => exact rootCount_eq_zero fun y hy hyc => h (hyc ▸ hy)

/-- Near a point all other roots stay on their side. -/
theorem eventually_root_le_iff {f : ℝ[X]} (hf : f ≠ 0) (a : ℝ) :
    ∀ᶠ x in 𝓝 a, ∀ y, f.IsRoot y → y ≠ a → (y ≤ x ↔ y ≤ a) := by
  have hall : ∀ᶠ x in 𝓝 a, ∀ y ∈ f.roots.toFinset, y ≠ a → (y ≤ x ↔ y ≤ a) := by
    rw [Filter.eventually_all_finset]
    intro y _
    rcases lt_trichotomy y a with h | rfl | h
    · filter_upwards [eventually_gt_nhds h] with x hx _
      exact iff_of_true hx.le h.le
    · exact Eventually.of_forall fun _ hne => absurd rfl hne
    · filter_upwards [eventually_lt_nhds h] with x hx _
      exact iff_of_false (not_le.2 hx) (not_le.2 h)
  filter_upwards [hall] with x hx y hy
  exact hx y (Multiset.mem_toFinset.2 ((mem_roots hf).2 hy))

theorem eventually_rootCount_le_eq {f : ℝ[X]} (hf : f ≠ 0) {a : ℝ} (h : f.eval a ≠ 0) :
    ∀ᶠ x in 𝓝 a, rootCount f (· ≤ x) = rootCount f (· ≤ a) := by
  filter_upwards [eventually_root_le_iff hf a] with x hx
  refine rootCount_congr fun y hy => hx y hy ?_
  rintro rfl
  exact h hy

/-- A root is counted from itself on. -/
theorem eventually_rootCount_le_add {f : ℝ[X]} (hf : f ≠ 0) {a : ℝ} (h : f.eval a = 0) :
    ∀ᶠ x in 𝓝 a, rootCount f (· ≤ a) = rootCount f (· ≤ x) + if a ≤ x then 0 else 1 := by
  classical
  filter_upwards [eventually_root_le_iff hf a] with x hx
  split
  next hax =>
    rw [add_zero]
    refine rootCount_congr fun y hy => ?_
    by_cases hya : y = a
    · rw [hya]
      exact iff_of_true le_rfl hax
    · exact (hx y hy hya).symm
  next hax =>
    have hroot : f.IsRoot a := h
    have hone : rootCount f (· = a) = 1 := by rw [rootCount_eq, if_pos hroot]
    have hdisj : ∀ y, y ≤ x → ¬y = a := fun y hy hya => hax (hya ▸ hy)
    rw [← hone, ← rootCount_or hf hdisj]
    refine rootCount_congr fun y hy => ?_
    by_cases hya : y = a
    · rw [hya]
      exact iff_of_true le_rfl (Or.inr rfl)
    · rw [or_iff_left hya]
      exact (hx y hy hya).symm

/-- Near a simple root the signs of a polynomial and its derivative agree above the root and differ
below it. -/
theorem eventually_sign_near_root {f : ℝ[X]} {a : ℝ} (h : f.eval a = 0)
    (hd : (derivative f).eval a ≠ 0) :
    ∀ᶠ x in 𝓝 a, (a < x → Sign.ofReal (f.eval x) = Sign.ofReal ((derivative f).eval a)) ∧
      (x < a → Sign.ofReal (f.eval x) = (Sign.ofReal ((derivative f).eval a)).neg) := by
  obtain ⟨g, rfl⟩ : X - C a ∣ f := dvd_iff_isRoot.2 h
  have hga : (derivative ((X - C a) * g)).eval a = g.eval a := by
    simp [derivative_mul]
  rw [hga] at hd ⊢
  filter_upwards [eventually_sign_eq hd] with x hx
  have hev : ((X - C a) * g).eval x = (x - a) * g.eval x := by simp
  rw [hev]
  constructor
  · intro hlt
    rw [Sign.ofReal_mul_of_pos (sub_pos.2 hlt), hx]
  · intro hlt
    have hswap : (x - a) * g.eval x = -((a - x) * g.eval x) := by ring
    rw [hswap, Sign.ofReal_neg, Sign.ofReal_mul_of_pos (sub_pos.2 hlt), hx]

/-- At a simple root of the first member a variation is lost. -/
theorem eventually_variationsOver_add {f : ℝ[X]} {l : List ℝ[X]} {a : ℝ}
    (hl : Interlaced (f :: derivative f :: l)) (h : f.eval a = 0)
    (hd : (derivative f).eval a ≠ 0) :
    ∀ᶠ x in 𝓝 a, variationsOver (f :: derivative f :: l) x
      = variationsOver (f :: derivative f :: l) a + if a ≤ x then 0 else 1 := by
  have hds : Sign.ofReal ((derivative f).eval a) ≠ .zero :=
    fun e => hd (Sign.ofReal_eq_zero_iff.1 e)
  have hat : variationsOver (f :: derivative f :: l) a = variationsOver (derivative f :: l) a := by
    unfold variationsOver
    rw [List.map_cons, h, Sign.ofReal_eq_zero_iff.2 rfl]
    rfl
  -- the chain without its first member has the same variations nearby
  filter_upwards [eventually_sign_near_root h hd, eventually_sign_eq hd,
    hl.tail.eventually_variationsOver_eq hd] with x hside hsign htail
  rcases lt_trichotomy x a with hx | rfl | hx
  · -- below the root the first two signs differ
    rw [if_neg (not_le.2 hx), hat, ← htail]
    unfold variationsOver
    simp only [List.map_cons]
    rw [hside.2 hx, hsign, UniPoly.variations_cons_cons (Sign.neg_ne_zero hds) hds,
      if_neg (Sign.ne_neg hds).symm, add_comm]
  · rw [if_pos le_rfl, add_zero]
  · rw [if_pos hx.le, add_zero, hat, ← htail]
    unfold variationsOver
    simp only [List.map_cons]
    rw [hside.1 hx, hsign, UniPoly.variations_cons_cons hds hds, if_pos rfl, zero_add]

/-- Sturm's theorem: from one real to the next a chain that starts with a polynomial and its
derivative loses as many variations as there are roots between them. -/
theorem variations_add_rootCount {f : ℝ[X]} {l : List ℝ[X]}
    (hl : Interlaced (f :: derivative f :: l)) (hsimple : ∀ x, f.eval x = 0 →
      (derivative f).eval x ≠ 0) (a b : ℝ) :
    variationsOver (f :: derivative f :: l) a + rootCount f (· ≤ a)
      = variationsOver (f :: derivative f :: l) b + rootCount f (· ≤ b) := by
  have hf : f ≠ 0 := by
    rintro rfl
    exact hsimple 0 (by simp) (by simp)
  have hloc : IsLocallyConstant fun x =>
      variationsOver (f :: derivative f :: l) x + rootCount f (· ≤ x) := by
    rw [IsLocallyConstant.iff_eventually_eq]
    intro c
    by_cases hc : f.eval c = 0
    · -- the variation that is lost there is the root that is counted from there on
      filter_upwards [eventually_rootCount_le_add hf hc,
        eventually_variationsOver_add hl hc (hsimple c hc)] with x h₁ h₂
      rw [h₁, h₂]
      omega
    · filter_upwards [hl.eventually_variationsOver_eq hc, eventually_rootCount_le_eq hf hc] with
        x h₁ h₂
      rw [h₁, h₂]
  exact hloc.apply_eq_of_preconnectedSpace a b

namespace UniPoly

/-! ## The chain of a polynomial is interlaced -/

/-- Polynomials without a common divisor have no common real root. -/
theorem eval_ne_zero_of_isCoprime {p q : UniPoly} (h : IsCoprime p.toPolynomial q.toPolynomial)
    {x : ℝ} (hq : q.overReal.eval x = 0) : p.overReal.eval x ≠ 0 := by
  intro hp
  obtain ⟨u, v, huv⟩ := h.map (mapRingHom (algebraMap ℚ ℝ))
  have heval := congrArg (Polynomial.eval x) huv
  rw [eval_add, eval_mul, eval_mul] at heval
  unfold overReal at hp hq
  rw [coe_mapRingHom, hp, hq, mul_zero, mul_zero, add_zero, eval_one] at heval
  exact zero_ne_one heval

theorem sturmTail_of_isZero {a b : UniPoly} (h : b.isZero = true) : sturmTail a b = [] := by
  rw [sturmTail, dif_pos h]

theorem sturmTail_of_not_isZero {a b : UniPoly} (h : ¬b.isZero = true) :
    sturmTail a b
      = b :: sturmTail b ((a.remainder b).scale (-(a.remainder b).leadingCoeff.abs⁻¹)) := by
  rw [sturmTail, dif_neg h]

theorem isZero_scale_iff {p : UniPoly} {c : ℚ} (hc : c ≠ 0) :
    (p.scale c).isZero = true ↔ p.isZero = true := by
  rw [← toPolynomial_eq_zero_iff, ← toPolynomial_eq_zero_iff, toPolynomial_scale, mul_eq_zero,
    or_iff_right (C_ne_zero.2 hc)]

theorem isCoprime_scale_iff {p : UniPoly} {f : ℚ[X]} {c : ℚ} (hc : c ≠ 0) :
    IsCoprime f (p.scale c).toPolynomial ↔ IsCoprime f p.toPolynomial := by
  rw [toPolynomial_scale]
  exact isCoprime_mul_unit_left_right (isUnit_C.2 (isUnit_iff_ne_zero.2 hc)) _ _

/-- The factor by which a remainder is rescaled. -/
theorem neg_inv_abs_leadingCoeff_neg {p : UniPoly} (hp : ¬p.isZero = true) :
    -p.leadingCoeff.abs⁻¹ < 0 := by
  have hlead : p.leadingCoeff ≠ 0 := by
    rw [← leadingCoeff_toPolynomial]
    exact leadingCoeff_ne_zero.2 (toPolynomial_ne_zero_iff.2 hp)
  rw [Rational.abs_eq_abs]
  exact neg_lt_zero.2 (inv_pos.2 (abs_pos.2 hlead))

/-- The chain goes on from a pair without common divisors to another such pair, and the rescaled
remainder has the sign opposite to the one that the first of the pair has where the second vanishes.
-/
theorem interlaced_sturmTail (a b : UniPoly) (hb : ¬b.isZero = true)
    (hcop : IsCoprime a.toPolynomial b.toPolynomial) :
    Interlaced ((a :: sturmTail a b).map overReal) := by
  induction a, b using sturmTail.induct with
  | case1 a b hz => exact absurd hz hb
  | case2 a b _ r ih =>
    rw [sturmTail_of_not_isZero hb]
    have heq := toPolynomial_eq_quotient_mul_add a hb
    have hcr : IsCoprime b.toPolynomial r.toPolynomial := by
      have h' := hcop.symm
      rw [heq] at h'
      exact (IsCoprime.mul_add_left_right_iff).1 (by rwa [mul_comm] at h')
    by_cases hr : r.isZero = true
    · -- the last member divides the one before it, so it is a nonzero constant
      have hr' : (r.scale (-r.leadingCoeff.abs⁻¹)).isZero = true := by
        rw [← toPolynomial_eq_zero_iff] at hr ⊢
        rw [toPolynomial_scale, hr, mul_zero]
      rw [sturmTail_of_isZero hr']
      rw [toPolynomial_eq_zero_iff.2 hr, isCoprime_zero_right] at hcr
      intro x hx
      have hunit : IsUnit b.overReal := hcr.map (mapRingHom (algebraMap ℚ ℝ))
      exact (hunit.map (evalRingHom x)).ne_zero hx
    · -- where `b` vanishes, the next member has the sign of the negated remainder, that is of `-a`
      have hk := neg_inv_abs_leadingCoeff_neg hr
      have hr' := (isZero_scale_iff hk.ne).not.2 hr
      have hnext := ih hr' ((isCoprime_scale_iff hk.ne).2 hcr)
      rw [sturmTail_of_not_isZero hr'] at hnext ⊢
      refine ⟨fun x hx => ?_, hnext⟩
      have hax : a.overReal.eval x = r.overReal.eval x := by
        unfold overReal at hx ⊢
        rw [heq, Polynomial.map_add, Polynomial.map_mul, eval_add, eval_mul, hx, mul_zero, zero_add]
      have hrx : r.overReal.eval x ≠ 0 := eval_ne_zero_of_isCoprime hcr.symm hx
      rw [hax, overReal_scale, eval_mul, eval_C]
      have hneg : ((-r.leadingCoeff.abs⁻¹ : ℚ) : ℝ) < 0 := Rat.cast_lt_zero.2 hk
      nlinarith [mul_self_pos.2 hrx]

/-- The derivative of a polynomial of positive degree is not zero. -/
theorem derivative_not_isZero {p : UniPoly} (h : ¬p.isConstant = true) :
    ¬p.derivative.isZero = true := by
  rw [← toPolynomial_eq_zero_iff, toPolynomial_derivative]
  intro h0
  exact h (isConstant_iff_natDegree.2 (derivative_eq_zero.1 h0))

/-- No real is a root of a square-free part and of its derivative. -/
theorem eval_derivative_squareFree_ne_zero {p : UniPoly} (h : p.toPolynomial ≠ 0) {x : ℝ}
    (hx : p.squareFree.overReal.eval x = 0) :
    (Polynomial.derivative p.squareFree.overReal).eval x ≠ 0 := by
  rw [← overReal_derivative]
  refine eval_ne_zero_of_isCoprime ?_ hx
  rw [toPolynomial_derivative]
  exact (separable_squareFree h).symm

/-! ## Signs at the ends -/

theorem ofReal_eval_overReal (p : UniPoly) (q : ℚ) :
    Sign.ofReal (p.overReal.eval (q : ℝ)) = p.signAt q := by
  rw [eval_overReal, Sign.ofReal_ratCast]
  rfl

theorem variationsAt_eq (chain : List UniPoly) (q : ℚ) :
    variationsAt chain q = variationsOver (chain.map overReal) q := by
  unfold variationsAt variationsOver
  rw [List.map_map]
  congr 1
  exact List.map_congr_left fun p _ => (ofReal_eval_overReal p q).symm

/-- At large arguments a polynomial has the sign of its leading coefficient. -/
theorem eventually_sign_atTop (f : ℝ[X]) :
    ∀ᶠ x in atTop, Sign.ofReal (f.eval x) = Sign.ofReal f.leadingCoeff := by
  by_cases hdeg : f.degree ≤ 0
  · refine Eventually.of_forall fun x => ?_
    rw [eq_C_of_degree_le_zero hdeg, eval_C, leadingCoeff_C]
  · push Not at hdeg
    have hne : f.leadingCoeff ≠ 0 := leadingCoeff_ne_zero.2 (ne_zero_of_degree_gt hdeg)
    rcases lt_or_gt_of_ne hne with hneg | hpos
    · filter_upwards [(tendsto_atBot_of_leadingCoeff_nonpos f hdeg hneg.le).eventually_lt_atBot 0]
        with x hx
      rw [Sign.ofReal_of_neg hx, Sign.ofReal_of_neg hneg]
    · filter_upwards [(tendsto_atTop_of_leadingCoeff_nonneg f hdeg hpos.le).eventually_gt_atTop 0]
        with x hx
      rw [Sign.ofReal_of_pos hx, Sign.ofReal_of_pos hpos]

theorem leadingCoeff_overReal (p : UniPoly) : p.overReal.leadingCoeff = (p.leadingCoeff : ℚ) := by
  unfold overReal
  rw [leadingCoeff_map, leadingCoeff_toPolynomial]
  rfl

theorem natDegree_overReal (p : UniPoly) : p.overReal.natDegree = p.degree := by
  unfold overReal
  rw [natDegree_map, natDegree_toPolynomial]

theorem eventually_signAtTop (p : UniPoly) :
    ∀ᶠ x in atTop, Sign.ofReal (p.overReal.eval x) = p.signAtTop := by
  filter_upwards [eventually_sign_atTop p.overReal] with x hx
  rw [hx, leadingCoeff_overReal, Sign.ofReal_ratCast]
  rfl

/-- At small arguments an odd degree changes the sign of the leading coefficient. -/
theorem eventually_signAtBottom (p : UniPoly) :
    ∀ᶠ x in atBot, Sign.ofReal (p.overReal.eval x) = p.signAtBottom := by
  have hlc : (p.overReal.comp (-X)).leadingCoeff = (p.leadingCoeff : ℚ) * (-1) ^ p.degree := by
    rw [leadingCoeff_comp (by simp), leadingCoeff_overReal, natDegree_overReal]
    simp
  have hsign : Sign.ofReal ((p.leadingCoeff : ℚ) * (-1) ^ p.degree) = p.signAtBottom := by
    unfold signAtBottom signAtTop
    split
    next h =>
      rw [Even.neg_one_pow (Nat.even_iff.2 h), mul_one, Sign.ofReal_ratCast]
    next h =>
      rw [Odd.neg_one_pow (Nat.odd_iff.2 (by omega)), mul_neg_one, Sign.ofReal_neg,
        Sign.ofReal_ratCast]
  have htop := eventually_sign_atTop (p.overReal.comp (-X))
  filter_upwards [tendsto_neg_atBot_atTop.eventually htop] with x hx
  rw [hlc, hsign, eval_comp] at hx
  simpa using hx

theorem eventually_map_sign {F : Filter ℝ} (chain : List UniPoly) {sign : UniPoly → Sign}
    (h : ∀ p : UniPoly, ∀ᶠ x in F, Sign.ofReal (p.overReal.eval x) = sign p) :
    ∀ᶠ x in F, variationsOver (chain.map overReal) x = variations (chain.map sign) := by
  have hmap : ∀ᶠ x in F, (chain.map overReal).map (fun f => Sign.ofReal (f.eval x))
      = chain.map sign := by
    induction chain with
    | nil => exact Eventually.of_forall fun _ => rfl
    | cons p chain ih =>
      filter_upwards [h p, ih] with x h₁ h₂
      rw [List.map_cons, List.map_cons, List.map_cons, h₁, h₂]
  filter_upwards [hmap] with x hx
  unfold variationsOver
  rw [hx]

end UniPoly

/-! ## Counting roots -/

namespace Bound

/-- The same end, excluded. -/
def excluding : Bound → Bound
  | .infinite => .infinite
  | .strict a => .strict a
  | .weak a => .strict a

/-- The same end, included. -/
def including : Bound → Bound
  | .infinite => .infinite
  | .strict a => .weak a
  | .weak a => .weak a

end Bound

namespace UniPoly

/-- The set of real roots. -/
def realRoots (p : UniPoly) : Set ℝ := {x | p.overReal.IsRoot x}

variable {f : ℝ[X]} {chain : List UniPoly} {total : ℕ}

/-- `total` is the constant of Sturm's theorem for a chain. -/
def SturmTotal (f : ℝ[X]) (chain : List UniPoly) (total : ℕ) : Prop :=
  ∀ x, variationsOver (chain.map overReal) x + rootCount f (· ≤ x) = total

theorem SturmTotal.add_not_below (hf : f ≠ 0) (h : SturmTotal f chain total) (lower : Bound) :
    variationsAtLower chain lower + rootCount f (fun y => ¬lower.excluding.Below y) = total := by
  have hfin : ∀ a : ℚ, variationsAt chain a + rootCount f (fun y => ¬(a : ℝ) < y) = total :=
    fun a => by
      rw [variationsAt_eq, ← h a]
      simp only [not_lt]
  cases lower with
  | infinite =>
    have hbot : ∀ᶠ x in atBot, ∀ y ∈ f.roots.toFinset, x < y := by
      rw [Filter.eventually_all_finset]
      exact fun y _ => eventually_lt_atBot y
    -- far enough to the left the signs no longer change and no root is lower
    obtain ⟨x, h₁, h₂⟩ :=
      ((eventually_map_sign chain eventually_signAtBottom).and hbot).exists
    have htotal := h x
    rw [rootCount_eq_zero fun y hy =>
        not_le.2 (h₂ y (Multiset.mem_toFinset.2 ((mem_roots hf).2 hy))),
      h₁] at htotal
    have hzero : rootCount f (fun y => ¬(Bound.excluding .infinite).Below y) = 0 :=
      rootCount_eq_zero fun y _ => not_not.2 trivial
    rw [hzero]
    exact htotal
  | strict a => exact hfin a
  | weak a => exact hfin a

theorem SturmTotal.add_above (hf : f ≠ 0) (h : SturmTotal f chain total) (upper : Bound) :
    variationsAtUpper chain upper + rootCount f (fun y => upper.including.Above y) = total := by
  have hfin : ∀ b : ℚ, variationsAt chain b + rootCount f (· ≤ (b : ℝ)) = total := fun b => by
    rw [variationsAt_eq, ← h b]
  cases upper with
  | infinite =>
    have htop : ∀ᶠ x in atTop, ∀ y ∈ f.roots.toFinset, y ≤ x := by
      rw [Filter.eventually_all_finset]
      exact fun y _ => eventually_ge_atTop y
    obtain ⟨x, h₁, h₂⟩ :=
      ((eventually_map_sign chain eventually_signAtTop).and htop).exists
    have htotal := h x
    rw [h₁, rootCount_congr (Q := fun y => (Bound.including .infinite).Above y) fun y hy =>
      iff_of_true (h₂ y (Multiset.mem_toFinset.2 ((mem_roots hf).2 hy))) trivial] at htotal
    exact htotal
  | strict b => exact hfin b
  | weak b => exact hfin b

/-- The variations lost between the ends of an interval count the roots above the lower end and up
to the upper one. -/
theorem SturmTotal.variations_lost (hf : f ≠ 0) (h : SturmTotal f chain total) (i : Interval) :
    variationsAtLower chain i.lower - variationsAtUpper chain i.upper
      = rootCount f (fun y => i.lower.excluding.Below y ∧ i.upper.including.Above y) := by
  have hlower := h.add_not_below hf i.lower
  have hupper := h.add_above hf i.upper
  -- what is not above the lower end is below the upper end
  have himp : ∀ y, ¬i.lower.excluding.Below y → i.upper.including.Above y := by
    obtain ⟨lower, upper, room⟩ := i
    intro y hy
    cases lower <;> cases upper <;>
      simp only [Bound.excluding, Bound.including, Bound.Below, Bound.Above, not_lt,
        not_true_eq_false] at hy ⊢
    · exact hy.trans (Rat.cast_le.2 (of_decide_eq_true room).le)
    · exact hy.trans (Rat.cast_le.2 (of_decide_eq_true room).le)
    · exact hy.trans (Rat.cast_le.2 (of_decide_eq_true room).le)
    · exact hy.trans (Rat.cast_le.2 (of_decide_eq_true room))
  have hsplit : rootCount f (fun y => i.upper.including.Above y)
      = rootCount f (fun y => ¬i.lower.excluding.Below y)
        + rootCount f (fun y => i.lower.excluding.Below y ∧ i.upper.including.Above y) := by
    rw [← rootCount_or hf fun y hy hy' => hy hy'.1]
    refine rootCount_congr fun y _ => ⟨fun hy => ?_, fun hy => hy.elim (himp y) And.right⟩
    by_cases hb : i.lower.excluding.Below y
    · exact Or.inr ⟨hb, hy⟩
    · exact Or.inl hb
  omega

/-- An included lower end counts if it is a root. -/
theorem rootCount_weak_lower (hf : f ≠ 0) {P : ℝ → Prop} {a : ℝ} (ha : P a)
    [Decidable (f.IsRoot a)] :
    rootCount f (fun y => a ≤ y ∧ P y)
      = rootCount f (fun y => a < y ∧ P y) + if f.IsRoot a then 1 else 0 := by
  have hdisj : ∀ y, a < y ∧ P y → ¬y = a := fun y hy hya => hy.1.ne' hya
  rw [← rootCount_eq, ← rootCount_or hf hdisj]
  refine rootCount_congr fun y _ => ?_
  rw [le_iff_lt_or_eq, or_and_right, eq_comm]
  exact or_congr_right (and_iff_left_of_imp fun e => e ▸ ha)

/-- An excluded upper end is counted too much if it is a root. -/
theorem rootCount_weak_upper (hf : f ≠ 0) {P : ℝ → Prop} {b : ℝ} (hb : P b)
    [Decidable (f.IsRoot b)] :
    rootCount f (fun y => P y ∧ y ≤ b)
      = rootCount f (fun y => P y ∧ y < b) + if f.IsRoot b then 1 else 0 := by
  have hdisj : ∀ y, P y ∧ y < b → ¬y = b := fun y hy hyb => hy.2.ne hyb
  rw [← rootCount_eq, ← rootCount_or hf hdisj]
  refine rootCount_congr fun y _ => ?_
  rw [le_iff_lt_or_eq, and_or_left]
  exact or_congr_right (and_iff_right_of_imp fun e => e ▸ hb)

/-- The correction at the lower end. -/
theorem correct_lower {p : UniPoly} (hp : p.overReal ≠ 0) {P : ℝ → Prop} (lower : Bound) :
    (∀ a : ℚ, lower = .weak a → P a) →
    (match lower with
      | .weak a => if p.isRoot a = true
        then rootCount p.overReal (fun y => lower.excluding.Below y ∧ P y) + 1
        else rootCount p.overReal (fun y => lower.excluding.Below y ∧ P y)
      | _ => rootCount p.overReal (fun y => lower.excluding.Below y ∧ P y))
      = rootCount p.overReal (fun y => lower.Below y ∧ P y) := by
  classical
  intro hP
  cases lower with
  | infinite => rfl
  | strict a => rfl
  | weak a =>
    refine Eq.trans ?_ (rootCount_weak_lower hp (hP a rfl)).symm
    by_cases h : p.isRoot a = true
    · rw [if_pos (isRoot_ratCast.2 h)]
      exact if_pos h
    · rw [if_neg (isRoot_ratCast.not.2 h)]
      exact if_neg h

/-- The correction at the upper end. -/
theorem correct_upper {p : UniPoly} (hp : p.overReal ≠ 0) {P : ℝ → Prop} (upper : Bound) :
    (∀ b : ℚ, upper = .strict b → P b) →
    (match upper with
      | .strict b => if p.isRoot b = true
        then rootCount p.overReal (fun y => P y ∧ upper.including.Above y) - 1
        else rootCount p.overReal (fun y => P y ∧ upper.including.Above y)
      | _ => rootCount p.overReal (fun y => P y ∧ upper.including.Above y))
      = rootCount p.overReal (fun y => P y ∧ upper.Above y) := by
  classical
  intro hP
  cases upper with
  | infinite => rfl
  | weak b => rfl
  | strict b =>
    have hb := rootCount_weak_upper hp (hP b rfl)
    show (if _ then rootCount p.overReal (fun y => P y ∧ y ≤ (b : ℝ)) - 1
      else rootCount p.overReal (fun y => P y ∧ y ≤ (b : ℝ)))
        = rootCount p.overReal (fun y => P y ∧ y < (b : ℝ))
    rw [hb]
    by_cases h : p.isRoot b = true
    · rw [if_pos h, if_pos (isRoot_ratCast.2 h), Nat.add_sub_cancel]
    · rw [if_neg h, if_neg (isRoot_ratCast.not.2 h), add_zero]

/-- The corrections at the ends turn the loss of variations into the count for the interval. -/
theorem rootsIn_eq_rootCount {p : UniPoly} {rest : List UniPoly} (hp : ¬p.isZero = true)
    (h : SturmTotal p.overReal (p :: rest) total) (i : Interval) :
    rootsIn (p :: rest) i = rootCount p.overReal (· ∈ i.reals) := by
  classical
  have hf := overReal_ne_zero_iff.2 hp
  have hlost := h.variations_lost hf i
  cases hpt : i.point? with
  | some q =>
    have hq := rootCount_eq p.overReal (q : ℝ)
    simp only [rootsIn, if_neg hp, hpt, ← isRoot_ratCast]
    rw [← hq, Interval.eq_point_of_point? hpt]
    simp only [Interval.reals_point, Set.mem_singleton_iff]
  | none =>
    obtain ⟨lower, upper, room⟩ := i
    -- what a closed end adds and an open end takes away is inside the interval
    have hin : ∀ a : ℚ, lower = .weak a → upper.including.Above (a : ℝ) := by
      rintro a rfl
      cases upper with
      | infinite => trivial
      | strict b => exact Rat.cast_le.2 (of_decide_eq_true room).le
      | weak b => exact Rat.cast_le.2 (of_decide_eq_true room)
    have hout : ∀ b : ℚ, upper = .strict b → lower.Below (b : ℝ) := by
      rintro b rfl
      cases lower with
      | infinite => trivial
      | strict a => exact Rat.cast_lt.2 (of_decide_eq_true room)
      | weak a => exact Rat.cast_le.2 (of_decide_eq_true room).le
    simp only [rootsIn, if_neg hp, hpt, hlost]
    have hl := correct_lower (P := fun y => upper.including.Above y) hf lower hin
    have hu := correct_upper (P := fun y => lower.Below y) hf upper hout
    cases lower <;> cases upper <;> simp only at hl hu ⊢ <;> simp only [hl, hu] <;> rfl

/-- A nonzero constant has no roots. -/
theorem not_isRoot_of_isConstant {p : UniPoly} (hp : ¬p.isZero = true) (hc : p.isConstant = true)
    (x : ℝ) : ¬p.overReal.IsRoot x := by
  have hdeg : p.overReal.natDegree = 0 := by
    rw [natDegree_overReal, ← natDegree_toPolynomial]
    exact isConstant_iff_natDegree.1 hc
  intro hx
  rw [eq_C_of_natDegree_eq_zero hdeg, IsRoot.def, eval_C] at hx
  refine overReal_ne_zero_iff.2 hp ?_
  rw [eq_C_of_natDegree_eq_zero hdeg, hx, C_0]

/-- The chain of a nonzero polynomial has a constant in Sturm's theorem. -/
theorem exists_sturmTotal {p : UniPoly} (h : ¬p.isZero = true) :
    ∃ rest total, p.sturmChain = p.squareFree :: rest ∧
      SturmTotal p.squareFree.overReal (p.squareFree :: rest) total := by
  have hp := toPolynomial_ne_zero_iff.2 h
  unfold sturmChain
  by_cases hc : p.squareFree.isConstant = true
  · -- a nonzero constant has no roots, and its chain no variations
    refine ⟨[], 0, if_pos hc, fun x => ?_⟩
    have hs := toPolynomial_ne_zero_iff.1 (squareFree_ne_zero hp)
    have hno := not_isRoot_of_isConstant hs hc
    rw [rootCount_eq_zero fun y hy => absurd hy (hno y)]
    exact variations_singleton _
  · have hd := derivative_not_isZero hc
    have hcop : IsCoprime p.squareFree.toPolynomial p.squareFree.derivative.toPolynomial := by
      rw [toPolynomial_derivative]
      exact separable_squareFree hp
    have hl := interlaced_sturmTail _ _ hd hcop
    have hsimple := fun x hx => eval_derivative_squareFree_ne_zero hp (x := x) hx
    set rest := p.squareFree.sturmTail p.squareFree.derivative with hrest
    refine ⟨rest, variationsOver ((p.squareFree :: rest).map overReal) 0
      + rootCount p.squareFree.overReal (· ≤ 0), if_neg hc, fun x => ?_⟩
    rw [hrest, sturmTail_of_not_isZero hd, List.map_cons, List.map_cons, overReal_derivative]
      at hl ⊢
    exact variations_add_rootCount hl hsimple x 0

/-- The count of distinct real roots in an interval is exact. -/
theorem countRoots_eq_ncard {p : UniPoly} (h : ¬p.isZero = true) (i : Interval) :
    p.countRoots i = (p.realRoots ∩ i.reals).ncard := by
  have hs := squareFree_not_isZero h
  obtain ⟨rest, total, hchain, htotal⟩ := exists_sturmTotal h
  unfold countRoots
  rw [hchain, rootsIn_eq_rootCount hs htotal]
  unfold rootCount
  congr 1
  ext x
  exact and_congr_left fun _ => isRoot_squareFree

/-- Counting is exact in every interval, whatever its ends are, roots at the ends included; the
whole line is one of the intervals. Multiple roots count once. -/
theorem countRoots_exact {p : UniPoly} (h : ¬p.isZero = true) :
    (∀ i : Interval, (p.countRoots i : ℕ∞) = (p.realRoots ∩ i.reals).encard) ∧
      (p.countAllRoots : ℕ∞) = p.realRoots.encard := by
  have hcount : ∀ i : Interval, (p.countRoots i : ℕ∞) = (p.realRoots ∩ i.reals).encard := by
    intro i
    have hfin : (p.realRoots ∩ i.reals).Finite :=
      finite_roots_with (overReal_ne_zero_iff.2 h) (· ∈ i.reals)
    rw [countRoots_eq_ncard h i, hfin.cast_ncard_eq]
  have hall : Interval.unbounded.reals = Set.univ :=
    Set.eq_univ_of_forall fun _ => ⟨trivial, trivial⟩
  refine ⟨hcount, ?_⟩
  rw [countAllRoots, hcount, hall, Set.inter_univ]

/-- Both ends of the interval from zero up to one are roots of `x³ - x²`, the lower one a double
root, and only that one belongs to the interval. -/
theorem countRoots_double_root_at_end :
    ¬(ofCoeffs 0 [0, 0, -1, 1]).isZero = true ∧
      ((ofCoeffs 0 [0, 0, -1, 1]).realRoots ∩
        (⟨.weak 0, .strict 1, by decide⟩ : Interval).reals).encard = 1 := by
  have h : ¬(ofCoeffs 0 [0, 0, -1, 1]).isZero = true := by decide
  have hone : (ofCoeffs 0 [0, 0, -1, 1]).countRoots ⟨.weak 0, .strict 1, by decide⟩ = 1 := by
    decide +kernel
  refine ⟨h, ?_⟩
  rw [← (countRoots_exact h).1, hone, Nat.cast_one]

end UniPoly

end AlgebraicReal
