import AlgebraicReal.Proofs.Point.Sign
import AlgebraicReal.Proofs.MvPoly.Specialization
import AlgebraicReal.Proofs.Isolator.Candidates

/-!
# Root isolation under an assignment

The numbers found are the real roots of the polynomial that is left when the other variables have
their values. Every such root is a root of the eliminant, because the true coordinates are among the
conjugates, so none is lost; and a root of the eliminant is kept only if the polynomial itself
vanishes there, so none is spurious. The exact zero tests decide both the effective degree and what
is kept.

What the zero tests need enters as two conditions. If every variable has a value (`D`), their answers
are right. If the last of all variables is free besides (`C`), they come to an end.
-/

open MvPolynomial

namespace AlgebraicReal

open RefineM

namespace AlgebraicPoint

variable {C D : Prop} {s : Store} {point : AlgebraicPoint} {p : MvPoly} {v : Var} {a : Var → ℝ}

/-! ## The effective degree -/

/-- What is left of the listed coefficients, the highest one first. -/
noncomputable def remainingDegree (a : Var → ℝ) : List MvPoly → Option ℕ
  | [] => none
  | c :: lower => if aeval a c.toPolynomial = 0 then remainingDegree a lower else some lower.length

/-- The sign at a point that has all variables of the polynomial, none of them the last one. -/
theorem sign_exactIf_of_free {g : MvPoly} (hs : s.Valid) (hp : point.Denotes s a)
    (hvars : D → ∀ w ∈ g.vars, w ∈ point.vars) (hCD : C → D)
    (hlast : C → ∀ w ∈ g.vars, w ≠ 4294967295) :
    ExactIf C (point.sign g) s fun o _ => D → o = Sign.ofReal (aeval a g.toPolynomial) :=
  sign_exactIf hs hp hvars hCD fun hC hlacks => absurd rfl (hlast hC _ hlacks.1)

/-- The effective degree is that of the polynomial that is left at the point. -/
theorem effectiveDegree_exactIf (hCD : C → D) : ∀ {cs : List MvPoly} {s : Store}, s.Valid →
    point.Denotes s a → (∀ c ∈ cs, D → ∀ w ∈ c.vars, w ∈ point.vars) →
      (∀ c ∈ cs, C → ∀ w ∈ c.vars, w ≠ 4294967295) →
        ExactIf C (point.effectiveDegree cs) s fun o _ => D → o = remainingDegree a cs
  | [], _, hs, _, _, _ => ExactIf.pure hs fun _ => rfl
  | c :: cs, s, hs, hp, hvars, hlast => by
    rw [List.forall_mem_cons] at hvars hlast
    rw [effectiveDegree]
    refine (sign_exactIf_of_free hs hp hvars.1 hCD hlast.1).bind fun o t hnar hval ho => ?_
    by_cases h0 : o = .zero
    · rw [if_pos h0]
      refine (effectiveDegree_exactIf hCD hval (hp.narrowed hnar) hvars.2 hlast.2).mono
        fun o' u _ _ ho' hD => ?_
      rw [ho' hD, remainingDegree, if_pos (Sign.ofReal_eq_zero_iff.1 ((ho hD).symm.trans h0))]
    · rw [if_neg h0]
      refine ExactIf.pure hval fun hD => ?_
      rw [remainingDegree, if_neg fun h => h0 ((ho hD).trans (Sign.ofReal_eq_zero_iff.2 h))]

/-- What is left of the coefficients is the degree of the polynomial that is left. -/
theorem remainingDegree_coefficients (p : MvPoly) (v : Var) (a : Var → ℝ) :
    remainingDegree a (p.coefficients v).reverse
      = if p.specialize v a = 0 then none else some (p.specialize v a).natDegree := by
  -- reading from the top down, as far as all coefficients above are zero
  have h : ∀ n, (∀ k ≥ n, (p.specialize v a).coeff k = 0) →
      remainingDegree a ((List.range n).map (p.coeff v)).reverse
        = if p.specialize v a = 0 then none else some (p.specialize v a).natDegree := by
    intro n
    induction n with
    | zero =>
      intro hzero
      rw [if_pos (Polynomial.ext fun k => hzero k k.zero_le)]
      rfl
    | succ n ih =>
      intro hzero
      rw [List.range_succ, List.map_append, List.reverse_append]
      show remainingDegree a (p.coeff v n :: ((List.range n).map (p.coeff v)).reverse) = _
      rw [remainingDegree, ← MvPoly.coeff_specialize]
      split
      next h0 =>
        refine ih fun k hk => ?_
        rcases Nat.eq_or_lt_of_le hk with rfl | hlt
        · exact h0
        · exact hzero k hlt
      next h0 =>
        have hdeg : (p.specialize v a).natDegree = n := by
          refine le_antisymm (Polynomial.natDegree_le_iff_coeff_eq_zero.2 fun k hk => hzero k hk) ?_
          exact Polynomial.le_natDegree_of_ne_zero h0
        have hne : p.specialize v a ≠ 0 := by
          intro h
          rw [h, Polynomial.coeff_zero] at h0
          exact h0 rfl
        rw [if_neg hne, hdeg, List.length_reverse, List.length_map, List.length_range]
  exact h _ fun k hk => MvPoly.coeff_specialize_of_degree_lt hk

/-! ## Roots of the eliminant -/

/-- No root is lost: the true coordinates are among the conjugates. -/
theorem isRoot_of_isRoot_specialize (hp : point.Denotes s a) (hv : v ∉ point.vars)
    (hvars : ∀ w ∈ p.vars, w = v ∨ w ∈ point.vars) {u : UniPoly}
    (hu : (exactEliminant s point p).1.toPolynomial = Polynomial.aeval (X v) u.toPolynomial) {y : ℝ}
    (hy : (p.specialize v a).IsRoot y) : u.overReal.IsRoot y := by
  have hvalue := MvPoly.aeval_of_toUniPoly hu fun _ => (y : ℂ)
  rw [UniPoly.isRoot_iff_aeval, ← hvalue,
    aeval_exactEliminant_eq_zero_iff hp.nodup hp.degree_pos]
  refine ⟨_, hp.mem_conjugates fun _ => y, ?_⟩
  rw [Polynomial.IsRoot.def, MvPoly.eval_specialize] at hy
  rw [← Complex.ofReal_zero, ← hy, ← aeval_ofReal]
  refine MvPoly.aeval_congr fun w hw => ?_
  rcases hvars w hw with rfl | hmem
  · rw [if_neg hv, Function.update_self]
  · have hwv : w ≠ v := fun h => hv (h ▸ hmem)
    rw [if_pos hmem, Function.update_of_ne hwv]

/-- Without coordinates nothing is eliminated, and every root is one of the polynomial. -/
theorem isRoot_specialize_of_isRoot (hvars : ∀ w ∈ p.vars, w = v) {u : UniPoly}
    (hu : (exactEliminant s [] p).1.toPolynomial = Polynomial.aeval (X v) u.toPolynomial) {y : ℝ}
    (hy : u.overReal.IsRoot y) : (p.specialize v a).IsRoot y := by
  have hvalue := MvPoly.aeval_of_toUniPoly hu fun _ => y
  rw [Polynomial.IsRoot.def, UniPoly.eval_overReal_eq_aeval, ← hvalue] at hy
  rw [Polynomial.IsRoot.def, MvPoly.eval_specialize, ← hy]
  refine MvPoly.aeval_congr fun w hw => ?_
  rw [hvars w hw, Function.update_self]

/-! ## Candidates -/

section

variable {q : ℚ} {id : LocatorId} {x : ℝ} (hp : point.Denotes s a) (hv : v ∉ point.vars)
  (hvars : D → ∀ w ∈ p.vars, w = v ∨ w ∈ point.vars) (hCD : C → D)
  (hlast : C → ∀ w ∈ p.vars, w ≠ 4294967295)
include hp hvars hCD hlast

/-- The zero test at a rational candidate. -/
theorem vanishesAt_exactIf (hs : s.Valid)
    (hempty : D → point.isEmpty = true → (p.specialize v a).IsRoot q) :
    ExactIf C (point.vanishesAt p v q) s fun b _ =>
      D → (b = true ↔ (p.specialize v a).IsRoot q) := by
  unfold vanishesAt
  split
  next he => exact ExactIf.pure hs fun hD => iff_of_true rfl (hempty hD he)
  next =>
    have hsign := sign_exactIf_of_free (g := p.evalAt v q) hs hp
      (fun hD w hw => ((hvars hD w (MvPoly.mem_vars_of_mem_vars_evalAt hw).1).resolve_left
        (MvPoly.mem_vars_of_mem_vars_evalAt hw).2)) hCD
      fun hC w hw => hlast hC w (MvPoly.mem_vars_of_mem_vars_evalAt hw).1
    refine hsign.bind fun o t _ hval ho => ExactIf.pure hval fun hD => ?_
    rw [ho hD, decide_eq_true_iff, Sign.ofReal_eq_zero_iff, MvPoly.aeval_evalAt,
      Polynomial.IsRoot.def,
      MvPoly.eval_specialize]
    exact Iff.rfl

include hv in
/-- The zero test at a candidate with a locator of its own. -/
theorem vanishesAtRoot_exactIf (hs : s.Valid) (hid : id < s.locators.size)
    (hx : (s.get id).Locates x)
    (hempty : D → point.isEmpty = true → (p.specialize v a).IsRoot x) :
    ExactIf C (point.vanishesAtRoot p v id) s fun b _ =>
      D → (b = true ↔ (p.specialize v a).IsRoot x) := by
  unfold vanishesAtRoot
  split
  next he => exact ExactIf.pure hs fun hD => iff_of_true rfl (hempty hD he)
  next =>
    have hext : Denotes s (point ++ [(v, id)]) (Function.update a v x) :=
      (hp.update hv x).append hv hid (by rwa [Function.update_self])
    have hsign := sign_exactIf_of_free (g := p) hs hext
      (fun hD w hw => mem_vars_append.2 (hvars hD w hw).symm) hCD hlast
    refine hsign.bind fun o t _ hval ho => ExactIf.pure hval fun hD => ?_
    rw [ho hD, decide_eq_true_iff, Sign.ofReal_eq_zero_iff, Polynomial.IsRoot.def,
      MvPoly.eval_specialize]

end

/-- The zero tests at the candidates are those of the polynomial that is left. -/
theorem zeroTests (hp : point.Denotes s a) (hv : v ∉ point.vars)
    (hvars : D → ∀ w ∈ p.vars, w = v ∨ w ∈ point.vars) (hCD : C → D)
    (hlast : C → ∀ w ∈ p.vars, w ≠ 4294967295) {e : UniPoly}
    (hempty : D → point.isEmpty = true → ∀ x, e.overReal.IsRoot x → (p.specialize v a).IsRoot x) :
    ZeroTests C D s point p v e (p.specialize v a).IsRoot where
  rational hn ht he :=
    vanishesAt_exactIf (hp.narrowed hn) hvars hCD hlast ht fun hD hnil => hempty hD hnil _ he
  root hn ht hid hx he :=
    vanishesAtRoot_exactIf (hp.narrowed hn) hv hvars hCD hlast ht hid hx fun hD hnil =>
      hempty hD hnil _ he

/-! ## The roots at a point -/

theorem not_isZero_of_toUniPoly {h : MvPoly} {u : UniPoly} (hu : h.toUniPoly v = .ok u)
    (hz : ¬h.isZero = true) : ¬u.isZero = true := by
  intro h0
  refine hz (MvPoly.toPolynomial_eq_zero_iff.1 ?_)
  rw [MvPoly.eq_of_toUniPoly hu, UniPoly.toPolynomial_eq_zero_iff.2 h0, map_zero]

/-- The roots that are found at a point are those of the polynomial there. -/
theorem roots_exactIf (config : IsolationConfig) (hs : s.Valid) (hp : point.Denotes s a)
    (hv : v ∉ point.vars) (hvars : D → ∀ w ∈ p.vars, w = v ∨ w ∈ point.vars) (hCD : C → D)
    (hlast : C → ∀ w ∈ p.vars, w ≠ 4294967295) :
    ExactIf C (point.roots config p v) s fun o t => ∀ ns, o = some ns →
      (∃ xs, List.Forall₂ (fun n x => n.Denotes t x) ns xs) ∧
        (D → Number.Lists t {x | (p.specialize v a).IsRoot x} ns) := by
  unfold roots
  refine ExactIf.get_bind ?_
  rw [eliminant_eq, ofExcept_ok_bind]
  simp only [Arithmetic.isZero_mvPoly, Arithmetic.toUniPoly_mvPoly]
  refine (Exact.count hs _).exactIf.bind fun _ t hnar hval _ => ?_
  have hpt := hp.narrowed hnar
  by_cases hz : (exactEliminant s point p).1.isZero = true
  · rw [if_pos hz]
    exact ExactIf.pure hval nofun
  · rw [if_neg hz]
    have hunivariate : D → ∀ w ∈ (exactEliminant s point p).1.vars, w = v := fun hD =>
      vars_exactEliminant (hvars hD)
    cases hu : (exactEliminant s point p).1.toUniPoly v with
    | error err =>
      obtain ⟨w, rfl, -⟩ := MvPoly.toUniPoly_eq_error hu
      refine ExactIf.throw hval nofun nofun fun hC => ?_
      obtain ⟨u, hu', -⟩ := MvPoly.exists_toUniPoly (hunivariate (hCD hC))
      rw [hu] at hu'
      cases hu'
    | ok u =>
      have heq := MvPoly.eq_of_toUniPoly hu
      have hu0 := not_isZero_of_toUniPoly hu hz
      have hroots := (isolated_spec config hu0).2
      have hempty : D → point.isEmpty = true → ∀ x, (isolated config u).overReal.IsRoot x →
          (p.specialize v a).IsRoot x := by
        intro hD hnil x hx
        obtain rfl := List.isEmpty_iff.1 hnil
        exact isRoot_specialize_of_isRoot
          (fun w hw => (hvars hD w hw).resolve_right List.not_mem_nil)
          heq ((hroots x).1 hx)
      refine (isolate_exactIf config hu0 (zeroTests hpt hv hvars hCD hlast hempty) hval).mono
        fun o w _ _ ho ns hns => ?_
      obtain ⟨hden, hlists⟩ := ho ns hns
      refine ⟨hden, fun hD => ?_⟩
      -- the eliminant has all roots, so passing the test is all that counts
      have hset : {x | u.overReal.IsRoot x ∧ (p.specialize v a).IsRoot x}
          = {x | (p.specialize v a).IsRoot x} := Set.ext fun x =>
        and_iff_right_of_imp (isRoot_of_isRoot_specialize hp hv (hvars hD) heq)
      rw [← hset]
      exact hlists hD

end AlgebraicPoint

/-! ## The roots under an assignment -/

section

variable {s : Store} {values : Assignment} {p : MvPoly} {v : Var} {a : Var → ℝ}

/-- The variables whose values are taken in. -/
theorem MvPoly.mem_filter_notMem_singleton {w : Var} :
    w ∈ p.vars.filter (· ∉ [v]) ↔ w ∈ p.vars ∧ w ≠ v := by
  rw [List.mem_filter, decide_eq_true_iff, List.mem_singleton]

/-- Taking in the values of the other variables does not change the polynomial that is left. -/
theorem PartialValue.Represents.specialize_eq {value : PartialValue MvPoly}
    (h : PartialValue.Represents s p a (p.vars.filter (· ∉ [v])) value) :
    value.poly.specialize v a = p.specialize v a := by
  refine Polynomial.funext fun y => ?_
  rw [MvPoly.eval_specialize, MvPoly.eval_specialize]
  exact h.aeval_eq _ fun w hw =>
    Function.update_of_ne (MvPoly.mem_filter_notMem_singleton.1 hw).2 y a

theorem PartialValue.Represents.mem_point_of_ne {value : PartialValue MvPoly}
    (h : PartialValue.Represents s p a (p.vars.filter (· ∉ [v])) value) {w : Var}
    (hw : w ∈ value.poly.vars) (hwv : w ≠ v) : w ∈ value.point.vars := by
  obtain ⟨hwp, himp⟩ := h.mem_vars w hw
  exact himp (MvPoly.mem_filter_notMem_singleton.2 ⟨hwp, hwv⟩)

theorem PartialValue.Represents.notMem_point {value : PartialValue MvPoly}
    (h : PartialValue.Represents s p a (p.vars.filter (· ∉ [v])) value) : v ∉ value.point.vars :=
  fun hmem => (MvPoly.mem_filter_notMem_singleton.1 (h.mem_point v hmem)).2 rfl

/-- All variables that are left are the main one and those of the point. -/
theorem PartialValue.Represents.eq_or_mem_point {value : PartialValue MvPoly}
    (h : PartialValue.Represents s p a (p.vars.filter (· ∉ [v])) value) :
    ∀ w ∈ value.poly.vars, w = v ∨ w ∈ value.point.vars := fun _ hw =>
  or_iff_not_imp_left.2 fun hwv => h.mem_point_of_ne hw hwv

/-- The effective degree is the degree of the polynomial that is left, in every later store. -/
theorem PartialValue.Represents.effectiveDegree_exactIf {C : Prop} {t : Store}
    {value : PartialValue MvPoly} (h : PartialValue.Represents s p a (p.vars.filter (· ∉ [v])) value)
    (ht : t.Valid) (hn : s.Narrowed t) (hlast : C → ∀ w ∈ p.vars, w ≠ 4294967295) :
    ExactIf C (value.point.effectiveDegree (value.poly.coefficients v).reverse) t fun o _ =>
      o = if p.specialize v a = 0 then none else some (p.specialize v a).natDegree := by
  have hcoeffs : ∀ c ∈ (value.poly.coefficients v).reverse, ∀ w ∈ c.vars,
      w ∈ value.poly.vars ∧ w ≠ v := by
    intro c hc w hw
    obtain ⟨k, -, rfl⟩ := List.mem_map.1 (List.mem_reverse.1 hc)
    exact MvPoly.mem_vars_of_mem_vars_coeff hw
  rw [← h.specialize_eq, ← AlgebraicPoint.remainingDegree_coefficients]
  have hdegree := AlgebraicPoint.effectiveDegree_exactIf (D := True) (fun _ : C => trivial) ht
    (h.denotes.narrowed hn)
    (fun c hc _ w hw => h.mem_point_of_ne (hcoeffs c hc w hw).1 (hcoeffs c hc w hw).2)
    fun c hc hC w hw => hlast hC w (h.mem_vars w (hcoeffs c hc w hw).1).1
  exact hdegree.mono fun o _ _ _ ho => ho trivial

/-- The roots under an assignment, if they are defined, are those of the polynomial that is left. -/
theorem MvPoly.rootsUnder_exactIf {C D : Prop} (config : IsolationConfig) (hs : s.Valid)
    (ha : values.Denotes s (p.vars.filter (· ∉ [v])) a)
    (hall : D → ∀ w ∈ p.vars, w ∉ [v] → values.lookup w ≠ none) (hCD : C → D)
    (hlast : C → ∀ w ∈ p.vars, w ≠ 4294967295) :
    ExactIf C (Arithmetic.rootsUnder config p v values) s fun o t => ∀ ns, o = some ns →
      (∃ xs, List.Forall₂ (fun n x => n.Denotes t x) ns xs) ∧
        (D → p.specialize v a ≠ 0 ∧ Number.Lists t {x | (p.specialize v a).IsRoot x} ns) := by
  unfold Arithmetic.rootsUnder
  refine (Exact.count hs _).exactIf.bind fun _ t hnar hval _ => ExactIf.get_bind ?_
  refine (PartialValue.of_exactIf hval p [v] (ha.narrowed hs hnar) hall hCD).bind
    fun g u hnar₁ hval₁ ⟨_, hg⟩ => ?_
  have hlast' : C → ∀ w ∈ g.poly.vars, w ≠ 4294967295 := fun hC w hw =>
    hlast hC w (hg.mem_vars w hw).1
  refine (hg.effectiveDegree_exactIf hval₁ hnar₁ hlast).bind fun o u' hnar₂ hval₂ ho => ?_
  -- what the degree says of the polynomial that is left
  have hdegree : ∀ d, o = some d → p.specialize v a ≠ 0 ∧ (p.specialize v a).natDegree = d := by
    rintro d rfl
    split at ho
    next => cases ho
    next hne =>
      cases ho
      exact ⟨hne, rfl⟩
  split
  next => exact ExactIf.pure hval₂ nofun
  next =>
    refine ExactIf.pure hval₂ fun ns hns => ?_
    cases hns
    refine ⟨⟨[], .nil⟩, fun _ => ?_⟩
    obtain ⟨hne, hdeg⟩ := hdegree 0 rfl
    refine ⟨hne, [], .nil, .nil, fun x => iff_of_false List.not_mem_nil fun hx => ?_⟩
    have hpos := Polynomial.natDegree_pos_iff_degree_pos.2 (Polynomial.degree_pos_of_root hne hx)
    exact hpos.ne' hdeg
  next d _ =>
    have hroots := AlgebraicPoint.roots_exactIf (C := C) (D := True) (p := g.poly.truncate v d)
      config hval₂ (hg.denotes.narrowed (hnar₁.trans hnar₂)) hg.notMem_point
      (fun _ w hw => hg.eq_or_mem_point w (mem_vars_of_mem_vars_truncate hw)) (fun _ => trivial)
      fun hC w hw => hlast' hC w (mem_vars_of_mem_vars_truncate hw)
    refine hroots.mono fun o' w _ _ ho' ns hns => ?_
    obtain ⟨hden, hlists⟩ := ho' ns hns
    refine ⟨hden, fun _ => ?_⟩
    obtain ⟨hne, hdeg⟩ := hdegree d rfl
    have htruncate : (g.poly.truncate v d).specialize v a = p.specialize v a := by
      rw [specialize_truncate (by rw [hg.specialize_eq, hdeg]), hg.specialize_eq]
    have hlists' := hlists trivial
    rw [htruncate] at hlists'
    exact ⟨hne, hlists'⟩

/-- The roots that an isolator finds, on a tally of its own. -/
theorem Isolator.isolate_safe {D : Prop} (iso : Isolator) (hs : s.Valid)
    (ha : values.Denotes s (p.vars.filter (· ∉ [v])) a)
    (hall : D → ∀ w ∈ p.vars, w ∉ [v] → values.lookup w ≠ none) :
    Safe (iso.isolate p v values) s fun o t => (∀ ns, o.1 = .ok (some ns) →
      (∃ xs, List.Forall₂ (fun n x => n.Denotes t x) ns xs) ∧
        (D → p.specialize v a ≠ 0 ∧ Number.Lists t {x | (p.specialize v a).IsRoot x} ns)) ∧
      ∀ e, o.1 = .error e → e ≠ .emptyOpen ∧ e ≠ .emptyClosed := by
  have hexact := MvPoly.rootsUnder_exactIf (C := False) (s := { s with tally := iso.tally })
    iso.config hs (ha.narrowed hs (narrowed_tally s iso.tally)) hall nofun nofun
  refine (hexact.safe.metered fun o t u hval hn ho ns hns => ?_).bind fun r t _ hval hr =>
    Safe.pure hval ⟨fun ns hns => hr.1 _ hns ns rfl, hr.2⟩
  obtain ⟨⟨xs, hxs⟩, hlists⟩ := ho ns hns
  exact ⟨⟨xs, Number.forall₂_narrowed hval hn hxs⟩, fun hD =>
    ⟨(hlists hD).1, (hlists hD).2.narrowed hval hn⟩⟩

/-- An isolator finds an answer. -/
theorem Isolator.isolate_settles (iso : Isolator) (hs : s.Valid)
    (ha : values.Denotes s (p.vars.filter (· ∉ [v])) a)
    (hall : ∀ w ∈ p.vars, w ∉ [v] → values.lookup w ≠ none)
    (hlast : ∀ w ∈ p.vars, w ≠ 4294967295) :
    Settles (iso.isolate p v values) s fun o _ => ∃ r, o.1 = .ok r := by
  have hexact := MvPoly.rootsUnder_exactIf (C := True) (D := True)
    (s := { s with tally := iso.tally }) iso.config hs
    (ha.narrowed hs (narrowed_tally s iso.tally)) (fun _ => hall) id fun _ => hlast
  have hsettles : Settles (Arithmetic.rootsUnder iso.config p v values) { s with tally := iso.tally }
      fun _ _ => True := (hexact.settles trivial).mono fun _ _ _ _ _ => trivial
  refine (hsettles.metered fun _ _ _ _ _ _ => trivial).bind fun r t _ hval hr =>
    Settles.pure hval ?_
  obtain ⟨o, ho, -⟩ := hr
  exact ⟨o, ho⟩

section

variable (hvalues : ∀ w ∈ p.vars, w ≠ v → ∃ x, values.lookup w = some x ∧ x.Denotes s (a w))
include hvalues

theorem Assignment.denotes_of_forall : values.Denotes s (p.vars.filter (· ∉ [v])) a :=
  denotes_of_forall_mem fun w hw => by
    obtain ⟨hwp, hwv⟩ := MvPoly.mem_filter_notMem_singleton.1 hw
    exact hvalues w hwp hwv

theorem Assignment.lookup_ne_none : ∀ w ∈ p.vars, w ∉ [v] → values.lookup w ≠ none := by
  intro w hwp hwv
  obtain ⟨x, hx, -⟩ := hvalues w hwp fun h => hwv (List.mem_singleton.2 h)
  rw [hx]
  exact Option.some_ne_none x

end

/-- A root expression picks its root from the list. -/
theorem RootExpr.exec_evaluate {P : Type} [Arithmetic P] {p : P} {k : ℕ} {v : Var} (hk : 0 < k) {values : Assignment}
    {rounds : ℕ} {s t : Store} {roots : List Number}
    (h : exec (Arithmetic.realRoots p v values) rounds s = (.ok (some roots), t)) :
    exec (RootExpr.evaluate ⟨p, k, v, hk⟩ values) rounds s = (.ok roots[k - 1]?, t) := by
  unfold RootExpr.evaluate
  rw [exec_bind, h]
  rfl

theorem forall₂_getElem {α β : Type} {r : α → β → Prop} : ∀ {l : List α} {m : List β},
    List.Forall₂ r l m → ∀ k : ℕ, Option.Rel r l[k]? m[k]?
  | [], [], .nil, _ => .none
  | _ :: _, _ :: _, .cons h _, 0 => .some h
  | _ :: l, _ :: m, .cons _ h, k + 1 => forall₂_getElem (l := l) (m := m) h k

end

end AlgebraicReal
