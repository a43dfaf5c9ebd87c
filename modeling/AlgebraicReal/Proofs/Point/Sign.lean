import AlgebraicReal.Proofs.Point.Enclosure
import AlgebraicReal.Proofs.Number.Basic

/-!
# Signs at algebraic points

The sign of a polynomial at a point is exact on both ways to it: by the locator if one coordinate is
involved, by elimination and enclosures otherwise. Under an assignment rational values are put in
first, which leaves a polynomial with the same value and a point for the variables that remain
(`PartialValue.Represents`).
-/

open MvPolynomial

namespace AlgebraicReal

open RefineM

theorem UniPoly.eval_overReal_eq_aeval (u : UniPoly) (x : ℝ) :
    u.overReal.eval x = Polynomial.aeval x u.toPolynomial := by
  rw [UniPoly.overReal, Polynomial.eval_map, Polynomial.aeval_def]

/-- The last of all variables is one of several, so there is none left for scratch. -/
def MvPoly.LacksScratch (g : MvPoly) : Prop :=
  4294967295 ∈ g.vars ∧ ∃ w ∈ g.vars, w ≠ 4294967295

namespace AlgebraicPoint

variable {s : Store} {point : AlgebraicPoint} {σ : Var → ℝ} {g : MvPoly}

/-! ## By enclosures -/

theorem signByEnclosure_safe (hs : s.Valid) (hp : point.Denotes s σ) :
    Safe (point.signByEnclosure g) s fun o _ => (∀ v ∈ g.vars, v ∈ point.vars) →
      o = Sign.ofReal (aeval σ g.toPolynomial) := by
  refine (Safe.count hs _).bind fun _ t hnar hval _ => ?_
  have hpt := hp.narrowed hnar
  refine Safe.read_bind fun rounds => Safe.get_bind ?_
  have hradius : Safe (RefineM.ofExcept (point.radius rounds t g)) t fun r _ =>
      (∀ v ∈ g.vars, v ∈ point.vars) → CertifiesZero (aeval σ g.toPolynomial) r := by
    rcases radius_eq hpt g rounds with he | ⟨r, he, hr⟩
    · rw [he]
      exact Safe.throw hval nofun nofun
    · rw [he]
      exact Safe.pure hval hr
  refine hradius.bind fun r u hnar' hval' hr => Safe.read_bind fun k => ?_
  refine (signLoop_safe k hval' (hpt.narrowed hnar')).mono fun o w _ _ ho hg => ?_
  exact ho (hr hg) hg

theorem signByEnclosure_settles (hs : s.Valid) (hp : point.Denotes s σ)
    (hg : ∀ v ∈ g.vars, v ∈ point.vars)
    (hlast : 4294967295 ∈ point.vars → aeval σ g.toPolynomial ≠ 0) :
    Settles (point.signByEnclosure g) s fun o _ => o = Sign.ofReal (aeval σ g.toPolynomial) := by
  refine (Settles.count hs _).bind fun _ t hnar hval _ => ?_
  have hpt := hp.narrowed hnar
  obtain ⟨r, N, hr, hN⟩ := exists_radius hpt hg hlast
  obtain ⟨u, m, hnar', hval', hloop⟩ := exists_signLoop hval hpt hg hr
  refine ⟨_, u, max N (m + 1), hnar', hval', rfl, fun rounds hge => ?_⟩
  rw [exec_read_bind, exec_get_bind, hN rounds (le_of_max_le_left hge)]
  exact hloop rounds (le_of_max_le_right hge) rounds

theorem signByEnclosure_exactIf {C D : Prop} (hs : s.Valid) (hp : point.Denotes s σ)
    (hg : D → ∀ v ∈ g.vars, v ∈ point.vars) (hCD : C → D)
    (hlast : C → 4294967295 ∈ point.vars → aeval σ g.toPolynomial ≠ 0) :
    ExactIf C (point.signByEnclosure g) s fun o _ =>
      D → o = Sign.ofReal (aeval σ g.toPolynomial) where
  safe := (signByEnclosure_safe hs hp).mono fun _ _ _ _ ho hD => ho (hg hD)
  settles hC := (signByEnclosure_settles hs hp (hg (hCD hC)) (hlast hC)).mono fun _ _ _ _ ho _ => ho

/-- With the last of all variables in the point, the search for a zero goes on forever. -/
theorem exec_signByEnclosure_of_last (hs : s.Valid) (hp : point.Denotes s σ)
    (hg : ∀ v ∈ g.vars, v ∈ point.vars) (hlast : 4294967295 ∈ point.vars)
    (hzero : aeval σ g.toPolynomial = 0) (rounds : ℕ) :
    (exec (point.signByEnclosure g) rounds s).1 = .error .exhausted := by
  obtain ⟨hnar, hval, -⟩ := Safe.count hs
    (fun t => { t with eliminations := t.eliminations + point.length }) rounds _ _ rfl
  unfold signByEnclosure
  rw [exec_bind, exec_count]
  simp only
  rw [exec_read_bind, exec_get_bind, radius_of_last hg hlast]
  exact congrArg Prod.fst
    (exec_signLoop_of_zero hval (hp.narrowed hnar) hg hzero rounds rounds 0)

/-! ## The coordinates that are involved -/

theorem mem_vars_involved {v : Var} :
    v ∈ (point.involved g).vars ↔ v ∈ point.vars ∧ v ∈ g.vars := by
  unfold vars involved
  rw [List.mem_map]
  constructor
  · rintro ⟨c, hc, rfl⟩
    obtain ⟨hmem, hvar⟩ := List.mem_filter.1 hc
    exact ⟨List.mem_map_of_mem hmem, MvPoly.hasVar_iff.1 hvar⟩
  · rintro ⟨hmem, hvar⟩
    obtain ⟨c, hc, rfl⟩ := List.mem_map.1 hmem
    exact ⟨c, List.mem_filter.2 ⟨hc, MvPoly.hasVar_iff.2 hvar⟩, rfl⟩

/-- A point with a variable that is not its only coordinate has another variable. -/
theorem exists_mem_vars_ne (hnodup : point.vars.Nodup) {v : Var} (hv : v ∈ point.vars)
    (h : ∀ id, point ≠ [(v, id)]) : ∃ w ∈ point.vars, w ≠ v := by
  by_contra hall
  simp only [not_exists, not_and, not_not] at hall
  match point, hnodup, hv, h, hall with
  | [c], _, _, h, hall =>
    obtain rfl : c.1 = v := hall c.1 List.mem_cons_self
    exact h c.2 rfl
  | c :: d :: _, hnodup, _, _, hall =>
    have hcd : c.1 = d.1 := (hall c.1 List.mem_cons_self).trans
      (hall d.1 (List.mem_cons_of_mem _ List.mem_cons_self)).symm
    exact (List.nodup_cons.1 hnodup).1 (List.mem_cons.2 (.inl hcd))

/-- A polynomial with one coordinate involved is a polynomial in its variable. -/
theorem eq_of_involved_eq_singleton (hg : ∀ v ∈ g.vars, v ∈ point.vars) {v : Var} {id : LocatorId}
    (h : point.involved g = [(v, id)]) : ∀ w ∈ g.vars, w = v := by
  intro w hw
  have hmem := mem_vars_involved.2 ⟨hg w hw, hw⟩
  rw [h] at hmem
  exact List.mem_singleton.1 hmem

/-! ## Both ways -/

/-- The sign at a locator whose variable is the only one. -/
theorem sign_locator_exact (hs : s.Valid) {v : Var} {id : LocatorId} {u : UniPoly}
    (hid : id < s.locators.size) (hx : (s.get id).Locates (σ v)) (hu : g.toUniPoly v = .ok u) :
    Exact (do RefineM.ask id (·.sign (← read) u)) s
      fun o _ => o = Sign.ofReal (aeval σ g.toPolynomial) := by
  rw [MvPoly.aeval_of_toUniPoly (MvPoly.eq_of_toUniPoly hu), ← UniPoly.eval_overReal_eq_aeval]
  exact Exact.sign hs hid hx u

/-- The sign of a constant. -/
theorem ofRat_constantValue (h : g.isConstant = true) :
    Sign.ofRat g.constantValue = Sign.ofReal (aeval σ g.toPolynomial) := by
  rw [MvPoly.toPolynomial_of_isConstant h, aeval_C, ← Sign.ofReal_ratCast]
  rfl

/-- The sign at a point that has all variables of the polynomial. It is found unless there is no
scratch variable and the sign is zero. -/
theorem sign_exactIf {C D : Prop} (hs : s.Valid) (hp : point.Denotes s σ)
    (hg : D → ∀ v ∈ g.vars, v ∈ point.vars) (hCD : C → D)
    (hlast : C → g.LacksScratch → aeval σ g.toPolynomial ≠ 0) :
    ExactIf C (point.sign g) s fun o _ => D → o = Sign.ofReal (aeval σ g.toPolynomial) := by
  unfold sign
  simp only [Arithmetic.isConstant_mvPoly, Arithmetic.constantValue_mvPoly,
    Arithmetic.toUniPoly_mvPoly]
  by_cases hc : g.isConstant = true
  · rw [if_pos hc]
    exact ExactIf.pure hs fun _ => ofRat_constantValue hc
  · rw [if_neg hc]
    refine (Exact.count hs _).exactIf.bind fun _ t hnar hval _ => ?_
    have hinv := (hp.narrowed hnar).filter fun c => g.hasVar c.1
    have hmem : D → ∀ v ∈ g.vars, v ∈ (point.involved g).vars := fun hD v hv =>
      mem_vars_involved.2 ⟨hg hD v hv, hv⟩
    split
    next v id heq =>
      have hin : (v, id) ∈ point.involved g := by
        rw [heq]
        exact List.mem_cons_self
      cases hu : g.toUniPoly v with
      | error e =>
        -- some variable of the polynomial has no coordinate
        have hD : ¬D := fun hD => by
          obtain ⟨u, hu', -⟩ := MvPoly.exists_toUniPoly (eq_of_involved_eq_singleton (hg hD) heq)
          rw [hu] at hu'
          cases hu'
        have hsearch : ExactIf C ((point.involved g).signByEnclosure g) t fun o _ =>
            D → o = Sign.ofReal (aeval σ g.toPolynomial) :=
          signByEnclosure_exactIf hval hinv hmem hCD fun hC => absurd (hCD hC) hD
        rw [heq] at hsearch
        exact hsearch
      | ok u =>
        obtain ⟨hid, hx⟩ := hinv.locates (v, id) hin
        exact (sign_locator_exact hval hid hx hu).exactIf.mono fun _ _ _ _ ho _ => ho
    next several =>
      refine signByEnclosure_exactIf hval hinv hmem hCD fun hC hlast' => hlast hC ?_
      obtain ⟨w, hw, hne⟩ := exists_mem_vars_ne hinv.nodup hlast' fun id => several _ id
      exact ⟨(mem_vars_involved.1 hlast').2, w, (mem_vars_involved.1 hw).2, hne⟩

/-- Without a scratch variable a zero is never found. -/
theorem exec_sign_of_lacksScratch (hs : s.Valid) (hp : point.Denotes s σ)
    (hg : ∀ v ∈ g.vars, v ∈ point.vars) (hlacks : g.LacksScratch)
    (hzero : aeval σ g.toPolynomial = 0) (rounds : ℕ) :
    (exec (point.sign g) rounds s).1 = .error .exhausted := by
  obtain ⟨hlast, w, hw, hne⟩ := hlacks
  have hc : ¬g.isConstant = true := fun h => by
    rw [MvPoly.isConstant_iff.1 h] at hlast
    exact List.not_mem_nil hlast
  obtain ⟨hnar, hval, -⟩ := Safe.count hs
    (fun t => { t with zeroTests := t.zeroTests + 1 }) rounds _ _ rfl
  have hinv := (hp.narrowed hnar).filter fun c => g.hasVar c.1
  have hmem : ∀ v ∈ g.vars, v ∈ (point.involved g).vars := fun v hv =>
    mem_vars_involved.2 ⟨hg v hv, hv⟩
  unfold sign
  rw [Arithmetic.isConstant_mvPoly, if_neg hc, exec_bind, exec_count]
  simp only
  split
  next v id heq =>
    -- a single coordinate does not have two variables
    have hsingle := eq_of_involved_eq_singleton hg heq
    exact absurd ((hsingle w hw).trans (hsingle _ hlast).symm) hne
  next => exact exec_signByEnclosure_of_last hval hinv hmem (hmem _ hlast) hzero rounds

end AlgebraicPoint

/-! ## Assignments -/

/-- An assignment gives the listed variables numbers that stand for the given reals, if it gives
them any. -/
def Assignment.Denotes (s : Store) (values : Assignment) (vs : List Var) (a : Var → ℝ) : Prop :=
  ∀ v ∈ vs, ∀ x, values.lookup v = some x → x.Denotes s (a v)

theorem Assignment.Denotes.narrowed {s t : Store} {values : Assignment} {vs : List Var}
    {a : Var → ℝ} (h : values.Denotes s vs a) (hs : s.Valid) (hn : s.Narrowed t) :
    values.Denotes t vs a :=
  fun v hv x hx => (h v hv x hx).narrowed hs hn

section

variable {s : Store} {values : Assignment} {vs : List Var} {a : Var → ℝ}
  (h : ∀ v ∈ vs, ∃ x, values.lookup v = some x ∧ x.Denotes s (a v))
include h

theorem Assignment.denotes_of_forall_mem : values.Denotes s vs a := fun v hv x hx => by
  obtain ⟨x', hx', hden⟩ := h v hv
  rw [hx] at hx'
  cases hx'
  exact hden

theorem Assignment.lookup_ne_none_of_forall_mem : ∀ v ∈ vs, values.lookup v ≠ none := by
  intro v hv
  obtain ⟨x, hx, -⟩ := h v hv
  rw [hx]
  exact Option.some_ne_none x

end

/-- What is left of a polynomial when the values of the listed variables have been taken in: the
same values as before wherever the variables have theirs, and a point with the variables that still
occur. -/
structure PartialValue.Represents (s : Store) (p : MvPoly) (a : Var → ℝ) (vs : List Var)
    (value : PartialValue MvPoly) : Prop where
  denotes : value.point.Denotes s a
  aeval_eq : ∀ σ : Var → ℝ, (∀ v ∈ vs, σ v = a v) →
    aeval σ value.poly.toPolynomial = aeval σ p.toPolynomial
  mem_vars : ∀ w ∈ value.poly.vars, w ∈ p.vars ∧ (w ∈ vs → w ∈ value.point.vars)
  mem_point : ∀ v ∈ value.point.vars, v ∈ vs

namespace PartialValue

variable {s : Store} {values : Assignment} {p : MvPoly} {a : Var → ℝ} {vs : List Var}
  {value : PartialValue MvPoly} {v : Var}

theorem represents_self (s : Store) (p : MvPoly) (a : Var → ℝ) : Represents s p a [] ⟨p, []⟩ where
  denotes := ⟨List.nodup_nil, fun _ hc => absurd hc List.not_mem_nil⟩
  aeval_eq _ _ := rfl
  mem_vars _ hw := ⟨hw, fun h => absurd h List.not_mem_nil⟩
  mem_point _ hv := absurd hv List.not_mem_nil

/-- Putting in a rational value. -/
theorem Represents.evalAt (h : Represents s p a vs value) {q : ℚ} (hq : a v = q) :
    Represents s p a (vs ++ [v]) { value with poly := value.poly.evalAt v q } where
  denotes := h.denotes
  aeval_eq σ hσ := by
    have hvq : σ v = algebraMap ℚ ℝ q :=
      (hσ v (List.mem_append_right vs List.mem_cons_self)).trans hq
    show aeval σ (value.poly.evalAt v q).toPolynomial = _
    rw [MvPoly.aeval_evalAt, ← hvq, Function.update_eq_self]
    exact h.aeval_eq σ fun w hw => hσ w (List.mem_append_left _ hw)
  mem_vars w hw := by
    obtain ⟨hwp, hwv⟩ := MvPoly.mem_vars_of_mem_vars_evalAt hw
    refine ⟨(h.mem_vars w hwp).1, fun hmem => (h.mem_vars w hwp).2 ?_⟩
    exact (List.mem_append.1 hmem).resolve_right fun h' => hwv (List.mem_singleton.1 h')
  mem_point w hw := List.mem_append_left _ (h.mem_point w hw)

/-- Taking in a coordinate. -/
theorem Represents.coordinate (h : Represents s p a vs value) (hv : v ∉ vs) {id : LocatorId}
    (hid : id < s.locators.size) (hx : (s.get id).Locates (a v)) :
    Represents s p a (vs ++ [v]) { value with point := value.point ++ [(v, id)] } where
  denotes := h.denotes.append (fun hmem => hv (h.mem_point v hmem)) hid hx
  aeval_eq σ hσ := h.aeval_eq σ fun w hw => hσ w (List.mem_append_left _ hw)
  mem_vars w hw := by
    refine ⟨(h.mem_vars w hw).1, fun hmem => AlgebraicPoint.mem_vars_append.2 ?_⟩
    rcases List.mem_append.1 hmem with hmem | hmem
    · exact .inl ((h.mem_vars w hw).2 hmem)
    · exact .inr (List.mem_singleton.1 hmem)
  mem_point w hw := by
    rcases AlgebraicPoint.mem_vars_append.1 hw with hw | rfl
    · exact List.mem_append_left _ (h.mem_point w hw)
    · exact List.mem_append_right _ List.mem_cons_self

/-- Values are taken in one after the other, unless one is missing. -/
theorem substitute_eq : ∀ {vs done : List Var} {value : PartialValue MvPoly}, (done ++ vs).Nodup →
    values.Denotes s vs a → Represents s p a done value →
      (∃ v ∈ vs, values.lookup v = none ∧ substitute s values vs value = .error (.unassigned v)) ∨
        ∃ value', substitute s values vs value = .ok value' ∧ Represents s p a (done ++ vs) value'
  | [], done, value, _, _, h => .inr ⟨value, rfl, by rwa [List.append_nil]⟩
  | v :: vs, done, value, hnodup, ha, h => by
    have hv : v ∉ done := fun hmem =>
      List.disjoint_of_nodup_append hnodup hmem List.mem_cons_self
    rw [List.append_cons] at hnodup
    have ha' : values.Denotes s vs a := fun w hw => ha w (List.mem_cons_of_mem v hw)
    -- what is left once the first value has been taken in
    have hrest : ∀ value', Represents s p a (done ++ [v]) value' →
        (∃ w ∈ v :: vs, values.lookup w = none ∧
          substitute s values vs value' = .error (.unassigned w)) ∨
        ∃ value'', substitute s values vs value' = .ok value'' ∧
          Represents s p a (done ++ v :: vs) value'' := by
      intro value' h'
      rcases substitute_eq hnodup ha' h' with ⟨w, hw, hnone, he⟩ | ⟨value'', he, h''⟩
      · exact .inl ⟨w, List.mem_cons_of_mem v hw, hnone, he⟩
      · rw [List.append_assoc] at h''
        exact .inr ⟨value'', he, h''⟩
    rw [substitute]
    cases hlookup : values.lookup v with
    | none => exact .inl ⟨v, List.mem_cons_self, hlookup, rfl⟩
    | some x =>
      have hx := (ha v List.mem_cons_self x hlookup).form
      simp only
      cases hform : x.form s with
      | rational q =>
        rw [hform] at hx
        exact hrest _ (h.evalAt hx)
      | root id =>
        rw [hform] at hx
        exact hrest _ (h.coordinate hv hx.1 hx.2)
      | thom t =>
        rw [hform] at hx
        exact hrest _ (h.coordinate hv hx.id_lt hx.locates)

/-- The values of all variables but the excepted ones are taken in, unless one is missing. -/
theorem of_eq (p : MvPoly) (except : List Var)
    (ha : values.Denotes s (p.vars.filter (· ∉ except)) a) :
    (∃ v ∈ p.vars, v ∉ except ∧ values.lookup v = none ∧
      PartialValue.of s values p except = .error (.unassigned v)) ∨
        ∃ value, PartialValue.of s values p except = .ok value ∧
          Represents s p a (p.vars.filter (· ∉ except)) value := by
  unfold PartialValue.of
  have hnodup : ([] ++ p.vars.filter (· ∉ except)).Nodup := p.nodup_vars.filter _
  rcases substitute_eq hnodup ha (represents_self s p a) with ⟨v, hv, hnone, he⟩ | hok
  · obtain ⟨hvp, hve⟩ := List.mem_filter.1 hv
    exact .inl ⟨v, hvp, of_decide_eq_true hve, hnone, he⟩
  · exact .inr hok

theorem of_exactIf {C D : Prop} (hs : s.Valid) (p : MvPoly) (except : List Var)
    (ha : values.Denotes s (p.vars.filter (· ∉ except)) a)
    (hall : D → ∀ v ∈ p.vars, v ∉ except → values.lookup v ≠ none) (hCD : C → D) :
    ExactIf C (RefineM.ofExcept (PartialValue.of s values p except)) s fun value _ =>
      PartialValue.of s values p except = .ok value ∧
        Represents s p a (p.vars.filter (· ∉ except)) value := by
  rcases of_eq p except ha with ⟨v, hv, hve, hnone, he⟩ | ⟨value, he, h⟩
  · rw [he]
    exact ExactIf.throw hs nofun nofun fun hC => hall (hCD hC) v hv hve hnone
  · rw [he]
    exact ExactIf.pure hs ⟨rfl, h⟩

theorem mem_vars_of_substitute_eq : ∀ {vs : List Var} {value value' : PartialValue MvPoly},
    substitute s values vs value = .ok value' → ∀ w ∈ value'.poly.vars, w ∈ value.poly.vars
  | [], _, _, h, _, hw => by
    cases h
    exact hw
  | v :: vs, _, _, h, w, hw => by
    rw [substitute] at h
    split at h
    next => cases h
    next =>
      split at h
      next => exact (MvPoly.mem_vars_of_mem_vars_evalAt (mem_vars_of_substitute_eq h w hw)).1
      next => exact mem_vars_of_substitute_eq h w hw
      next => exact mem_vars_of_substitute_eq h w hw

/-- A polynomial without the last of all variables lacks no scratch variable. -/
theorem not_lacksScratch_of_eq {except : List Var} (hlast : ∀ w ∈ p.vars, w ≠ 4294967295)
    (h : PartialValue.of s values p except = .ok value) : ¬value.poly.LacksScratch := fun hlacks =>
  hlast _ (mem_vars_of_substitute_eq h _ hlacks.1) rfl

/-- With all values taken in, the point has the variables that are left. -/
theorem Represents.mem_point_of_forall (h : Represents s p a vs value)
    (hall : ∀ v ∈ p.vars, v ∈ vs) :
    ∀ w ∈ value.poly.vars, w ∈ value.point.vars := fun w hw =>
  (h.mem_vars w hw).2 (hall w (h.mem_vars w hw).1)

end PartialValue

namespace MvPoly

variable {s : Store} {values : Assignment} {g : MvPoly} {a : Var → ℝ}

theorem mem_filter_notMem_nil {v : Var} (hv : v ∈ g.vars) :
    v ∈ g.vars.filter (· ∉ ([] : List Var)) :=
  List.mem_filter.2 ⟨hv, decide_eq_true List.not_mem_nil⟩

theorem signUnder_exactIf {C D : Prop} (hs : s.Valid) (ha : values.Denotes s g.vars a)
    (hall : D → ∀ v ∈ g.vars, values.lookup v ≠ none) (hCD : C → D)
    (hlast : C → ∀ value, PartialValue.of s values g [] = .ok value → value.poly.LacksScratch →
      aeval a g.toPolynomial ≠ 0) :
    ExactIf C (Arithmetic.signUnder g values) s fun o _ => D → o = Sign.ofReal (aeval a g.toPolynomial) := by
  refine ExactIf.get_bind ?_
  have hof := PartialValue.of_exactIf (C := C) hs g [] (fun v hv => ha v (List.mem_filter.1 hv).1)
    (fun hD v hv _ => hall hD v hv) hCD
  refine hof.bind fun value t hnar hval ⟨hok, h⟩ => ?_
  have hpoint := h.mem_point_of_forall fun v hv => mem_filter_notMem_nil hv
  have hvalue := h.aeval_eq a fun _ _ => rfl
  rw [← hvalue] at hlast ⊢
  exact AlgebraicPoint.sign_exactIf hval (h.denotes.narrowed hnar) (fun _ => hpoint) hCD
    fun hC => hlast hC value hok

/-- The same under an assignment. -/
theorem exec_signUnder_of_lacksScratch (hs : s.Valid) (ha : values.Denotes s g.vars a)
    {value : PartialValue MvPoly} (hof : PartialValue.of s values g [] = .ok value)
    (hlacks : value.poly.LacksScratch) (hzero : aeval a g.toPolynomial = 0) (rounds : ℕ) :
    (exec (Arithmetic.signUnder g values) rounds s).1 = .error .exhausted := by
  rcases PartialValue.of_eq g [] fun v hv => ha v (List.mem_filter.1 hv).1 with
    ⟨v, -, -, -, he⟩ | ⟨value', he, h⟩
  · rw [hof] at he
    cases he
  · rw [hof] at he
    cases he
    rw [← h.aeval_eq a fun _ _ => rfl] at hzero
    unfold Arithmetic.signUnder
    rw [exec_get_bind, hof]
    exact AlgebraicPoint.exec_sign_of_lacksScratch hs h.denotes
      (h.mem_point_of_forall fun v hv => mem_filter_notMem_nil hv) hlacks hzero rounds

end MvPoly

/-! ## The sign under an assignment -/

/-- How the sign of a polynomial with a given value is decided at a point, whose coordinates are
those of its variables. -/
structure AlgebraicPoint.Decides {P : Type} [Arithmetic P] (s : Store) (point : AlgebraicPoint)
    (g : P) (y : ℝ) : Prop where
  /-- The annihilator is a nonzero polynomial in the scratch variable with the value as a root. -/
  annihilator : ∃ h u, point.annihilator s g = .ok h ∧
    Arithmetic.toUniPoly h (point.scratchVar g) = .ok u ∧ ¬u.isZero = true ∧ u.overReal.IsRoot y
  /-- No variable is without a range. -/
  enclosure : ∃ R, Arithmetic.enclose g (point.box s) = some R ∧ R.Has y
  /-- Elimination and enclosures give the sign. -/
  byEnclosure : Exact (point.signByEnclosure g) s fun o _ => o = Sign.ofReal y
  /-- The locator of a single coordinate gives the sign. -/
  byLocator : ∀ v id, point = [(v, id)] → ∃ u, Arithmetic.toUniPoly g v = .ok u ∧
    Exact (do RefineM.ask id (·.sign (← read) u)) s fun o _ => o = Sign.ofReal y

theorem AlgebraicPoint.decides {s : Store} {point : AlgebraicPoint} {σ : Var → ℝ} {g : MvPoly}
    (hs : s.Valid) (hp : point.Denotes s σ) (hg : ∀ v ∈ g.vars, v ∈ point.vars)
    (hlast : ∀ v ∈ g.vars, v ≠ 4294967295) :
    (point.involved g).Decides s g (aeval σ g.toPolynomial) := by
  have hinv := hp.filter fun c => g.hasVar c.1
  have hmem : ∀ v ∈ g.vars, v ∈ (point.involved g).vars := fun v hv =>
    mem_vars_involved.2 ⟨hg v hv, hv⟩
  have hfree : ∀ v ∈ (point.involved g).vars, v ≠ 4294967295 := fun v hv =>
    hlast v (mem_vars_involved.1 hv).2
  obtain ⟨u, hu, hne, hroot⟩ := exists_annihilator hinv hmem hfree
  refine ⟨⟨_, u, annihilator_eq .., hu, hne, hroot⟩, exists_enclose_has hs hinv hmem, ?_, ?_⟩
  · have h := signByEnclosure_exactIf (C := True) (D := True) hs hinv (fun _ => hmem) id
      fun _ hlast' => absurd rfl (hfree _ hlast')
    exact (h.exact trivial).mono fun _ _ _ _ ho => ho trivial
  · intro v id heq
    obtain ⟨u, hu, -⟩ := MvPoly.exists_toUniPoly (eq_of_involved_eq_singleton hg heq)
    have hc : (v, id) ∈ point.involved g := by
      rw [heq]
      exact List.mem_cons_self
    obtain ⟨hid, hx⟩ := hinv.locates (v, id) hc
    exact ⟨u, hu, sign_locator_exact hs hid hx hu⟩

section

variable {s : Store} {g : MvPoly} {values : Assignment} {a : Var → ℝ}
  (hvalues : ∀ v ∈ g.vars, ∃ x, values.lookup v = some x ∧ x.Denotes s (a v))
  (hlast : ∀ v ∈ g.vars, v ≠ 4294967295)
include hvalues hlast

/-- The sign is found with enough rounds, and any answer is the sign of the value. -/
theorem MvPoly.signUnder_exact_of_values (hs : s.Valid) :
    Exact (Arithmetic.signUnder g values) s fun o _ => o = Sign.ofReal (aeval a g.toPolynomial) := by
  have hexact := signUnder_exactIf (C := True) (D := True) hs
    (Assignment.denotes_of_forall_mem hvalues)
    (fun _ => Assignment.lookup_ne_none_of_forall_mem hvalues) id
    fun _ _ hof hlacks => absurd hlacks (PartialValue.not_lacksScratch_of_eq hlast hof)
  exact (hexact.exact trivial).mono fun _ _ _ _ ho => ho trivial

/-- Once the values have been taken in, nothing is left to chance in any later store. -/
theorem PartialValue.exists_decides :
    ∃ value, PartialValue.of s values g [] = .ok value ∧ ∀ t, s.Narrowed t → t.Valid →
      (value.point.involved value.poly).Decides t value.poly (aeval a g.toPolynomial) := by
  rcases of_eq g [] fun v hv => Assignment.denotes_of_forall_mem hvalues v (List.mem_filter.1 hv).1
    with ⟨v, hv, -, hnone, -⟩ | ⟨value, hok, h⟩
  · exact absurd hnone (Assignment.lookup_ne_none_of_forall_mem hvalues v hv)
  · refine ⟨value, hok, fun t hnar hval => ?_⟩
    rw [← h.aeval_eq a fun _ _ => rfl]
    exact AlgebraicPoint.decides hval (h.denotes.narrowed hnar)
      (h.mem_point_of_forall fun v hv => MvPoly.mem_filter_notMem_nil hv)
      fun v hv => hlast v (h.mem_vars v hv).1

end

/-! ## Two square roots of two -/

/-- Both variables share the square root of two. -/
def Assignment.sqrtTwos : Assignment := [(1, .sqrtTwo), (2, .sqrtTwo)]

section

variable {g : MvPoly} (h : g.vars = [1, 2])
include h

theorem MvPoly.ne_last_of_vars_eq : ∀ v ∈ g.vars, v ≠ 4294967295 := by
  rw [h]
  simp

theorem Assignment.exists_value_sqrtTwos :
    ∀ v ∈ g.vars, ∃ x, sqrtTwos.lookup v = some x ∧ x.Denotes .sqrtTwo √2 := by
  rw [h, List.forall_mem_cons, List.forall_mem_singleton]
  exact ⟨⟨_, rfl, Number.denotes_sqrtTwo⟩, _, rfl, Number.denotes_sqrtTwo⟩

end

end AlgebraicReal
