import AlgebraicReal.Proofs.MvPoly.Raw.Variables
import AlgebraicReal.Proofs.Overflow.Isolation

/-!
# Variables without a value

Values are looked up in the order of the variables, and all of them before any is used. So the least
variable without a value is reported, and nothing has been narrowed by then
(`PartialValue.of_of_missing`). If no value is missing, sign tests and isolation report nothing but
that the rounds are used up, even where exponents wrap around: whatever comes out as an eliminant has
no variable but the root variable (`AlgebraicPoint.over_eliminant`). `RefineM.NeedsValues` puts the
two together. A value of the root variable is not looked up at all.
-/

open MvPolynomial

namespace AlgebraicReal

open RefineM

/-- The listed variables that have no value. -/
def Assignment.missing (values : Assignment) (vs : List Var) : Set Var :=
  {w | w ∈ vs ∧ values.lookup w = none}

/-! ## The least variable without a value -/

section

variable {P : Type} [Arithmetic P] {values values' : Assignment}

/-- A variable with a value is not missing. -/
theorem Assignment.missing_cons_of_some {v : Var} {x : Number} (hv : values.lookup v = some x)
    (vs : List Var) : values.missing (v :: vs) = values.missing vs := by
  ext w
  show w ∈ v :: vs ∧ _ ↔ w ∈ vs ∧ _
  rw [List.mem_cons]
  refine and_congr_left fun hw => or_iff_right ?_
  rintro rfl
  rw [hv] at hw
  cases hw

/-- By induction on the variables, which ascend: the first one without a value is the least. -/
theorem PartialValue.substitute_of_missing : ∀ {vs : List Var}, vs.Pairwise (· < ·) →
    (values.missing vs).Nonempty → ∃ w, IsLeast (values.missing vs) w ∧
      ∀ s (value : PartialValue P), substitute s values vs value = .error (.unassigned w)
  | [], _, hne => absurd hne.some_mem.1 List.not_mem_nil
  | v :: vs, hsorted, hne => by
    rw [List.pairwise_cons] at hsorted
    cases hv : values.lookup v with
    | none =>
      refine ⟨v, ⟨⟨List.mem_cons_self, hv⟩, fun w hw => ?_⟩, fun s value => ?_⟩
      · rcases List.mem_cons.1 hw.1 with rfl | hmem
        · exact UInt32.le_refl w
        · exact UInt32.le_of_lt (hsorted.1 w hmem)
      · rw [substitute, hv]
    | some x =>
      rw [Assignment.missing_cons_of_some hv] at hne ⊢
      obtain ⟨w, hw, he⟩ := substitute_of_missing hsorted.2 hne
      refine ⟨w, hw, fun s value => ?_⟩
      rw [substitute, hv]
      simp only
      split <;> exact he s _

/-- So the least missing variable is named, before anything else is done. -/
theorem PartialValue.of_of_missing {p : P} (hsorted : (Arithmetic.vars p).Pairwise (· < ·))
    {except : List Var}
    (hne : (values.missing ((Arithmetic.vars p).filter (· ∉ except))).Nonempty) :
    ∃ w, IsLeast (values.missing ((Arithmetic.vars p).filter (· ∉ except))) w ∧
      ∀ s, PartialValue.of s values p except = .error (.unassigned w) := by
  obtain ⟨w, hw, he⟩ := substitute_of_missing (P := P) (hsorted.filter _) hne
  exact ⟨w, hw, fun s => he s _⟩

/-- If no value is missing, all of them can be taken in. -/
theorem PartialValue.exists_substitute (s : Store) : ∀ {vs : List Var}, values.missing vs = ∅ →
    ∀ value : PartialValue P, ∃ value', substitute s values vs value = .ok value'
  | [], _, value => ⟨value, rfl⟩
  | v :: vs, hempty, value => by
    cases hv : values.lookup v with
    | none =>
      have hmem : v ∈ values.missing (v :: vs) := ⟨List.mem_cons_self, hv⟩
      rw [hempty] at hmem
      exact hmem.elim
    | some x =>
      rw [Assignment.missing_cons_of_some hv] at hempty
      rw [substitute, hv]
      simp only
      split <;> exact exists_substitute s hempty _

/-- Only the values of the listed variables are looked up. -/
theorem PartialValue.substitute_congr_values (s : Store) : ∀ {vs : List Var},
    (∀ w ∈ vs, values'.lookup w = values.lookup w) → ∀ value : PartialValue P,
      substitute s values' vs value = substitute s values vs value
  | [], _, _ => rfl
  | v :: vs, h, value => by
    rw [List.forall_mem_cons] at h
    rw [substitute, substitute, h.1]
    simp only [substitute_congr_values s h.2]

/-- The value of the root variable is never looked up. -/
theorem Arithmetic.rootsUnder_congr_values (config : IsolationConfig) (p : P) {v : Var}
    (h : ∀ w, w ≠ v → values'.lookup w = values.lookup w) :
    rootsUnder config p v values' = rootsUnder config p v values := by
  have hof : ∀ s, PartialValue.of s values' p [v] = PartialValue.of s values p [v] := by
    intro s
    refine PartialValue.substitute_congr_values s (fun w hw => h w ?_) _
    rw [Var.filter_notMem_singleton] at hw
    exact of_decide_eq_true (List.mem_filter.1 hw).2
  unfold rootsUnder
  simp only [hof]

end

/-! ## Computations that need values -/

namespace RefineM

variable {α : Type} {missing : Set Var} {fits : Prop} {x : RefineM α} {s : Store}

/-- Apart from cut off searches the computation ends in an error exactly if a value is missing. The
error then names the least variable without a value, and of the store the tally changes at most. If no
value is missing there is no error but that the rounds are used up, and the computation settles if
what is multiplied on the way fits. -/
structure NeedsValues (missing : Set Var) (fits : Prop) (action : RefineM α) (s : Store) : Prop where
  refused_iff : (∃ e, e ≠ .exhausted ∧ Refuses action s e) ↔ missing.Nonempty
  unassigned : missing.Nonempty → ∃ w tally, IsLeast missing w ∧
    ∀ rounds, exec action rounds s = (.error (.unassigned w), { s with tally })
  eq_exhausted : missing = ∅ → ∀ rounds e t, exec action rounds s = (.error e, t) → e = .exhausted
  settles : missing = ∅ → fits → Settles action s fun _ _ => True

/-- A computation with one and the same error on all rounds is refused. -/
theorem refuses_of_forall_exec {tally : Tally} {e : Error} (hs : s.Valid)
    (h : ∀ rounds, exec x rounds s = (.error e, { s with tally })) (he : e ≠ .emptyOpen)
    (he' : e ≠ .emptyClosed) : Refuses x s e := by
  have hnar := narrowed_tally s tally
  refine ⟨fun rounds o t hexec => ?_, _, 0, hnar, hs, fun rounds _ => h rounds⟩
  rw [h rounds] at hexec
  cases hexec
  refine ⟨hnar, hs, nofun, fun e₁ h₁ => ?_⟩
  cases h₁
  exact ⟨he, he'⟩

/-- The refusal is for a missing value exactly if there is one. -/
theorem NeedsValues.intro (hs : s.Valid)
    (hunassigned : missing.Nonempty → ∃ w tally, IsLeast missing w ∧
      ∀ rounds, exec x rounds s = (.error (.unassigned w), { s with tally }))
    (hexhausted : missing = ∅ → ∀ rounds e t, exec x rounds s = (.error e, t) → e = .exhausted)
    (hsettles : missing = ∅ → fits → Settles x s fun _ _ => True) :
    NeedsValues missing fits x s := by
  refine ⟨⟨fun hrefused => ?_, fun hne => ?_⟩, hunassigned, hexhausted, hsettles⟩
  · obtain ⟨e, he, hrefuses⟩ := hrefused
    obtain ⟨t, N, -, -, hN⟩ := hrefuses.ends
    by_contra hempty
    exact he (hexhausted (Set.not_nonempty_iff_eq_empty.1 hempty) N e t (hN N le_rfl))
  · obtain ⟨w, tally, -, hexec⟩ := hunassigned hne
    exact ⟨.unassigned w, nofun, refuses_of_forall_exec hs hexec nofun nofun⟩

/-- A stronger condition is as good. -/
theorem NeedsValues.mono {fits' : Prop} (h : NeedsValues missing fits x s) (hf : fits' → fits) :
    NeedsValues missing fits' x s :=
  ⟨h.refused_iff, h.unassigned, h.eq_exhausted, fun hempty hfits => h.settles hempty (hf hfits)⟩

/-- No interval is ever empty, so a search can only be cut off. -/
theorem eq_exhausted_of_reports {Q : α → Store → Prop} (hsafe : Safe x s Q) {rounds : ℕ} {e : Error}
    {t : Store} (h : exec x rounds s = (.error e, t)) (he : e.OfSearch) : e = .exhausted := by
  obtain ⟨-, -, -, hinterval⟩ := hsafe rounds _ t h
  rcases he with rfl | rfl | rfl
  · rfl
  · exact absurd rfl (hinterval _ rfl).1
  · exact absurd rfl (hinterval _ rfl).2

/-- The outcome of a computation with a tally of its own, with whatever else is handed out. -/
theorem NeedsValues.metered {γ : Type} {tally : Tally} (hs : s.Valid)
    (h : NeedsValues missing fits x { s with tally })
    {f : Except Error α × Tally → RefineM (Except Error α × γ)} {g : Except Error α × Tally → γ}
    (hf : ∀ r, f r = Pure.pure (r.1, g r)) :
    NeedsValues missing fits (do ofExcept (← RefineM.metered tally x >>= f).1) s := by
  -- the run is that of `x` on the given tally, with the tally of the store put back
  have hy : ∀ rounds, exec (do ofExcept (← RefineM.metered tally x >>= f).1) rounds s
      = ((exec x rounds { s with tally }).1,
        { (exec x rounds { s with tally }).2 with tally := s.tally }) := by
    intro rounds
    rw [exec_bind, exec_bind, exec_metered]
    simp only [hf]
    exact exec_ofExcept _ _ _
  refine .intro hs (fun hne => ?_) (fun hempty rounds e t he => ?_) (fun hempty hfits => ?_)
  · obtain ⟨w, tally', hw, hexec⟩ := h.unassigned hne
    refine ⟨w, s.tally, hw, fun rounds => ?_⟩
    rw [hy, hexec]
  · rw [hy] at he
    exact h.eq_exhausted hempty rounds e (exec x rounds { s with tally }).2
      (Prod.ext (Prod.mk.inj he).1 rfl)
  · obtain ⟨a, t, N, hnar, hval, -, hN⟩ := h.settles hempty hfits
    have hback := narrowed_tally t s.tally
    refine ⟨a, { t with tally := s.tally }, N, ((narrowed_tally s tally).trans hnar).trans hback,
      hval, trivial, fun rounds hge => ?_⟩
    rw [hy, hN rounds hge]

end RefineM

/-! ## The variables of an eliminant -/

namespace AlgebraicPoint

variable {reading : MvPoly.Reading} {s : Store} {v : Var}

/-- The eliminant is free of the variables of the point, and lists no power without an exponent. -/
theorem over_eliminant : ∀ {point : AlgebraicPoint} {p e : MvPoly.Machine reading} {n : ℕ}
    {K : Set Var}, MvPoly.Raw.Over K p → MvPoly.Raw.Full p →
      eliminant s point p = .ok (e, n) →
        MvPoly.Raw.Over (K \ {w | w ∈ point.vars}) e ∧ MvPoly.Raw.Full e
  | [], p, e, n, K, hp, hfull, h => by
    cases h
    exact ⟨hp.mono fun w hw => ⟨hw, List.not_mem_nil⟩, hfull⟩
  | c :: cs, p, e, n, K, hp, hfull, h => by
    have hvars : (K \ {c.1}) \ {w | w ∈ vars cs} = K \ {w | w ∈ vars (c :: cs)} := by
      rw [Set.sdiff_sdiff]
      refine congrArg (K \ ·) (Set.ext fun w => ?_)
      exact List.mem_cons.symm
    rw [eliminant] at h
    rw [← hvars]
    split at h
    next hv =>
      cases hr : Arithmetic.eliminate p (definingPoly s c) with
      | error e' =>
        rw [hr] at h
        cases h
      | ok r =>
        rw [hr] at h
        change (eliminant s cs r >>= fun a => pure (a.1, a.2 + 1)) = Except.ok (e, n) at h
        cases hrest : eliminant s cs r with
        | error e' =>
          rw [hrest] at h
          cases h
        | ok r' =>
          rw [hrest] at h
          cases h
          obtain ⟨hover, hfull'⟩ := MvPoly.Raw.over_resultant hp hv
            (MvPoly.resultant_of_eliminate hr)
          exact over_eliminant hover hfull' hrest
    next hv =>
      -- the variable does not occur
      have hdegree : MvPoly.Raw.degree p c.1 = 0 :=
        Nat.eq_zero_of_not_pos fun hpos => hv (MvPoly.Raw.degree_pos_iff.1 hpos)
      exact over_eliminant (hp.diff hfull hdegree) hfull h

/-- If the polynomial has no variables but `v` and those of the point, its eliminant is one in `v`
alone. -/
theorem exists_toUniPoly_eliminant {point : AlgebraicPoint} {p e : MvPoly.Machine reading} {n : ℕ}
    (hp : MvPoly.Raw.Over {w | w ∉ [v] → w ∈ point.vars} p) (hfull : MvPoly.Raw.Full p)
    (h : eliminant s point p = .ok (e, n)) : ∃ u, Arithmetic.toUniPoly e v = .ok u := by
  refine MvPoly.Raw.exists_toUniPoly ((over_eliminant hp hfull h).1.mono fun w hw => ?_)
  by_contra hne
  exact hw.2 (hw.1 fun hmem => hne (List.mem_singleton.1 hmem))

end AlgebraicPoint

/-- A variable whose value has been taken in is gone, or it is one of the point. -/
theorem PartialValue.over_substitute {reading : MvPoly.Reading} {s : Store} {values : Assignment} :
    ∀ {vs : List Var} {g g' : PartialValue (MvPoly.Machine reading)} {K : Set Var},
      MvPoly.Raw.Over K g.poly → MvPoly.Raw.Full g.poly → substitute s values vs g = .ok g' →
        MvPoly.Raw.Over {w | w ∈ K ∧ (w ∈ vs → w ∈ g'.point.vars)} g'.poly ∧
          MvPoly.Raw.Full g'.poly ∧ ∀ w ∈ g.point.vars, w ∈ g'.point.vars
  | [], g, g', K, hover, hfull, h => by
    cases h
    exact ⟨hover.mono fun w hw => ⟨hw, fun hmem => absurd hmem List.not_mem_nil⟩, hfull,
      fun _ hw => hw⟩
  | v :: vs, g, g', K, hover, hfull, h => by
    -- a value that is held by a locator puts its variable into the point
    have hcoordinate : ∀ id, substitute s values vs { g with point := g.point ++ [(v, id)] } = .ok g' →
        MvPoly.Raw.Over {w | w ∈ K ∧ (w ∈ v :: vs → w ∈ g'.point.vars)} g'.poly ∧
          MvPoly.Raw.Full g'.poly ∧ ∀ w ∈ g.point.vars, w ∈ g'.point.vars := fun id h => by
      obtain ⟨hover', hfull', hpoint⟩ :=
        over_substitute (g := { g with point := g.point ++ [(v, id)] }) hover hfull h
      have hv : v ∈ g'.point.vars := hpoint v (AlgebraicPoint.mem_vars_append.2 (.inr rfl))
      refine ⟨hover'.mono fun w hw => ⟨hw.1, fun hmem => ?_⟩, hfull', fun w hw =>
        hpoint w (AlgebraicPoint.mem_vars_append.2 (.inl hw))⟩
      exact (List.mem_cons.1 hmem).elim (fun heq => heq ▸ hv) hw.2
    rw [substitute] at h
    split at h
    next => cases h
    next =>
      split at h
      next c _ =>
        obtain ⟨hover', hfull'⟩ := MvPoly.Raw.over_evalAt (v := v) hover hfull c
        obtain ⟨hover', hfull', hpoint⟩ := over_substitute hover' hfull' h
        exact ⟨hover'.mono fun w hw => ⟨hw.1.1, fun hmem =>
          hw.2 ((List.mem_cons.1 hmem).resolve_left hw.1.2)⟩, hfull', hpoint⟩
      next id _ => exact hcoordinate id h
      next u _ => exact hcoordinate u.locator h

/-! ## Sign tests and isolation -/

/-- Where no value is missing, there is a real for every variable. -/
theorem Assignment.exists_reals {s : Store} {values : Assignment} {vs : List Var}
    (hempty : values.missing vs = ∅) (hvalues : values.Valued s vs) :
    ∃ a : Var → ℝ, ∀ w ∈ vs, ∃ x, values.lookup w = some x ∧ x.Denotes s (a w) := by
  have hreal : ∀ w, ∃ y : ℝ, w ∈ vs → ∃ x, values.lookup w = some x ∧ x.Denotes s y := by
    intro w
    by_cases hw : w ∈ vs
    · have hnot : w ∉ values.missing vs := by
        rw [hempty]
        exact Set.notMem_empty w
      obtain ⟨x, hx⟩ := Option.ne_none_iff_exists'.1 fun hnone => hnot ⟨hw, hnone⟩
      obtain ⟨y, hy⟩ := hvalues w hw x hx
      exact ⟨y, fun _ => ⟨x, hx, hy⟩⟩
    · exact ⟨0, fun hmem => absurd hmem hw⟩
  choose a ha using hreal
  exact ⟨a, ha⟩

section

variable {reading : MvPoly.Reading} {s t : Store} {values : Assignment}
  {p : MvPoly.Machine reading} {v : Var} {rounds : ℕ} {e : Error} (hs : s.Valid)
  (hvalues : values.Valued s (Arithmetic.vars p))
include hs hvalues

/-- If all variables have values, a sign test has no other error than that its rounds are used up,
even if exponents wrap around. -/
theorem MvPoly.eq_exhausted_of_signUnder (hempty : values.missing (Arithmetic.vars p) = ∅)
    (h : exec (Arithmetic.signUnder p values) rounds s = (.error e, t)) : e = .exhausted := by
  refine eq_exhausted_of_reports (Arithmetic.safe_signUnder hs hvalues) h ?_
  obtain ⟨g, hof⟩ := PartialValue.exists_substitute s hempty ⟨p, []⟩
  unfold Arithmetic.signUnder PartialValue.of at h
  rw [exec_get_bind, Var.filter_notMem_nil, hof, ofExcept_ok_bind] at h
  exact AlgebraicPoint.reports_sign (fun _ he => he)
    (fun _ _ _ he => .inl (eliminate_machine_error he)) _ rounds s e (congrArg Prod.fst h)

/-- The same of isolation, if all variables but the root variable have values. -/
theorem MvPoly.eq_exhausted_of_rootsUnder (config : IsolationConfig) (hp : MvPoly.Raw.Tidy p)
    (hempty : values.missing ((Arithmetic.vars p).filter (· ≠ v)) = ∅)
    (h : exec (Arithmetic.rootsUnder config p v values) rounds s = (.error e, t)) :
    e = .exhausted := by
  refine eq_exhausted_of_reports (Arithmetic.safe_rootsUnder config hs hvalues) h ?_
  -- an elimination in machine words fails only by running out
  have hsearch : ∀ (q : Machine reading) (u : UniPoly) (e : Error),
      Arithmetic.eliminate q u = .error e → e.OfSearch := fun q u e he =>
    .inl (eliminate_machine_error he)
  rw [← Var.filter_notMem_singleton] at hempty
  obtain ⟨g, hof⟩ := PartialValue.exists_substitute
    { s with tally := { s.tally with isolations := s.tally.isolations + 1 } } hempty ⟨p, []⟩
  obtain ⟨hover, hfull, -⟩ := PartialValue.over_substitute hp.over hp.full hof
  unfold Arithmetic.rootsUnder PartialValue.of at h
  rw [exec_bind, exec_count] at h
  simp only at h
  rw [exec_get_bind, hof, ofExcept_ok_bind] at h
  refine ((AlgebraicPoint.reports_effectiveDegree (fun _ he => he) hsearch _).bind fun o => ?_)
    rounds _ e (congrArg Prod.fst h)
  split
  next => exact .pure _
  next => exact .pure _
  next d _ =>
    obtain ⟨hover', hfull'⟩ := MvPoly.Raw.over_truncate (v := v) hover hfull d
    refine AlgebraicPoint.reports_roots (fun _ he => he) hsearch config fun t e n he => ?_
    refine AlgebraicPoint.exists_toUniPoly_eliminant (hover'.mono fun w hw hwv => ?_) hfull' he
    exact hw.2 (List.mem_filter.2 ⟨hw.1, decide_eq_true hwv⟩)

variable (hlast : ∀ w ∈ Arithmetic.vars p, w ≠ 4294967295)
include hlast

/-- A missing value is named; with all of them given, no polynomial on the way has a foreign
variable. -/
theorem MvPoly.needsValues_rootsUnder (config : IsolationConfig) (hp : MvPoly.Raw.Tidy p) :
    NeedsValues (values.missing ((Arithmetic.vars p).filter (· ≠ v)))
      (∃ q : MvPoly, p = q.machine reading ∧ q.Fits ∧
        NoOverflow (Arithmetic.rootsUnder config q.checked v values) s)
      (Arithmetic.rootsUnder config p v values) s := by
  refine .intro hs (fun hne => ?_) (fun hempty rounds e t =>
    eq_exhausted_of_rootsUnder hs hvalues config hp hempty) fun hempty hfits => ?_
  · rw [← Var.filter_notMem_singleton] at hne ⊢
    obtain ⟨w, hw, he⟩ := PartialValue.of_of_missing (Raw.sorted_vars p) hne
    refine ⟨w, { s.tally with isolations := s.tally.isolations + 1 }, hw, fun rounds => ?_⟩
    unfold Arithmetic.rootsUnder
    rw [exec_bind, exec_count]
    simp only
    rw [exec_get_bind, he]
    rfl
  · obtain ⟨q, rfl, hq, hno⟩ := hfits
    rw [vars_machine] at hempty hvalues hlast
    obtain ⟨a, ha⟩ := Assignment.exists_reals hempty fun w hw => hvalues w (List.mem_filter.1 hw).1
    have hall : ∀ w ∈ q.vars, w ≠ v → ∃ x, values.lookup w = some x ∧ x.Denotes s (a w) :=
      fun w hw hwv => ha w (List.mem_filter.2 ⟨hw, decide_eq_true hwv⟩)
    have hexact := MvPoly.rootsUnder_exactIf (C := True) (D := True) config hs
      (Assignment.denotes_of_forall hall) (fun _ => Assignment.lookup_ne_none hall) id fun _ => hlast
    exact ((Arithmetic.sameRuns_rootsUnder reading hq hno).settles_iff.2
      (hexact.settles trivial)).mono fun _ _ _ _ _ => trivial

/-- To pick a root fails in no other way. -/
theorem RootExpr.needsValues_evaluate (hp : MvPoly.Raw.Tidy p) {k : ℕ} (hk : 0 < k) :
    NeedsValues (values.missing ((Arithmetic.vars p).filter (· ≠ v)))
      (∃ q : MvPoly, p = q.machine reading ∧ q.Fits ∧
        NoOverflow (Arithmetic.realRoots q.checked v values) s)
      (evaluate ⟨p, k, v, hk⟩ values) s := by
  have hroots := MvPoly.needsValues_rootsUnder (v := v) hs hvalues hlast {} hp
  refine .intro hs (fun hne => ?_) (fun hempty rounds e t h => ?_) fun hempty hfits => ?_
  · obtain ⟨w, tally, hw, hexec⟩ := hroots.unassigned hne
    refine ⟨w, tally, hw, fun rounds => ?_⟩
    unfold evaluate Arithmetic.realRoots
    rw [exec_bind, hexec rounds]
  · unfold evaluate Arithmetic.realRoots at h
    rw [exec_bind] at h
    cases hexec : exec (Arithmetic.rootsUnder {} p v values) rounds s with
    | mk o t' =>
      rw [hexec] at h
      cases o with
      | error e' =>
        cases h
        exact hroots.eq_exhausted hempty rounds e t hexec
      | ok roots => cases roots <;> cases h
  · refine (hroots.settles hempty hfits).bind fun o t _ hval _ => ?_
    cases o <;> exact .pure hval trivial

/-- The annihilator has no variable but the scratch variable. -/
theorem MvPoly.needsValues_signUnder : NeedsValues (values.missing (Arithmetic.vars p))
    (∃ q : MvPoly, p = q.machine reading ∧ q.Fits ∧
      NoOverflow (Arithmetic.signUnder q.checked values) s)
    (Arithmetic.signUnder p values) s := by
  refine .intro hs (fun hne => ?_) (fun hempty rounds e t =>
    eq_exhausted_of_signUnder hs hvalues hempty) fun hempty hfits => ?_
  · rw [← Var.filter_notMem_nil (Arithmetic.vars p)] at hne ⊢
    obtain ⟨w, hw, he⟩ := PartialValue.of_of_missing (Raw.sorted_vars p) hne
    refine ⟨w, s.tally, hw, fun rounds => ?_⟩
    unfold Arithmetic.signUnder
    rw [exec_get_bind, he]
    rfl
  · obtain ⟨q, rfl, hq, hno⟩ := hfits
    rw [vars_machine] at hempty hvalues hlast
    obtain ⟨a, ha⟩ := Assignment.exists_reals hempty hvalues
    have hexact := MvPoly.signUnder_exactIf (C := True) (D := True) hs
      (Assignment.denotes_of_forall_mem ha)
      (fun _ => Assignment.lookup_ne_none_of_forall_mem ha) id
      fun _ _ hof hlacks => absurd hlacks (PartialValue.not_lacksScratch_of_eq hlast hof)
    exact ((Arithmetic.sameRuns_signUnder reading hq hno).settles_iff.2
      (hexact.settles trivial)).mono fun _ _ _ _ _ => trivial

end

end AlgebraicReal
