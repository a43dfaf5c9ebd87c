import AlgebraicReal.Proofs.Isolator.Transparency
import AlgebraicReal.Proofs.MvPoly.Renaming

/-!
# Signs and roots under other names

The names of the variables decide in which order terms are kept, values are put in and coordinates are
eliminated, and which variable is free for scratch. As long as no sum of exponents overflows, an
answer does not depend on any of that (`Isolator.renaming_exact`). Whether there is one does: a sign
test needs a variable above all others, and if the last of all variables is among several algebraic
ones there is none. A value other than zero shows its sign nevertheless, but zero is never told from a
small number, and the search goes on forever (`Isolator.signUnder_swap_last`).
-/

open MvPolynomial

namespace AlgebraicReal

open RefineM

variable {s t t' : Store} {values : Assignment} {p g : MvPoly} {v z : Var} {a : Var → ℝ}
  {f : Var → Var} {iso iso' : Isolator} {rounds rounds' : ℕ}

/-! ## Assignments -/

/-- The same values under other names. -/
def Assignment.mapVars (f : Var → Var) (values : Assignment) : Assignment :=
  values.map fun c => (f c.1, c.2)

namespace Assignment

/-- A renamed variable has the value that it had. -/
theorem lookup_mapVars (hf : Function.Injective f) (v : Var) : ∀ values : Assignment,
    (values.mapVars f).lookup (f v) = values.lookup v
  | [] => rfl
  | (w, x) :: rest => by
    show List.lookup (f v) ((f w, x) :: mapVars f rest) = _
    by_cases h : v = w
    · rw [h, List.lookup_cons_self, List.lookup_cons_self]
    · rw [List.lookup_cons, List.lookup_cons, beq_false_of_ne h, beq_false_of_ne (hf.ne h)]
      exact lookup_mapVars hf v rest

/-- The values of the new names. -/
theorem exists_value_mapVars (hf : Function.Injective f)
    (h : ∀ v ∈ g.vars, v ≠ z → ∃ x, values.lookup v = some x ∧ x.Denotes s (a v)) :
    ∀ w ∈ (g.mapVars f).vars, w ≠ f z →
      ∃ x, (values.mapVars f).lookup w = some x ∧ x.Denotes s (Function.extend f a 0 w) := by
  intro w hw hne
  obtain ⟨v, hv, rfl⟩ := (MvPoly.mem_vars_mapVars hf).1 hw
  rw [lookup_mapVars hf, hf.extend_apply]
  exact h v hv fun heq => hne (congrArg f heq)

/-- Conjugates do not have names. -/
theorem degenerate_mapVars (hf : Function.Injective f) {b : Var → ℝ} :
    (values.mapVars f).Degenerate s (p.mapVars f) (f v) b
      ↔ values.Degenerate s p v (b ∘ f) := by
  unfold Degenerate
  rw [MvPoly.specialize_mapVars hf]
  refine and_congr_right fun _ => ?_
  simp only [MvPoly.coeff_mapVars hf, MvPoly.aeval_mapVars]
  constructor
  · rintro ⟨ρ, hρ, hzero⟩
    refine ⟨ρ ∘ f, fun w hw hne => ?_, hzero⟩
    obtain ⟨x, hx, hconj⟩ := hρ (f w) ((MvPoly.mem_vars_mapVars_self hf).2 hw) (hf.ne hne)
    rw [lookup_mapVars hf] at hx
    exact ⟨x, hx, hconj⟩
  · rintro ⟨ρ, hρ, hzero⟩
    refine ⟨Function.extend f ρ 0, fun w hw hne => ?_, ?_⟩
    · obtain ⟨u, hu, rfl⟩ := (MvPoly.mem_vars_mapVars hf).1 hw
      rw [lookup_mapVars hf, hf.extend_apply]
      exact hρ u hu fun heq => hne (congrArg f heq)
    · rwa [Function.extend_comp hf]

/-- A rational value in the place of the variable that has it, and other variables as they are. -/
noncomputable def rationals (s : Store) (values : Assignment) (v : Var) : MvPolynomial Var ℚ :=
  match values.lookup v with
  | none => X v
  | some x =>
    match x.form s with
    | .rational q => C q
    | .root _ | .thom _ => X v

/-- What is put in for it is renamed as well. -/
theorem rationals_mapVars (hf : Function.Injective f) (s : Store) (values : Assignment) (v : Var) :
    (values.mapVars f).rationals s (f v) = rename f (values.rationals s v) := by
  unfold rationals
  rw [lookup_mapVars hf]
  split
  next => exact (rename_X f v).symm
  next =>
    split
    next => exact (rename_C f _).symm
    next => exact (rename_X f v).symm
    next => exact (rename_X f v).symm

end Assignment

/-! ## Taking in the values -/

namespace PartialValue

variable {value value' : PartialValue MvPoly}

/-- By induction on the variables: rational values are put in, the others stay variables. -/
theorem toPolynomial_of_substitute : ∀ {vs : List Var} {value value' : PartialValue MvPoly},
    substitute s values vs value = .ok value' →
      value'.poly.toPolynomial
        = aeval (fun w => if w ∈ vs then values.rationals s w else X w) value.poly.toPolynomial
  | [], value, _, h => by
    cases h
    simp only [List.not_mem_nil, if_false]
    exact (aeval_X_left_apply _).symm
  | v :: vs, value, value', h => by
    rw [substitute] at h
    -- the values of the other variables are the same on both sides
    have hother : ∀ w, w ≠ v → (if w ∈ v :: vs then values.rationals s w else X w)
        = if w ∈ vs then values.rationals s w else X w := fun w hne =>
      if_congr (List.mem_cons.trans (or_iff_right hne)) rfl rfl
    -- a value that is not rational leaves the variable in its place
    have hkept : values.rationals s v = X v →
        (fun w => if w ∈ v :: vs then values.rationals s w else X w)
          = fun w => if w ∈ vs then values.rationals s w else X w := fun heq => by
      funext w
      by_cases hwv : w = v
      · rw [hwv, heq, ite_self, ite_self]
      · exact hother w hwv
    cases hlookup : values.lookup v with
    | none =>
      rw [hlookup] at h
      cases h
    | some x =>
      rw [hlookup] at h
      simp only at h
      cases hform : x.form s with
      | rational q =>
        rw [hform] at h
        rw [toPolynomial_of_substitute h, Arithmetic.evalAt_mvPoly, MvPoly.aeval_evalAt]
        congr 2
        funext w
        by_cases hwv : w = v
        · subst hwv
          rw [Function.update_self, if_pos List.mem_cons_self, Assignment.rationals, hlookup]
          simp only [hform]
          rfl
        · rw [Function.update_of_ne hwv, hother w hwv]
      | root _ | thom _ =>
        rw [hform] at h
        rw [toPolynomial_of_substitute h, hkept]
        rw [Assignment.rationals, hlookup]
        simp only [hform]

/-- What is left of a polynomial when all values have been taken in. -/
theorem toPolynomial_of (h : PartialValue.of s values p [] = .ok value) :
    value.poly.toPolynomial = aeval (values.rationals s) p.toPolynomial := by
  rw [toPolynomial_of_substitute h]
  exact MvPoly.aeval_congr fun w hw => if_pos (MvPoly.mem_filter_notMem_nil hw)

/-- Under other names the same is left. -/
theorem poly_mapVars (hf : Function.Injective f) (h : PartialValue.of s values p [] = .ok value)
    (h' : PartialValue.of s (values.mapVars f) (p.mapVars f) [] = .ok value') :
    value'.poly = value.poly.mapVars f := by
  refine MvPoly.toPolynomial_injective ?_
  rw [MvPoly.toPolynomial_mapVars, toPolynomial_of h, toPolynomial_of h', MvPoly.aeval_mapVars,
    ← AlgHom.comp_apply, comp_aeval]
  exact congrArg (aeval · p.toPolynomial)
    (funext fun v => Assignment.rationals_mapVars hf s values v)

end PartialValue

/-! ## When a sign is found -/

section

variable (hvalues : ∀ v ∈ g.vars, ∃ x, values.lookup v = some x ∧ x.Denotes s (a v))
include hvalues

/-- With all values given nothing is refused. -/
theorem PartialValue.exists_of : ∃ value, PartialValue.of s values g [] = .ok value := by
  rcases of_eq g [] fun v hv => Assignment.denotes_of_forall_mem hvalues v (List.mem_filter.1 hv).1
    with ⟨v, hv, -, hnone, -⟩ | ⟨value, he, -⟩
  · exact absurd hnone (Assignment.lookup_ne_none_of_forall_mem hvalues v hv)
  · exact ⟨value, he⟩

namespace Isolator

/-- Any answer is the sign of the value. -/
theorem eq_ofReal_of_exec_signUnder (hs : s.Valid) {r : Except Error Sign × Isolator} {o : Sign}
    (h : exec (iso.signUnder g values) rounds s = (.ok r, t)) (ho : r.1 = .ok o) :
    o = Sign.ofReal (aeval a g.toPolynomial) := by
  have ha := (Assignment.denotes_of_forall_mem hvalues).narrowed hs (narrowed_tally s iso.tally)
  have hall := Assignment.lookup_ne_none_of_forall_mem hvalues
  have hexact := MvPoly.signUnder_exactIf (C := False) (D := True)
    (s := { s with tally := iso.tally }) hs ha (fun _ => hall) nofun nofun
  have hsafe : Safe (iso.signUnder g values) s fun r _ =>
      ∀ o, r.1 = .ok o → o = Sign.ofReal (aeval a g.toPolynomial) :=
    (hexact.safe.metered fun o t u _ _ ho => ho).bind fun r t _ hval hr =>
      Safe.pure hval fun o ho => hr.1 o ho trivial
  exact (hsafe rounds _ t h).2.2.1 r rfl o ho

/-- A zero is not found if there is no scratch variable. -/
theorem eq_exhausted_of_exec_signUnder (hs : s.Valid) {value : PartialValue MvPoly}
    (hof : PartialValue.of s values g [] = .ok value) (hlacks : value.poly.LacksScratch)
    (hzero : aeval a g.toPolynomial = 0) {r : Except Error Sign × Isolator}
    (h : exec (iso.signUnder g values) rounds s = (.ok r, t)) : r.1 = .error .exhausted := by
  have ha := (Assignment.denotes_of_forall_mem hvalues).narrowed hs (narrowed_tally s iso.tally)
  have hof' : PartialValue.of { s with tally := iso.tally } values g [] = .ok value :=
    (PartialValue.of_congr (s := s) (t := { s with tally := iso.tally }) rfl g []).trans hof
  obtain ⟨r', u, hmetered, hpure⟩ := exec_bind_eq_ok h
  rw [exec_metered, MvPoly.exec_signUnder_of_lacksScratch
    (s := { s with tally := iso.tally }) hs ha hof' hlacks hzero] at hmetered
  cases hmetered
  cases hpure
  rfl

/-- The sign is found unless there is no scratch variable and the sign is zero. -/
theorem signUnder_settles_iff (iso : Isolator) (hs : s.Valid) {value : PartialValue MvPoly}
    (hof : PartialValue.of s values g [] = .ok value) :
    (Settles (iso.signUnder g values) s fun r _ =>
        r.1 = .ok (Sign.ofReal (aeval a g.toPolynomial))) ↔
      ¬(value.poly.LacksScratch ∧ aeval a g.toPolynomial = 0) := by
  constructor
  · rintro ⟨r, t, N, -, -, hr, hexec⟩ ⟨hlacks, hzero⟩
    rw [eq_exhausted_of_exec_signUnder hvalues hs hof hlacks hzero (hexec N le_rfl)] at hr
    cases hr
  · intro hnot
    have ha := (Assignment.denotes_of_forall_mem hvalues).narrowed hs (narrowed_tally s iso.tally)
    have hall := Assignment.lookup_ne_none_of_forall_mem hvalues
    have hexact := MvPoly.signUnder_exactIf (C := True) (D := True)
      (s := { s with tally := iso.tally }) hs ha (fun _ => hall) id fun _ value' hof' hlacks => by
        rw [PartialValue.of_congr (s := s) (t := { s with tally := iso.tally }) rfl g [], hof]
          at hof'
        cases hof'
        exact not_and.1 hnot hlacks
    refine ((hexact.settles trivial).metered fun o t u _ _ ho => ho).bind fun r t _ hval hr => ?_
    obtain ⟨o, hro, ho⟩ := hr
    exact Settles.pure hval (by rw [hro, ho trivial])

end Isolator

end

/-! ## Under other names -/

/-- In machine words signs and roots do not depend on the names of the variables, if what is
multiplied on the way fits into words under the old names and under the new ones. Two answers about a
sign are the same, and so are two answers about roots, whatever injective map renames the variables.
A sign is found under the new names unless it is zero and, once rational values have been put in, the
last of all variables is one of several. Roots are found under new names other than the last one. -/
theorem Isolator.renaming_exact (reading reading' : MvPoly.Reading) (hf : Function.Injective f)
    (iso iso' : Isolator) (hs : s.Valid)
    (hvalues : ∀ v ∈ g.vars, v ≠ z → ∃ x, values.lookup v = some x ∧ x.Denotes s (a v)) :
    ((z ∈ g.vars → ∃ x, values.lookup z = some x ∧ x.Denotes s (a z)) →
      iso.SignFits s g values → iso'.SignFits s (g.mapVars f) (values.mapVars f) →
      (∀ {rounds rounds' r r' t t' o o'},
        exec (iso.signUnder (g.machine reading) values) rounds s = (.ok r, t) → r.1 = .ok o →
        exec (iso'.signUnder ((g.mapVars f).machine reading') (values.mapVars f)) rounds' s
          = (.ok r', t') →
        r'.1 = .ok o' → o' = o) ∧
      ∃ value : PartialValue MvPoly, PartialValue.of s values g [] = .ok value ∧
        PartialValue.of s values (g.machine reading) []
          = .ok ⟨value.poly.machine reading, value.point⟩ ∧
        ((Settles (iso.signUnder (g.machine reading) values) s fun r _ =>
            r.1 = .ok (Sign.ofReal (aeval a g.toPolynomial))) ↔
          ¬(value.poly.LacksScratch ∧ aeval a g.toPolynomial = 0)) ∧
        ((Settles (iso'.signUnder ((g.mapVars f).machine reading') (values.mapVars f)) s fun r _ =>
            r.1 = .ok (Sign.ofReal (aeval a g.toPolynomial))) ↔
          ¬((value.poly.mapVars f).LacksScratch ∧ aeval a g.toPolynomial = 0))) ∧
    (iso'.RootsFit s (g.mapVars f) (f z) (values.mapVars f) →
      (iso.RootsFit s g z values → ∀ {rounds rounds' r r' t t' roots roots'},
        exec (iso.isolate (g.machine reading) z values) rounds s = (.ok r, t) → r.1 = .ok roots →
        exec (iso'.isolate ((g.mapVars f).machine reading') (f z) (values.mapVars f)) rounds' s
          = (.ok r', t') →
        r'.1 = .ok roots' → SameRoots t t' roots roots') ∧
      ((∀ v ∈ g.vars, f v ≠ 4294967295) →
        Settles (iso'.isolate ((g.mapVars f).machine reading') (f z) (values.mapVars f)) s
          fun r _ => ∃ roots, r.1 = .ok roots ∧ (roots = none ↔
            g.specialize z a = 0 ∨ values.Degenerate s g z a))) := by
  have hvalues' := Assignment.exists_value_mapVars hf hvalues
  -- the values of the new names, by which everything is the same as under the old ones
  have hcomp : Function.extend f a 0 ∘ f = a := Function.extend_comp hf a 0
  have hspecialize : (g.mapVars f).specialize (f z) (Function.extend f a 0) = g.specialize z a := by
    rw [MvPoly.specialize_mapVars hf, hcomp]
  have hdegenerate : (values.mapVars f).Degenerate s (g.mapVars f) (f z) (Function.extend f a 0)
      ↔ values.Degenerate s g z a := by
    rw [Assignment.degenerate_mapVars hf, hcomp]
  refine ⟨fun hz hfits hfits' => ?_, fun hfits' => ⟨fun hfits {rounds rounds' _ _ t t' _ _} h ho h'
    ho' => ?_, fun hfree => ?_⟩⟩
  · have hall : ∀ v ∈ g.vars, ∃ x, values.lookup v = some x ∧ x.Denotes s (a v) := fun v hv => by
      by_cases hvz : v = z
      · exact hvz ▸ hz (hvz ▸ hv)
      · exact hvalues v hv hvz
    have hall' : ∀ w ∈ (g.mapVars f).vars, ∃ x, (values.mapVars f).lookup w = some x ∧
        x.Denotes s (Function.extend f a 0 w) := fun w hw => by
      obtain ⟨v, hv, rfl⟩ := (MvPoly.mem_vars_mapVars hf).1 hw
      rw [Assignment.lookup_mapVars hf, hf.extend_apply]
      exact hall v hv
    have hvalue : aeval (Function.extend f a 0) (g.mapVars f).toPolynomial
        = aeval a g.toPolynomial := by
      rw [MvPoly.aeval_mapVars, hcomp]
    have hruns := sameRuns_signUnder reading hfits
    have hruns' := sameRuns_signUnder reading' hfits'
    refine ⟨fun {rounds rounds' _ _ _ _ _ _} h ho h' ho' => ?_, ?_⟩
    · rw [eq_ofReal_of_exec_signUnder hall hs ((hruns rounds).symm.trans h) ho,
        eq_ofReal_of_exec_signUnder hall' hs ((hruns' rounds').symm.trans h') ho', hvalue]
    · obtain ⟨value, hof⟩ := PartialValue.exists_of hall
      obtain ⟨value', hof'⟩ := PartialValue.exists_of hall'
      have hiff := signUnder_settles_iff hall' iso' hs hof'
      rw [hvalue, PartialValue.poly_mapVars hf hof hof'] at hiff
      exact ⟨value, hof, (PartialValue.of_machine reading hfits.fits hof).1,
        hruns.settles_iff.trans (signUnder_settles_iff hall iso hs hof),
        hruns'.settles_iff.trans hiff⟩
  · have hruns := sameRuns_isolate reading hfits
    have hruns' := sameRuns_isolate reading' hfits'
    have hanswers := answers_of_exec hvalues hs ((hruns rounds).symm.trans h) ho
    have hanswers' := answers_of_exec hvalues' hs ((hruns' rounds').symm.trans h') ho'
    rw [hspecialize, hdegenerate] at hanswers'
    exact (hanswers.sameRoots_iff hanswers').2 Iff.rfl
  · have hlast : ∀ w ∈ (g.mapVars f).vars, w ≠ 4294967295 := fun w hw => by
      obtain ⟨v, hv, rfl⟩ := (MvPoly.mem_vars_mapVars hf).1 hw
      exact hfree v hv
    have hsettles := isolate_settles_answer hvalues' iso' hs hlast
    rw [hspecialize, hdegenerate] at hsettles
    exact (sameRuns_isolate reading' hfits').settles_iff.2 hsettles

/-! ## The difference of two square roots of two -/

/-- Both values are coordinates, with one locator. -/
theorem PartialValue.of_difference :
    PartialValue.of .sqrtTwo .sqrtTwos MvPoly.difference [] = .ok ⟨.difference, [(1, 0), (2, 0)]⟩ := by
  have hvars : Arithmetic.vars MvPoly.difference = [1, 2] := MvPoly.vars_difference
  rw [PartialValue.of, hvars]
  rfl

section

variable {f : Var → Var} (hf : Function.Injective f)
include hf

/-- Both square roots under other names. -/
theorem Assignment.exists_value_mapVars_sqrtTwos : ∀ w ∈ (MvPoly.difference.mapVars f).vars,
    ∃ x, (sqrtTwos.mapVars f).lookup w = some x ∧ x.Denotes .sqrtTwo √2 := by
  intro w hw
  obtain ⟨v, hv, rfl⟩ := (MvPoly.mem_vars_mapVars hf).1 hw
  rw [lookup_mapVars hf]
  exact exists_value_sqrtTwos MvPoly.vars_difference v hv

end

/-- One run on checked words shows it. -/
theorem Isolator.signFits_difference : SignFits {} .sqrtTwo .difference .sqrtTwos :=
  .of_isOk (n := 8) (by decide_cbv) (by decide +kernel)

/-- With seven instead of two as a name the zero is found, and the root as well. -/
theorem Isolator.renaming_seven : Function.Injective (Equiv.swap (2 : Var) 7) ∧
    SignFits {} .sqrtTwo .difference .sqrtTwos ∧
    SignFits {} .sqrtTwo (MvPoly.difference.mapVars (Equiv.swap 2 7))
      (Assignment.sqrtTwos.mapVars (Equiv.swap 2 7)) ∧
    RootsFit {} .sqrtTwo (MvPoly.difference.mapVars (Equiv.swap 2 7)) (Equiv.swap 2 7 2)
      (Assignment.sqrtTwos.mapVars (Equiv.swap 2 7)) ∧
    Settles (signUnder {} ((MvPoly.difference.mapVars (Equiv.swap 2 7)).machine .backward)
      (Assignment.sqrtTwos.mapVars (Equiv.swap 2 7))) .sqrtTwo (fun r _ => r.1 = .ok .zero) ∧
    Settles (isolate {} ((MvPoly.difference.mapVars (Equiv.swap 2 7)).machine .backward)
      (Equiv.swap 2 7 2) (Assignment.sqrtTwos.mapVars (Equiv.swap 2 7))) .sqrtTwo
        (fun r _ => ∃ ns, r.1 = .ok (some ns)) := by
  have hf : Function.Injective (Equiv.swap (2 : Var) 7) := Equiv.injective _
  have hfree : ∀ v ∈ MvPoly.difference.vars, Equiv.swap (2 : Var) 7 v ≠ 4294967295 := by
    rw [MvPoly.vars_difference, List.forall_mem_cons, List.forall_mem_singleton]
    decide
  have hsignFits : SignFits {} .sqrtTwo (MvPoly.difference.mapVars (Equiv.swap 2 7))
      (Assignment.sqrtTwos.mapVars (Equiv.swap 2 7)) :=
    .of_isOk (n := 8) (by decide_cbv) (by decide +kernel)
  have hrootsFit : RootsFit {} .sqrtTwo (MvPoly.difference.mapVars (Equiv.swap 2 7))
      (Equiv.swap 2 7 2) (Assignment.sqrtTwos.mapVars (Equiv.swap 2 7)) :=
    .of_isOk (n := 8) (by decide_cbv) (by decide +kernel)
  have hvalues := Assignment.exists_value_sqrtTwos MvPoly.vars_difference
  obtain ⟨hsign, hroots⟩ := renaming_exact .backward .backward hf {} {} Store.valid_sqrtTwo
    (g := .difference) (z := 2) fun v hv _ => hvalues v hv
  obtain ⟨-, value, hof, -, -, hiff⟩ := hsign (fun hz => hvalues 2 hz) signFits_difference hsignFits
  obtain rfl := Except.ok.inj (PartialValue.of_difference.symm.trans hof)
  refine ⟨hf, signFits_difference, hsignFits, hrootsFit, ?_, ?_⟩
  · rw [MvPoly.aeval_difference, sub_self, Sign.ofReal_eq_zero_iff.2 rfl] at hiff
    refine hiff.2 fun hnot => ?_
    obtain ⟨v, hv, heq⟩ := (MvPoly.mem_vars_mapVars hf).1 hnot.1.1
    exact hfree v hv heq
  · refine ((hroots hrootsFit).2 hfree).mono fun r _ _ _ hr => ?_
    obtain ⟨roots, hr, hnone⟩ := hr
    cases roots with
    | none => exact absurd (hnone.1 rfl) MvPoly.defined_difference
    | some ns => exact ⟨ns, hr⟩

example : (exec (Isolator.signUnder {} (MvPoly.difference.mapVars (Equiv.swap 2 7)).checked
    (Assignment.sqrtTwos.mapVars (Equiv.swap 2 7))) 8 .sqrtTwo).1.map Prod.fst
      = .ok (.ok .zero) := by
  decide +kernel

/-- With the last of all variables instead of two as a name, the zero is not found any more, although
nothing overflows. -/
theorem Isolator.signUnder_swap_last : Function.Injective (Equiv.swap (2 : Var) 4294967295) ∧
    SignFits {} .sqrtTwo (MvPoly.difference.mapVars (Equiv.swap 2 4294967295))
      (Assignment.sqrtTwos.mapVars (Equiv.swap 2 4294967295)) ∧
    Settles (signUnder {} (MvPoly.difference.machine .backward) .sqrtTwos) .sqrtTwo
      (fun r _ => r.1 = .ok .zero) ∧
    ∀ rounds r t, exec (signUnder {}
      ((MvPoly.difference.mapVars (Equiv.swap 2 4294967295)).machine .backward)
      (Assignment.sqrtTwos.mapVars (Equiv.swap 2 4294967295))) rounds .sqrtTwo = (.ok r, t) →
        r.1 = .error .exhausted := by
  have hf : Function.Injective (Equiv.swap (2 : Var) 4294967295) := Equiv.injective _
  have hof : PartialValue.of .sqrtTwo (Assignment.sqrtTwos.mapVars (Equiv.swap 2 4294967295))
      (MvPoly.difference.mapVars (Equiv.swap 2 4294967295)) []
        = .ok ⟨MvPoly.difference.mapVars (Equiv.swap 2 4294967295), [(1, 0), (4294967295, 0)]⟩ := by
    decide +kernel
  -- the test never ends, so that it meets no overflow is seen from the annihilator
  have hchecked : PartialValue.of .sqrtTwo (Assignment.sqrtTwos.mapVars (Equiv.swap 2 4294967295))
      (MvPoly.difference.mapVars (Equiv.swap 2 4294967295)).checked []
        = .ok ⟨(MvPoly.difference.mapVars (Equiv.swap 2 4294967295)).checked,
          [(1, 0), (4294967295, 0)]⟩ := by
    decide +kernel
  have hfits : SignFits {} .sqrtTwo (MvPoly.difference.mapVars (Equiv.swap 2 4294967295))
      (Assignment.sqrtTwos.mapVars (Equiv.swap 2 4294967295)) := by
    refine ⟨by decide_cbv, fun rounds => ?_⟩
    show (exec (Arithmetic.signUnder _ _) rounds .sqrtTwo).1 ≠ _
    rw [Arithmetic.signUnder, exec_get_bind, hchecked, ofExcept_ok_bind]
    exact AlgebraicPoint.noOverflow_sign (by decide +kernel) rounds
  refine ⟨hf, hfits, ?_, fun rounds r t h => ?_⟩
  · have hvars := MvPoly.vars_difference
    have hiff := signUnder_settles_iff (Assignment.exists_value_sqrtTwos hvars) {}
      Store.valid_sqrtTwo PartialValue.of_difference
    rw [MvPoly.aeval_difference, sub_self, Sign.ofReal_eq_zero_iff.2 rfl] at hiff
    refine (sameRuns_signUnder .backward signFits_difference).settles_iff.2 (hiff.2 fun hnot => ?_)
    exact MvPoly.ne_last_of_vars_eq hvars _ hnot.1.1 rfl
  · refine eq_exhausted_of_exec_signUnder (Assignment.exists_value_mapVars_sqrtTwos hf)
      Store.valid_sqrtTwo hof ⟨?_, 1, ?_, by decide⟩ ?_
      ((sameRuns_signUnder .backward hfits rounds).symm.trans h)
    · exact (MvPoly.mem_vars_mapVars hf).2 ⟨2, by decide_cbv, Equiv.swap_apply_left ..⟩
    · exact (MvPoly.mem_vars_mapVars hf).2 ⟨1, by decide_cbv, by decide⟩
    · rw [MvPoly.aeval_mapVars]
      exact MvPoly.aeval_difference.trans (sub_self _)

end AlgebraicReal
