import AlgebraicReal.Proofs.Number.Narrowing
import AlgebraicReal.Proofs.Overflow.Isolation

/-!
# Isolation in two representations

The values of an assignment may be held in many ways: as rationals, by different defining
polynomials, with intervals that are narrow or wide. Whenever two assignments of the same reals both
lead to a list of roots without an overflow, the lists agree, and a polynomial that is zero at the
values has no list on either side. The one thing that shows is the degeneracy of eliminants: one side may have a list
where the other has none because of a conjugate (`Isolator.isolate_transparent`). As long as the
values have the same conjugates on both sides, nothing shows. So narrowing a value is not seen,
until its interval shrinks to a point: then the number is a rational and has lost its conjugates
(`Isolator.isolate_not_transparent`).
-/

open MvPolynomial

namespace AlgebraicReal

open RefineM

/-- Two answers, each in its own store, are the same: none on both sides, or equally many numbers
that stand for the same reals. -/
def SameRoots (t t' : Store) : Option (List Number) → Option (List Number) → Prop :=
  Option.Rel (List.Forall₂ fun n n' => ∃ x, n.Denotes t x ∧ n'.Denotes t' x)

variable {s s' t t' : Store} {values values' : Assignment} {p : MvPoly} {v : Var} {a : Var → ℝ}
  {iso iso' : Isolator} {rounds rounds' : ℕ} {roots roots' : Option (List Number)}
  {o o' : Except Error (Option (List Number)) × Isolator}

/-- Lists of the same set have the same members in the same order. -/
theorem Number.Lists.sameRoots {S : Set ℝ} {ns ns' : List Number} (h : Number.Lists t S ns)
    (h' : Number.Lists t' S ns') : SameRoots t t' (some ns) (some ns') := by
  obtain ⟨xs, hxs, hascending, hmem⟩ := h
  obtain ⟨xs', hxs', hascending', hmem'⟩ := h'
  obtain rfl : xs = xs' :=
    hascending.eq_of_mem_iff hascending' fun x => (hmem x).trans (hmem' x).symm
  refine .some ?_
  clear hmem hmem' hascending hascending'
  induction hxs generalizing ns' with
  | nil =>
    cases hxs'
    exact .nil
  | cons hn _ ih =>
    cases hxs' with
    | cons hn' hrest => exact .cons ⟨_, hn, hn'⟩ (ih hrest)

/-- Two answers about one set are the same if the roots are undefined on both sides or on none. -/
theorem RootsAnswer.sameRoots_iff {U U' : Prop} {S : Set ℝ} (h : RootsAnswer t U S roots)
    (h' : RootsAnswer t' U' S roots') : SameRoots t t' roots roots' ↔ (U ↔ U') := by
  rw [← h.eq_none_iff, ← h'.eq_none_iff]
  cases roots <;> cases roots'
  case none.none => exact iff_of_true .none Iff.rfl
  case none.some ns' => exact iff_of_false nofun fun hiff => nomatch hiff.1 rfl
  case some.none ns => exact iff_of_false nofun fun hiff => nomatch hiff.2 rfl
  case some.some ns ns' =>
    exact iff_of_true ((h.lists ns rfl).sameRoots (h'.lists ns' rfl)) (iff_of_false nofun nofun)

/-- A degenerate assignment leaves a polynomial other than zero. -/
theorem Assignment.Degenerate.specialize_ne_zero (h : values.Degenerate s p v a) :
    p.specialize v a ≠ 0 := by
  rintro hzero
  rw [Degenerate, hzero, Polynomial.natDegree_zero] at h
  exact lt_irrefl 0 h.1

/-- Degeneracy is a matter of the conjugates. -/
theorem Assignment.degenerate_congr
    (hvalues : ∀ w ∈ p.vars, w ≠ v → ∃ x, values.lookup w = some x ∧ x.Denotes s (a w))
    (hvalues' : ∀ w ∈ p.vars, w ≠ v → ∃ x, values'.lookup w = some x ∧ x.Denotes s' (a w))
    (hconj : ∀ w ∈ p.vars, w ≠ v → ∀ x x', values.lookup w = some x → values'.lookup w = some x' →
      ∀ z, x.Conjugate s z ↔ x'.Conjugate s' z) :
    values.Degenerate s p v a ↔ values'.Degenerate s' p v a := by
  refine and_congr_right fun _ => exists_congr fun ρ => and_congr_left fun _ => ?_
  refine forall_congr' fun w => forall_congr' fun hw => forall_congr' fun hwv => ?_
  obtain ⟨x, hx, -⟩ := hvalues w hw hwv
  obtain ⟨x', hx', -⟩ := hvalues' w hw hwv
  have hiff := hconj w hw hwv x x' hx hx' (ρ w)
  constructor
  · rintro ⟨y, hy, hyc⟩
    obtain rfl := Option.some.inj (hx.symm.trans hy)
    exact ⟨x', hx', hiff.1 hyc⟩
  · rintro ⟨y, hy, hyc⟩
    obtain rfl := Option.some.inj (hx'.symm.trans hy)
    exact ⟨x, hx, hiff.2 hyc⟩

/-! ## The number one, before and after it is refined -/

/-- The store of the number one when its interval has been cut at the midpoint, which is the root.
-/
def Store.oneRefined : Store := (exec Number.one.refine 0 .one).2

/-- The midpoint is the root, so the interval becomes that point. -/
theorem Number.exec_refine_one : exec Number.one.refine 0 .one = (.ok (), .oneRefined) :=
  Prod.ext (by decide +kernel) rfl

/-- And the number a rational. -/
theorem Number.form_one_refined : one.form .oneRefined = .rational 1 := by
  decide +kernel

/-- It is the same number. -/
theorem Store.narrowed_oneRefined : one.Narrowed .oneRefined ∧ oneRefined.Valid := by
  obtain ⟨hnar, hval, -⟩ :=
    (Number.refine_exact valid_one Number.denotes_one).safe 0 _ _ Number.exec_refine_one
  exact ⟨hnar, hval⟩

/-- In the refined store the number is its own only conjugate. -/
theorem Number.conjugate_one_refined {z : ℂ} : one.Conjugate .oneRefined z ↔ z = 1 := by
  rw [Conjugate, form_one_refined, Form.Conjugate, Rat.cast_one]

/-! ## Two runs -/

/-- In machine words isolation under two assignments of the same reals comes to an end on both sides,
if what is multiplied on the way fits into words. Two lists of roots are the same, and there is none
on either side if the polynomial that is left is zero. The answers are the same unless exactly one of
the assignments is degenerate; so they are the same if the values have the same conjugates on both
sides, as they do in a later store in which none of them has become a rational. -/
theorem Isolator.isolate_transparent (reading reading' : MvPoly.Reading) (iso iso' : Isolator)
    {s s' : Store} (hs : s.Valid) (hs' : s'.Valid) {p : MvPoly} {v : Var}
    {values values' : Assignment} {a : Var → ℝ}
    (hvalues : ∀ w ∈ p.vars, w ≠ v → ∃ x, values.lookup w = some x ∧ x.Denotes s (a w))
    (hvalues' : ∀ w ∈ p.vars, w ≠ v → ∃ x, values'.lookup w = some x ∧ x.Denotes s' (a w))
    (hlast : ∀ w ∈ p.vars, w ≠ 4294967295) (hfits : iso.RootsFit s p v values)
    (hfits' : iso'.RootsFit s' p v values') :
    Settles (iso.isolate (p.machine reading) v values) s (fun o _ => ∃ roots, o.1 = .ok roots) ∧
      Settles (iso'.isolate (p.machine reading') v values') s'
        (fun o _ => ∃ roots, o.1 = .ok roots) ∧
      ∀ {rounds rounds' o o' t t' roots roots'},
        exec (iso.isolate (p.machine reading) v values) rounds s = (.ok o, t) →
        o.1 = .ok roots →
        exec (iso'.isolate (p.machine reading') v values') rounds' s' = (.ok o', t') →
        o'.1 = .ok roots' →
          (SameRoots t t' roots roots' ↔
            (values.Degenerate s p v a ↔ values'.Degenerate s' p v a)) ∧
          (p.specialize v a = 0 → roots = none ∧ roots' = none) ∧
          (∀ ns ns', roots = some ns → roots' = some ns' → SameRoots t t' roots roots') ∧
          ((∀ w ∈ p.vars, w ≠ v → ∀ x x', values.lookup w = some x → values'.lookup w = some x' →
            ∀ z, x.Conjugate s z ↔ x'.Conjugate s' z) → SameRoots t t' roots roots') ∧
          (s.Narrowed s' → values' = values → (∀ w ∈ p.vars, w ≠ v → ∀ x,
            values.lookup w = some x → x.form s' = x.form s) → SameRoots t t' roots roots') := by
  have hruns := sameRuns_isolate reading hfits
  have hruns' := sameRuns_isolate reading' hfits'
  refine ⟨hruns.settles_iff.2 (iso.isolate_settles hs (Assignment.denotes_of_forall hvalues)
      (Assignment.lookup_ne_none hvalues) hlast),
    hruns'.settles_iff.2 (iso'.isolate_settles hs' (Assignment.denotes_of_forall hvalues')
      (Assignment.lookup_ne_none hvalues') hlast),
    fun {rounds rounds' _ _ t t' roots roots'} h ho h' ho' => ?_⟩
  have hanswers := answers_of_exec hvalues hs ((hruns rounds).symm.trans h) ho
  have hanswers' := answers_of_exec hvalues' hs' ((hruns' rounds').symm.trans h') ho'
  have hsame : SameRoots t t' roots roots' ↔
      (values.Degenerate s p v a ↔ values'.Degenerate s' p v a) := by
    rw [hanswers.sameRoots_iff hanswers']
    by_cases hzero : p.specialize v a = 0
    · -- the roots are undefined on both sides, and neither assignment is degenerate
      exact iff_of_true (iff_of_true (.inl hzero) (.inl hzero))
        (iff_of_false (fun hd => hd.specialize_ne_zero hzero)
          fun hd => hd.specialize_ne_zero hzero)
    · rw [or_iff_right hzero, or_iff_right hzero]
  refine ⟨hsame, fun hzero => ⟨?_, ?_⟩, fun ns ns' hns hns' => ?_, fun hconj => ?_,
    fun hn hsub hform => ?_⟩
  · exact hanswers.eq_none_iff.2 (.inl hzero)
  · exact hanswers'.eq_none_iff.2 (.inl hzero)
  · rw [hns, hns']
    exact (hanswers.lists ns hns).sameRoots (hanswers'.lists ns' hns')
  · exact hsame.2 (Assignment.degenerate_congr hvalues hvalues' hconj)
  · subst hsub
    refine hsame.2 (Assignment.degenerate_congr hvalues hvalues' fun w hw hwv x x' hx hx' z => ?_)
    obtain ⟨y, hy, hden⟩ := hvalues w hw hwv
    rw [hx] at hx' hy
    cases hx'
    cases hy
    exact (Number.conjugate_narrowed_iff hs hn hden (hform w hw hwv x hx)).symm

theorem MvPoly.rootsFit_zeroAtTwo_refined :
    Isolator.RootsFit {} .oneRefined .zeroAtTwo 0 [(1, .one)] :=
  .of_isOk (n := 8) (by decide_cbv) (by decide +kernel)

/-- The number one in the store where its interval has been cut, and the rational in an empty store:
any two lists of the roots of `(y - 2) z` agree, and there is a list on both sides or on none. -/
theorem Isolator.isolate_transparent_one : Store.oneRefined.Valid ∧
    (∀ w ∈ MvPoly.zeroAtTwo.vars, w ≠ 4294967295) ∧
      RootsFit {} .oneRefined .zeroAtTwo 0 [(1, .one)] ∧
      RootsFit {} {} .zeroAtTwo 0 [(1, .ofInt 1)] ∧
      ∀ {rounds rounds' o o' t t' roots roots'},
        exec (isolate {} (MvPoly.zeroAtTwo.machine .backward) 0 [(1, .one)]) rounds .oneRefined
          = (.ok o, t) →
        o.1 = .ok roots →
        exec (isolate {} (MvPoly.zeroAtTwo.machine .backward) 0 [(1, .ofInt 1)]) rounds' {}
          = (.ok o', t') →
        o'.1 = .ok roots' → SameRoots t t' roots roots' := by
  obtain ⟨hnar, hval⟩ := Store.narrowed_oneRefined
  have hrational : (Number.ofInt 1).Denotes {} 1 := by
    have h := Number.denotes_ofRational {} 1
    rwa [Rat.cast_one] at h
  have hfits : RootsFit {} {} .zeroAtTwo 0 [(1, .ofInt 1)] :=
    .of_isOk (n := 8) (by decide_cbv) (by decide +kernel)
  refine ⟨hval, MvPoly.zeroAtTwo_lt_last, MvPoly.rootsFit_zeroAtTwo_refined, hfits,
    fun h ho h' ho' => ?_⟩
  refine ((isolate_transparent .backward .backward {} {} hval
    Store.valid_empty (MvPoly.exists_value_zeroAtTwo
    (Number.denotes_one.narrowed Store.valid_one hnar)) (MvPoly.exists_value_zeroAtTwo hrational)
      MvPoly.zeroAtTwo_lt_last MvPoly.rootsFit_zeroAtTwo_refined hfits).2.2 h ho h' ho').2.2.2.1
        fun w hw hwv x x' hx hx' z => ?_
  rw [MvPoly.vars_zeroAtTwo] at hw
  obtain rfl : w = 1 := by simpa [hwv] using hw
  cases hx
  cases hx'
  rw [Number.conjugate_one_refined]
  show z = 1 ↔ z = ((1 : ℤ) : ℚ)
  norm_num

/-- Cutting the interval of the number one at the number makes it a rational. Before, the polynomial
`(y - 2) z` has no list of roots at the number; afterwards it has one. -/
theorem Isolator.isolate_not_transparent :
    exec Number.one.refine 0 .one = (.ok (), .oneRefined) ∧
      Number.one.Denotes .one 1 ∧ Number.one.Denotes .oneRefined 1 ∧
      (∀ w ∈ MvPoly.zeroAtTwo.vars, w ≠ 4294967295) ∧
      Settles (isolate {} (MvPoly.zeroAtTwo.machine .backward) 0 [(1, .one)]) .one
        (fun o _ => o.1 = .ok none) ∧
      Settles (isolate {} (MvPoly.zeroAtTwo.machine .backward) 0 [(1, .one)]) .oneRefined
        (fun o _ => ∃ ns, o.1 = .ok (some ns)) := by
  obtain ⟨hnar, hval⟩ := Store.narrowed_oneRefined
  have hrefined := Number.denotes_one.narrowed Store.valid_one hnar
  have hone : (1 : ℝ) ≠ 2 := by norm_num
  have hne := MvPoly.specialize_zeroAtTwo_ne_zero (a := fun _ => 1) hone
  refine ⟨Number.exec_refine_one, Number.denotes_one, hrefined, MvPoly.zeroAtTwo_lt_last, ?_, ?_⟩
  · refine (sameRuns_isolate .backward MvPoly.rootsFit_zeroAtTwo).settles_iff.2
      ((isolate_settles_answer (MvPoly.exists_value_zeroAtTwo Number.denotes_one) {} Store.valid_one
        MvPoly.zeroAtTwo_lt_last).mono fun o t _ _ ho => ?_)
    obtain ⟨roots, hroots, hiff⟩ := ho
    rw [hroots, hiff.2 (.inr ((Assignment.degenerate_zeroAtTwo_iff rfl hone).2 ?_))]
    exact Number.conjugate_one.2 (.inr rfl)
  · refine (sameRuns_isolate .backward MvPoly.rootsFit_zeroAtTwo_refined).settles_iff.2
      ((isolate_settles_answer (MvPoly.exists_value_zeroAtTwo hrefined) {} hval
        MvPoly.zeroAtTwo_lt_last).mono fun o t _ _ ho => ?_)
    obtain ⟨roots, hroots, hiff⟩ := ho
    cases roots with
    | some ns => exact ⟨ns, hroots⟩
    | none =>
      have htwo : Number.one.Conjugate .oneRefined 2 :=
        (Assignment.degenerate_zeroAtTwo_iff rfl hone).1 ((hiff.1 rfl).resolve_left hne)
      exact absurd (Number.conjugate_one_refined.1 htwo) (by norm_num)

-- the list has the number zero only
example : (exec (Isolator.isolate {} MvPoly.zeroAtTwo.checked 0 [(1, .one)]) 1 .oneRefined).1.map
    Prod.fst = .ok (.ok (some [.ofInt 0])) := by
  decide +kernel

end AlgebraicReal
