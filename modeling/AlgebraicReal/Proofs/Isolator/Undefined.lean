import AlgebraicReal.Proofs.Isolator.Conjugates
import AlgebraicReal.Proofs.Isolator.Rounds

/-!
# When the list of roots is undefined

There is no list of roots if the polynomial that is left is zero. There is none either if the values
are eliminated from a polynomial of positive degree and the eliminant is zero, and this depends on
how the values are held: on which of them are rational, and on the roots that the defining
polynomials of the others have besides (`Assignment.Undefined`). In every other case there is a list
(`MvPoly.answers_of_exec`).
-/

open MvPolynomial

namespace AlgebraicReal

open RefineM

variable {s t : Store} {values : Assignment} {p : MvPoly} {v : Var} {a : Var → ℝ} {rounds : ℕ}

/-! ## The greatest power -/

/-- The greatest power whose coefficient does not vanish is the degree of the polynomial that is
left. -/
theorem MvPoly.isGreatest_iff {d : ℕ} :
    IsGreatest {k | aeval a (p.coeff v k).toPolynomial ≠ 0} d ↔
      p.specialize v a ≠ 0 ∧ (p.specialize v a).natDegree = d := by
  simp only [← coeff_specialize]
  constructor
  · rintro ⟨hd, hupper⟩
    have hne : p.specialize v a ≠ 0 := by
      intro h
      rw [h] at hd
      exact hd (Polynomial.coeff_zero d)
    refine ⟨hne, le_antisymm (hupper ?_) (Polynomial.le_natDegree_of_ne_zero hd)⟩
    exact Polynomial.leadingCoeff_ne_zero.2 hne
  · rintro ⟨hne, rfl⟩
    exact ⟨Polynomial.leadingCoeff_ne_zero.2 hne, fun _ hk => Polynomial.le_natDegree_of_ne_zero hk⟩

/-- Nothing is left exactly if all coefficients vanish. -/
theorem MvPoly.specialize_eq_zero_iff :
    p.specialize v a = 0 ↔ ∀ k, aeval a (p.coeff v k).toPolynomial = 0 := by
  simp only [← coeff_specialize, Polynomial.ext_iff, Polynomial.coeff_zero]

/-! ## The condition -/

/-- Every coefficient in `v` vanishes at the values, or nothing is left of the polynomial, without the
powers above the greatest one that does not vanish, for some choice of conjugates of the values. A
rational value has no conjugate but itself. -/
def Assignment.Undefined (s : Store) (values : Assignment) (p : MvPoly) (v : Var) (a : Var → ℝ) :
    Prop :=
  (∀ k, aeval a (p.coeff v k).toPolynomial = 0) ∨
    ∃ d, 1 ≤ d ∧ IsGreatest {k | aeval a (p.coeff v k).toPolynomial ≠ 0} d ∧ ∃ ρ : Var → ℂ,
      (∀ w ∈ p.vars, w ≠ v → ∃ x, values.lookup w = some x ∧ x.Conjugate s (ρ w)) ∧
        ∀ z : ℂ, aeval (Function.update ρ v z) (p.truncate v d).toPolynomial = 0

/-- The condition, by the polynomial that is left. -/
theorem Assignment.undefined_iff :
    values.Undefined s p v a ↔ p.specialize v a = 0 ∨ values.Degenerate s p v a := by
  unfold Undefined Degenerate
  rw [← MvPoly.specialize_eq_zero_iff]
  refine or_congr_right' fun hne => ?_
  simp only [MvPoly.isGreatest_iff, MvPoly.aeval_truncate_eq_zero_iff]
  constructor
  · rintro ⟨d, hd, ⟨-, rfl⟩, hconjugates⟩
    exact ⟨hd, hconjugates⟩
  · rintro ⟨hd, hconjugates⟩
    exact ⟨_, hd, ⟨hne, rfl⟩, hconjugates⟩

/-- If the leading coefficient is a constant, there is a list of roots. -/
theorem Assignment.not_undefined_of_coeff {d : ℕ} {c : ℚ} (hc : c ≠ 0)
    (hcoeff : p.coeff v d = .constant c) (hd : (p.specialize v a).natDegree = d) :
    ¬(p.specialize v a = 0 ∨ values.Degenerate s p v a) := by
  rintro (hzero | ⟨-, ρ, -, hvanish⟩)
  · have hlead : (p.specialize v a).coeff d = c := by
      rw [MvPoly.coeff_specialize, hcoeff, MvPoly.toPolynomial_constant, aeval_C]
      rfl
    rw [hzero, Polynomial.coeff_zero] at hlead
    exact hc (Rat.cast_eq_zero.1 hlead.symm)
  · have hlead := hvanish d hd.ge
    rw [hcoeff, MvPoly.toPolynomial_constant, aeval_C] at hlead
    exact hc ((map_eq_zero _).1 hlead)

/-! ## The computation -/

/-- At a point there is no list of roots exactly if the eliminant is zero. -/
theorem AlgebraicPoint.eq_none_of_exec_roots {point : AlgebraicPoint} {config : IsolationConfig}
    {o : Option (List Number)} (h : exec (point.roots config p v) rounds s = (.ok o, t)) :
    o = none ↔ (exactEliminant s point p).1.isZero = true := by
  unfold roots at h
  rw [exec_get_bind, eliminant_eq, ofExcept_ok_bind] at h
  obtain ⟨_, u, -, h⟩ := exec_bind_eq_ok h
  split at h
  next hz =>
    cases h
    exact iff_of_true rfl hz
  next hz =>
    refine iff_of_false ?_ hz
    obtain ⟨e, u, -, h⟩ := exec_bind_eq_ok h
    rw [exec_read_bind] at h
    split at h
    next => cases h
    next intervals _ =>
      obtain ⟨_, u, -, h⟩ := exec_bind_eq_ok h
      obtain ⟨ns, u, -, h⟩ := exec_bind_eq_ok h
      cases h
      exact Option.some_ne_none _

/-- Every answer tells whether the condition holds. -/
theorem MvPoly.eq_none_of_exec_rootsUnder {config : IsolationConfig} {o : Option (List Number)}
    (hs : s.Valid) {g : PartialValue MvPoly} (hg : PartialValue.of s values p [v] = .ok g)
    (hsplits : PartialValue.Splits s values p a (p.vars.filter (· ∉ [v])) g)
    (h : exec (Arithmetic.rootsUnder config p v values) rounds s = (.ok o, t)) :
    o = none ↔ p.specialize v a = 0 ∨ values.Degenerate s p v a := by
  have hrep := hsplits.toRepresents
  unfold Arithmetic.rootsUnder at h
  obtain ⟨_, s₁, hcount, h⟩ := exec_bind_eq_ok h
  obtain ⟨hnar, hval, hlocators, -⟩ := Safe.count hs _ rounds _ _ hcount
  rw [exec_get_bind] at h
  obtain ⟨g', s₂, hof, h⟩ := exec_bind_eq_ok h
  rw [exec_ofExcept, PartialValue.of_congr (hlocators _ rfl)] at hof
  obtain ⟨hg', rfl⟩ := Prod.mk.inj hof
  obtain rfl : g = g' := Except.ok.inj (hg.symm.trans hg')
  obtain ⟨deg, s₃, hdeg, h⟩ := exec_bind_eq_ok h
  -- the effective degree is found exactly, and on the way the store is narrowed at most
  obtain ⟨hnar', -, hpost, -⟩ :=
    (hrep.effectiveDegree_exactIf (C := False) hval hnar nofun).safe rounds _ _ hdeg
  have hdegree := hpost deg rfl
  unfold Assignment.Degenerate
  split at hdegree
  next hzero =>
    subst hdegree
    cases h
    exact iff_of_true rfl (.inl hzero)
  next hne =>
    subst hdegree
    rw [or_iff_right hne]
    cases hd : (p.specialize v a).natDegree with
    | zero =>
      rw [hd] at h
      cases h
      exact iff_of_false (Option.some_ne_none _) fun hpos => absurd hpos.1 (lt_irrefl 0)
    | succ d =>
      rw [hd] at h
      have hn := hnar.trans hnar'
      rw [and_iff_right d.succ_pos, ← hsplits.degenerate_iff,
        ← AlgebraicPoint.degenerate_narrowed_iff hs hn hrep.denotes,
        ← AlgebraicPoint.eliminant_isZero_iff (hrep.denotes.narrowed hn) hrep.notMem_point
          fun w hw => hrep.eq_or_mem_point w (mem_vars_of_mem_vars_truncate hw)]
      exact AlgebraicPoint.eq_none_of_exec_roots h

/-! ## Answers -/

/-- An answer about the roots in a set, which are undefined under the condition `U`: there is no
list under the condition, and otherwise it is the list of the set. -/
structure RootsAnswer (t : Store) (U : Prop) (S : Set ℝ) (roots : Option (List Number)) : Prop where
  eq_none_iff : roots = none ↔ U
  lists : ∀ ns, roots = some ns → Number.Lists t S ns

/-- An answer stays one while the store is narrowed. -/
theorem RootsAnswer.narrowed {u : Store} {U : Prop} {S : Set ℝ} {roots : Option (List Number)}
    (h : RootsAnswer t U S roots) (ht : t.Valid) (hn : t.Narrowed u) : RootsAnswer u U S roots :=
  ⟨h.eq_none_iff, fun ns hns => (h.lists ns hns).narrowed ht hn⟩

/-- If the set has one member, so has the list. -/
theorem RootsAnswer.exists_singleton {U : Prop} {x : ℝ} {roots : Option (List Number)}
    (h : RootsAnswer t U {x} roots) (hU : ¬U) : ∃ n, roots = some [n] ∧ n.Denotes t x := by
  cases roots with
  | none => exact absurd (h.eq_none_iff.1 rfl) hU
  | some ns =>
    obtain ⟨xs, hns, hascending, hmem⟩ := h.lists ns rfl
    have hxs : xs = [x] := hascending.eq_of_mem_iff (List.pairwise_singleton _ x) fun y =>
      (hmem y).trans (Set.mem_singleton_iff.trans List.mem_singleton.symm)
    subst hxs
    cases hns with
    | cons hn hrest =>
      cases hrest
      exact ⟨_, rfl, hn⟩

section

variable {roots : Option (List Number)}
  (hvalues : ∀ w ∈ p.vars, w ≠ v → ∃ x, values.lookup w = some x ∧ x.Denotes s (a w))
include hvalues

/-- Any answer is about the roots of the polynomial that is left. -/
theorem MvPoly.answers_of_exec {config : IsolationConfig} (hs : s.Valid)
    (h : exec (Arithmetic.rootsUnder config p v values) rounds s = (.ok roots, t)) :
    t.Valid ∧ RootsAnswer t (p.specialize v a = 0 ∨ values.Degenerate s p v a)
      {x | (p.specialize v a).IsRoot x} roots := by
  obtain ⟨g, hg, hsplits⟩ := PartialValue.exists_splits hvalues
  obtain ⟨-, hval, hpost, -⟩ := (rootsUnder_exactIf (C := False) (D := True) config hs
    (Assignment.denotes_of_forall hvalues) (fun _ => Assignment.lookup_ne_none hvalues) nofun
    nofun).safe rounds _ _ h
  exact ⟨hval, eq_none_of_exec_rootsUnder hs hg hsplits h,
    fun ns hns => ((hpost roots rfl ns hns).2 trivial).2⟩

namespace Isolator

variable {iso : Isolator}

/-- The values are the same on the isolator's own tally. -/
theorem exists_value_metered (hs : s.Valid) : ∀ w ∈ p.vars, w ≠ v →
    ∃ x, values.lookup w = some x ∧ x.Denotes { s with tally := iso.tally } (a w) := by
  intro w hw hwv
  obtain ⟨x, hx, hden⟩ := hvalues w hw hwv
  exact ⟨x, hx, hden.narrowed hs (narrowed_tally s iso.tally)⟩

/-- The same of an isolator, whose tally is no part of the answer. -/
theorem answers_of_exec (hs : s.Valid) {o : Except Error (Option (List Number)) × Isolator}
    (h : exec (iso.isolate p v values) rounds s = (.ok o, t)) (ho : o.1 = .ok roots) :
    RootsAnswer t (p.specialize v a = 0 ∨ values.Degenerate s p v a)
      {x | (p.specialize v a).IsRoot x} roots := by
  obtain ⟨u, hu, rfl⟩ := exec_isolate h
  rw [ho] at hu
  obtain ⟨hval, hanswers⟩ := MvPoly.answers_of_exec (s := { s with tally := iso.tally })
    (exists_value_metered hvalues hs) hs hu
  exact hanswers.narrowed hval (narrowed_tally u s.tally)

/-- An answer is found, and it tells whether the roots are undefined. -/
theorem isolate_settles_answer (iso : Isolator) (hs : s.Valid)
    (hlast : ∀ w ∈ p.vars, w ≠ 4294967295) :
    Settles (iso.isolate p v values) s fun o _ => ∃ roots, o.1 = .ok roots ∧
      (roots = none ↔ p.specialize v a = 0 ∨ values.Degenerate s p v a) := by
  have hsettles := (iso.isolate_settles hs (Assignment.denotes_of_forall hvalues)
    (Assignment.lookup_ne_none hvalues) hlast).and_of_exec
      (P := fun o => ∀ roots, o.1 = .ok roots →
        (roots = none ↔ p.specialize v a = 0 ∨ values.Degenerate s p v a))
      fun rounds o t h roots ho => (answers_of_exec hvalues hs h ho).eq_none_iff
  refine hsettles.mono fun o t _ _ ho => ?_
  obtain ⟨⟨roots, hroots⟩, hiff⟩ := ho
  exact ⟨roots, hroots, hiff roots hroots⟩

end Isolator

end

/-! ## A number with a rational conjugate -/

/-- The smaller root of `x² - 3x + 2`. -/
def Locator.one : Locator := .fresh (.ofCoeffs 1 [2, -3, 1]) (.between 0 2 (by decide))

/-- The number has the conjugates one and two. -/
theorem Locator.aeval_one (z : ℂ) :
    Polynomial.aeval z one.poly.toPolynomial = (z - 1) * (z - 2) := by
  have hpoly : one.poly = .ofCoeffs 1 [2, -3, 1] := rfl
  rw [hpoly, UniPoly.toPolynomial_ofCoeffs]
  simp only [UniPoly.coeffsPolynomial, map_add, map_mul, map_neg, map_one, map_zero, map_ofNat,
    Polynomial.aeval_X]
  ring

/-- One of the two roots lies in the interval. -/
theorem Locator.locates_one : one.Locates 1 := by
  have hroot : ∀ y : ℝ, one.poly.overReal.IsRoot y ↔ y = 1 ∨ y = 2 := fun y => by
    rw [UniPoly.isRoot_iff_aeval, aeval_one, mul_eq_zero, sub_eq_zero, sub_eq_zero]
    norm_cast
  refine locates_fresh (by decide) ⟨.between 0 2 (by decide), ?_⟩
  rw [Interval.reals_between, Rat.cast_zero, Rat.cast_ofNat]
  refine Set.eq_singleton_iff_unique_mem.2
    ⟨⟨(hroot 1).2 (.inl rfl), zero_lt_one, one_lt_two⟩, ?_⟩
  rintro y ⟨hy, -, hhi⟩
  exact ((hroot y).1 hy).resolve_right hhi.ne

/-- A store with the number one. -/
def Store.one : Store := { locators := #[.one] }

theorem Store.valid_one : one.Valid := by
  intro id hid
  rw [Nat.lt_one_iff.1 hid]
  exact ⟨1, Locator.locates_one⟩

/-- The number one, held as a root. -/
def Number.one : Number := { stored := .root 0 }

theorem Number.denotes_one : one.Denotes .one 1 := ⟨Nat.one_pos, Locator.locates_one⟩

/-- The other one is its conjugate. -/
theorem Number.conjugate_one {z : ℂ} : one.Conjugate .one z ↔ z = 1 ∨ z = 2 := by
  show Polynomial.aeval z Locator.one.poly.toPolynomial = 0 ↔ _
  rw [Locator.aeval_one, mul_eq_zero, sub_eq_zero, sub_eq_zero]

/-- The polynomial `(y - 2) z`, where `z` has the number zero. -/
def MvPoly.zeroAtTwo : MvPoly := ((ofVar 1).sub (constant 2)).mul (ofVar 0)

namespace MvPoly

theorem vars_zeroAtTwo : zeroAtTwo.vars = [0, 1] := by
  decide_cbv

theorem zeroAtTwo_lt_last : ∀ w ∈ zeroAtTwo.vars, w ≠ 4294967295 := by
  rw [vars_zeroAtTwo]
  simp

/-- The only variable besides the root variable has the value one. -/
theorem exists_value_zeroAtTwo {s : Store} {x : Number} (hx : x.Denotes s 1) :
    ∀ w ∈ zeroAtTwo.vars, w ≠ 0 → ∃ y, List.lookup w [(1, x)] = some y ∧ y.Denotes s 1 := by
  rw [vars_zeroAtTwo, List.forall_mem_cons, List.forall_mem_singleton]
  exact ⟨fun h => absurd rfl h, fun _ => ⟨x, rfl, hx⟩⟩

theorem coeff_zeroAtTwo_zero : zeroAtTwo.coeff 0 0 = zero := by
  decide_cbv

theorem coeff_zeroAtTwo_one : zeroAtTwo.coeff 0 1 = (ofVar 1).sub (constant 2) := by
  decide_cbv

/-- A multiple of the variable, -/
theorem specialize_zeroAtTwo (a : Var → ℝ) :
    zeroAtTwo.specialize 0 a = Polynomial.C (a 1 - 2) * Polynomial.X := by
  refine Polynomial.funext fun y => ?_
  rw [eval_specialize, zeroAtTwo, toPolynomial_mul, toPolynomial_sub, toPolynomial_ofVar,
    toPolynomial_ofVar, toPolynomial_constant, map_mul, map_sub, aeval_X, aeval_X, aeval_C,
    Function.update_self, Function.update_of_ne (by decide), Polynomial.eval_mul,
    Polynomial.eval_C, Polynomial.eval_X, map_ofNat]

/-- and not the zero polynomial at the number one. -/
theorem specialize_zeroAtTwo_ne_zero (ha : a 1 ≠ 2) : zeroAtTwo.specialize 0 a ≠ 0 := by
  rw [specialize_zeroAtTwo]
  exact mul_ne_zero (Polynomial.C_ne_zero.2 (sub_ne_zero.2 ha)) Polynomial.X_ne_zero

end MvPoly

/-- The values are degenerate for `(y - 2) z` if two is a conjugate of the value of `y`. -/
theorem Assignment.degenerate_zeroAtTwo_iff {x : Number} (hx : values.lookup 1 = some x)
    (ha : a 1 ≠ 2) : values.Degenerate s .zeroAtTwo 0 a ↔ x.Conjugate s 2 := by
  have hvalue : ∀ ρ : Var → ℂ, aeval ρ (MvPoly.zeroAtTwo.coeff 0 1).toPolynomial = ρ 1 - 2 :=
    fun ρ => by
      rw [MvPoly.coeff_zeroAtTwo_one, MvPoly.toPolynomial_sub, MvPoly.toPolynomial_ofVar,
        MvPoly.toPolynomial_constant, map_sub, aeval_X, aeval_C, map_ofNat]
  unfold Degenerate
  rw [MvPoly.specialize_zeroAtTwo, Polynomial.natDegree_C_mul_X _ (sub_ne_zero.2 ha),
    and_iff_right Nat.one_pos]
  constructor
  · rintro ⟨ρ, hconj, hzero⟩
    obtain ⟨x', hx', hxc⟩ := hconj 1 (by rw [MvPoly.vars_zeroAtTwo]; decide) (by decide)
    rw [hx] at hx'
    cases hx'
    rwa [← sub_eq_zero.1 ((hvalue ρ).symm.trans (hzero 1 le_rfl))]
  · intro h
    refine ⟨fun _ => 2, fun w hw hwv => ?_, fun k hk => ?_⟩
    · rw [MvPoly.vars_zeroAtTwo] at hw
      obtain rfl : w = 1 := by simpa [hwv] using hw
      exact ⟨x, hx, h⟩
    · rcases Nat.le_one_iff_eq_zero_or_eq_one.1 hk with rfl | rfl
      · rw [MvPoly.coeff_zeroAtTwo_zero, MvPoly.toPolynomial_zero, map_zero]
      · rw [hvalue, sub_self]

end AlgebraicReal
