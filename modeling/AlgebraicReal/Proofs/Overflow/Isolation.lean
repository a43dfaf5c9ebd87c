import AlgebraicReal.Proofs.Isolator.Undefined
import AlgebraicReal.Proofs.Overflow.Sign

/-!
# Roots in machine words

Without an overflow the roots under an assignment are found in machine words as they are without a
bound: what comes is the list of all distinct real roots in ascending order
(`Isolator.isolate_exact`), or nothing, exactly if the roots are undefined
(`Isolator.isolate_undefined_iff`). An eliminant that overflows loses roots
(`Isolator.isolate_ne_of_wrap`), and a leading coefficient whose sign test overflows may be dropped
although it does not vanish (`Isolator.undefined_ne_of_wrap`).
-/

open MvPolynomial

namespace AlgebraicReal

open RefineM

/-! ## All roots and nothing else -/

/-- Isolation under an assignment is sound and complete in machine words, in every configuration, if
what is multiplied on the way fits into words. It comes to an end, and a list that it gives consists
of the distinct real roots of the polynomial that is left, which is not zero, in strictly ascending
order; a root expression then has the root with its index, if there are that many. -/
theorem Isolator.isolate_exact (reading : MvPoly.Reading) (iso : Isolator) {s : Store} (hs : s.Valid)
    {p : MvPoly} {v : Var} {values : Assignment} {a : Var → ℝ}
    (hvalues : ∀ w ∈ p.vars, w ≠ v → ∃ x, values.lookup w = some x ∧ x.Denotes s (a w))
    (hlast : ∀ w ∈ p.vars, w ≠ 4294967295) (hfits : iso.RootsFit s p v values) :
    Settles (iso.isolate (p.machine reading) v values) s (fun o _ => ∃ r, o.1 = .ok r) ∧
      Safe (iso.isolate (p.machine reading) v values) s
        (fun o t => ∀ roots, o.1 = .ok (some roots) →
          p.specialize v a ≠ 0 ∧ Number.Lists t {x | (p.specialize v a).IsRoot x} roots) ∧
      ∀ (k : ℕ) (hk : 0 < k), NoOverflow (Arithmetic.realRoots p.checked v values) s →
        ∀ (rounds : ℕ) (roots : List Number) (t : Store),
          exec (Arithmetic.realRoots (p.machine reading) v values) rounds s
              = (.ok (some roots), t) →
            ∃ (o : Option Number) (xs : List ℝ),
              exec (RootExpr.evaluate ⟨p.machine reading, k, v, hk⟩ values) rounds s = (.ok o, t) ∧
              xs.Pairwise (· < ·) ∧ (∀ x, x ∈ xs ↔ (p.specialize v a).IsRoot x) ∧
                Option.Rel (fun n x => n.Denotes t x) o xs[k - 1]? := by
  have ha := Assignment.denotes_of_forall hvalues
  have hall := Assignment.lookup_ne_none hvalues
  have hruns := sameRuns_isolate reading hfits
  refine ⟨hruns.settles_iff.2 (iso.isolate_settles hs ha hall hlast), hruns.safe_iff.2 ?_,
    fun k hk hno rounds roots t he => ?_⟩
  · refine (iso.isolate_safe (D := True) hs ha fun _ => hall).mono
      fun o t _ _ ho roots hroots => (ho.1 roots hroots).2 trivial
  · -- the list that is found is ascending, and the evaluation picks from it
    have hexact := MvPoly.rootsUnder_exactIf (C := True) (D := True) {} hs ha (fun _ => hall) id
      fun _ => hlast
    have hrun := (Arithmetic.sameRuns_rootsUnder reading hfits.fits hno rounds).symm.trans he
    obtain ⟨-, -, hpost, -⟩ := hexact.safe rounds _ t hrun
    obtain ⟨xs, hxs, hascending, hmem⟩ := ((hpost _ rfl roots rfl).2 trivial).2
    exact ⟨_, xs, RootExpr.exec_evaluate hk he, hascending, hmem, forall₂_getElem hxs (k - 1)⟩

/-- The difference of the first two variables. -/
def MvPoly.difference : MvPoly := (ofVar 1).sub (.ofVar 2)

namespace MvPoly

theorem vars_difference : difference.vars = [1, 2] := by
  decide_cbv

theorem aeval_difference {a : Var → ℝ} : aeval a difference.toPolynomial = a 1 - a 2 := by
  rw [difference, toPolynomial_sub, toPolynomial_ofVar, toPolynomial_ofVar, map_sub, aeval_X, aeval_X]

theorem specialize_difference (a : Var → ℝ) :
    difference.specialize 2 a = Polynomial.C (a 1) - Polynomial.X := by
  refine Polynomial.funext fun y => ?_
  rw [eval_specialize, aeval_difference, Function.update_self, Function.update_of_ne (by decide),
    Polynomial.eval_sub, Polynomial.eval_C, Polynomial.eval_X]

/-- The coefficient of the second variable is a constant. -/
theorem defined_difference {s : Store} {values : Assignment} {a : Var → ℝ} :
    ¬(difference.specialize 2 a = 0 ∨ values.Degenerate s difference 2 a) := by
  refine Assignment.not_undefined_of_coeff (d := 1) (c := -1) (by norm_num) (by decide_cbv) ?_
  rw [specialize_difference, Polynomial.natDegree_sub_eq_right_of_natDegree_lt] <;>
    simp only [Polynomial.natDegree_C, Polynomial.natDegree_X, Nat.one_pos]

end MvPoly

/-- One run on checked words shows it. -/
theorem MvPoly.rootsFit_difference : Isolator.RootsFit {} .sqrtTwo .difference 2 .sqrtTwos :=
  .of_isOk (n := 8) (by decide_cbv) (by decide +kernel)

/-- Where the first variable is the square root of two, the difference has the one root `√2` in the
second. -/
theorem Isolator.isolate_sqrtTwo :
    (∀ w ∈ MvPoly.difference.vars, w ≠ 4294967295) ∧
      RootsFit {} .sqrtTwo .difference 2 .sqrtTwos ∧
        Settles (isolate {} (MvPoly.difference.machine .backward) 2 .sqrtTwos) .sqrtTwo
          fun o t => ∃ n, o.1 = .ok (some [n]) ∧ n.Denotes t √2 := by
  have hlast := MvPoly.ne_last_of_vars_eq MvPoly.vars_difference
  have hvalues : ∀ w ∈ MvPoly.difference.vars, w ≠ 2 →
      ∃ x, Assignment.sqrtTwos.lookup w = some x ∧ x.Denotes .sqrtTwo √2 := fun w hw _ =>
    Assignment.exists_value_sqrtTwos MvPoly.vars_difference w hw
  have hfits := MvPoly.rootsFit_difference
  refine ⟨hlast, hfits, ?_⟩
  have hsettles := (isolate_exact .backward {} Store.valid_sqrtTwo hvalues hlast hfits).1
  obtain ⟨o, t, N, hnar, hval, ⟨roots, hroots⟩, hexec⟩ := hsettles
  have hanswer := answers_of_exec hvalues Store.valid_sqrtTwo
    ((sameRuns_isolate .backward hfits N).symm.trans (hexec N le_rfl)) hroots
  have hset : {x | (MvPoly.difference.specialize 2 fun _ => √2).IsRoot x} = {√2} := by
    ext x
    rw [MvPoly.specialize_difference, Set.mem_ofPred_eq, Polynomial.IsRoot.def, Polynomial.eval_sub,
      Polynomial.eval_C, Polynomial.eval_X, sub_eq_zero, eq_comm, Set.mem_singleton_iff]
  rw [hset] at hanswer
  obtain ⟨n, rfl, hn⟩ := hanswer.exists_singleton MvPoly.defined_difference
  exact ⟨o, t, N, hnar, hval, ⟨n, hroots, hn⟩, hexec⟩

/-! ## Roots that are lost -/

/-- The values of the variables but zero are one half and one. -/
theorem Assignment.exists_value_of_vars {p : MvPoly} (h : p.vars = [0, 1, 2]) : ∀ w ∈ p.vars,
    w ≠ 0 → ∃ x, halfUnit.lookup w = some x ∧ x.Denotes .halfUnit (halfUnitReals w) := by
  intro w hw hw0
  rw [h] at hw
  exact exists_value_halfUnit (by simpa [hw0] using hw)

/-- A parabola with the roots `1/2` and `-1/2`, where the first variable is one half and the second
one is one. -/
def MvPoly.valley : MvPoly := ((varPower 0 2).add (constant (1/4))).sub steep

namespace MvPoly

theorem vars_valley : valley.vars = [0, 1, 2] := by
  decide_cbv

theorem machine_valley : valley.machine .forward = [⟨1, ⟨[(0, 2)], 2⟩⟩,
    ⟨-1, ⟨[(1, 1), (2, 1073741824)], 1073741825⟩⟩, ⟨1 / 4, ⟨[], 0⟩⟩] :=
  show valley.raw = _ by decide_cbv

/-- Where the high power is one, the parabola vanishes at `1 / 2`. -/
theorem isRoot_valley : (valley.specialize 0 Assignment.halfUnitReals).IsRoot (1 / 2) := by
  rw [Polynomial.IsRoot.def, eval_specialize, valley, toPolynomial_sub, toPolynomial_add,
    toPolynomial_varPower, toPolynomial_constant, map_sub, map_add, map_pow, aeval_X, aeval_C,
    aeval_steep rfl, Function.update_self, Function.update_of_ne (by decide),
    Assignment.halfUnitReals]
  norm_num

theorem coefficients_valley : Arithmetic.coefficients (valley.machine .forward) 0
    = [[⟨-1, ⟨[(1, 1), (2, 1073741824)], 1073741825⟩⟩, ⟨1 / 4, ⟨[], 0⟩⟩], [], [⟨1, ⟨[], 0⟩⟩]] := by
  rw [machine_valley]
  exact show Raw.collectCoefficients _ _ = _ by cbv

theorem truncate_valley :
    Arithmetic.truncate (valley.machine .forward) 0 2 = valley.machine .forward := by
  rw [machine_valley]
  exact show Raw.truncate _ _ _ = _ by cbv

/-- What comes out as an eliminant of `valley`. It is positive everywhere. -/
def valleyEliminant : Machine .forward := ([⟨-1, ⟨[(0, 6)], 6⟩⟩, ⟨-3 / 4, ⟨[(0, 4)], 4⟩⟩,
  ⟨-3 / 16, ⟨[(0, 2)], 2⟩⟩, ⟨-1 / 64, ⟨[], 0⟩⟩] : Raw)

/-- The determinant has four rows, and on the way down its exponents wrap around. -/
theorem eliminate_valley : Arithmetic.eliminate (valley.machine .forward)
    (AlgebraicPoint.definingPoly .halfUnit (1, 0)) = .ok valleyEliminant := by
  rw [machine_valley, AlgebraicPoint.definingPoly_halfUnit]
  exact eliminate_of_resultant (by cbv)

end MvPoly

/-- One coordinate is eliminated; the other variable has disappeared with its exponent. -/
theorem AlgebraicPoint.eliminant_valley (tally : Tally) :
    eliminant { Store.halfUnit with tally } [(1, 0), (2, 1)] (MvPoly.valley.machine .forward)
      = .ok (MvPoly.valleyEliminant, 1) := by
  have hvar : Arithmetic.hasVar (MvPoly.valley.machine .forward) 1 = true := by
    rw [MvPoly.machine_valley]
    rfl
  have hpoly : definingPoly { Store.halfUnit with tally } (1, 0)
      = definingPoly .halfUnit (1, 0) := rfl
  rw [eliminant, hvar, if_pos rfl, hpoly, MvPoly.eliminate_valley]
  rfl

/-- No root is found. -/
theorem Arithmetic.exec_rootsUnder_valley :
    (exec (rootsUnder {} (MvPoly.valley.machine .forward) 0 .halfUnit) 1 .halfUnit).1
      = .ok (some []) := by
  have hdense : toUniPoly MvPoly.valleyEliminant 0
      = .ok (.ofCoeffs 0 [-1/64, 0, -3/16, 0, -3/4, 0, -1]) :=
    show MvPoly.Raw.toUniPoly _ 0 = _ by cbv
  have hroots : (UniPoly.ofCoeffs 0 [-1/64, 0, -3/16, 0, -3/4, 0, -1]).squareFree.isolateRoots? 1
      true = some [] := by
    decide +kernel
  have hleading : ∀ s, exec (AlgebraicPoint.effectiveDegree [(1, 0), (2, 1)]
      (coefficients (MvPoly.valley.machine .forward) 0).reverse) 1 s = (.ok (some 2), s) := by
    rw [MvPoly.coefficients_valley]
    exact fun s => rfl
  unfold rootsUnder
  rw [exec_bind, exec_count]
  simp only
  rw [exec_get_bind, PartialValue.of_halfUnit (by rw [MvPoly.vars_valley]; rfl), ofExcept_ok_bind,
    exec_bind, hleading]
  simp only
  rw [MvPoly.truncate_valley, AlgebraicPoint.roots, exec_get_bind, AlgebraicPoint.eliminant_valley,
    ofExcept_ok_bind]
  simp only
  rw [exec_bind, exec_count]
  simp only
  rw [if_neg (by decide), hdense, ofExcept_ok_bind, exec_read_bind]
  simp only [if_true, hroots]
  rfl

/-- In words of 32 bits two roots are lost: the exponents of `valley` fit, but those that the
resultants meet on the way do not. -/
theorem Isolator.isolate_ne_of_wrap : ¬∀ (p : MvPoly) (v : Var) (values : Assignment) (a : Var → ℝ)
    (s : Store), s.Valid → p.Fits → (∀ w ∈ p.vars, w ≠ 4294967295) →
      (∀ w ∈ p.vars, w ≠ v → ∃ x, values.lookup w = some x ∧ x.Denotes s (a w)) →
        Safe (isolate {} (p.machine .forward) v values) s fun o t =>
          ∀ roots, o.1 = .ok (some roots) →
            Number.Lists t {x | (p.specialize v a).IsRoot x} roots := by
  intro h
  have hvars := MvPoly.vars_valley
  have hsafe := h .valley 0 .halfUnit Assignment.halfUnitReals .halfUnit Store.valid_halfUnit
    (by decide_cbv) (by rw [hvars]; simp) (Assignment.exists_value_of_vars hvars)
  obtain ⟨-, -, hlists, -⟩ := hsafe 1 _ _ rfl
  obtain ⟨xs, hempty, -, hmem⟩ := hlists _ rfl [] Arithmetic.exec_rootsUnder_valley
  cases hempty
  exact List.not_mem_nil ((hmem (1 / 2)).2 MvPoly.isRoot_valley)

example : (exec (Isolator.isolate {} MvPoly.valley.checked 0 .halfUnit) 1 .halfUnit).1.map Prod.fst
    = .ok (.error .overflow) := by
  decide +kernel

/-! ## Undefined roots -/

/-- In machine words the answer of an isolator is that there is no list of roots exactly if the roots
are undefined, if what is multiplied on the way fits into words. An answer is given, whatever the
configuration. The roots are undefined if the polynomial that is left is zero, or the assignment is
degenerate. -/
theorem Isolator.isolate_undefined_iff (reading : MvPoly.Reading) (iso : Isolator) {s : Store}
    (hs : s.Valid) {p : MvPoly} {v : Var} {values : Assignment} {a : Var → ℝ}
    (hvalues : ∀ w ∈ p.vars, w ≠ v → ∃ x, values.lookup w = some x ∧ x.Denotes s (a w))
    (hlast : ∀ w ∈ p.vars, w ≠ 4294967295) (hfits : iso.RootsFit s p v values) :
    Settles (iso.isolate (p.machine reading) v values) s (fun o _ =>
        ∃ roots, o.1 = .ok roots ∧ (roots = none ↔ values.Undefined s p v a)) ∧
      Safe (iso.isolate (p.machine reading) v values) s (fun o _ =>
        ∀ roots, o.1 = .ok roots → (roots = none ↔ values.Undefined s p v a)) ∧
      (values.Undefined s p v a ↔ p.specialize v a = 0 ∨ values.Degenerate s p v a) := by
  have ha := Assignment.denotes_of_forall hvalues
  have hall := Assignment.lookup_ne_none hvalues
  have hruns := sameRuns_isolate reading hfits
  rw [Assignment.undefined_iff]
  refine ⟨hruns.settles_iff.2 (isolate_settles_answer hvalues iso hs hlast), hruns.safe_iff.2 ?_,
    Iff.rfl⟩
  refine ((iso.isolate_safe (D := True) hs ha fun _ => hall).and_of_exec
    fun rounds o t h roots ho => (answers_of_exec hvalues hs h ho).eq_none_iff).mono
      fun o t _ _ ho => ho.2

theorem MvPoly.rootsFit_zeroAtTwo : Isolator.RootsFit {} .one .zeroAtTwo 0 [(1, .one)] :=
  .of_isOk (n := 8) (by decide_cbv) (by decide +kernel)

/-- The polynomial `(y - 2) z` is not zero at the number one, yet its roots are undefined there,
since two is a conjugate. -/
theorem Isolator.isolate_one : MvPoly.zeroAtTwo.specialize 0 (fun _ => 1) ≠ 0 ∧
    (∀ w ∈ MvPoly.zeroAtTwo.vars, w ≠ 4294967295) ∧ RootsFit {} .one .zeroAtTwo 0 [(1, .one)] ∧
      Settles (isolate {} (MvPoly.zeroAtTwo.machine .backward) 0 [(1, .one)]) .one
        fun o _ => o.1 = .ok none := by
  have hone : (1 : ℝ) ≠ 2 := by norm_num
  obtain ⟨hsettles, -, hiff⟩ := isolate_undefined_iff .backward {} Store.valid_one
    (MvPoly.exists_value_zeroAtTwo Number.denotes_one) MvPoly.zeroAtTwo_lt_last
    MvPoly.rootsFit_zeroAtTwo
  refine ⟨MvPoly.specialize_zeroAtTwo_ne_zero hone, MvPoly.zeroAtTwo_lt_last,
    MvPoly.rootsFit_zeroAtTwo,
    hsettles.mono fun o t _ _ ho => ?_⟩
  obtain ⟨roots, hroots, hnone⟩ := ho
  rw [hroots, hnone.2 (hiff.2 (.inr ?_))]
  exact (Assignment.degenerate_zeroAtTwo_iff rfl hone).2 (Number.conjugate_one.2 (.inr rfl))

example : (exec (Isolator.isolate {} MvPoly.zeroAtTwo.checked 0 [(1, .one)]) 1 .one).1.map Prod.fst
    = .ok (.ok none) := by
  decide +kernel

/-! ## A leading coefficient that is dropped -/

/-- A multiple of the variable zero, with `steep` as its only coefficient. -/
def MvPoly.slope : MvPoly := (ofVar 0).mul steep

namespace MvPoly

theorem vars_slope : slope.vars = [0, 1, 2] := by
  decide_cbv

theorem coeff_slope : slope.coeff 0 1 = steep := by
  decide_cbv

/-- The leading coefficient is the product whose sign goes wrong. -/
theorem coefficients_slope : Arithmetic.coefficients (slope.machine .forward) 0
    = [zero.machine .forward, steep.machine .forward] := by
  have hcoefficients : slope.coefficients 0 = [zero, steep] := by
    decide_cbv
  rw [coefficients_machine (by decide_cbv), hcoefficients]
  rfl

end MvPoly

/-- No conjugate of one half is zero. -/
theorem Assignment.not_undefined_slope : ¬halfUnit.Undefined .halfUnit .slope 0 halfUnitReals := by
  have hleading : ∀ {A : Type} [CommRing A] [Algebra ℚ A] {b : Var → A}, b 2 = 1 →
      aeval b (MvPoly.slope.coeff 0 1).toPolynomial = b 1 := fun hb => by
    rw [MvPoly.coeff_slope, MvPoly.aeval_steep hb]
  rintro (hzero | ⟨d, hd, -, ρ, hconj, hzero⟩)
  · have hhalf : halfUnitReals 1 = 0 := (hleading rfl).symm.trans (hzero 1)
    rw [halfUnitReals, if_pos rfl] at hhalf
    norm_num at hhalf
  · have hmem : ∀ w : Var, w = 1 ∨ w = 2 → w ∈ MvPoly.slope.vars := by
      rw [MvPoly.vars_slope]
      simp
    obtain ⟨x, hx, hxc⟩ := hconj 1 (hmem 1 (.inl rfl)) (by decide)
    obtain ⟨y, hy, hyc⟩ := hconj 2 (hmem 2 (.inr rfl)) (by decide)
    cases hx
    cases hy
    have hvanish : ρ 1 = 0 := (hleading (Number.conjugate_unit.1 hyc)).symm.trans
      (MvPoly.aeval_truncate_eq_zero_iff.1 hzero 1 hd)
    have hcube := Number.conjugate_half.1 hxc
    rw [hvanish] at hcube
    norm_num at hcube

/-- The coefficient of the variable is taken for zero, and then nothing is left. -/
theorem Arithmetic.exec_rootsUnder_slope :
    (exec (rootsUnder {} (MvPoly.slope.machine .forward) 0 .halfUnit) 1 .halfUnit).1
      = .ok none := by
  have hdegree : ∀ tally, (exec (AlgebraicPoint.effectiveDegree [(1, 0), (2, 1)]
      (coefficients (MvPoly.slope.machine .forward) 0).reverse) 1 { Store.halfUnit with tally }).1
        = .ok none := fun tally => by
    obtain ⟨tally', hsign⟩ := AlgebraicPoint.exec_sign_steep 0 tally
    rw [MvPoly.coefficients_slope, List.reverse_cons, List.reverse_singleton, List.singleton_append,
      AlgebraicPoint.effectiveDegree, exec_bind, hsign]
    rfl
  unfold rootsUnder
  rw [exec_bind, exec_count]
  simp only
  rw [exec_get_bind, PartialValue.of_halfUnit (by rw [MvPoly.vars_slope]; rfl), ofExcept_ok_bind,
    exec_bind]
  split
  next o t ho =>
    cases (congrArg Prod.fst ho).symm.trans (hdegree _)
    rfl
  next e t he => cases (congrArg Prod.fst he).symm.trans (hdegree _)

/-- In words of 32 bits a polynomial that has a root is taken for zero. -/
theorem Isolator.undefined_ne_of_wrap : ¬∀ (p : MvPoly) (v : Var) (values : Assignment)
    (a : Var → ℝ) (s : Store), s.Valid → p.Fits → (∀ w ∈ p.vars, w ≠ 4294967295) →
      (∀ w ∈ p.vars, w ≠ v → ∃ x, values.lookup w = some x ∧ x.Denotes s (a w)) →
        Safe (isolate {} (p.machine .forward) v values) s fun o _ =>
          ∀ roots, o.1 = .ok roots → (roots = none ↔ values.Undefined s p v a) := by
  intro h
  have hvars := MvPoly.vars_slope
  have hsafe := h .slope 0 .halfUnit Assignment.halfUnitReals .halfUnit Store.valid_halfUnit
    (by decide_cbv) (by rw [hvars]; simp) (Assignment.exists_value_of_vars hvars)
  obtain ⟨-, -, hanswer, -⟩ := hsafe 1 _ _ rfl
  exact Assignment.not_undefined_slope ((hanswer _ rfl none Arithmetic.exec_rootsUnder_slope).1 rfl)

example : (exec (Isolator.isolate {} MvPoly.slope.checked 0 .halfUnit) 1 .halfUnit).1.map Prod.fst
    = .ok (.error .overflow) := by
  decide +kernel

end AlgebraicReal
