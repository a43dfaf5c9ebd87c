import AlgebraicReal.Proofs.Isolator.Rounds
import AlgebraicReal.Proofs.MvPoly.Raw.Dense
import AlgebraicReal.Proofs.MvPoly.Raw.Resultant
import AlgebraicReal.Proofs.Overflow.Simulation

/-!
# Arithmetic that refuses to overflow

Of the operations by which signs and roots are found only resultants add up exponents. In the
arithmetic of `MvPoly.Checked` exponents are numbers without a bound, but a resultant is refused if
something that is multiplied on the way does not fit into words. A computation that is not refused
anything (`RefineM.NoOverflow`) runs alike in machine words and without a bound
(`Isolator.sameRuns_signUnder`, `Isolator.sameRuns_isolate`), so what is known of the one holds of
the other. Whether there is a refusal can be seen from one run that comes to an end
(`RefineM.Steady.noOverflow`).
-/

namespace AlgebraicReal

open RefineM

/-! ## Runs -/

namespace RefineM

variable {α β : Type} {x y z : RefineM α} {s : Store} {Q : α → Store → Prop}

/-- With no number of rounds the computation is refused a sum of exponents. -/
def NoOverflow (action : RefineM α) (s : Store) : Prop :=
  ∀ rounds, (exec action rounds s).1 ≠ .error .overflow

/-- If a computation that more rounds do not change comes to an end, then it was not refused
anything with fewer rounds. -/
theorem Steady.noOverflow (h : Steady x) {n : ℕ} (hn : (exec x n s).1.isOk = true) :
    NoOverflow x s := by
  intro m he
  have hcontinues : exec x (max m n) s = exec x m s :=
    h (Nat.le_max_left m n) s (by rw [he]; exact nofun)
  have hcontinues' : exec x (max m n) s = exec x n s := by
    refine h (Nat.le_max_right m n) s fun hex => ?_
    rw [hex] at hn
    cases hn
  rw [← hcontinues', hcontinues, he] at hn
  cases hn

/-- From the store `s` the two computations have the same outcomes and leave the same stores. -/
def SameRuns (s : Store) (x y : RefineM α) : Prop := ∀ rounds, exec x rounds s = exec y rounds s

theorem SameRuns.symm (h : SameRuns s x y) : SameRuns s y x := fun rounds => (h rounds).symm

theorem SameRuns.trans (h : SameRuns s x y) (h' : SameRuns s y z) : SameRuns s x z :=
  fun rounds => (h rounds).trans (h' rounds)

/-- A run that does not overflow on the right is the one on the left. -/
theorem Follows.sameRuns (h : Follows x y) (hy : NoOverflow y s) : SameRuns s x y :=
  fun rounds => h rounds s (hy rounds)

/-- What follows gets the same result and the same store. -/
theorem SameRuns.bind {f : α → RefineM β} (h : SameRuns s x y) :
    SameRuns s (x >>= f) (y >>= f) := by
  intro rounds
  rw [exec_bind, exec_bind, h rounds]

/-- And the same tally. -/
theorem SameRuns.metered {tally : Tally} (h : SameRuns { s with tally } x y) :
    SameRuns s (metered tally x) (metered tally y) := by
  intro rounds
  rw [exec_metered, exec_metered, h rounds]

/-- Runs that are the same have the same properties. -/
theorem SameRuns.settles_iff (h : SameRuns s x y) : Settles x s Q ↔ Settles y s Q := by
  unfold Settles
  simp only [h _]

theorem SameRuns.safe_iff (h : SameRuns s x y) : Safe x s Q ↔ Safe y s Q := by
  unfold Safe
  simp only [h _]

theorem SameRuns.exact_iff (h : SameRuns s x y) : Exact x s Q ↔ Exact y s Q :=
  ⟨fun hx => ⟨h.safe_iff.1 hx.safe, h.settles_iff.1 hx.settles⟩,
    fun hy => ⟨h.safe_iff.2 hy.safe, h.settles_iff.2 hy.settles⟩⟩

end RefineM

/-! ## The arithmetics -/

namespace MvPoly

/-- A polynomial in the arithmetic that refuses to overflow. -/
structure Checked where
  exact : MvPoly
  deriving DecidableEq

/-- A polynomial whose sums of exponents are checked. -/
def checked (p : MvPoly) : Checked := ⟨p⟩

/-- The polynomial in machine words. -/
def machine (reading : Reading) (p : MvPoly) : Machine reading := p.raw

instance : Arithmetic Checked where
  vars p := p.exact.vars
  hasVar p := p.exact.hasVar
  isZero p := p.exact.isZero
  isConstant p := p.exact.isConstant
  constantValue p := p.exact.constantValue
  coefficients p v := (p.exact.coefficients v).map checked
  truncate p v d := (p.exact.truncate v d).checked
  evalAt p v c := (p.exact.evalAt v c).checked
  subFrom v p := ((ofVar v).sub p.exact).checked
  eliminate p u :=
    if ResultantFits p.exact u.toMvPoly u.var then
      .ok (checked (p.exact.resultant u.toMvPoly u.var))
    else .error .overflow
  toUniPoly p := p.exact.toUniPoly
  enclose p := p.exact.enclose

/-- The resultant without a bound, unless an exponent on the way does not fit. -/
theorem eliminate_checked (p : Checked) (u : UniPoly) : Arithmetic.eliminate p u =
    if ResultantFits p.exact u.toMvPoly u.var then
      Except.ok (p.exact.resultant u.toMvPoly u.var).checked
    else Except.error .overflow := rfl

theorem coefficients_checked (p : Checked) (v : Var) :
    Arithmetic.coefficients p v = (p.exact.coefficients v).map checked := rfl

/-- To keep exponents in words changes no variable. -/
theorem vars_machine (reading : Reading) (p : MvPoly) :
    Arithmetic.vars (p.machine reading) = p.vars := Raw.vars_raw

/-- Nor the coefficients. -/
theorem coefficients_machine {reading : Reading} {p : MvPoly} (h : p.Fits) (v : Var) :
    Arithmetic.coefficients (p.machine reading) v = (p.coefficients v).map (machine reading) :=
  Raw.collectCoefficients_raw h

/-- The resultant that is found is the answer. -/
theorem eliminate_of_resultant {reading : Reading} {p r : Raw} {u : UniPoly}
    (h : Raw.resultant reading p (.ofUniPoly u) u.var = some r) :
    Arithmetic.eliminate (P := Machine reading) p u = .ok r := by
  simp only [Arithmetic.eliminate, h]

/-- In words the resultant is found, and it is the one without a bound. -/
theorem eliminate_machine {reading : Reading} {p : MvPoly} {u : UniPoly}
    (h : ResultantFits p u.toMvPoly u.var) :
    Arithmetic.eliminate (p.machine reading) u
      = .ok ((p.resultant u.toMvPoly u.var).machine reading) := by
  refine eliminate_of_resultant ?_
  rw [(Raw.ofUniPoly_eq (Raw.length_coeffs_le h.2.1)).1]
  exact (Raw.resultant_raw reading h).1

/-- Machine words do what the arithmetic does that refuses to overflow. -/
theorem simulates_machine (reading : Reading) : Arithmetic.Simulates
    fun (p : Machine reading) (q : Checked) => p = q.exact.machine reading ∧ q.exact.Fits where
  vars_eq := by
    rintro _ q ⟨rfl, -⟩
    exact Raw.vars_raw
  hasVar_eq v := by
    rintro _ q ⟨rfl, h⟩
    exact Raw.hasVar_raw h
  isZero_eq := by
    rintro _ q ⟨rfl, -⟩
    exact Raw.isEmpty_raw
  isConstant_eq := by
    rintro _ q ⟨rfl, -⟩
    exact Raw.isConstant_raw
  constantValue_eq := by
    rintro _ q ⟨rfl, -⟩
    exact Raw.constantValue_raw
  coefficients v := by
    rintro _ q ⟨rfl, h⟩
    rw [coefficients_machine h, coefficients_checked, List.forall₂_map_left_iff,
      List.forall₂_map_right_iff, List.forall₂_same]
    exact fun c hc => ⟨rfl, Raw.fits_of_mem_coefficients h hc⟩
  truncate v d := by
    rintro _ q ⟨rfl, h⟩
    exact ⟨Raw.truncate_raw h d, h.truncate v d⟩
  evalAt v c := by
    rintro _ q ⟨rfl, h⟩
    exact ⟨Raw.evalAt_raw h c, h.evalAt v c⟩
  subFrom v := by
    rintro _ q ⟨rfl, h⟩
    have hvar : (ofVar v).Fits := by
      rw [Fits, ofVar, totalDegree_varPower]
      exact Nat.one_lt_two_pow (by decide)
    refine ⟨?_, hvar.sub h⟩
    show Raw.sub (Raw.varPower v 1) q.exact.raw = _
    rw [Raw.varPower_eq]
    exact Raw.sub_raw hvar h
  eliminate u := by
    rintro _ q ⟨rfl, -⟩
    rw [eliminate_checked]
    split
    next h =>
      rw [eliminate_machine h]
      exact .ok ⟨rfl, (Raw.resultant_raw reading h).2⟩
    next => exact .overflow _
  toUniPoly_eq v := by
    rintro _ q ⟨rfl, h⟩
    exact Raw.toUniPoly_raw h
  enclose_eq box := by
    rintro _ q ⟨rfl, h⟩
    exact Raw.enclose_raw h box

/-- Numbers without a bound as exponents do so as well. -/
theorem simulates_exact : Arithmetic.Simulates fun (p : MvPoly) (q : Checked) => p = q.exact where
  vars_eq _ _ h := h ▸ rfl
  hasVar_eq _ _ _ h := h ▸ rfl
  isZero_eq _ _ h := h ▸ rfl
  isConstant_eq _ _ h := h ▸ rfl
  constantValue_eq _ _ h := h ▸ rfl
  coefficients v := by
    rintro _ q rfl
    rw [coefficients_checked, Arithmetic.coefficients_mvPoly, List.forall₂_map_right_iff,
      List.forall₂_same]
    exact fun c _ => rfl
  truncate _ _ _ _ h := h ▸ rfl
  evalAt _ _ _ _ h := h ▸ rfl
  subFrom _ _ _ h := h ▸ rfl
  eliminate u := by
    rintro _ q rfl
    rw [eliminate_checked]
    split
    next => exact .ok rfl
    next => exact .overflow _
  toUniPoly_eq _ _ _ h := h ▸ rfl
  enclose_eq _ _ _ h := h ▸ rfl

end MvPoly

/-! ## Under an assignment -/

section

variable (reading : MvPoly.Reading) {s : Store} {p : MvPoly} {v : Var} {values : Assignment}

/-- Machine words follow the checked ones, and these the arithmetic without a bound. -/
theorem Arithmetic.sameRuns_signUnder (hp : p.Fits) (h : NoOverflow (signUnder p.checked values) s) :
    SameRuns s (signUnder (p.machine reading) values) (signUnder p values) :=
  ((follows_signUnder (MvPoly.simulates_machine reading) (q := p.checked) ⟨rfl, hp⟩
    values).sameRuns h).trans
    ((follows_signUnder MvPoly.simulates_exact (q := p.checked) rfl values).sameRuns h).symm

theorem Arithmetic.sameRuns_rootsUnder {config : IsolationConfig} (hp : p.Fits)
    (h : NoOverflow (rootsUnder config p.checked v values) s) :
    SameRuns s (rootsUnder config (p.machine reading) v values) (rootsUnder config p v values) :=
  ((follows_rootsUnder (MvPoly.simulates_machine reading) config (q := p.checked) ⟨rfl, hp⟩ v
    values).sameRuns h).trans
    ((follows_rootsUnder MvPoly.simulates_exact config (q := p.checked) rfl v
      values).sameRuns h).symm

namespace Isolator

variable {iso : Isolator}

/-- What is multiplied on the way to a sign fits into words. -/
structure SignFits (iso : Isolator) (s : Store) (g : MvPoly) (values : Assignment) : Prop where
  fits : g.Fits
  noOverflow : NoOverflow (Arithmetic.signUnder g.checked values) { s with tally := iso.tally }

/-- What is multiplied on the way to the roots fits into words. -/
structure RootsFit (iso : Isolator) (s : Store) (p : MvPoly) (v : Var) (values : Assignment) :
    Prop where
  fits : p.Fits
  noOverflow : NoOverflow (Arithmetic.rootsUnder iso.config p.checked v values)
    { s with tally := iso.tally }

/-- One run that comes to an end shows that everything fits. -/
theorem SignFits.of_isOk (hp : p.Fits) {n : ℕ} (hn : (exec (Arithmetic.signUnder p.checked values) n
    { s with tally := iso.tally }).1.isOk = true) : iso.SignFits s p values :=
  ⟨hp, (Arithmetic.steady_signUnder _ _).noOverflow hn⟩

/-- The same for isolation. -/
theorem RootsFit.of_isOk (hp : p.Fits) {n : ℕ}
    (hn : (exec (Arithmetic.rootsUnder iso.config p.checked v values) n
      { s with tally := iso.tally }).1.isOk = true) : iso.RootsFit s p v values :=
  ⟨hp, (Arithmetic.steady_rootsUnder _ _ _ _).noOverflow hn⟩

/-- The sign test in machine words is the one without a bound, run by run. -/
theorem sameRuns_signUnder (h : iso.SignFits s p values) :
    SameRuns s (iso.signUnder (p.machine reading) values) (iso.signUnder p values) :=
  (Arithmetic.sameRuns_signUnder reading h.fits h.noOverflow).metered.bind

/-- Isolation in machine words is the one without a bound, run by run. -/
theorem sameRuns_isolate (h : iso.RootsFit s p v values) :
    SameRuns s (iso.isolate (p.machine reading) v values) (iso.isolate p v values) :=
  (Arithmetic.sameRuns_rootsUnder reading h.fits h.noOverflow).metered.bind

end Isolator

namespace RootExpr

variable {e : RootExpr MvPoly}

/-- The root expression in machine words. -/
def machine (reading : MvPoly.Reading) (e : RootExpr MvPoly) : RootExpr (MvPoly.Machine reading) :=
  ⟨e.poly.machine reading, e.index, e.root, e.index_pos⟩

/-- What is multiplied on the way to the root fits into words. -/
structure EvaluationFits (s : Store) (e : RootExpr MvPoly) (values : Assignment) : Prop where
  fits : e.poly.Fits
  noOverflow : NoOverflow (Arithmetic.realRoots e.poly.checked e.root values) s

/-- The same for a root expression. -/
theorem EvaluationFits.of_isOk (he : e.poly.Fits) {n : ℕ}
    (hn : (exec (Arithmetic.realRoots e.poly.checked e.root values) n s).1.isOk = true) :
    EvaluationFits s e values :=
  ⟨he, (Arithmetic.steady_rootsUnder _ _ _ _).noOverflow hn⟩

/-- Expressions that are the same once the rationals are put in meet the same sums of exponents. -/
theorem EvaluationFits.congr {f : RootExpr MvPoly} {values' : Assignment}
    (h : EvaluationFits s e values) (hf : f.poly.Fits) (hroot : f.root = e.root)
    (hof : PartialValue.of s values' f.poly.checked [f.root]
      = PartialValue.of s values e.poly.checked [e.root]) : EvaluationFits s f values' := by
  rw [hroot] at hof
  have hcounted : ∀ tally, PartialValue.of { s with tally } values' f.poly.checked [e.root]
      = PartialValue.of { s with tally } values e.poly.checked [e.root] := fun tally => by
    have hlocators : ({ s with tally } : Store).locators = s.locators := rfl
    rw [PartialValue.of_congr hlocators, hof, PartialValue.of_congr hlocators]
  refine ⟨hf, fun rounds => ?_⟩
  have hrun := h.noOverflow rounds
  unfold Arithmetic.realRoots Arithmetic.rootsUnder at hrun ⊢
  rw [exec_bind, exec_count] at hrun ⊢
  simp only at hrun ⊢
  rw [exec_get_bind] at hrun ⊢
  rw [hroot, hcounted]
  exact hrun

/-- Evaluation in machine words is the one without a bound, run by run. -/
theorem sameRuns_evaluate (h : EvaluationFits s e values) :
    SameRuns s ((e.machine reading).evaluate values) (e.evaluate values) :=
  (Arithmetic.sameRuns_rootsUnder reading h.fits h.noOverflow).bind

end RootExpr

end

end AlgebraicReal
