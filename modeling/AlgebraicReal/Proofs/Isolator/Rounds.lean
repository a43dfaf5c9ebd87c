import AlgebraicReal.Proofs.Rounds
import AlgebraicReal.RootExpr

/-!
# Sign tests and isolation with more rounds

Sign tests at an algebraic point and root isolation are made of searches that come to the same end
with more rounds, so they do as well: rounds beyond those that suffice change neither the outcome nor
what is narrowed.
-/

namespace AlgebraicReal

open RefineM

variable {P : Type} [Arithmetic P] {m n : ℕ}

/-- Zero is excluded without a search. -/
theorem Number.continues_ofRoot (id : LocatorId) :
    Continues m n (Number.ofRoot id) (Number.ofRoot id) :=
  (Continues.narrow _).bind fun _ => .get_bind fun _ => .pure _

namespace AlgebraicPoint

variable {point : AlgebraicPoint}

/-- Both searches refine the same coordinates until the shorter one ends. -/
theorem continues_signLoop (g : P) (radius : Option Rat) : ∀ {j k : ℕ}, j ≤ k →
    Continues m n (point.signLoop g radius j) (point.signLoop g radius k)
  | 0, _, _ => fun _ h => absurd rfl h
  | j + 1, 0, hjk => absurd hjk (Nat.not_succ_le_zero j)
  | j + 1, k + 1, hjk => by
    rw [signLoop, signLoop]
    refine .get_bind fun s => ?_
    split
    next => exact .pure _
    next =>
      split
      next => exact .pure _
      next =>
        exact (Continues.forM fun c _ => .narrow _).bind fun _ =>
          continues_signLoop g radius (Nat.le_of_succ_le_succ hjk)

variable (hmn : m ≤ n)
include hmn

/-- The radius is the same for every larger number of rounds, and the loop goes on where it was cut
off. -/
theorem continues_signByEnclosure (g : P) :
    Continues m n (point.signByEnclosure g) (point.signByEnclosure g) :=
  (Continues.count _).bind fun _ => .read_bind <| .get_bind fun _ =>
    (Continues.ofExcept (radius_of_le hmn)).bind fun _ => .read_bind (continues_signLoop g _ hmn)

/-- The two shortcuts before the search do not depend on the rounds. -/
theorem continues_sign (g : P) : Continues m n (point.sign g) (point.sign g) := by
  unfold sign
  split
  next => exact .pure _
  next =>
    refine (Continues.count _).bind fun _ => ?_
    split
    next v id _ =>
      split
      next => exact .read_bind (.ask fun _ => Locator.sign_of_le hmn)
      next => exact continues_signByEnclosure hmn g
    next => exact continues_signByEnclosure hmn g

/-- By induction on the coefficients, leading one first. -/
theorem continues_effectiveDegree : ∀ cs : List P,
    Continues m n (point.effectiveDegree cs) (point.effectiveDegree cs)
  | [] => .pure _
  | c :: cs => by
    rw [effectiveDegree]
    refine (continues_sign hmn c).bind fun o => ?_
    split
    next => exact continues_effectiveDegree cs
    next => exact .pure _

theorem continues_vanishesAt (p : P) (v : Var) (q : Rat) :
    Continues m n (point.vanishesAt p v q) (point.vanishesAt p v q) := by
  unfold vanishesAt
  split
  next => exact .pure _
  next => exact (continues_sign hmn _).bind fun _ => .pure _

theorem continues_vanishesAtRoot (p : P) (v : Var) (id : LocatorId) :
    Continues m n (point.vanishesAtRoot p v id) (point.vanishesAtRoot p v id) := by
  unfold vanishesAtRoot
  split
  next => exact .pure _
  next => exact (continues_sign hmn p).bind fun _ => .pure _

/-- The test of the candidate is a search, what is made of it is not. -/
theorem continues_candidate (p : P) (v : Var) (e : UniPoly) (i : Interval) :
    Continues m n (point.candidate p v e i) (point.candidate p v e i) := by
  unfold candidate
  split
  next =>
    refine (continues_vanishesAt hmn p v _).bind fun b => ?_
    split <;> exact .pure _
  next =>
    refine (Continues.allocate _).bind fun id =>
      (continues_vanishesAtRoot hmn p v id).bind fun b => ?_
    split
    next => exact (Number.continues_ofRoot id).bind fun _ => .pure _
    next => exact .pure _

/-- By induction on the candidates. -/
theorem continues_keepRoots (p : P) (v : Var) (e : UniPoly) : ∀ is : List Interval,
    Continues m n (point.keepRoots p v e is) (point.keepRoots p v e is)
  | [] => .pure _
  | i :: is => by
    rw [keepRoots]
    refine (continues_candidate hmn p v e i).bind fun o => ?_
    cases o with
    | some x => exact (continues_keepRoots p v e is).bind fun _ => .pure _
    | none => exact (Continues.count _).bind fun _ => continues_keepRoots p v e is

/-- The eliminant depends on no rounds; the bisection that isolates its roots finds the same
intervals. -/
theorem continues_roots (config : IsolationConfig) (p : P) (v : Var) :
    Continues m n (point.roots config p v) (point.roots config p v) := by
  unfold roots
  refine .get_bind fun s => (Continues.ofExcept fun _ => rfl).bind fun r => ?_
  dsimp only
  refine (Continues.count _).bind fun _ => ?_
  split
  next => exact .pure _
  next =>
    refine (Continues.ofExcept fun _ => rfl).bind fun e => .read_bind ?_
    -- the longer search finds the intervals that the shorter one finds
    cases his : UniPoly.isolateRoots? m (if config.squareFree then e.squareFree else e.normalized)
        config.splitAtZero with
    | none => exact fun _ h => absurd rfl h
    | some is =>
      rw [UniPoly.isolateRoots?_of_le hmn his]
      exact (Continues.count _).bind fun _ =>
        (continues_keepRoots hmn p v _ is).bind fun _ => .pure _

end AlgebraicPoint

/-! ## Under an assignment -/

/-- The tally is no part of the values. -/
theorem PartialValue.substitute_congr {s t : Store} {values : Assignment}
    (h : t.locators = s.locators) : ∀ (vs : List Var) (value : PartialValue P),
      substitute t values vs value = substitute s values vs value
  | [], _ => rfl
  | v :: vs, value => by
    have hform : ∀ x : Number, x.form t = x.form s := fun x => by
      unfold Number.form Store.get
      rw [h]
    unfold substitute
    simp only [substitute_congr h vs, hform]

theorem PartialValue.of_congr {s t : Store} {values : Assignment} (h : t.locators = s.locators)
    (p : P) (except : List Var) : PartialValue.of t values p except = of s values p except :=
  substitute_congr h _ _

/-- More rounds never change an answer. -/
theorem Arithmetic.steady_signUnder (g : P) (values : Assignment) :
    Steady (signUnder g values) := fun _ _ hmn =>
  .get_bind fun _ => (Continues.ofExcept fun _ => rfl).bind fun value =>
    AlgebraicPoint.continues_sign hmn value.poly

theorem Arithmetic.steady_rootsUnder (config : IsolationConfig) (p : P) (v : Var)
    (values : Assignment) : Steady (rootsUnder config p v values) := by
  intro m n hmn
  refine (Continues.count _).bind fun _ => .get_bind fun s =>
    (Continues.ofExcept fun _ => rfl).bind fun value => ?_
  refine (AlgebraicPoint.continues_effectiveDegree hmn _).bind fun o => ?_
  split
  next => exact .pure _
  next => exact .pure _
  next => exact AlgebraicPoint.continues_roots hmn config _ v

/-- The root is picked from a list that more rounds do not change. -/
theorem RootExpr.steady_evaluate (e : RootExpr P) (values : Assignment) :
    Steady (e.evaluate values) := by
  intro m n hmn
  refine (Arithmetic.steady_rootsUnder {} e.poly e.root values hmn).bind fun o => ?_
  split <;> exact .pure _

/-! ## Outcomes of an isolator -/

namespace Isolator

variable {iso : Isolator} {p : P} {v : Var} {values : Assignment} {rounds : ℕ} {s t : Store}

/-- The outcome of an isolator is the one of the computation that it meters, and so are the locators
that are left. -/
theorem exec_isolate {r : Except Error (Option (List Number)) × Isolator}
    (h : exec (iso.isolate p v values) rounds s = (.ok r, t)) :
    ∃ u, exec (Arithmetic.rootsUnder iso.config p v values) rounds { s with tally := iso.tally }
      = (r.1, u) ∧ t = { u with tally := s.tally } := by
  obtain ⟨o, u, ho, h⟩ := exec_bind_eq_ok h
  rw [exec_metered] at ho
  cases ho
  cases h
  exact ⟨_, rfl, rfl⟩

/-- The tally of the isolator goes in, and out again. -/
theorem exec_signUnder {r : Except Error Sign × Isolator}
    (h : exec (iso.signUnder p values) rounds s = (.ok r, t)) :
    ∃ u, exec (Arithmetic.signUnder p values) rounds { s with tally := iso.tally } = (r.1, u) ∧
      t = { u with tally := s.tally } := by
  obtain ⟨o, u, ho, h⟩ := exec_bind_eq_ok h
  rw [exec_metered] at ho
  cases ho
  cases h
  exact ⟨_, rfl, rfl⟩

end Isolator

end AlgebraicReal
