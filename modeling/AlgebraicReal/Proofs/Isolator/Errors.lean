import AlgebraicReal.Proofs.Frame
import AlgebraicReal.RootExpr

/-!
# Which errors a computation reports

Sign tests and isolation fail for few reasons. A search among locators is cut off, or cuts an
interval that has no room (`Error.OfSearch`); a resultant is not found; the eliminant has a variable
too many. The reasons are collected step by step (`RefineM.Reports`), for polynomials of any
arithmetic.
-/

namespace AlgebraicReal

/-- The errors of a search among locators. -/
def Error.OfSearch (e : Error) : Prop := e = .exhausted ∨ e = .emptyOpen ∨ e = .emptyClosed

namespace Locator

variable {l : Locator} {e : Error}

/-- A cut refuses only where it would leave an empty interval. -/
theorem split_error {pivot : Rat} (h : l.split pivot = .error e) : e.OfSearch := by
  unfold split at h
  split at h
  next => cases h
  next =>
    split at h
    next =>
      cases h
      exact .inr (.inl rfl)
    next =>
      split at h
      next => cases h
      next =>
        split at h
        next =>
          cases h
          exact .inr (.inl rfl)
        next => cases h

theorem refine_error (h : l.refine = .error e) : e.OfSearch := by
  unfold refine at h
  split at h
  next => cases h
  next => exact split_error h

/-- The same for a cut at a number that is excluded. -/
theorem avoid_error {q : Rat} (h : l.avoid q = .error e) : e.OfSearch := by
  unfold avoid at h
  split at h
  next => cases h
  next =>
    split at h
    next =>
      cases hs : l.split q with
      | error e' =>
        rw [hs] at h
        cases h
        exact split_error hs
      | ok l' =>
        rw [hs] at h
        cases h
    next => cases h

/-- By induction on the rounds: each round is a cut, and after the last one the search gives up. -/
theorem signLoop_error {q : UniPoly} {chain : List UniPoly} : ∀ {n : ℕ} {l : Locator},
    signLoop q chain n l = .error e → e.OfSearch
  | 0, _, h => by
    cases h
    exact .inl rfl
  | n + 1, l, h => by
    rw [signLoop] at h
    split at h
    next => cases h
    next =>
      split at h
      next => cases h
      next =>
        cases hr : l.refine with
        | error e' =>
          rw [hr] at h
          cases h
          exact refine_error hr
        | ok l' =>
          rw [hr] at h
          exact signLoop_error (n := n) h

/-- The exact test for a zero does not fail, the search that follows may. -/
theorem sign_error {n : ℕ} {q : UniPoly} (h : l.sign n q = .error e) : e.OfSearch := by
  unfold sign at h
  split at h
  next => cases h
  next =>
    split at h
    next => cases h
    next => exact signLoop_error h

end Locator

namespace RefineM

variable {α β : Type} {E : Error → Prop} {x : RefineM α} {f : α → RefineM β}

/-- With any number of rounds and in any store, an error of the computation is one of `E`. -/
def Reports (E : Error → Prop) (action : RefineM α) : Prop :=
  ∀ rounds s e, (exec action rounds s).1 = .error e → E e

theorem Reports.pure (a : α) : Reports E (pure a : RefineM α) := fun _ _ _ h => nomatch h

/-- A failure with an error that is allowed. -/
theorem Reports.throw {e : Error} (he : E e) : Reports E (throw e : RefineM α) := by
  intro rounds s e' h
  cases h
  exact he

/-- A sequence fails where one of its parts does. -/
theorem Reports.bind (hx : Reports E x) (hf : ∀ a, Reports E (f a)) : Reports E (x >>= f) := by
  intro rounds s e h
  rw [exec_bind] at h
  cases he : exec x rounds s with
  | mk o t =>
    rw [he] at h
    cases o with
    | error e' =>
      cases h
      exact hx rounds s _ (congrArg Prod.fst he)
    | ok a => exact hf a rounds t e h

theorem Reports.get_bind {f : Store → RefineM β} (h : ∀ s, Reports E (f s)) :
    Reports E (get >>= f) := fun rounds s => h s rounds s

theorem Reports.read_bind {f : ℕ → RefineM β} (h : ∀ n, Reports E (f n)) :
    Reports E (read >>= f) := fun rounds s => h rounds rounds s

/-- What is done with a result needs a look only if there is one. -/
theorem Reports.ofExcept_bind {r : Except Error α} (h : ∀ e, r = .error e → E e)
    (hf : ∀ a, r = .ok a → Reports E (f a)) : Reports E (ofExcept r >>= f) := by
  cases r with
  | error e => exact .throw (h e rfl)
  | ok a => exact hf a rfl

/-- To count does not fail. -/
theorem Reports.count (change : Tally → Tally) : Reports E (count change) :=
  fun _ _ _ h => nomatch h

theorem Reports.allocate (l : Locator) : Reports E (allocate l) := fun _ _ _ h => nomatch h

/-- A question fails where its answer is an error. -/
theorem Reports.ask {id : LocatorId} {question : Locator → Except Error (α × Locator)}
    (h : ∀ l e, question l = .error e → E e) : Reports E (ask id question) := by
  intro rounds s e he
  rw [exec_ask] at he
  split at he
  next => cases he
  next e' hq =>
    cases he
    exact h _ _ hq

/-- A narrowing fails where its step does. -/
theorem Reports.narrow {id : LocatorId} {step : Locator → Except Error Locator}
    (h : ∀ l e, step l = .error e → E e) : Reports E (narrow id step) := by
  refine .ask fun l e he => ?_
  cases hstep : step l with
  | error e' =>
    rw [hstep] at he
    cases he
    exact h l _ hstep
  | ok l' =>
    rw [hstep] at he
    cases he

/-- A list is gone through one element at a time. -/
theorem Reports.forM {γ : Type} {g : γ → RefineM PUnit} : ∀ {cs : List γ},
    (∀ c, Reports E (g c)) → Reports E (cs.forM g)
  | [], _ => .pure _
  | _ :: _, h => (h _).bind fun _ => Reports.forM h

end RefineM

open RefineM

theorem Number.reports_ofRoot (id : LocatorId) : Reports Error.OfSearch (Number.ofRoot id) := by
  refine (Reports.narrow fun l e he => ?_).bind fun _ => .get_bind fun _ => .pure _
  cases ha : l.avoid 0 with
  | error e' =>
    rw [ha] at he
    cases he
    exact Locator.avoid_error ha
  | ok r =>
    rw [ha] at he
    cases he

variable {P : Type} [Arithmetic P]

namespace AlgebraicPoint

variable {point : AlgebraicPoint} {s : Store}

/-- The loop fails where a coordinate cannot be refined, or no round is left. -/
theorem reports_signLoop (g : P) (radius : Option Rat) :
    ∀ k, Reports Error.OfSearch (point.signLoop g radius k)
  | 0 => .throw (.inl rfl)
  | k + 1 => by
    rw [signLoop]
    refine .get_bind fun s => ?_
    split
    next => exact .pure _
    next =>
      split
      next => exact .pure _
      next =>
        exact (Reports.forM fun c => .narrow fun _ _ => Locator.refine_error).bind fun _ =>
          reports_signLoop g radius k

/-- The only failure of the halving is that no round is left. -/
theorem shrinkRadius_error {chain : List UniPoly} {e : Error} : ∀ {n : ℕ} {r : Rat},
    shrinkRadius chain n r = .error e → e.OfSearch
  | 0, _, h => by
    cases h
    exact .inl rfl
  | n + 1, r, h => by
    rw [shrinkRadius] at h
    split at h
    next =>
      cases h
      exact .inr (.inr rfl)
    next =>
      split at h
      next => cases h
      next => exact shrinkRadius_error (n := n) h

/-- A radius is not found because the search is cut off, or because there is no annihilator. -/
theorem radius_error_cases {rounds : ℕ} {g : P} {e : Error}
    (h : point.radius rounds s g = .error e) :
    e.OfSearch ∨ point.annihilator s g = .error e := by
  cases ha : point.annihilator s g with
  | error e' =>
    unfold radius at h
    rw [ha] at h
    cases h
    exact .inr rfl
  | ok a =>
    -- the annihilator is there, so what fails is the search for a radius
    rw [radius_of_annihilator ha] at h
    refine .inl ?_
    split at h
    next u _ =>
      split at h
      next => cases h
      next =>
        unfold zeroFreeRadius at h
        split at h
        next => cases h
        next =>
          cases hr : shrinkRadius (UniPoly.ofCoeffs u.var (u.coeffs.dropWhile (· = 0))).sturmChain
              rounds 1 with
          | error e' =>
            dsimp only at h
            rw [hr] at h
            cases h
            exact shrinkRadius_error hr
          | ok r =>
            dsimp only at h
            rw [hr] at h
            cases h
    next => cases h

section

variable {E : Error → Prop} (hE : ∀ e, e.OfSearch → E e)
  (heliminate : ∀ (p : P) (u : UniPoly) (e : Error), Arithmetic.eliminate p u = .error e → E e)
include heliminate

/-- By induction on the coordinates: each elimination fails with an error of the arithmetic. -/
theorem eliminate_reports : ∀ {point : AlgebraicPoint} {h : P} {e : Error},
    eliminate s point h = .error e → E e
  | [], _, _, h => nomatch h
  | c :: cs, p, e, h => by
    rw [eliminate] at h
    cases hr : Arithmetic.eliminate p (definingPoly s c) with
    | error e' =>
      rw [hr] at h
      cases h
      exact heliminate _ _ _ hr
    | ok r =>
      rw [hr] at h
      change eliminate s cs r = .error e at h
      exact eliminate_reports h

/-- Eliminations that are skipped do not fail. -/
theorem eliminant_reports : ∀ {point : AlgebraicPoint} {h : P} {e : Error},
    eliminant s point h = .error e → E e
  | [], _, _, h => nomatch h
  | c :: cs, p, e, h => by
    rw [eliminant] at h
    split at h
    next =>
      cases hr : Arithmetic.eliminate p (definingPoly s c) with
      | error e' =>
        rw [hr] at h
        cases h
        exact heliminate _ _ _ hr
      | ok r =>
        rw [hr] at h
        change ((eliminant s cs r >>= fun a => pure (a.1, a.2 + 1)) = Except.error e) at h
        cases hrest : eliminant s cs r with
        | error e' =>
          rw [hrest] at h
          cases h
          exact eliminant_reports hrest
        | ok r' =>
          rw [hrest] at h
          cases h
    next => exact eliminant_reports h

include hE

/-- The radius fails as the elimination does, the loop as a search does. -/
theorem reports_signByEnclosure (g : P) : Reports E (point.signByEnclosure g) := by
  refine (Reports.count _).bind fun _ => .read_bind fun n => .get_bind fun s =>
    .ofExcept_bind (fun e he => ?_) fun r _ => .read_bind fun k => ?_
  · rcases radius_error_cases he with h | h
    · exact hE e h
    · exact eliminate_reports heliminate h
  · exact fun rounds s e he => hE e (reports_signLoop g r k rounds s e he)

/-- A point without coordinates that matter is evaluated, one coordinate is left to its locator. -/
theorem reports_sign (g : P) : Reports E (point.sign g) := by
  unfold sign
  split
  next => exact .pure _
  next =>
    refine (Reports.count _).bind fun _ => ?_
    split
    next =>
      split
      next => exact .read_bind fun n => .ask fun l e he => hE e (Locator.sign_error he)
      next => exact reports_signByEnclosure hE heliminate g
    next => exact reports_signByEnclosure hE heliminate g

/-- One sign for each leading coefficient that is looked at. -/
theorem reports_effectiveDegree : ∀ cs : List P, Reports E (point.effectiveDegree cs)
  | [] => .pure _
  | c :: cs => by
    rw [effectiveDegree]
    refine (reports_sign hE heliminate c).bind fun o => ?_
    split
    next => exact reports_effectiveDegree cs
    next => exact .pure _

theorem reports_vanishesAt (p : P) (v : Var) (q : Rat) : Reports E (point.vanishesAt p v q) := by
  unfold vanishesAt
  split
  next => exact .pure _
  next => exact (reports_sign hE heliminate _).bind fun _ => .pure _

theorem reports_vanishesAtRoot (p : P) (v : Var) (id : LocatorId) :
    Reports E (point.vanishesAtRoot p v id) := by
  unfold vanishesAtRoot
  split
  next => exact .pure _
  next => exact (reports_sign hE heliminate _).bind fun _ => .pure _

/-- A candidate is tested before its root is made a number. -/
theorem reports_candidate (p : P) (v : Var) (e : UniPoly) (i : Interval) :
    Reports E (point.candidate p v e i) := by
  unfold candidate
  split
  next => exact (reports_vanishesAt hE heliminate p v _).bind fun _ => .pure _
  next =>
    refine (Reports.allocate _).bind fun id =>
      (reports_vanishesAtRoot hE heliminate p v id).bind fun b => ?_
    split
    next =>
      exact Reports.bind (fun rounds s e he => hE e (Number.reports_ofRoot id rounds s e he))
        fun _ => .pure _
    next => exact .pure _

/-- The candidates one after another. -/
theorem reports_keepRoots (p : P) (v : Var) (e : UniPoly) :
    ∀ is : List Interval, Reports E (point.keepRoots p v e is)
  | [] => .pure _
  | i :: is => by
    rw [keepRoots]
    refine (reports_candidate hE heliminate p v e i).bind fun o => ?_
    cases o with
    | some x => exact (reports_keepRoots p v e is).bind fun _ => .pure _
    | none => exact (Reports.count _).bind fun _ => reports_keepRoots p v e is

/-- The eliminant must be read as a polynomial in `v`. -/
theorem reports_roots (config : IsolationConfig) {p : P} {v : Var}
    (hunivariate : ∀ s e n, eliminant s point p = .ok (e, n) →
      ∃ u, Arithmetic.toUniPoly e v = .ok u) : Reports E (point.roots config p v) := by
  unfold roots
  refine .get_bind fun s => .ofExcept_bind (fun e he => eliminant_reports heliminate he)
    fun r hr => (Reports.count _).bind fun _ => ?_
  split
  next => exact .pure _
  next =>
    obtain ⟨u, hu⟩ := hunivariate s r.1 r.2 hr
    rw [hu]
    refine .ofExcept_bind (fun e he => nomatch he) fun u _ => .read_bind fun n => ?_
    split
    next => exact .throw (hE _ (.inl rfl))
    next is _ =>
      exact (Reports.count _).bind fun _ =>
        (reports_keepRoots hE heliminate p v _ is).bind fun _ => .pure _

end

end AlgebraicPoint

end AlgebraicReal
