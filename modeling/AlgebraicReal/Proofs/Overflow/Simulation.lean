import AlgebraicReal.Proofs.Store
import AlgebraicReal.RootExpr

/-!
# Computing with one arithmetic as with another

Signs at points and roots under an assignment are found by one and the same program in any
arithmetic. If the operations of two arithmetics give related polynomials where those of the second
do not overflow (`Arithmetic.Simulates`), then the program does the same in both as long as it meets
no overflow in the second (`Arithmetic.follows_signUnder`, `Arithmetic.follows_rootsUnder`): with any
number of rounds it has the same outcome and leaves the same store.
-/

namespace AlgebraicReal

/-! ## Outcomes -/

/-- Two outcomes are related if the second is an overflow, or both are the same error, or both are
results that are related. -/
inductive Outcome {α β : Type} (R : α → β → Prop) : Except Error α → Except Error β → Prop
  | overflow (x : Except Error α) : Outcome R x (.error .overflow)
  | error (e : Error) : Outcome R (.error e) (.error e)
  | ok {a : α} {b : β} (h : R a b) : Outcome R (.ok a) (.ok b)

section

variable {α β γ δ : Type} {R : α → β → Prop} {S : γ → δ → Prop} {x : Except Error α}
  {y : Except Error β}

/-- Outcomes of a sequence, step by step. -/
theorem Outcome.bind {f : α → Except Error γ} {g : β → Except Error δ} (h : Outcome R x y)
    (hf : ∀ a b, R a b → Outcome S (f a) (g b)) : Outcome S (x >>= f) (y >>= g) := by
  cases h with
  | overflow => exact .overflow _
  | error e => exact .error e
  | ok hab => exact hf _ _ hab

/-- Results of one type that are related if they are the same. -/
theorem Outcome.of_eq {x y : Except Error α} (h : x = y) : Outcome Eq x y := by
  subst h
  cases x with
  | error e => exact .error e
  | ok a => exact .ok rfl

/-- Without an overflow, related by equality is equal. -/
theorem Outcome.eq {x y : Except Error α} (h : Outcome Eq x y) (hy : y ≠ .error .overflow) :
    x = y := by
  cases h with
  | overflow => exact absurd rfl hy
  | error e => rfl
  | ok hab => rw [hab]

end

namespace RefineM

variable {α β : Type} {x y : RefineM α} {f g : α → RefineM β}

/-- The first computation does what the second does, unless the second overflows. -/
def Follows (x y : RefineM α) : Prop :=
  ∀ rounds s, (exec y rounds s).1 ≠ .error .overflow → exec x rounds s = exec y rounds s

theorem Follows.refl (x : RefineM α) : Follows x x := fun _ _ _ => rfl

/-- If the first part overflows on the right, there is nothing to show. -/
theorem Follows.bind (hx : Follows x y) (hf : ∀ a, Follows (f a) (g a)) :
    Follows (x >>= f) (y >>= g) := by
  intro rounds s h
  have hfirst := hx rounds s
  rw [exec_bind] at h
  rw [exec_bind, exec_bind]
  cases he : exec y rounds s with
  | mk o t =>
    rw [he] at h hfirst
    cases o with
    | error e => rw [hfirst fun heq => h (congrArg Except.error (Except.error.inj heq))]
    | ok a =>
      rw [hfirst nofun]
      exact hf a rounds t h

theorem Follows.get_bind {f g : Store → RefineM β} (h : ∀ s, Follows (f s) (g s)) :
    Follows (get >>= f) (get >>= g) := fun rounds s => h s rounds s

theorem Follows.read_bind {f g : ℕ → RefineM β} (h : ∀ n, Follows (f n) (g n)) :
    Follows (read >>= f) (read >>= g) := fun rounds s => h rounds rounds s

/-- What is done with related results. -/
theorem Follows.ofExcept_bind {γ δ : Type} {R : γ → δ → Prop} {r : Except Error γ}
    {r' : Except Error δ} {f : γ → RefineM β} {g : δ → RefineM β} (h : Outcome R r r')
    (hf : ∀ a b, R a b → Follows (f a) (g b)) :
    Follows (ofExcept r >>= f) (ofExcept r' >>= g) := by
  intro rounds s hs
  rw [exec_bind, exec_ofExcept] at hs
  rw [exec_bind, exec_bind, exec_ofExcept, exec_ofExcept]
  cases h with
  | overflow => exact absurd rfl hs
  | error e => rfl
  | ok hab => exact hf _ _ hab rounds s hs

end RefineM

open RefineM

/-! ## Arithmetics -/

variable {P Q : Type} [Arithmetic P] [Arithmetic Q]

/-- The operations on related polynomials give related polynomials and the same data. An elimination
in the second arithmetic may overflow instead. -/
structure Arithmetic.Simulates (R : P → Q → Prop) : Prop where
  vars_eq : ∀ ⦃p q⦄, R p q → vars p = vars q
  hasVar_eq : ∀ (v : Var) ⦃p q⦄, R p q → hasVar p v = hasVar q v
  isZero_eq : ∀ ⦃p q⦄, R p q → isZero p = isZero q
  isConstant_eq : ∀ ⦃p q⦄, R p q → isConstant p = isConstant q
  constantValue_eq : ∀ ⦃p q⦄, R p q → constantValue p = constantValue q
  coefficients : ∀ (v : Var) ⦃p q⦄, R p q → List.Forall₂ R (coefficients p v) (coefficients q v)
  truncate : ∀ (v : Var) (d : ℕ) ⦃p q⦄, R p q → R (truncate p v d) (truncate q v d)
  evalAt : ∀ (v : Var) (c : ℚ) ⦃p q⦄, R p q → R (evalAt p v c) (evalAt q v c)
  subFrom : ∀ (v : Var) ⦃p q⦄, R p q → R (subFrom v p) (subFrom v q)
  eliminate : ∀ (u : UniPoly) ⦃p q⦄, R p q → Outcome R (eliminate p u) (eliminate q u)
  toUniPoly_eq : ∀ (v : Var) ⦃p q⦄, R p q → toUniPoly p v = toUniPoly q v
  enclose_eq : ∀ (box : Box) ⦃p q⦄, R p q → enclose p box = enclose q box

variable {R : P → Q → Prop} (hR : Arithmetic.Simulates R) {p : P} {q : Q} {s : Store}
include hR

/-! ## At a point -/

namespace AlgebraicPoint

variable {point : AlgebraicPoint}

/-- The same variables occur on both sides. -/
theorem involved_eq (h : R p q) : point.involved p = point.involved q :=
  List.filter_congr fun c _ => hR.hasVar_eq c.1 h

theorem scratchVar_eq (h : R p q) : point.scratchVar p = point.scratchVar q := by
  unfold scratchVar
  rw [hR.vars_eq h]

/-- By induction on the coordinates. -/
theorem outcome_eliminate : ∀ {point : AlgebraicPoint} {p : P} {q : Q}, R p q →
    Outcome R (eliminate s point p) (eliminate s point q)
  | [], _, _, h => .ok h
  | _ :: _, _, _, h => (hR.eliminate _ h).bind fun _ _ h' => outcome_eliminate h'

theorem outcome_annihilator (h : R p q) :
    Outcome R (point.annihilator s p) (point.annihilator s q) := by
  unfold annihilator
  rw [scratchVar_eq hR h]
  exact outcome_eliminate hR (hR.subFrom _ h)

/-- Also the same number of eliminations is counted. -/
theorem outcome_eliminant : ∀ {point : AlgebraicPoint} {p : P} {q : Q}, R p q →
    Outcome (fun a b : _ × ℕ => R a.1 b.1 ∧ a.2 = b.2) (eliminant s point p) (eliminant s point q)
  | [], _, _, h => .ok ⟨h, rfl⟩
  | c :: cs, p, q, h => by
    rw [eliminant, eliminant, hR.hasVar_eq c.1 h]
    split
    next =>
      refine (hR.eliminate _ h).bind fun a b h' => ?_
      have hrest : Outcome _ (eliminant s cs a) (eliminant s cs b) := outcome_eliminant h'
      exact hrest.bind fun x y hxy => .ok ⟨hxy.1, congrArg (· + 1) hxy.2⟩
    next => exact outcome_eliminant h

/-- The annihilators have the same dense form, and the halving looks at that only. -/
theorem outcome_radius (rounds : ℕ) (h : R p q) :
    Outcome Eq (point.radius rounds s p) (point.radius rounds s q) := by
  unfold radius
  refine (outcome_annihilator hR h).bind fun a b h' => ?_
  rw [hR.toUniPoly_eq _ h', scratchVar_eq hR h]
  exact .of_eq rfl

/-- Enclosures agree, so the loops take the same branch in every round. -/
theorem follows_signLoop (radius : Option Rat) (h : R p q) :
    ∀ k, Follows (point.signLoop p radius k) (point.signLoop q radius k)
  | 0 => .refl _
  | k + 1 => by
    rw [signLoop, signLoop]
    refine .get_bind fun s => ?_
    rw [hR.enclose_eq _ h]
    split
    next => exact .refl _
    next =>
      split
      next => exact .refl _
      next => exact (Follows.refl _).bind fun _ => follows_signLoop radius h k

/-- The same radius, and then the same loop. -/
theorem follows_signByEnclosure (h : R p q) :
    Follows (point.signByEnclosure p) (point.signByEnclosure q) :=
  (Follows.refl _).bind fun _ => .read_bind fun n => .get_bind fun _ =>
    .ofExcept_bind (outcome_radius hR n h) fun _ _ heq =>
      heq ▸ .read_bind fun k => follows_signLoop hR _ h k

theorem follows_sign (h : R p q) : Follows (point.sign p) (point.sign q) := by
  unfold sign
  rw [hR.isConstant_eq h, hR.constantValue_eq h, involved_eq hR h]
  split
  next => exact .refl _
  next =>
    refine (Follows.refl _).bind fun _ => ?_
    split
    next v id _ =>
      rw [hR.toUniPoly_eq v h]
      split
      next => exact .refl _
      next => exact follows_signByEnclosure hR h
    next => exact follows_signByEnclosure hR h

/-- By induction on the coefficients, which are related one by one. -/
theorem follows_effectiveDegree : ∀ {cs : List P} {ds : List Q}, List.Forall₂ R cs ds →
    Follows (point.effectiveDegree cs) (point.effectiveDegree ds)
  | [], [], .nil => .refl _
  | _ :: cs, _ :: ds, .cons h hrest => by
    rw [effectiveDegree, effectiveDegree, hrest.length_eq]
    refine (follows_sign hR h).bind fun o => ?_
    split
    next => exact follows_effectiveDegree hrest
    next => exact .refl _

theorem follows_vanishesAt (h : R p q) (v : Var) (c : ℚ) :
    Follows (point.vanishesAt p v c) (point.vanishesAt q v c) := by
  unfold vanishesAt
  split
  next => exact .refl _
  next => exact (follows_sign hR (hR.evalAt v c h)).bind fun _ => .refl _

theorem follows_vanishesAtRoot (h : R p q) (v : Var) (id : LocatorId) :
    Follows (point.vanishesAtRoot p v id) (point.vanishesAtRoot q v id) := by
  unfold vanishesAtRoot
  split
  next => exact .refl _
  next => exact (follows_sign hR h).bind fun _ => .refl _

/-- The test is the same, and the number does not depend on the polynomial. -/
theorem follows_candidate (h : R p q) (v : Var) (e : UniPoly) (i : Interval) :
    Follows (point.candidate p v e i) (point.candidate q v e i) := by
  unfold candidate
  split
  next => exact (follows_vanishesAt hR h v _).bind fun _ => .refl _
  next =>
    exact (Follows.refl _).bind fun id => (follows_vanishesAtRoot hR h v id).bind fun _ => .refl _

/-- By induction on the candidates. -/
theorem follows_keepRoots (h : R p q) (v : Var) (e : UniPoly) : ∀ is : List Interval,
    Follows (point.keepRoots p v e is) (point.keepRoots q v e is)
  | [] => .refl _
  | i :: is => by
    rw [keepRoots, keepRoots]
    refine (follows_candidate hR h v e i).bind fun o => ?_
    cases o with
    | some x => exact (follows_keepRoots h v e is).bind fun _ => .refl _
    | none => exact (Follows.refl _).bind fun _ => follows_keepRoots h v e is

/-- Related eliminants have the same dense form, so the same candidates. -/
theorem follows_roots (config : IsolationConfig) (h : R p q) (v : Var) :
    Follows (point.roots config p v) (point.roots config q v) := by
  unfold roots
  refine .get_bind fun s => .ofExcept_bind (outcome_eliminant hR h) fun a b hab => ?_
  obtain ⟨e, n⟩ := a
  obtain ⟨e', n'⟩ := b
  obtain ⟨he, rfl⟩ := hab
  dsimp only
  rw [hR.isZero_eq he, hR.toUniPoly_eq v he]
  refine (Follows.refl _).bind fun _ => ?_
  split
  next => exact .refl _
  next =>
    refine (Follows.refl _).bind fun u => .read_bind fun rounds => ?_
    split
    next => exact .refl _
    next is _ =>
      exact (Follows.refl _).bind fun _ => (follows_keepRoots hR h v _ is).bind fun _ => .refl _

end AlgebraicPoint

/-! ## Under an assignment -/

/-- The same values have been put into related polynomials. -/
def PartialValue.Alike (R : P → Q → Prop) (g : PartialValue P) (g' : PartialValue Q) : Prop :=
  R g.poly g'.poly ∧ g.point = g'.point

variable {values : Assignment}

/-- By induction on the variables that are replaced. -/
theorem PartialValue.outcome_substitute : ∀ {vs : List Var} {g : PartialValue P}
    {g' : PartialValue Q}, Alike R g g' →
      Outcome (Alike R) (substitute s values vs g) (substitute s values vs g')
  | [], _, _, h => .ok h
  | v :: vs, g, g', h => by
    rw [substitute, substitute]
    split
    next => exact .error _
    next =>
      split
      next c _ => exact outcome_substitute ⟨hR.evalAt v c h.1, h.2⟩
      next id _ => exact outcome_substitute ⟨h.1, congrArg (· ++ [(v, id)]) h.2⟩
      next t _ => exact outcome_substitute ⟨h.1, congrArg (· ++ [(v, t.locator)]) h.2⟩

theorem PartialValue.outcome_of (h : R p q) (except : List Var) :
    Outcome (Alike R) (of s values p except) (of s values q except) := by
  unfold of
  rw [hR.vars_eq h]
  exact outcome_substitute hR ⟨h, rfl⟩

theorem Arithmetic.follows_signUnder (h : R p q) (values : Assignment) :
    Follows (signUnder p values) (signUnder q values) := by
  refine .get_bind fun s => .ofExcept_bind (PartialValue.outcome_of hR h []) fun a b hab => ?_
  rw [hab.2]
  exact AlgebraicPoint.follows_sign hR hab.1

/-- Coefficients of related polynomials are related, so the same degree is found to be effective. -/
theorem Arithmetic.follows_rootsUnder (config : IsolationConfig) (h : R p q) (v : Var)
    (values : Assignment) : Follows (rootsUnder config p v values) (rootsUnder config q v values) := by
  refine (Follows.refl _).bind fun _ => .get_bind fun s =>
    .ofExcept_bind (PartialValue.outcome_of hR h [v]) fun a b hab => ?_
  obtain ⟨hpoly, hpoint⟩ := hab
  rw [hpoint]
  refine (AlgebraicPoint.follows_effectiveDegree hR
    (List.rel_reverse (hR.coefficients v hpoly))).bind fun o => ?_
  split
  next => exact .refl _
  next => exact .refl _
  next d _ => exact AlgebraicPoint.follows_roots hR config (hR.truncate v d hpoly) v

end AlgebraicReal
