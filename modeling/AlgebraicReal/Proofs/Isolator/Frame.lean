import AlgebraicReal.Proofs.Frame
import AlgebraicReal.RootExpr

/-!
# What sign tests and isolation leave alone

A sign test narrows the coordinates of its point, and isolation also the candidates, which are new.
The coordinates are the values of variables that occur in the polynomial. So the values of other
variables are left alone, and in isolation that of the root variable is, if it has one.
-/

namespace AlgebraicReal

open RefineM

variable {P : Type} [Arithmetic P] {K : Set LocatorId}

theorem Number.leaves_ofRoot {id : LocatorId} (hid : id ∉ K) : Leaves K (Number.ofRoot id) :=
  (Leaves.narrow hid _).bind fun _ => .get_bind fun _ => .pure _

/-! ## At a point -/

namespace AlgebraicPoint

section

variable {point : AlgebraicPoint} (hp : ∀ c ∈ point, c.2 ∉ K)
include hp

/-- By induction on the rounds: each refines the coordinates of the point. -/
theorem leaves_signLoop (g : P) (radius : Option Rat) :
    ∀ rounds, Leaves K (point.signLoop g radius rounds)
  | 0 => .throw _
  | rounds + 1 => by
    refine .get_bind fun s => ?_
    split
    next => exact .pure _
    next =>
      split
      next => exact .pure _
      next =>
        exact (Leaves.forM fun c hc => .narrow (hp c hc) _).bind fun _ =>
          leaves_signLoop g radius rounds

theorem leaves_signByEnclosure (g : P) : Leaves K (point.signByEnclosure g) :=
  (Leaves.count _).bind fun _ => .read_bind fun _ => .get_bind fun _ =>
    (Leaves.ofExcept _).bind fun _ => .read_bind fun n => leaves_signLoop hp g _ n

/-- One coordinate is asked for its sign, several are refined. -/
theorem leaves_sign (g : P) : Leaves K (point.sign g) := by
  have hinv : ∀ c ∈ point.involved g, c.2 ∉ K := fun c hc => hp c (List.mem_filter.1 hc).1
  unfold sign
  split
  next => exact .pure _
  next =>
    refine (Leaves.count _).bind fun _ => ?_
    split
    next v id heq =>
      rw [heq] at hinv
      split
      next => exact .read_bind fun _ => .ask (hinv _ List.mem_cons_self) _
      next => exact leaves_signByEnclosure hinv g
    next => exact leaves_signByEnclosure hinv g

/-- By induction on the coefficients. -/
theorem leaves_effectiveDegree : ∀ cs : List P, Leaves K (point.effectiveDegree cs)
  | [] => .pure _
  | c :: cs => by
    rw [effectiveDegree]
    refine (leaves_sign hp c).bind fun o => ?_
    split
    next => exact leaves_effectiveDegree cs
    next => exact .pure _

theorem leaves_vanishesAt (p : P) (v : Var) (q : Rat) : Leaves K (point.vanishesAt p v q) := by
  unfold vanishesAt
  split
  next => exact .pure _
  next => exact (leaves_sign hp _).bind fun _ => .pure _

/-- The root that is tested is a coordinate for the time of the test. -/
theorem leaves_vanishesAtRoot (p : P) (v : Var) {id : LocatorId} (hid : id ∉ K) :
    Leaves K (point.vanishesAtRoot p v id) := by
  unfold vanishesAtRoot
  split
  next => exact .pure _
  next =>
    refine (leaves_sign (fun c hc => ?_) p).bind fun _ => .pure _
    rcases List.mem_append.1 hc with hc | hc
    · exact hp c hc
    · rwa [List.mem_singleton.1 hc]

/-- A candidate is narrowed through a handle that is new. -/
theorem leaves_candidate (p : P) (v : Var) (e : UniPoly) (i : Interval) :
    Leaves K (point.candidate p v e i) := by
  unfold candidate
  split
  next =>
    refine (leaves_vanishesAt hp p v _).bind fun b => ?_
    split <;> exact .pure _
  next =>
    refine .allocate_bind fun id hid => (leaves_vanishesAtRoot hp p v hid).bind fun b => ?_
    split
    next => exact (Number.leaves_ofRoot hid).bind fun _ => .pure _
    next => exact .pure _

/-- By induction on the candidates, each with a new locator. -/
theorem leaves_keepRoots (p : P) (v : Var) (e : UniPoly) :
    ∀ is : List Interval, Leaves K (point.keepRoots p v e is)
  | [] => .pure _
  | i :: is => by
    rw [keepRoots]
    refine (leaves_candidate hp p v e i).bind fun o => ?_
    cases o with
    | some x => exact (leaves_keepRoots p v e is).bind fun _ => .pure _
    | none => exact (Leaves.count _).bind fun _ => leaves_keepRoots p v e is

theorem leaves_roots (config : IsolationConfig) (p : P) (v : Var) :
    Leaves K (point.roots config p v) := by
  unfold roots
  refine .get_bind fun s => (Leaves.ofExcept _).bind fun r => ?_
  dsimp only
  refine (Leaves.count _).bind fun _ => ?_
  split
  next => exact .pure _
  next =>
    refine (Leaves.ofExcept _).bind fun e => .read_bind fun n => ?_
    split
    next => exact .throw _
    next is _ =>
      exact (Leaves.count _).bind fun _ => (leaves_keepRoots hp p v _ is).bind fun _ => .pure _

end

end AlgebraicPoint

/-! ## Under an assignment -/

/-- The handles of the values that the listed variables have. -/
def Assignment.handles (values : Assignment) (vs : List Var) : List LocatorId :=
  vs.flatMap fun v => (values.lookup v).elim [] Number.handles

variable {values : Assignment}

/-- A handle of a value that is looked up. -/
theorem Assignment.mem_handles {vs : List Var} {v : Var} {x : Number} {id : LocatorId}
    (hv : v ∈ vs) (hx : values.lookup v = some x) (hid : id ∈ x.handles) :
    id ∈ values.handles vs :=
  List.mem_flatMap.2 ⟨v, hv, by rwa [hx]⟩

/-- The coordinates that are taken in are values of the listed variables. -/
theorem PartialValue.mem_handles_of_substitute {s : Store} : ∀ {vs : List Var}
    {value value' : PartialValue P}, substitute s values vs value = .ok value' →
      ∀ c ∈ value'.point, c ∈ value.point ∨ c.2 ∈ values.handles vs
  | [], _, _, h, _, hc => by
    cases h
    exact .inl hc
  | v :: vs, value, value', h, c, hc => by
    have hrest : c.2 ∈ values.handles vs → c.2 ∈ values.handles (v :: vs) := fun hmem =>
      List.mem_append_right _ hmem
    rw [substitute] at h
    split at h
    next => cases h
    next x hx =>
      have hform := Number.handles_form_subset s x
      -- the value of the first variable is the only coordinate that is added
      have hcoordinate : ∀ id, id ∈ (x.form s).handles →
          c ∈ value.point ++ [(v, id)] ∨ c.2 ∈ values.handles vs →
            c ∈ value.point ∨ c.2 ∈ values.handles (v :: vs) := by
        rintro id hid (hmem | hmem)
        · rcases List.mem_append.1 hmem with hmem | hmem
          · exact .inl hmem
          · rw [List.mem_singleton.1 hmem]
            exact .inr (Assignment.mem_handles List.mem_cons_self hx (hform hid))
        · exact .inr (hrest hmem)
      split at h
      next => exact (mem_handles_of_substitute h c hc).imp_right hrest
      next id hroot =>
        exact hcoordinate id (by rw [hroot]; exact List.mem_cons_self)
          (mem_handles_of_substitute h c hc)
      next t hthom =>
        exact hcoordinate t.locator (by rw [hthom]; exact List.mem_cons_self)
          (mem_handles_of_substitute h c hc)

/-- What is done with a polynomial into which values have been put is done at a point of such
values. -/
theorem PartialValue.leaves_of_bind {β : Type} {p : P} {except : List Var}
    (h : ∀ id ∈ values.handles ((Arithmetic.vars p).filter (· ∉ except)), id ∉ K)
    {f : PartialValue P → RefineM β}
    (hf : ∀ value : PartialValue P, (∀ c ∈ value.point, c.2 ∉ K) → Leaves K (f value)) (s : Store) :
    Leaves K (RefineM.ofExcept (PartialValue.of s values p except) >>= f) := by
  cases hof : PartialValue.of s values p except with
  | error e => exact fun _ s _ => .refl K s
  | ok value =>
    refine hf value fun c hc => ?_
    exact h _ ((mem_handles_of_substitute hof c hc).resolve_left List.not_mem_nil)

/-- No variable is left out. -/
theorem Var.filter_notMem_nil (vs : List Var) : vs.filter (· ∉ ([] : List Var)) = vs :=
  List.filter_eq_self.2 fun _ _ => decide_eq_true List.not_mem_nil

/-- All variables but one, in two spellings. -/
theorem Var.filter_notMem_singleton (vs : List Var) (v : Var) :
    vs.filter (· ∉ [v]) = vs.filter (· ≠ v) :=
  List.filter_congr fun _ _ => decide_eq_decide.2 (not_congr List.mem_singleton)

/-- Only the values of variables that occur are narrowed. -/
theorem Arithmetic.leaves_signUnder {g : P} (h : ∀ id ∈ values.handles (vars g), id ∉ K) :
    Leaves K (signUnder g values) := by
  refine .get_bind fun s => PartialValue.leaves_of_bind (fun id hid => ?_)
    (fun value hp => AlgebraicPoint.leaves_sign hp value.poly) s
  obtain ⟨v, hv, hmem⟩ := List.mem_flatMap.1 hid
  exact h id (List.mem_flatMap.2 ⟨v, (List.mem_filter.1 hv).1, hmem⟩)

section

variable {p : P} {v : Var} (h : ∀ id ∈ values.handles ((Arithmetic.vars p).filter (· ≠ v)), id ∉ K)
include h

/-- The value of the root variable is not looked at. -/
theorem Arithmetic.leaves_rootsUnder (config : IsolationConfig) :
    Leaves K (rootsUnder config p v values) := by
  unfold rootsUnder
  refine (Leaves.count _).bind fun _ => .get_bind fun s =>
    PartialValue.leaves_of_bind (Var.filter_notMem_singleton _ v ▸ h) (fun value hp => ?_) s
  refine (AlgebraicPoint.leaves_effectiveDegree hp _).bind fun o => ?_
  split
  next => exact .pure _
  next => exact .pure _
  next => exact AlgebraicPoint.leaves_roots hp config _ v

theorem Arithmetic.leaves_realRoots : Leaves K (realRoots p v values) := leaves_rootsUnder h {}

theorem Isolator.leaves_isolate (iso : Isolator) :
    Leaves K (iso.isolate p v values) :=
  (Leaves.metered _ (Arithmetic.leaves_rootsUnder h _)).bind fun _ => .pure _

end

theorem Isolator.leaves_signUnder {g : P} (h : ∀ id ∈ values.handles (Arithmetic.vars g), id ∉ K)
    (iso : Isolator) : Leaves K (iso.signUnder g values) :=
  (Leaves.metered _ (Arithmetic.leaves_signUnder h)).bind fun _ => .pure _

theorem RootExpr.leaves_evaluate {e : RootExpr P} (h : ∀ id ∈ values.handles e.vars, id ∉ K) :
    Leaves K (e.evaluate values) := by
  refine (Arithmetic.leaves_realRoots h).bind fun o => ?_
  split <;> exact .pure _

end AlgebraicReal
