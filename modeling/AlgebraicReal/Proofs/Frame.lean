import Mathlib.Data.Set.Basic
import AlgebraicReal.Isolator
import AlgebraicReal.Literal
import AlgebraicReal.Number.Sampling

/-!
# What a computation leaves alone

A computation changes a locator only through its handle. It leaves a set of handles alone
(`RefineM.Leaves`) if the locators behind them are the same afterwards, whether it succeeds or fails.
A new locator gets a handle that no old locator has, so the narrowing of what a computation has
allocated itself does not count. For each operation the handles in question are those of its operands
(`Number.handles`).
-/

namespace AlgebraicReal

/-- The locators with the given handles are the same in a later store. -/
structure Store.Frozen (K : Set LocatorId) (s t : Store) : Prop where
  size_le : s.locators.size ≤ t.locators.size
  get_eq : ∀ id ∈ K, t.get id = s.get id

namespace Store.Frozen

variable {K : Set LocatorId} {s t u : Store}

theorem refl (K : Set LocatorId) (s : Store) : s.Frozen K s := ⟨Nat.le_refl _, fun _ _ => rfl⟩

theorem trans (h : s.Frozen K t) (h' : t.Frozen K u) : s.Frozen K u where
  size_le := Nat.le_trans h.size_le h'.size_le
  get_eq id hid := (h'.get_eq id hid).trans (h.get_eq id hid)

/-- What is written at a handle outside of `K` leaves `K` as it is. -/
theorem put {id : LocatorId} (h : id ∉ K) (s : Store) (l : Locator) : s.Frozen K (s.put id l) where
  size_le := by simp [Store.put]
  get_eq other hother := Store.get_put_of_ne s l fun heq => h (heq ▸ hother)

/-- A new locator gets a handle of its own. -/
theorem add (hK : ∀ id ∈ K, id < s.locators.size) (l : Locator) : s.Frozen K (s.add l).2 where
  size_le := by simp [Store.add]
  get_eq id hid := Store.get_add_of_lt s l (hK id hid)

end Store.Frozen

namespace RefineM

variable {α β : Type} {K : Set LocatorId} {x : RefineM α} {f : α → RefineM β}

/-- The computation leaves the locators with the given handles alone, in every store that has them. -/
def Leaves (K : Set LocatorId) (action : RefineM α) : Prop :=
  ∀ (rounds : ℕ) (s : Store), (∀ id ∈ K, id < s.locators.size) →
    s.Frozen K (exec action rounds s).2

theorem Leaves.pure (a : α) : Leaves K (pure a : RefineM α) := fun _ s _ => .refl K s

theorem Leaves.throw (e : Error) : Leaves K (throw e : RefineM α) := fun _ s _ => .refl K s

/-- The first computation hands on a store in which the handles of `K` are as before. -/
theorem Leaves.bind (hx : Leaves K x) (hf : ∀ a, Leaves K (f a)) : Leaves K (x >>= f) := by
  intro rounds s hK
  have hfirst := hx rounds s hK
  rw [exec_bind]
  cases he : exec x rounds s with
  | mk o t =>
    rw [he] at hfirst
    cases o with
    | error e => exact hfirst
    | ok a => exact hfirst.trans (hf a rounds t fun id hid => (hK id hid).trans_le hfirst.size_le)

/-- To read the store changes no locator. -/
theorem Leaves.get_bind {f : Store → RefineM β} (h : ∀ s, Leaves K (f s)) :
    Leaves K (get >>= f) := fun rounds s hK => h s rounds s hK

/-- Nor does it to read the number of rounds. -/
theorem Leaves.read_bind {f : ℕ → RefineM β} (h : ∀ n, Leaves K (f n)) :
    Leaves K (read >>= f) := fun rounds s hK => h rounds rounds s hK

/-- What is computed without the store leaves all of it. -/
theorem Leaves.ofExcept (r : Except Error α) : Leaves K (ofExcept r) := by
  cases r with
  | ok a => exact .pure a
  | error e => exact .throw e

/-- A check before the rest. -/
theorem Leaves.guard {c : Prop} [Decidable c] {e : Error} {f : PUnit → RefineM β}
    (h : Leaves K (f ⟨⟩)) : Leaves K (if c then MonadExcept.throw e >>= f else f ⟨⟩) := by
  split
  next => exact fun _ s _ => .refl K s
  next => exact h

/-- The tally is no locator. -/
theorem Leaves.count (change : Tally → Tally) : Leaves K (count change) :=
  fun _ _ _ => ⟨Nat.le_refl _, fun _ _ => rfl⟩

/-- A question may change the locator that is asked. -/
theorem Leaves.ask {id : LocatorId} (h : id ∉ K) (question : Locator → Except Error (α × Locator)) :
    Leaves K (ask id question) := by
  intro rounds s _
  rw [exec_ask]
  split
  next => exact .put h s _
  next => exact .refl K s

/-- A narrowing writes at its own handle only. -/
theorem Leaves.narrow {id : LocatorId} (h : id ∉ K) (step : Locator → Except Error Locator) :
    Leaves K (narrow id step) :=
  .ask h _

/-- A comparison may narrow both sides and nothing else. -/
theorem Leaves.compare {a b : LocatorId} (ha : a ∉ K) (hb : b ∉ K) : Leaves K (compare a b) := by
  unfold RefineM.compare
  split
  next => exact .pure _
  next =>
    exact .get_bind fun s => .read_bind fun n => (Leaves.ofExcept _).bind fun r =>
      .bind (fun _ s _ => (Store.Frozen.put ha s _).trans (.put hb _ _)) fun _ => .pure _

/-- What is done with a new locator is left open. -/
theorem Leaves.allocate_bind {l : Locator} {f : LocatorId → RefineM β}
    (h : ∀ id, id ∉ K → Leaves K (f id)) : Leaves K (allocate l >>= f) := by
  intro rounds s hK
  have hnew : (s.add l).1 ∉ K := fun hid => Nat.lt_irrefl _ (hK _ hid)
  have hadd := Store.Frozen.add hK l
  exact hadd.trans (h _ hnew rounds _ fun id hid => (hK id hid).trans_le hadd.size_le)

/-- The tally is no locator. -/
theorem Leaves.metered (tally : Tally) (h : Leaves K x) : Leaves K (metered tally x) := by
  intro rounds s hK
  have hx := h rounds { s with tally } hK
  exact ⟨hx.size_le, hx.get_eq⟩

/-- A list is gone through one element at a time. -/
theorem Leaves.mapM {γ : Type} {g : γ → RefineM α} {cs : List γ} (h : ∀ c ∈ cs, Leaves K (g c)) :
    Leaves K (cs.mapM g) := by
  induction cs with
  | nil =>
    rw [List.mapM_nil]
    exact .pure _
  | cons c cs ih =>
    rw [List.forall_mem_cons] at h
    rw [List.mapM_cons]
    exact h.1.bind fun _ => (ih h.2).bind fun _ => .pure _

/-- Steps that leave the locators alone leave them alone one after the other. -/
theorem Leaves.forM {γ : Type} {g : γ → RefineM PUnit} {cs : List γ}
    (h : ∀ c ∈ cs, Leaves K (g c)) : Leaves K (cs.forM g) := by
  induction cs with
  | nil => exact .pure _
  | cons c cs ih =>
    rw [List.forall_mem_cons] at h
    exact h.1.bind fun _ => ih h.2

end RefineM

open RefineM

variable {K : Set LocatorId}

/-! ## Encodings -/

namespace Thom

variable {t u : Thom}

/-- The new encoding has a new locator, if there is one. -/
theorem leaves_ofInterval (p : UniPoly) (i : Interval) : Leaves K (ofInterval p i) :=
  .read_bind fun _ => (Leaves.ofExcept _).bind fun _ => .allocate_bind fun _ _ => .pure _

/-- Every encoding that is found gets a new locator. -/
theorem leaves_realizeAll (p : UniPoly) : Leaves K (realizeAll p) := by
  unfold realizeAll
  refine .guard (.read_bind fun n => ?_)
  split
  next => exact .throw _
  next => exact .mapM fun i _ => leaves_ofInterval _ i

/-- Also when no root has the signs. -/
theorem leaves_realize (p : UniPoly) (signs : List Sign) : Leaves K (realize p signs) := by
  refine (leaves_realizeAll p).bind fun ts => ?_
  split
  next => exact .pure _
  next => exact .throw _

section

variable (ht : t.locator ∉ K)
include ht

/-- The sign of an encoding may cut its own interval and no other. -/
theorem leaves_sign : Leaves K t.sign := .ask ht _

theorem leaves_isZero : Leaves K t.isZero := by
  unfold isZero
  split
  next => exact (leaves_sign ht).bind fun _ => .pure _
  next => exact .pure _

theorem leaves_signOf (p : UniPoly) : Leaves K (t.signOf p) :=
  .read_bind fun _ => .ask ht _

theorem leaves_compareRational (q : Rat) : Leaves K (t.compareRational q) :=
  .ask ht _

/-- A comparison cuts the intervals of the two encodings. -/
theorem leaves_compare (hu : u.locator ∉ K) : Leaves K (t.compare u) := by
  unfold compare
  split
  next => exact .pure _
  next => exact .compare ht hu

end

/-- The opposite gets a locator of its own. -/
theorem leaves_negate (t : Thom) : Leaves K t.negate :=
  .get_bind fun _ => .allocate_bind fun _ _ => .pure _

/-- A copy in another variable has a locator of its own. -/
theorem leaves_withVar (t : Thom) (v : Var) : Leaves K (t.withVar v) :=
  .get_bind fun _ => .allocate_bind fun _ _ => .pure _

end Thom

/-! ## Numbers -/

/-- The handle of the locator that a form has, if it has one. -/
def Form.handles : Form → List LocatorId
  | .rational _ => []
  | .root id => [id]
  | .thom t => [t.locator]

/-- The handle of the locator that a number has, if it has one. -/
def Number.handles (x : Number) : List LocatorId := x.stored.handles

/-- Only a located number is narrowed by the comparison with a rational. -/
theorem Form.leaves_compareRational {f : Form} (hf : ∀ id ∈ f.handles, id ∉ K) (q : Rat) :
    Leaves K (f.compareRational q) := by
  cases f with
  | rational v => exact .pure _
  | root id => exact .ask (hf id List.mem_cons_self) _
  | thom t => exact Thom.leaves_compareRational (hf t.locator List.mem_cons_self) q

namespace Number

variable {x y : Number}

/-- Simplifying a number does not give it another locator. -/
theorem handles_form_subset (s : Store) (x : Number) : (x.form s).handles ⊆ x.handles := by
  unfold form handles
  split
  next id hid =>
    split
    next => exact List.nil_subset _
    next =>
      rw [hid]
      exact List.Subset.refl _
  next => exact List.Subset.refl _

/-- To look at a number changes nothing. -/
theorem leaves_current (x : Number) : Leaves K x.current := .get_bind fun _ => .pure _

/-- A new locator is none of the old ones. -/
theorem leaves_ofLocator (l : Locator) : Leaves K (ofLocator l) :=
  .allocate_bind fun _ _ => .pure _

/-- Whether it is accepted or refused, nothing that is there is touched. -/
theorem leaves_ofInterval (p : UniPoly) (i : Interval) : Leaves K (ofInterval p i) := by
  unfold ofInterval
  refine .guard (.guard ?_)
  dsimp only
  split
  next => exact .pure _
  next =>
    split
    next => exact .pure _
    next => exact (Leaves.ofExcept _).bind fun _ => leaves_ofLocator _

/-- An end without a number is not excluded from anything. -/
theorem leaves_avoidBound {id : LocatorId} (h : id ∉ K) (b : Bound) :
    Leaves K (avoidBound id b) := by
  unfold avoidBound
  split
  next => exact .pure _
  next =>
    refine .get_bind fun _ => ?_
    split
    next => exact .narrow h _
    next => exact .pure _

theorem leaves_withVar (x : Number) (v : Var) : Leaves K (x.withVar v) := by
  refine (leaves_current x).bind fun f => ?_
  cases f with
  | rational q => exact .pure _
  | root id => exact .get_bind fun _ => (leaves_ofLocator _).bind fun _ => .pure _
  | thom t => exact (Thom.leaves_withVar t v).bind fun _ => .pure _

section

variable (hx : ∀ id ∈ x.handles, id ∉ K)
include hx

/-- A question goes on with the form of the number, whose handles are among its own. -/
theorem leaves_current_bind {β : Type} {g : Form → RefineM β}
    (h : ∀ f : Form, (∀ id ∈ f.handles, id ∉ K) → Leaves K (g f)) : Leaves K (x.current >>= g) :=
  .get_bind fun s => h (x.form s) fun id hid => hx id (handles_form_subset s x hid)

/-- The sign of a number may cut its own interval and no other. -/
theorem leaves_sign : Leaves K x.sign := by
  refine leaves_current_bind hx fun f hf => ?_
  cases f with
  | rational q => exact .pure _
  | root id => exact .ask (hf id List.mem_cons_self) _
  | thom t => exact Thom.leaves_sign (hf t.locator List.mem_cons_self)

theorem leaves_isZero : Leaves K x.isZero :=
  (leaves_sign hx).bind fun _ => .pure _

theorem leaves_signOf (p : UniPoly) : Leaves K (x.signOf p) := by
  refine leaves_current_bind hx fun f hf => ?_
  cases f with
  | rational q => exact .pure _
  | root id => exact .read_bind fun _ => .ask (hf id List.mem_cons_self) _
  | thom t => exact Thom.leaves_signOf (hf t.locator List.mem_cons_self) p

theorem leaves_isRootOf (p : UniPoly) :
    Leaves K (x.isRootOf p) := by
  refine leaves_current_bind hx fun f hf => ?_
  cases f with
  | rational q => exact .pure _
  | root id => exact .get_bind fun _ => .pure _
  | thom t =>
    exact (Thom.leaves_signOf (hf t.locator List.mem_cons_self) p).bind fun _ => .pure _

/-- Both ends may be excluded, one after the other. -/
theorem leaves_containedIn (i : Interval) :
    Leaves K (x.containedIn i) := by
  refine leaves_current_bind hx fun f hf => ?_
  cases f with
  | rational q => exact .pure _
  | root id =>
    have hid := hf id List.mem_cons_self
    refine (leaves_avoidBound hid i.lower).bind fun _ => (leaves_avoidBound hid i.upper).bind
      fun _ => .get_bind fun _ => ?_
    dsimp only
    split <;> exact .pure _
  | thom t =>
    have hcmp : ∀ q, Leaves K (t.compareRational q) := fun q =>
      Thom.leaves_compareRational (hf t.locator List.mem_cons_self) q
    cases i.lower with
    | infinite =>
      cases i.upper with
      | infinite => exact .pure _
      | strict b | weak b => exact (hcmp b).bind fun _ => .pure _
    | strict a | weak a =>
      refine (hcmp a).bind fun _ => ?_
      cases i.upper with
      | infinite => exact .pure _
      | strict b | weak b => exact (hcmp b).bind fun _ => .pure _

theorem leaves_narrow (step : Locator → Except Error Locator) :
    Leaves K (x.narrow step) := by
  refine leaves_current_bind hx fun f hf => ?_
  cases f with
  | rational q => exact .pure _
  | root id => exact .narrow (hf id List.mem_cons_self) _
  | thom t => exact .narrow (hf t.locator List.mem_cons_self) _

theorem leaves_avoid (q : Rat) : Leaves K (x.avoid q) := by
  refine leaves_current_bind hx fun f hf => ?_
  cases f with
  | rational v => exact .pure _
  | root id => exact .ask (hf id List.mem_cons_self) _
  | thom t => exact .ask (hf t.locator List.mem_cons_self) _

theorem leaves_isIntegral : Leaves K x.isIntegral := by
  refine (leaves_narrow hx _).bind fun _ => (leaves_current x).bind fun f => ?_
  cases f with
  | rational q => exact .pure _
  | root id | thom t => exact .get_bind fun _ => .pure _

theorem leaves_floor : Leaves K x.floor := by
  refine (leaves_narrow hx _).bind fun _ => (leaves_current x).bind fun f => ?_
  cases f with
  | rational q => exact .pure _
  | root id | thom t => exact .get_bind fun _ => .pure _

/-- The absolute value is shared, or has a new locator. -/
theorem leaves_abs : Leaves K x.abs := by
  refine leaves_current_bind hx fun f hf => ?_
  cases f with
  | rational q => exact .pure _
  | root id =>
    refine (Leaves.ask (hf id List.mem_cons_self) _).bind fun b => ?_
    split
    next =>
      refine .get_bind fun s => ?_
      dsimp only
      split
      next => exact .pure _
      next => exact (leaves_ofLocator _).bind fun _ => .pure _
    next => exact .pure _
  | thom t =>
    refine (Thom.leaves_sign (hf t.locator List.mem_cons_self)).bind fun o => ?_
    split
    next => exact (Thom.leaves_negate t).bind fun _ => .pure _
    next => exact .pure _

variable (hy : ∀ id ∈ y.handles, id ∉ K)
include hy

/-- A comparison cuts the two that are compared. -/
theorem leaves_compare :
    Leaves K (x.compare y) := by
  refine leaves_current_bind hx fun f hf => leaves_current_bind hy fun g hg => ?_
  cases g with
  | rational q => exact Form.leaves_compareRational hf q
  | root b =>
    have hb := hg b List.mem_cons_self
    cases f with
    | rational q => exact (Form.leaves_compareRational hg q).bind fun _ => .pure _
    | root a => exact .compare (hf a List.mem_cons_self) hb
    | thom t => exact .compare (hf t.locator List.mem_cons_self) hb
  | thom u =>
    have hu := hg u.locator List.mem_cons_self
    cases f with
    | rational q => exact (Form.leaves_compareRational hg q).bind fun _ => .pure _
    | root a => exact .compare (hf a List.mem_cons_self) hu
    | thom t => exact Thom.leaves_compare (hf t.locator List.mem_cons_self) hu

theorem leaves_checkOrder :
    Leaves K (x.checkOrder y) :=
  (leaves_compare hx hy).bind fun _ => .pure _

theorem leaves_equal :
    Leaves K (x.equal y) :=
  (leaves_checkOrder hx hy).bind fun _ => .pure _

theorem leaves_less :
    Leaves K (x.less y) :=
  (leaves_checkOrder hx hy).bind fun _ => .pure _

/-- By induction on the rounds: each of them narrows the two numbers. -/
theorem leaves_sampleGap :
    ∀ rounds, Leaves K (x.sampleGap y rounds)
  | 0 => .throw _
  | rounds + 1 => by
    refine .get_bind fun s => ?_
    split
    next => exact .pure _
    next =>
      exact (leaves_narrow hx _).bind fun _ => (leaves_narrow hy _).bind fun _ =>
        leaves_sampleGap rounds

/-- A sample between two numbers refines these two. -/
theorem leaves_sampleBetween :
    Leaves K (x.sampleBetween y) := by
  refine (leaves_less hx hy).bind fun b => ?_
  split
  next => exact .read_bind fun n => leaves_sampleGap hx hy n
  next => exact .throw _

end

end Number

/-! ## Literals -/

namespace Literal

variable {l m : Literal}

theorem leaves_compare (hl : ∀ id ∈ l.value.handles, id ∉ K) (hm : ∀ id ∈ m.value.handles, id ∉ K) :
    Leaves K (l.compare m) := by
  unfold compare
  split
  next => exact (Number.leaves_compare hl hm).bind fun _ => .pure _
  next => exact .pure _

theorem leaves_equal (hl : ∀ id ∈ l.value.handles, id ∉ K) (hm : ∀ id ∈ m.value.handles, id ∉ K) :
    Leaves K (l.equal m) := by
  unfold equal
  split
  next => exact (Number.leaves_equal hl hm).bind fun _ => .pure _
  next => exact .pure _

/-- The key asks for the floor, which narrows the value only. -/
theorem leaves_key (hl : ∀ id ∈ l.value.handles, id ∉ K) : Leaves K l.key :=
  (Number.leaves_floor hl).bind fun _ => .pure _

end Literal

end AlgebraicReal
