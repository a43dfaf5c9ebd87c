import AlgebraicReal.Proofs.Locator.Order
import AlgebraicReal.Store

/-!
# Computations on the store

A computation keeps the store in order when it only adds locators that isolate a root and narrows
the ones that are there (`Store.Narrowed`). Two judgements say so of a computation that starts in a
valid store:

- `RefineM.Safe`: with any number of rounds the store is narrowed at most, an answer has the stated
  property, and no operation on an interval finds it empty;
- `RefineM.Settles`: from some number of rounds on the computation gives one and the same answer,
  which has the stated property.

Both are composed along the sequence of steps; `RefineM.Exact` is the two together, and
`RefineM.Refuses` says that the computation ends in an error instead.
-/

namespace AlgebraicReal

namespace Store

/-- Every locator isolates a root. -/
def Valid (s : Store) : Prop := ∀ id < s.locators.size, ∃ x, (s.get id).Locates x

/-- Later states of a store: locators are narrowed, and new ones are added. -/
structure Narrowed (s t : Store) : Prop where
  size_le : s.locators.size ≤ t.locators.size
  narrows : ∀ id < s.locators.size, ∃ n, Locator.Narrows n (s.get id) (t.get id)

variable {s t u : Store} {id : LocatorId} {l : Locator} {x : ℝ}

theorem Narrowed.refl (s : Store) : s.Narrowed s := ⟨le_rfl, fun _ _ => ⟨0, .refl _⟩⟩

/-- Narrowings add up, and so do their counts. -/
theorem Narrowed.trans (h : s.Narrowed t) (h' : t.Narrowed u) : s.Narrowed u where
  size_le := h.size_le.trans h'.size_le
  narrows id hid := by
    obtain ⟨n, hn⟩ := h.narrows id hid
    obtain ⟨k, hk⟩ := h'.narrows id (hid.trans_le h.size_le)
    exact ⟨n + k, hn.trans hk⟩

/-- A handle keeps its root. -/
theorem Narrowed.locates (h : s.Narrowed t) (hid : id < s.locators.size)
    (hx : (s.get id).Locates x) : (t.get id).Locates x := by
  obtain ⟨n, hn⟩ := h.narrows id hid
  exact hn.locates hx

/-- A narrowing keeps the polynomial of a locator. -/
theorem Narrowed.poly_eq (h : s.Narrowed t) (hs : s.Valid) (hid : id < s.locators.size) :
    (t.get id).poly = (s.get id).poly := by
  obtain ⟨n, hn⟩ := h.narrows id hid
  obtain ⟨x, hx⟩ := hs id hid
  exact hn.poly_eq hx

/-! ## Adding and replacing a locator -/

theorem size_add (s : Store) (l : Locator) : (s.add l).2.locators.size = s.locators.size + 1 :=
  Array.size_push l

theorem size_put (s : Store) (id : LocatorId) (l : Locator) :
    (s.put id l).locators.size = s.locators.size :=
  Array.size_setIfInBounds

/-- A locator that locates a root is added to a valid store. -/
theorem Valid.add (hs : s.Valid) (hl : l.Locates x) : (s.add l).2.Valid := by
  intro id hid
  rw [size_add] at hid
  rcases Nat.lt_succ_iff_lt_or_eq.1 hid with h | rfl
  · rw [get_add_of_lt s l h]
    exact hs id h
  · exact ⟨x, by rw [show s.locators.size = (s.add l).1 from rfl, get_add_self]; exact hl⟩

/-- The locators that were there are the same. -/
theorem narrowed_add (s : Store) (l : Locator) : s.Narrowed (s.add l).2 where
  size_le := by
    rw [size_add]
    exact Nat.le_succ _
  narrows id hid := ⟨0, by rw [get_add_of_lt s l hid]; exact .refl _⟩

/-- To write back a narrowed locator is a narrowing of the store. -/
theorem narrowed_put {n : ℕ} (hl : Locator.Narrows n (s.get id) l) : s.Narrowed (s.put id l) where
  size_le := (size_put s id l).ge
  narrows other hother := by
    by_cases h : other = id
    · subst h
      exact ⟨n, by rw [get_put_self s l hother]; exact hl⟩
    · exact ⟨0, by rw [get_put_of_ne s l h]; exact .refl _⟩

/-- A store without new locators is in order if it was so before it was narrowed. -/
theorem Narrowed.valid (h : s.Narrowed t) (hs : s.Valid)
    (hsize : t.locators.size = s.locators.size) : t.Valid := by
  intro id hid
  rw [hsize] at hid
  obtain ⟨x, hx⟩ := hs id hid
  exact ⟨x, h.locates hid hx⟩

/-- What is narrowed locates the same root. -/
theorem Narrowed.valid_put (hs : s.Valid) {n : ℕ} (hl : Locator.Narrows n (s.get id) l) :
    (s.put id l).Valid := (narrowed_put hl).valid hs (size_put s id l)

end Store

namespace RefineM

variable {α β : Type}

/-! ## One step at a time -/

section

variable (rounds : ℕ) (s : Store)

theorem exec_get_bind (f : Store → RefineM β) :
    exec (get >>= f) rounds s = exec (f s) rounds s := rfl

theorem exec_read_bind (f : ℕ → RefineM β) :
    exec (read >>= f) rounds s = exec (f rounds) rounds s := rfl

theorem exec_allocate (l : Locator) :
    exec (allocate l) rounds s = (.ok (s.add l).1, (s.add l).2) := rfl

theorem exec_count (change : Tally → Tally) :
    exec (count change) rounds s = (.ok (), { s with tally := change s.tally }) := rfl

/-- What is known beforehand need not be looked at. -/
theorem ofExcept_ok_bind (a : α) (f : α → RefineM β) : ofExcept (.ok a) >>= f = f a := rfl

/-- What needs no store leaves it alone. -/
theorem exec_ofExcept (r : Except Error α) : exec (ofExcept r) rounds s = (r, s) := by
  cases r <;> rfl

/-- A sequence of steps that gives an answer gives one at each step. -/
theorem exec_bind_eq_ok {rounds : ℕ} {s t : Store} {x : RefineM α} {f : α → RefineM β} {b : β}
    (h : exec (x >>= f) rounds s = (.ok b, t)) :
    ∃ a u, exec x rounds s = (.ok a, u) ∧ exec (f a) rounds u = (.ok b, t) := by
  rw [exec_bind] at h
  cases hx : exec x rounds s with
  | mk o u =>
    rw [hx] at h
    cases o with
    | error e => cases h
    | ok a => exact ⟨a, u, rfl, h⟩

/-- The two sides are written back one after the other, and a locator is equal to itself without a
search. -/
theorem exec_compare (a b : LocatorId) :
    exec (compare a b) rounds s =
      if a = b then (.ok .eq, s)
      else match Locator.compare rounds (s.get a) (s.get b) with
        | .ok (order, la, lb) => (.ok order, (s.put a la).put b lb)
        | .error e => (.error e, s) := by
  unfold compare
  split
  next => rfl
  next =>
    show exec (ofExcept (Locator.compare rounds (s.get a) (s.get b)) >>= _) rounds s = _
    rw [exec_bind, exec_ofExcept]
    cases Locator.compare rounds (s.get a) (s.get b) <;> rfl

end

/-! ## Safe computations -/

/-- With any number of rounds the computation narrows the store at most, its answer has the
property, and it finds no interval empty. -/
def Safe (action : RefineM α) (s : Store) (Q : α → Store → Prop) : Prop :=
  ∀ rounds o t, exec action rounds s = (o, t) → s.Narrowed t ∧ t.Valid ∧
    (∀ a, o = .ok a → Q a t) ∧ ∀ e, o = .error e → e ≠ .emptyOpen ∧ e ≠ .emptyClosed

section

variable {s : Store} {Q : α → Store → Prop} {R : β → Store → Prop}

/-- An answer in a valid store. -/
theorem Safe.pure (hs : s.Valid) {a : α} (h : Q a s) : Safe (pure a) s Q := by
  intro rounds o t he
  cases he
  refine ⟨.refl s, hs, fun b hb => ?_, nofun⟩
  cases hb
  exact h

/-- A refusal, as long as it is not that of an empty interval. -/
theorem Safe.throw (hs : s.Valid) {e : Error} (h : e ≠ .emptyOpen) (h' : e ≠ .emptyClosed) :
    Safe (throw e : RefineM α) s Q := by
  intro rounds o t he
  cases he
  refine ⟨.refl s, hs, nofun, fun e' he' => ?_⟩
  cases he'
  exact ⟨h, h'⟩

/-- What is known after the first computation is the hypothesis of the second one. -/
theorem Safe.bind {x : RefineM α} {f : α → RefineM β} (hx : Safe x s Q)
    (hf : ∀ a t, s.Narrowed t → t.Valid → Q a t → Safe (f a) t R) : Safe (x >>= f) s R := by
  intro rounds o t he
  rw [exec_bind] at he
  cases hr : exec x rounds s with
  | mk o₁ t₁ =>
    obtain ⟨hnar, hval, hpost, herr⟩ := hx rounds o₁ t₁ hr
    rw [hr] at he
    cases o₁ with
    | error e =>
      cases he
      exact ⟨hnar, hval, nofun, fun e' he' => herr e' (by cases he'; rfl)⟩
    | ok a =>
      obtain ⟨hnar', hrest⟩ := hf a t₁ hnar hval (hpost a rfl) rounds o t he
      exact ⟨hnar.trans hnar', hrest⟩

/-- A request that is refused under a condition. -/
theorem Safe.guard {c : Prop} [Decidable c] {e : Error} {f : PUnit → RefineM β} (hs : s.Valid)
    (he : e ≠ .emptyOpen) (he' : e ≠ .emptyClosed) (hf : ¬c → Safe (f ⟨⟩) s R) :
    Safe (if c then MonadExcept.throw e >>= f else f ⟨⟩) s R := by
  split
  next => exact (Safe.throw (Q := fun _ _ => False) hs he he').bind fun _ _ _ _ h => h.elim
  next hc => exact hf hc

/-- A weaker postcondition, in the later store. -/
theorem Safe.mono {x : RefineM α} {Q' : α → Store → Prop} (hx : Safe x s Q)
    (h : ∀ a t, s.Narrowed t → t.Valid → Q a t → Q' a t) : Safe x s Q' := by
  intro rounds o t he
  obtain ⟨hnar, hval, hpost, herr⟩ := hx rounds o t he
  exact ⟨hnar, hval, fun a ha => h a t hnar hval (hpost a ha), herr⟩

/-- What every run shows of its answer. -/
theorem Safe.and_of_exec {x : RefineM α} {P : α → Prop} (hx : Safe x s Q)
    (h : ∀ rounds a t, exec x rounds s = (.ok a, t) → P a) : Safe x s fun a t => Q a t ∧ P a := by
  intro rounds o t he
  obtain ⟨hnar, hval, hpost, herr⟩ := hx rounds o t he
  refine ⟨hnar, hval, fun a ha => ⟨hpost a ha, h rounds a t ?_⟩, herr⟩
  rw [he, ha]

/-- Looking at the store does not change it. -/
theorem Safe.get_bind {f : Store → RefineM β} (h : Safe (f s) s R) : Safe (get >>= f) s R := h

theorem Safe.read_bind {f : ℕ → RefineM β} (h : ∀ rounds, Safe (f rounds) s R) :
    Safe (read >>= f) s R := fun rounds => h rounds rounds

/-- A result that was computed without the store. -/
theorem Safe.ofExcept (hs : s.Valid) {r : Except Error α} (h : ∀ a, r = .ok a → Q a s)
    (h' : ∀ e, r = .error e → e ≠ .emptyOpen ∧ e ≠ .emptyClosed) : Safe (ofExcept r) s Q := by
  intro rounds o t he
  rw [exec_ofExcept] at he
  cases he
  exact ⟨.refl s, hs, h, h'⟩

/-- The tally is not seen by any locator. -/
theorem Safe.count (hs : s.Valid) (change : Tally → Tally) :
    Safe (count change) s fun _ t => t.locators = s.locators := by
  intro rounds o t he
  rw [exec_count] at he
  cases he
  exact ⟨⟨le_rfl, fun _ _ => ⟨0, .refl _⟩⟩, hs, fun _ _ => rfl, nofun⟩

/-- The new handle holds what was put there. -/
theorem Safe.allocate (hs : s.Valid) {l : Locator} {x : ℝ} (hl : l.Locates x) :
    Safe (allocate l) s fun id t => id < t.locators.size ∧ t.get id = l := by
  intro rounds o t he
  rw [exec_allocate] at he
  cases he
  refine ⟨Store.narrowed_add s l, hs.add hl, fun id hid => ?_, nofun⟩
  cases hid
  rw [Store.get_add_self, Store.size_add]
  exact ⟨Nat.lt_succ_self _, rfl⟩

/-- A question that narrows its locator at most, whatever it answers. -/
theorem Safe.ask (hs : s.Valid) {id : LocatorId} (hid : id < s.locators.size)
    {question : Locator → Except Error (α × Locator)} {P : α → Locator → Prop}
    (h : question (s.get id) = .error .exhausted ∨
      ∃ a l n, question (s.get id) = .ok (a, l) ∧ Locator.Narrows n (s.get id) l ∧ P a l) :
    Safe (ask id question) s fun a t => P a (t.get id) := by
  intro rounds o t he
  rw [exec_ask] at he
  rcases h with h | ⟨a, l, n, h, hnar, hP⟩
  · rw [h] at he
    cases he
    refine ⟨.refl s, hs, nofun, fun e he => ?_⟩
    cases he
    exact ⟨nofun, nofun⟩
  · rw [h] at he
    cases he
    refine ⟨Store.narrowed_put hnar, Store.Narrowed.valid_put hs hnar, fun b hb => ?_, nofun⟩
    cases hb
    rw [Store.get_put_self s l hid]
    exact hP

/-- A step that narrows its locator. -/
theorem Safe.narrow (hs : s.Valid) {id : LocatorId} (hid : id < s.locators.size)
    {step : Locator → Except Error Locator} {P : Locator → Prop}
    (h : ∃ l n, step (s.get id) = .ok l ∧ Locator.Narrows n (s.get id) l ∧ P l) :
    Safe (narrow id step) s fun _ t => P (t.get id) := by
  obtain ⟨l, n, hstep, hnar, hP⟩ := h
  refine Safe.ask (P := fun _ l => P l) hs hid (.inr ⟨(), l, n, ?_, hnar, hP⟩)
  rw [hstep]
  rfl

end

/-! ## Computations that settle -/

/-- From some number of rounds on the computation gives one and the same answer. -/
def Settles (action : RefineM α) (s : Store) (Q : α → Store → Prop) : Prop :=
  ∃ a t N, s.Narrowed t ∧ t.Valid ∧ Q a t ∧ ∀ rounds ≥ N, exec action rounds s = (.ok a, t)

section

variable {s : Store} {Q : α → Store → Prop} {R : β → Store → Prop}

theorem Settles.pure (hs : s.Valid) {a : α} (h : Q a s) : Settles (pure a) s Q :=
  ⟨a, s, 0, .refl s, hs, h, fun _ _ => rfl⟩

/-- The number of rounds is that of the part that needs more of them. -/
theorem Settles.bind {x : RefineM α} {f : α → RefineM β} (hx : Settles x s Q)
    (hf : ∀ a t, s.Narrowed t → t.Valid → Q a t → Settles (f a) t R) : Settles (x >>= f) s R := by
  obtain ⟨a, t, N, hnar, hval, hpost, he⟩ := hx
  obtain ⟨b, u, N', hnar', hval', hpost', he'⟩ := hf a t hnar hval hpost
  refine ⟨b, u, max N N', hnar.trans hnar', hval', hpost', fun rounds hge => ?_⟩
  rw [exec_bind, he rounds (le_of_max_le_left hge)]
  exact he' rounds (le_of_max_le_right hge)

/-- One and the same run from some number of rounds on; what it shows is known from all runs. -/
theorem Safe.settles {x : RefineM α} (hx : Safe x s Q) {a : α} {t : Store} {N : ℕ}
    (h : ∀ rounds ≥ N, exec x rounds s = (.ok a, t)) : Settles x s Q := by
  obtain ⟨hnar, hval, hpost, -⟩ := hx N _ t (h N le_rfl)
  exact ⟨a, t, N, hnar, hval, hpost a rfl, h⟩

/-- A weaker postcondition, in the later store. -/
theorem Settles.mono {x : RefineM α} {Q' : α → Store → Prop} (hx : Settles x s Q)
    (h : ∀ a t, s.Narrowed t → t.Valid → Q a t → Q' a t) : Settles x s Q' := by
  obtain ⟨a, t, N, hnar, hval, hpost, he⟩ := hx
  exact ⟨a, t, N, hnar, hval, h a t hnar hval hpost, he⟩

/-- What is known of every answer is known of the one that is found. -/
theorem Settles.and_of_exec {x : RefineM α} {P : α → Prop} (hx : Settles x s Q)
    (h : ∀ rounds a t, exec x rounds s = (.ok a, t) → P a) :
    Settles x s fun a t => Q a t ∧ P a := by
  obtain ⟨a, t, N, hnar, hval, hpost, he⟩ := hx
  exact ⟨a, t, N, hnar, hval, ⟨hpost, h N a t (he N le_rfl)⟩, he⟩

theorem Settles.count (hs : s.Valid) (change : Tally → Tally) :
    Settles (count change) s fun _ t => t.locators = s.locators :=
  ⟨(), { s with tally := change s.tally }, 0, ⟨le_rfl, fun _ _ => ⟨0, .refl _⟩⟩, hs, rfl,
    fun _ _ => rfl⟩

/-- To add a locator needs no round. -/
theorem Settles.allocate (hs : s.Valid) {l : Locator} {x : ℝ} (hl : l.Locates x) :
    Settles (allocate l) s fun id t => id < t.locators.size ∧ t.get id = l := by
  refine ⟨(s.add l).1, (s.add l).2, 0, Store.narrowed_add s l, hs.add hl, ?_, fun _ _ => rfl⟩
  show _ < (s.add l).2.locators.size ∧ (s.add l).2.get (s.add l).1 = l
  rw [Store.get_add_self, Store.size_add]
  exact ⟨Nat.lt_succ_self _, rfl⟩

/-- A question that is answered once the rounds suffice. The question may depend on them. -/
theorem Settles.read_ask (hs : s.Valid) {id : LocatorId} (hid : id < s.locators.size)
    {question : ℕ → Locator → Except Error (α × Locator)} {P : α → Locator → Prop}
    (h : ∃ a l n N, Locator.Narrows n (s.get id) l ∧ P a l ∧
      ∀ rounds ≥ N, question rounds (s.get id) = .ok (a, l)) :
    Settles (do RefineM.ask id (question (← read))) s fun a t => P a (t.get id) := by
  obtain ⟨a, l, n, N, hnar, hP, hq⟩ := h
  refine ⟨a, s.put id l, N, Store.narrowed_put hnar, Store.Narrowed.valid_put hs hnar, ?_,
    fun rounds hge => ?_⟩
  · show P a ((s.put id l).get id)
    rw [Store.get_put_self s l hid]
    exact hP
  · rw [exec_read_bind, exec_ask, hq rounds hge]

/-- A question that is answered by narrowing one locator. -/
theorem Settles.ask (hs : s.Valid) {id : LocatorId} (hid : id < s.locators.size)
    {question : Locator → Except Error (α × Locator)} {P : α → Locator → Prop}
    (h : ∃ a l n, question (s.get id) = .ok (a, l) ∧ Locator.Narrows n (s.get id) l ∧ P a l) :
    Settles (RefineM.ask id question) s fun a t => P a (t.get id) := by
  obtain ⟨a, l, n, hq, hnar, hP⟩ := h
  exact Settles.read_ask hs hid ⟨a, l, n, 0, hnar, hP, fun _ _ => hq⟩

/-- A step that narrows its locator, and does not fail. -/
theorem Settles.narrow (hs : s.Valid) {id : LocatorId} (hid : id < s.locators.size)
    {step : Locator → Except Error Locator} {P : Locator → Prop}
    (h : ∃ l n, step (s.get id) = .ok l ∧ Locator.Narrows n (s.get id) l ∧ P l) :
    Settles (RefineM.narrow id step) s fun _ t => P (t.get id) := by
  obtain ⟨l, n, hstep, hnar, hP⟩ := h
  refine Settles.ask (P := fun _ l => P l) hs hid ⟨(), l, n, ?_, hnar, hP⟩
  rw [hstep]
  rfl

end

/-! ## Both together -/

/-- Every answer has the property, and with enough rounds there is one. -/
structure Exact (action : RefineM α) (s : Store) (Q : α → Store → Prop) : Prop where
  safe : Safe action s Q
  settles : Settles action s Q

section

variable {s : Store} {Q : α → Store → Prop} {R : β → Store → Prop}

theorem Exact.pure (hs : s.Valid) {a : α} (h : Q a s) : Exact (pure a) s Q :=
  ⟨Safe.pure hs h, Settles.pure hs h⟩

/-- Both halves of the first computation feed both halves of the second one. -/
theorem Exact.bind {x : RefineM α} {f : α → RefineM β} (hx : Exact x s Q)
    (hf : ∀ a t, s.Narrowed t → t.Valid → Q a t → Exact (f a) t R) : Exact (x >>= f) s R :=
  ⟨hx.safe.bind fun a t hn hv ha => (hf a t hn hv ha).safe,
    hx.settles.bind fun a t hn hv ha => (hf a t hn hv ha).settles⟩

/-- A weaker postcondition, in the later store. -/
theorem Exact.mono {x : RefineM α} {Q' : α → Store → Prop} (hx : Exact x s Q)
    (h : ∀ a t, s.Narrowed t → t.Valid → Q a t → Q' a t) : Exact x s Q' :=
  ⟨hx.safe.mono h, hx.settles.mono h⟩

theorem Exact.get_bind {f : Store → RefineM β} (h : Exact (f s) s R) : Exact (get >>= f) s R :=
  ⟨h.safe, h.settles⟩

theorem Exact.count (hs : s.Valid) (change : Tally → Tally) :
    Exact (count change) s fun _ t => t.locators = s.locators :=
  ⟨Safe.count hs change, Settles.count hs change⟩

theorem Exact.allocate (hs : s.Valid) {l : Locator} {x : ℝ} (hl : l.Locates x) :
    Exact (allocate l) s fun id t => id < t.locators.size ∧ t.get id = l :=
  ⟨Safe.allocate hs hl, Settles.allocate hs hl⟩

/-- A question that is answered by narrowing one locator. -/
theorem Exact.ask (hs : s.Valid) {id : LocatorId} (hid : id < s.locators.size)
    {question : Locator → Except Error (α × Locator)} {P : α → Locator → Prop}
    (h : ∃ a l n, question (s.get id) = .ok (a, l) ∧ Locator.Narrows n (s.get id) l ∧ P a l) :
    Exact (RefineM.ask id question) s fun a t => P a (t.get id) :=
  ⟨Safe.ask hs hid (.inr h), Settles.ask hs hid h⟩

/-- A step that narrows its locator, and does not fail. -/
theorem Exact.narrow (hs : s.Valid) {id : LocatorId} (hid : id < s.locators.size)
    {step : Locator → Except Error Locator} {P : Locator → Prop}
    (h : ∃ l n, step (s.get id) = .ok l ∧ Locator.Narrows n (s.get id) l ∧ P l) :
    Exact (RefineM.narrow id step) s fun _ t => P (t.get id) :=
  ⟨Safe.narrow hs hid h, Settles.narrow hs hid h⟩

/-- The result of a search that takes a number of rounds, and what is done with it. -/
theorem Exact.read_bind {x : ℕ → RefineM α} {f : α → RefineM β}
    (hx : Exact (do x (← read)) s Q)
    (hf : ∀ a t, s.Narrowed t → t.Valid → Q a t → Exact (f a) t R) :
    Exact (do
      let a ← x (← read)
      f a) s R := hx.bind hf

/-- A search that finds something once the rounds suffice. -/
theorem Exact.read_ofExcept (hs : s.Valid) {search : ℕ → Except Error α}
    (hsafe : ∀ rounds, search rounds = .error .exhausted ∨ ∃ a, search rounds = .ok a ∧ Q a s)
    (hfinds : ∃ a N, ∀ rounds ≥ N, search rounds = .ok a) :
    Exact (do RefineM.ofExcept (search (← read))) s Q where
  safe := Safe.read_bind fun rounds => by
    rcases hsafe rounds with he | ⟨a, he, ha⟩ <;> rw [he]
    · exact Safe.throw hs nofun nofun
    · exact Safe.pure hs ha
  settles := by
    obtain ⟨a, N, he⟩ := hfinds
    refine ⟨a, s, N, .refl s, hs, ?_, fun rounds hge => ?_⟩
    · rcases hsafe N with h | ⟨b, h, hb⟩ <;> rw [he N le_rfl] at h <;> cases h
      exact hb
    · rw [exec_read_bind, exec_ofExcept, he rounds hge]

/-- A list of computations, each of which keeps what the ones before it have established. -/
theorem Exact.mapM {γ δ : Type} {f : γ → RefineM α} {P : γ → δ → Prop} {K : δ → α → Store → Prop}
    (hK : ∀ d a t u, t.Valid → t.Narrowed u → K d a t → K d a u) :
    ∀ {s : Store} {cs : List γ} {ds : List δ}, s.Valid → List.Forall₂ P cs ds →
      (∀ c d t, s.Narrowed t → t.Valid → P c d → Exact (f c) t (K d)) →
        Exact (cs.mapM f) s fun as t => List.Forall₂ (fun a d => K d a t) as ds
  | s, [], [], hs, .nil, _ => by
    rw [List.mapM_nil]
    exact Exact.pure hs .nil
  | s, _ :: cs, _ :: _, hs, .cons hcd hrest, hf => by
    rw [List.mapM_cons]
    refine (hf _ _ s (.refl s) hs hcd).bind fun a t hnar hval ha => ?_
    refine (Exact.mapM hK hval hrest fun c d u hu => hf c d u (hnar.trans hu)).bind
      fun as u hnar' hval' has => Exact.pure hval' ?_
    exact .cons (hK _ _ _ _ hval hnar' ha) has

/-- The sign at the root of a handle is exact. -/
theorem Exact.sign (hs : s.Valid) {id : LocatorId} (hid : id < s.locators.size) {x : ℝ}
    (hx : (s.get id).Locates x) (q : UniPoly) :
    Exact (do RefineM.ask id (·.sign (← read) q)) s
      fun o _ => o = Sign.ofReal (q.overReal.eval x) := by
  constructor
  · refine Safe.read_bind fun rounds => Safe.ask (P := fun o _ => o = _) hs hid ?_
    rcases hx.sign_eq q rounds with he | ⟨l, n, he, hnar⟩
    · exact .inl he
    · exact .inr ⟨_, l, n, he, hnar, rfl⟩
  · obtain ⟨l, n, N, hnar, he⟩ := hx.exists_sign q
    exact Settles.read_ask (P := fun o _ => o = _) hs hid ⟨_, l, n, N, hnar, rfl, he⟩

end

/-! ## Answers in later states -/

/-- The computation can give this answer in some later state of the store. -/
def Answers (s : Store) (action : RefineM α) (a : α) : Prop :=
  ∃ t rounds u, s.Narrowed t ∧ t.Valid ∧ exec action rounds t = (.ok a, u)

section

variable {s : Store} {action : RefineM α} {a b : α}

/-- What holds of the answers in all later states. -/
theorem Answers.sound {P : α → Prop} (h : Answers s action a)
    (hP : ∀ t, s.Narrowed t → t.Valid → Exact action t fun a _ => P a) : P a := by
  obtain ⟨t, rounds, u, hnar, hval, he⟩ := h
  exact ((hP t hnar hval).safe rounds _ u he).2.2.1 a rfl

/-- Where every later state leads to one value, this is the only answer. -/
theorem answers_iff (hs : s.Valid)
    (h : ∀ t, s.Narrowed t → t.Valid → Exact action t fun a _ => a = b) :
    Answers s action a ↔ a = b := by
  refine ⟨fun ha => ha.sound h, ?_⟩
  rintro rfl
  obtain ⟨_, u, N, -, -, rfl, he⟩ := (h s (.refl s) hs).settles
  exact ⟨s, N, u, .refl s, hs, he N le_rfl⟩

/-- A test that is exact in all later states succeeds in some exactly if the property holds. -/
theorem answers_true_iff {test : RefineM Bool} {P : Prop} (hs : s.Valid)
    (h : ∀ t, s.Narrowed t → t.Valid → Exact test t fun b _ => b = true ↔ P) :
    Answers s test true ↔ P := by
  refine ⟨fun ha => (ha.sound h).1 rfl, fun hP => ?_⟩
  obtain ⟨_, u, N, -, -, hb, he⟩ := (h s (.refl s) hs).settles
  rw [hb.2 hP] at he
  exact ⟨s, N, u, .refl s, hs, he N le_rfl⟩

end

/-! ## Exact under a condition -/

/-- Every answer has the property, and with enough rounds there is one if the condition holds. -/
structure ExactIf (C : Prop) (action : RefineM α) (s : Store) (Q : α → Store → Prop) : Prop where
  safe : Safe action s Q
  settles : C → Settles action s Q

section

variable {C : Prop} {s : Store} {Q : α → Store → Prop} {R : β → Store → Prop}

/-- What is exact is so under any condition. -/
theorem Exact.exactIf {x : RefineM α} (h : Exact x s Q) : ExactIf C x s Q :=
  ⟨h.safe, fun _ => h.settles⟩

/-- Where the condition holds, nothing is left open. -/
theorem ExactIf.exact {x : RefineM α} (h : ExactIf C x s Q) (hC : C) : Exact x s Q :=
  ⟨h.safe, h.settles hC⟩

theorem ExactIf.pure (hs : s.Valid) {a : α} (h : Q a s) : ExactIf C (pure a) s Q :=
  (Exact.pure hs h).exactIf

/-- A refusal where the condition fails. -/
theorem ExactIf.throw (hs : s.Valid) {e : Error} (h : e ≠ .emptyOpen) (h' : e ≠ .emptyClosed)
    (hC : ¬C) : ExactIf C (throw e : RefineM α) s Q :=
  ⟨Safe.throw hs h h', fun hc => absurd hc hC⟩

/-- The condition is the same for both parts. -/
theorem ExactIf.bind {x : RefineM α} {f : α → RefineM β} (hx : ExactIf C x s Q)
    (hf : ∀ a t, s.Narrowed t → t.Valid → Q a t → ExactIf C (f a) t R) : ExactIf C (x >>= f) s R :=
  ⟨hx.safe.bind fun a t hn hv ha => (hf a t hn hv ha).safe,
    fun hC => (hx.settles hC).bind fun a t hn hv ha => (hf a t hn hv ha).settles hC⟩

theorem ExactIf.mono {x : RefineM α} {Q' : α → Store → Prop} (hx : ExactIf C x s Q)
    (h : ∀ a t, s.Narrowed t → t.Valid → Q a t → Q' a t) : ExactIf C x s Q' :=
  ⟨hx.safe.mono h, fun hC => (hx.settles hC).mono h⟩

theorem ExactIf.get_bind {f : Store → RefineM β} (h : ExactIf C (f s) s R) :
    ExactIf C (get >>= f) s R := ⟨h.safe, h.settles⟩

end

/-- The isolation of the roots of a polynomial, and what is done with the intervals. -/
theorem isolateRoots_exactIf {C : Prop} {s : Store} {R : α → Store → Prop} (hs : s.Valid)
    {p : UniPoly} (hp : ¬p.isZero = true) (splitAtZero : Bool) {f : List Interval → RefineM α}
    (hf : ∀ is, p.IsolatesAll Set.univ is → ExactIf C (f is) s R) :
    ExactIf C (do
      match p.isolateRoots? (← read) splitAtZero with
      | none => throw .exhausted
      | some is => f is) s R where
  safe := Safe.read_bind fun rounds => by
    cases his : p.isolateRoots? rounds splitAtZero with
    | none => exact Safe.throw hs nofun nofun
    | some is => exact (hf is (UniPoly.isolateRoots?_lists hp his)).safe
  settles hC := by
    obtain ⟨is, N, hN⟩ := UniPoly.exists_isolateRoots? hp splitAtZero
    obtain ⟨b, t, N', hnar, hval, hpost, hexec⟩ :=
      (hf is (UniPoly.isolateRoots?_lists hp (hN N le_rfl))).settles hC
    refine ⟨b, t, max N N', hnar, hval, hpost, fun rounds hge => ?_⟩
    rw [exec_read_bind, hN rounds (le_of_max_le_left hge)]
    exact hexec rounds (le_of_max_le_right hge)

/-! ## Refusals -/

/-- No number of rounds leads to an answer, and with enough of them the computation ends in the
error. -/
structure Refuses (action : RefineM α) (s : Store) (e : Error) : Prop where
  safe : Safe action s fun _ _ => False
  ends : ∃ t N, s.Narrowed t ∧ t.Valid ∧ ∀ rounds ≥ N, exec action rounds s = (.error e, t)

section

variable {s : Store} {Q : α → Store → Prop} {e : Error}

/-- A refusal is one for every number of rounds. -/
theorem Refuses.throw (hs : s.Valid) (h : e ≠ .emptyOpen) (h' : e ≠ .emptyClosed) :
    Refuses (throw e : RefineM α) s e :=
  ⟨Safe.throw hs h h', s, 0, .refl s, hs, fun _ _ => rfl⟩

/-- The steps before a refusal have answers. -/
theorem Exact.refuses_bind {x : RefineM α} {f : α → RefineM β} (hx : Exact x s Q)
    (hf : ∀ a t, s.Narrowed t → t.Valid → Q a t → Refuses (f a) t e) : Refuses (x >>= f) s e where
  safe := hx.safe.bind fun a t hnar hval ha => (hf a t hnar hval ha).safe
  ends := by
    obtain ⟨a, t, N, hnar, hval, ha, he⟩ := hx.settles
    obtain ⟨u, N', hnar', hval', he'⟩ := (hf a t hnar hval ha).ends
    refine ⟨u, max N N', hnar.trans hnar', hval', fun rounds hge => ?_⟩
    rw [exec_bind, he rounds (le_of_max_le_left hge)]
    exact he' rounds (le_of_max_le_right hge)

/-- What is refused has no answer. -/
theorem Refuses.not_ok {action : RefineM α} (h : Refuses action s e) (rounds : ℕ) (a : α)
    (t : Store) : exec action rounds s ≠ (.ok a, t) :=
  fun he => (h.safe rounds _ t he).2.2.1 a rfl

end

/-! ## Comparing two locators -/

section

variable {s : Store} {a b : LocatorId} {x y : ℝ}

/-- Putting back two locators of different handles. -/
theorem narrowed_put_put {la lb : Locator} {n k : ℕ} (hab : a ≠ b)
    (ha : Locator.Narrows n (s.get a) la) (hb : Locator.Narrows k (s.get b) lb) :
    s.Narrowed ((s.put a la).put b lb) := by
  refine (Store.narrowed_put ha).trans (Store.narrowed_put (n := k) ?_)
  rw [Store.get_put_of_ne s la (Ne.symm hab)]
  exact hb

/-- Whatever order is found is that of the two roots, also when the search was cut off before. -/
theorem Safe.compare (hs : s.Valid) (ha : (s.get a).Locates x) (hb : (s.get b).Locates y) :
    Safe (compare a b) s fun o _ => o = cmp x y := by
  intro rounds o t he
  rw [exec_compare] at he
  by_cases hab : a = b
  · subst hab
    rw [if_pos rfl] at he
    cases he
    refine ⟨.refl s, hs, fun o ho => ?_, nofun⟩
    cases ho
    rw [ha.eq hb, cmp_self_eq_eq]
  · rw [if_neg hab] at he
    -- the search is cut off, or both locators are narrowed
    rcases Locator.compare_eq ha hb rounds with h | ⟨la, lb, n, k, h, hna, hnb⟩
    · rw [h] at he
      cases he
      refine ⟨.refl s, hs, nofun, fun e he => ?_⟩
      cases he
      exact ⟨nofun, nofun⟩
    · rw [h] at he
      cases he
      have hnar := narrowed_put_put hab hna hnb
      refine ⟨hnar, hnar.valid hs ?_, fun o ho => ?_, nofun⟩
      · rw [Store.size_put, Store.size_put]
      · cases ho
        rfl

/-- The search for the order comes to an end, since it starts with a test for a common root. -/
theorem Settles.compare (hs : s.Valid) (ha : (s.get a).Locates x) (hb : (s.get b).Locates y) :
    Settles (compare a b) s fun o _ => o = cmp x y := by
  by_cases hab : a = b
  · subst hab
    refine ⟨.eq, s, 0, .refl s, hs, ?_, fun rounds _ => ?_⟩
    · rw [ha.eq hb, cmp_self_eq_eq]
    · rw [exec_compare, if_pos rfl]
  · obtain ⟨la, lb, n, k, N, hna, hnb, h⟩ := Locator.exists_compare ha hb
    have hnar := narrowed_put_put hab hna hnb
    refine ⟨cmp x y, _, N, hnar, hnar.valid hs ?_, rfl, fun rounds hge => ?_⟩
    · rw [Store.size_put, Store.size_put]
    · rw [exec_compare, if_neg hab, h rounds hge]

/-- Two handles are compared exactly, whether or not they are the same. -/
theorem Exact.compare (hs : s.Valid) (ha : (s.get a).Locates x) (hb : (s.get b).Locates y) :
    Exact (compare a b) s fun o _ => o = cmp x y :=
  ⟨Safe.compare hs ha hb, Settles.compare hs ha hb⟩

end

/-! ## Metered computations -/

section

variable {s : Store} {Q : α → Store → Prop} {action : RefineM α}

/-- An error becomes a value, so that what has been counted is kept. -/
theorem exec_metered (tally : Tally) (rounds : ℕ) :
    exec (metered tally action) rounds s =
      (.ok ((exec action rounds { s with tally }).1, (exec action rounds { s with tally }).2.tally),
        { (exec action rounds { s with tally }).2 with tally := s.tally }) := rfl

/-- The tally is no part of what is narrowed. -/
theorem narrowed_tally (s : Store) (tally : Tally) : s.Narrowed { s with tally } :=
  ⟨le_rfl, fun _ _ => ⟨0, .refl _⟩⟩

/-- A computation on a tally of its own gives the same answers. -/
theorem Safe.metered {tally : Tally} (h : Safe action { s with tally } Q)
    (hQ : ∀ a t u, t.Valid → t.Narrowed u → Q a t → Q a u) :
    Safe (metered tally action) s fun r t => (∀ a, r.1 = .ok a → Q a t) ∧
      ∀ e, r.1 = .error e → e ≠ .emptyOpen ∧ e ≠ .emptyClosed := by
  intro rounds o t he
  rw [exec_metered] at he
  cases hr : exec action rounds { s with tally } with
  | mk o₁ t₁ =>
    obtain ⟨hnar, hval, hpost, herr⟩ := h rounds o₁ t₁ hr
    rw [hr] at he
    cases he
    have hback := narrowed_tally t₁ s.tally
    refine ⟨((narrowed_tally s tally).trans hnar).trans hback, hval, fun r hr => ?_, nofun⟩
    cases hr
    exact ⟨fun a ha => hQ a t₁ _ hval hback (hpost a ha), herr⟩

/-- A postcondition that does not look at the tally survives that it is put back. -/
theorem Settles.metered {tally : Tally} (h : Settles action { s with tally } Q)
    (hQ : ∀ a t u, t.Valid → t.Narrowed u → Q a t → Q a u) :
    Settles (metered tally action) s fun r t => ∃ a, r.1 = .ok a ∧ Q a t := by
  obtain ⟨a, t, N, hnar, hval, hpost, he⟩ := h
  have hback := narrowed_tally t s.tally
  refine ⟨(.ok a, t.tally), { t with tally := s.tally }, N,
    ((narrowed_tally s tally).trans hnar).trans hback, hval, ⟨a, rfl, hQ a t _ hval hback hpost⟩,
    fun rounds hge => ?_⟩
  rw [exec_metered, he rounds hge]

end

end RefineM

/-! ## The square root of two -/

theorem UniPoly.overReal_sqrtTwo :
    (UniPoly.ofCoeffs 0 [-2, 0, 1]).overReal = Polynomial.X ^ 2 - Polynomial.C 2 := by
  have hpoly : UniPoly.coeffsPolynomial [-2, 0, 1] = Polynomial.X ^ 2 - Polynomial.C 2 := by
    simp only [UniPoly.coeffsPolynomial, map_neg, map_zero, map_one]
    ring
  rw [UniPoly.overReal, UniPoly.toPolynomial_ofCoeffs, hpoly, Polynomial.map_sub,
    Polynomial.map_pow, Polynomial.map_X, Polynomial.map_C, map_ofNat]

/-- The roots are the two square roots. -/
theorem UniPoly.isRoot_sqrtTwo {y : ℝ} :
    (UniPoly.ofCoeffs 0 [-2, 0, 1]).overReal.IsRoot y ↔ y ^ 2 = 2 := by
  rw [overReal_sqrtTwo, Polynomial.IsRoot.def, Polynomial.eval_sub, Polynomial.eval_pow,
    Polynomial.eval_X, Polynomial.eval_C, sub_eq_zero]

/-- The positive root of `x² - 2`. -/
def Locator.sqrtTwo : Locator := .fresh (.ofCoeffs 0 [-2, 0, 1]) (.between 1 2 (by decide))

/-- Of these the positive one lies between one and two. -/
theorem Locator.locates_sqrtTwo : sqrtTwo.Locates √2 := by
  have hmem : (1 : ℝ) < √2 ∧ √2 < 2 := by
    constructor
    · exact (Real.lt_sqrt zero_le_one).2 (by norm_num)
    · exact (Real.sqrt_lt' two_pos).2 (by norm_num)
  refine locates_fresh (by decide) ⟨.between 1 2 (by decide), ?_⟩
  rw [Interval.reals_between, Rat.cast_one, Rat.cast_ofNat]
  refine Set.eq_singleton_iff_unique_mem.2
    ⟨⟨UniPoly.isRoot_sqrtTwo.2 (Real.sq_sqrt zero_le_two), hmem⟩, ?_⟩
  rintro y ⟨hy, hlo, -⟩
  rw [← UniPoly.isRoot_sqrtTwo.1 hy, Real.sqrt_sq (zero_le_one.trans hlo.le)]

/-- A store with the square root of two. -/
def Store.sqrtTwo : Store := { locators := #[.sqrtTwo] }

theorem Store.valid_empty : ({} : Store).Valid := fun id hid => absurd hid (Nat.not_lt_zero id)

theorem Store.valid_sqrtTwo : sqrtTwo.Valid := by
  intro id hid
  rw [Nat.lt_one_iff.1 hid]
  exact ⟨√2, Locator.locates_sqrtTwo⟩

end AlgebraicReal
