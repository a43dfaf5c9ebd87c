import AlgebraicReal.Locator.Sign
import AlgebraicReal.Locator.Order

/-!
# The store of locators

Numbers refer to their locators through a store, so that copies of a number share one locator and
whatever narrows it narrows it for all of them. Locators are only ever added or narrowed in place;
none is removed, and a handle keeps its meaning.

`RefineM` is the kind of computation that may narrow locators: it has the store as its state, can
fail, and knows how many rounds an unbounded search may take. What was narrowed before a failure
stays narrowed. The store also holds the tally of the root isolation that is going on.
-/

namespace AlgebraicReal

/-- A handle of a locator in a store. -/
abbrev LocatorId := Nat

/-- How much work root isolation has done. -/
structure Tally where
  /-- Requests for the roots of a polynomial. -/
  isolations : Nat := 0
  /-- Resultants that eliminated a variable. -/
  eliminations : Nat := 0
  /-- Roots of eliminants. -/
  candidates : Nat := 0
  /-- Roots of eliminants at which the polynomial itself did not vanish. -/
  rejected : Nat := 0
  /-- Signs determined at a point with algebraic coordinates. -/
  zeroTests : Nat := 0
  deriving DecidableEq, Inhabited

/-- All locators, and the tally. -/
structure Store where
  locators : Array Locator := #[]
  tally : Tally := {}
  deriving Inhabited

namespace Store

def get (s : Store) (id : LocatorId) : Locator := s.locators.getD id default

/-- Puts a locator in the place of the one that the handle has. -/
def put (s : Store) (id : LocatorId) (l : Locator) : Store :=
  { s with locators := s.locators.setIfInBounds id l }

def add (s : Store) (l : Locator) : LocatorId × Store :=
  (s.locators.size, { s with locators := s.locators.push l })

theorem get_add_self (s : Store) (l : Locator) : (s.add l).2.get (s.add l).1 = l := by
  simp [get, add, Array.getD_eq_getD_getElem?]

theorem get_add_of_lt (s : Store) (l : Locator) {id : LocatorId} (h : id < s.locators.size) :
    (s.add l).2.get id = s.get id := by
  simp [get, add, Array.getD_eq_getD_getElem?, Array.getElem?_push, Nat.ne_of_lt h]

theorem get_put_self (s : Store) (l : Locator) {id : LocatorId} (h : id < s.locators.size) :
    (s.put id l).get id = l := by
  simp [get, put, Array.getD_eq_getD_getElem?, h]

theorem get_put_of_ne (s : Store) (l : Locator) {id other : LocatorId} (h : other ≠ id) :
    (s.put id l).get other = s.get other := by
  simp [get, put, Array.getD_eq_getD_getElem?, Ne.symm h]

end Store

/-- A computation that may narrow locators. It reads the number of rounds that a search may take. -/
abbrev RefineM := ReaderT Nat (ExceptT Error (StateM Store))

namespace RefineM

/-- More rounds than a search can take in practice. -/
def defaultRounds : Nat := 1152921504606846976

/-- Runs a computation. The store survives a failure. -/
def exec {α : Type} (action : RefineM α) (rounds : Nat) (s : Store) : Except Error α × Store :=
  (action.run rounds).run.run s

/-- A computation that only looks at the store. -/
def reading {α : Type} (f : Store → α) : RefineM α := return f (← get)

/-- Passes on a result or an error that was found without the store. -/
def ofExcept {α : Type} : Except Error α → RefineM α
  | .ok a => pure a
  | .error e => throw e

def allocate (l : Locator) : RefineM LocatorId := modifyGet (·.add l)

/-- Asks a question of a locator, which may narrow it. -/
def ask {α : Type} (id : LocatorId) (question : Locator → Except Error (α × Locator)) :
    RefineM α := do
  let (answer, l) ← ofExcept (question ((← get).get id))
  modify (·.put id l)
  return answer

def narrow (id : LocatorId) (step : Locator → Except Error Locator) : RefineM Unit :=
  ask id fun l => return ((), ← step l)

/-- The order of the roots of two locators; a locator's root is equal to itself. -/
def compare (a b : LocatorId) : RefineM Ordering := do
  if a = b then return .eq
  let s ← get
  let (order, la, lb) ← ofExcept ((s.get a).compare (← read) (s.get b))
  modify fun s => (s.put a la).put b lb
  return order

def count (change : Tally → Tally) : RefineM Unit :=
  modify fun s => { s with tally := change s.tally }

/-- Runs a computation on a tally of its own, and hands out that tally with the outcome, be it a
result or an error. -/
def metered {α : Type} (tally : Tally) (action : RefineM α) : RefineM (Except Error α × Tally) :=
  fun rounds => ExceptT.mk do
    let outer := (← get).tally
    modify fun s => { s with tally := tally }
    let outcome ← (action rounds).run
    let inner := (← get).tally
    modify fun s => { s with tally := outer }
    return .ok (outcome, inner)

/-! ## Running a computation step by step -/

variable {α β : Type} (rounds : Nat) (s : Store)

@[simp] theorem exec_pure (a : α) : exec (pure a) rounds s = (.ok a, s) := rfl

@[simp] theorem exec_throw (e : Error) : exec (throw e : RefineM α) rounds s = (.error e, s) := rfl

/-- A failure ends a sequence of steps; otherwise the next step starts from the store that the first
one left. -/
theorem exec_bind (x : RefineM α) (f : α → RefineM β) :
    exec (x >>= f) rounds s =
      match exec x rounds s with
      | (.ok a, t) => exec (f a) rounds t
      | (.error e, t) => (.error e, t) := by
  have h : exec (x >>= f) rounds s =
      match exec x rounds s with
      | (o, t) => (ExceptT.bindCont (fun a => f a rounds) o).run t := rfl
  rw [h]
  cases exec x rounds s with
  | mk o t => cases o <;> rfl

/-- A question changes the locator that is asked, and no other; a question that fails changes
nothing. -/
theorem exec_ask (id : LocatorId) (question : Locator → Except Error (α × Locator)) :
    exec (ask id question) rounds s =
      match question (s.get id) with
      | .ok (a, l) => (.ok a, s.put id l)
      | .error e => (.error e, s) := by
  have h : exec (ask id question) rounds s =
      match exec (ofExcept (question (s.get id))) rounds s with
      | (o, t) => (ExceptT.bindCont
          (fun a => (do modify (·.put id a.2); return a.1 : RefineM α) rounds) o).run t := rfl
  rw [h]
  cases question (s.get id) <;> rfl

end RefineM

end AlgebraicReal
