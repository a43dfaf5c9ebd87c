import AlgebraicReal.Proofs.Isolator.Safety
import AlgebraicReal.Proofs.Number.Membership
import AlgebraicReal.Proofs.Number.Sampling
import AlgebraicReal.Proofs.Number.Sign
import AlgebraicReal.Proofs.Number.AbsoluteValue
import AlgebraicReal.Proofs.Thom.Realization

/-!
# Sessions

A client builds numbers and Thom encodings, copies them and asks questions about them, in any order
and with any number of rounds for each search. Copies share their locators, so a question about one
number may narrow the interval of another. A request only names what the client holds
(`Session.Run`), and what it narrows when it fails stays narrowed.

Every request keeps the store in order (`Request.perform_safe`); what a locator is after a run
follows from that by induction over the run.
-/

namespace AlgebraicReal

open RefineM

/-- The numbers and encodings that a client has in hand. -/
structure Holdings where
  numbers : List Number := []
  encodings : List Thom := []

namespace Holdings

/-- Everything in hand stands for a real. -/
structure Denote (s : Store) (h : Holdings) : Prop where
  numbers : ∀ n ∈ h.numbers, ∃ x, n.Denotes s x
  encodings : ∀ t ∈ h.encodings, ∃ x, t.Denotes s x

def append (h k : Holdings) : Holdings := ⟨h.numbers ++ k.numbers, h.encodings ++ k.encodings⟩

variable {s t : Store} {h k : Holdings}

theorem denote_empty (s : Store) : Denote s {} :=
  ⟨fun _ hn => absurd hn List.not_mem_nil, fun _ ht => absurd ht List.not_mem_nil⟩

/-- Later, what is held denotes the same reals. -/
theorem Denote.narrowed (hd : h.Denote s) (hs : s.Valid) (hn : s.Narrowed t) : h.Denote t where
  numbers n hmem := by
    obtain ⟨x, hx⟩ := hd.numbers n hmem
    exact ⟨x, hx.narrowed hs hn⟩
  encodings u hmem := by
    obtain ⟨x, hx⟩ := hd.encodings u hmem
    exact ⟨x, hx.narrowed hs hn⟩

/-- Some of what is held. -/
theorem Denote.of_subset (hd : h.Denote s) (hn : k.numbers ⊆ h.numbers)
    (he : k.encodings ⊆ h.encodings) : k.Denote s :=
  ⟨fun n hmem => hd.numbers n (hn hmem), fun u hmem => hd.encodings u (he hmem)⟩

/-- What is held from two sides. -/
theorem Denote.append (hh : h.Denote s) (hk : k.Denote s) : (h.append k).Denote s where
  numbers n hn := (List.mem_append.1 hn).elim (hh.numbers n) (hk.numbers n)
  encodings u hu := (List.mem_append.1 hu).elim (hh.encodings u) (hk.encodings u)

theorem Denote.number {n : Number} {ns : List Number} (h : Denote s { numbers := n :: ns }) :
    ∃ x, n.Denotes s x :=
  h.numbers n List.mem_cons_self

theorem Denote.pair {m n : Number} (h : Denote s { numbers := [m, n] }) :
    ∃ x y, m.Denotes s x ∧ n.Denotes s y := by
  obtain ⟨x, hx⟩ := h.number
  obtain ⟨y, hy⟩ := h.numbers n (List.mem_cons_of_mem m List.mem_cons_self)
  exact ⟨x, y, hx, hy⟩

theorem Denote.encoding {u : Thom} {us : List Thom} (h : Denote s { encodings := u :: us }) :
    ∃ x, u.Denotes s x :=
  h.encodings u List.mem_cons_self

/-- A list of roots is held. -/
theorem denote_numbers {ns : List Number} {xs : List ℝ}
    (hns : List.Forall₂ (fun n x => n.Denotes s x) ns xs) : Denote s { numbers := ns } where
  numbers _ hn := by
    obtain ⟨x, -, hx⟩ := Thom.exists_of_mem_forall₂ hns hn
    exact ⟨x, hx⟩
  encodings _ hu := absurd hu List.not_mem_nil

theorem denote_encodings {us : List Thom} {xs : List ℝ}
    (hus : List.Forall₂ (fun u x => u.Denotes s x) us xs) : Denote s { encodings := us } where
  numbers _ hn := absurd hn List.not_mem_nil
  encodings _ hu := by
    obtain ⟨x, -, hx⟩ := Thom.exists_of_mem_forall₂ hus hu
    exact ⟨x, hx⟩

theorem denote_number {n : Number} {x : ℝ} (hn : n.Denotes s x) : Denote s { numbers := [n] } :=
  denote_numbers (.cons hn .nil)

theorem denote_encoding {u : Thom} {x : ℝ} (hu : u.Denotes s x) : Denote s { encodings := [u] } :=
  denote_encodings (.cons hu .nil)

end Holdings

/-! ## Questions -/

/-- What a client can ask about numbers and encodings. Signs under an assignment are those of
polynomials of any kind. -/
inductive Question (P : Type) where
  -- about numbers
  | refine (x : Number)
  | avoid (x : Number) (q : Rat)
  | settleIntegers (x : Number)
  | isIntegral (x : Number)
  | floor (x : Number)
  | sign (x : Number)
  | isZero (x : Number)
  | signOf (x : Number) (p : UniPoly)
  | isRootOf (x : Number) (p : UniPoly)
  | containedIn (x : Number) (i : Interval)
  | compare (x y : Number)
  | checkOrder (x y : Number)
  | equal (x y : Number)
  | less (x y : Number)
  | signUnder (g : P) (values : Assignment)
  | meteredSign (iso : Isolator) (g : P) (values : Assignment)
  -- about encodings
  | encodingSign (t : Thom)
  | encodingIsZero (t : Thom)
  | encodingSignOf (t : Thom) (p : UniPoly)
  | encodingCompareRational (t : Thom) (q : Rat)
  | encodingCompare (t u : Thom)

namespace Question

variable {P : Type}

/-- What the question is about. -/
def operands : Question P → Holdings
  | refine x | avoid x _ | settleIntegers x | isIntegral x | floor x | sign x | isZero x
  | signOf x _ | isRootOf x _ | containedIn x _ => { numbers := [x] }
  | compare x y | checkOrder x y | equal x y | less x y => { numbers := [x, y] }
  | signUnder _ values | meteredSign _ _ values => { numbers := values.map (·.2) }
  | encodingSign t | encodingIsZero t | encodingSignOf t _ | encodingCompareRational t _ =>
    { encodings := [t] }
  | encodingCompare t u => { encodings := [t, u] }

/-- Only what a computation does to the store, or its failure. -/
def effect {α : Type} (action : RefineM α) : RefineM Unit := do
  let _ ← action

/-- What is done for a question. -/
def pose [Arithmetic P] : Question P → RefineM Unit
  | refine x => x.refine
  | avoid x q => effect (x.avoid q)
  | settleIntegers x => x.settleIntegers
  | isIntegral x => effect x.isIntegral
  | floor x => effect x.floor
  | sign x => effect x.sign
  | isZero x => effect x.isZero
  | signOf x p => effect (x.signOf p)
  | isRootOf x p => effect (x.isRootOf p)
  | containedIn x i => effect (x.containedIn i)
  | compare x y => effect (x.compare y)
  | checkOrder x y => effect (x.checkOrder y)
  | equal x y => effect (x.equal y)
  | less x y => effect (x.less y)
  | signUnder g values => effect (Arithmetic.signUnder g values)
  | meteredSign iso g values => effect do RefineM.ofExcept (← iso.signUnder g values).1
  | encodingSign t => effect t.sign
  | encodingIsZero t => effect t.isZero
  | encodingSignOf t p => effect (t.signOf p)
  | encodingCompareRational t q => effect (t.compareRational q)
  | encodingCompare t u => effect (t.compare u)

variable {s : Store}

/-- A question keeps nothing of its answer. -/
theorem effect_safe {α : Type} {action : RefineM α} {Q : α → Store → Prop}
    (h : Safe action s Q) : Safe (effect action) s fun _ _ => True :=
  h.bind fun _ _ _ hval _ => Safe.pure hval trivial

variable [Arithmetic P] [Arithmetic.Lawful P]

/-- The values of the assignment are held, so all of them denote reals. -/
theorem meteredSign_safe (iso : Isolator) (hs : s.Valid) {g : P} {values : Assignment}
    (h : ∀ n ∈ values.map (·.2), ∃ x, n.Denotes s x) :
    Safe (meteredSign iso g values).pose s fun _ _ => True :=
  effect_safe ((iso.safe_signUnder hs (Assignment.valued_of_forall h _)).bind fun _ _ _ hval hr =>
    Safe.ofExcept (Q := fun _ _ => True) hval (fun _ _ => trivial) hr)

/-- Every question narrows the store at most, whatever comes of it. -/
theorem pose_safe (hs : s.Valid) (q : Question P) (h : q.operands.Denote s) :
    Safe q.pose s fun _ _ => True := by
  -- each question is safe because the operation it poses is, for what its operands denote
  cases q with
  | refine n =>
    obtain ⟨x, hx⟩ := h.number
    exact (Number.refine_exact hs hx).safe.mono fun _ _ _ _ _ => trivial
  | avoid n q =>
    obtain ⟨x, hx⟩ := h.number
    exact effect_safe (Number.avoid_safe hs hx q)
  | settleIntegers n =>
    obtain ⟨x, hx⟩ := h.number
    exact (Number.settleIntegers_exact hs hx).safe.mono fun _ _ _ _ _ => trivial
  | isIntegral n =>
    obtain ⟨x, hx⟩ := h.number
    exact effect_safe (Number.isIntegral_exact hs hx).safe
  | floor n =>
    obtain ⟨x, hx⟩ := h.number
    exact effect_safe (Number.floor_exact hs hx).safe
  | sign n =>
    obtain ⟨x, hx⟩ := h.number
    exact effect_safe (Number.sign_exact hs hx).safe
  | isZero n =>
    obtain ⟨x, hx⟩ := h.number
    exact effect_safe (Number.isZero_exact hs hx).safe
  | signOf n p =>
    obtain ⟨x, hx⟩ := h.number
    exact effect_safe (Number.signOf_exact hs hx p).safe
  | isRootOf n p =>
    obtain ⟨x, hx⟩ := h.number
    exact effect_safe (Number.isRootOf_exact hs hx p).safe
  | containedIn n i =>
    obtain ⟨x, hx⟩ := h.number
    exact effect_safe (Number.containedIn_exact hs hx i).safe
  | compare m n =>
    obtain ⟨x, y, hx, hy⟩ := h.pair
    exact effect_safe (Number.compare_exact hs hx hy).safe
  | checkOrder m n =>
    obtain ⟨x, y, hx, hy⟩ := h.pair
    exact effect_safe (Number.checkOrder_exact hs hx hy).safe
  | equal m n =>
    obtain ⟨x, y, hx, hy⟩ := h.pair
    exact effect_safe (Number.equal_exact hs hx hy).safe
  | less m n =>
    obtain ⟨x, y, hx, hy⟩ := h.pair
    exact effect_safe (Number.less_exact hs hx hy).safe
  | signUnder g values =>
    exact effect_safe (Arithmetic.safe_signUnder hs (Assignment.valued_of_forall h.numbers _))
  | meteredSign iso g values => exact meteredSign_safe iso hs h.numbers
  | encodingSign u =>
    obtain ⟨x, hx⟩ := h.encoding
    exact effect_safe (Thom.sign_exact hs hx).safe
  | encodingIsZero u =>
    obtain ⟨x, hx⟩ := h.encoding
    exact effect_safe (Thom.isZero_exact hs hx).safe
  | encodingSignOf u p =>
    obtain ⟨x, hx⟩ := h.encoding
    exact effect_safe (Thom.signOf_exact hs hx p).safe
  | encodingCompareRational u q =>
    obtain ⟨x, hx⟩ := h.encoding
    exact effect_safe (Thom.compareRational_exact hs hx q).safe
  | encodingCompare u w =>
    obtain ⟨x, hx⟩ := h.encoding
    obtain ⟨y, hy⟩ := h.encodings w (List.mem_cons_of_mem u List.mem_cons_self)
    exact effect_safe (Thom.compare_exact hs hx hy).safe

end Question

/-! ## Requests -/

/-- What a client can have done: ask a question, and build numbers and encodings from data or from
those that it has. -/
inductive Request (P : Type) where
  | ask (q : Question P)
  -- from data alone
  | ofRational (q : Rat)
  | ofInterval (p : UniPoly) (i : Interval)
  | ofVariable (v : Var)
  | realizeAll (p : UniPoly)
  | realize (p : UniPoly) (signs : List Sign)
  -- from an encoding
  | ofThom (t : Thom)
  | negate (t : Thom)
  | encodingWithVar (t : Thom) (v : Var)
  -- from numbers
  | copy (x : Number) (flag : Bool)
  | abs (x : Number)
  | withVar (x : Number) (v : Var)
  | encoding (x : Number)
  | sampleBelow (x : Number)
  | sampleAbove (x : Number)
  | sampleBetween (x y : Number)
  | isolate (iso : Isolator) (p : P) (v : Var) (values : Assignment)
  | realRoots (p : P) (v : Var) (values : Assignment)
  | evaluate (e : RootExpr P) (values : Assignment)

namespace Request

variable {P : Type}

/-- What the request is about. -/
def operands : Request P → Holdings
  | ask q => q.operands
  | ofRational _ | ofInterval _ _ | ofVariable _ | realizeAll _ | realize _ _ => {}
  | ofThom t | negate t | encodingWithVar t _ => { encodings := [t] }
  | copy x _ | abs x | withVar x _ | encoding x | sampleBelow x | sampleAbove x =>
    { numbers := [x] }
  | sampleBetween x y => { numbers := [x, y] }
  | isolate _ _ _ values | realRoots _ _ values | evaluate _ values =>
    { numbers := values.map (·.2) }

/-- Carries out a request. The result is what the client has in hand afterwards in addition. -/
def perform [Arithmetic P] : Request P → RefineM Holdings
  | ask q => do
    q.pose
    return {}
  | ofRational q => return { numbers := [.ofRational q] }
  | ofInterval p i => return { numbers := [← Number.ofInterval p i] }
  | ofVariable v => return { numbers := [← Number.ofVariable v] }
  | realizeAll p => return { encodings := ← Thom.realizeAll p }
  | realize p signs => return { encodings := [← Thom.realize p signs] }
  | ofThom t => return { numbers := [.ofThom t] }
  | negate t => return { encodings := [← t.negate] }
  | encodingWithVar t v => return { encodings := [← t.withVar v] }
  | copy x flag => return { numbers := [x.withRootFlag flag] }
  | abs x => return { numbers := [← x.abs] }
  | withVar x v => return { numbers := [← x.withVar v] }
  | encoding x => return { encodings := (x.thom? (← get)).toList }
  | sampleBelow x => return { numbers := [x.sampleBelow (← get)] }
  | sampleAbove x => return { numbers := [x.sampleAbove (← get)] }
  | sampleBetween x y => return { numbers := [← x.sampleBetween y] }
  | isolate iso p v values => do
    let (outcome, _) ← iso.isolate p v values
    return { numbers := (← RefineM.ofExcept outcome).getD [] }
  | realRoots p v values => return { numbers := (← Arithmetic.realRoots p v values).getD [] }
  | evaluate e values => return { numbers := (← e.evaluate values).toList }

variable {s : Store}

/-- A request for one number, which is held afterwards. -/
theorem number_safe {action : RefineM Number} {Q : Number → Store → Prop} (h : Safe action s Q)
    (hQ : ∀ n t, Q n t → ∃ x, n.Denotes t x) :
    Safe (do return { numbers := [← action] }) s fun added t => Holdings.Denote t added :=
  h.bind fun n t _ hval hn => Safe.pure hval (Holdings.denote_number (hQ n t hn).choose_spec)

/-- A request for one encoding. -/
theorem encoding_safe {action : RefineM Thom} {Q : Thom → Store → Prop} (h : Safe action s Q)
    (hQ : ∀ u t, Q u t → ∃ x, u.Denotes t x) :
    Safe (do return { encodings := [← action] }) s fun added t => Holdings.Denote t added :=
  h.bind fun u t _ hval hu => Safe.pure hval (Holdings.denote_encoding (hQ u t hu).choose_spec)

/-- The encoding that a number is held as. -/
theorem denote_thom? {n : Number} {x : ℝ} (h : n.Denotes s x) :
    Holdings.Denote s { encodings := (n.thom? s).toList } := by
  have hf := h.form
  unfold Number.thom?
  cases hform : n.form s with
  | thom u =>
    rw [hform] at hf
    exact Holdings.denote_encoding hf
  | rational q => exact Holdings.denote_empty s
  | root id => exact Holdings.denote_empty s

/-- Roots that are found are in hand afterwards. -/
theorem denote_getD {roots : Option (List Number)} {t : Store}
    (h : ∀ ns, roots = some ns → ∃ xs, List.Forall₂ (fun n x => n.Denotes t x) ns xs) :
    Holdings.Denote t { numbers := roots.getD [] } := by
  cases roots with
  | none => exact Holdings.denote_empty t
  | some ns =>
    obtain ⟨xs, hxs⟩ := h ns rfl
    exact Holdings.denote_numbers hxs

variable [Arithmetic P] [Arithmetic.Lawful P]

/-- The roots are held afterwards, whatever the exponents did. -/
theorem isolate_safe (iso : Isolator) (hs : s.Valid) {p : P} {v : Var} {values : Assignment}
    (h : ∀ n ∈ values.map (·.2), ∃ x, n.Denotes s x) :
    Safe (isolate iso p v values).perform s fun added t => added.Denote t := by
  refine (iso.safe_isolate hs (Assignment.valued_of_forall h _)).bind fun o t _ hval ho => ?_
  refine (Safe.ofExcept (Q := fun r t => Holdings.Denote t { numbers := r.getD [] }) hval
    (fun r hr => denote_getD fun ns hns => ?_) ho.2).bind
      fun r t' _ hval' hr => Safe.pure hval' hr
  exact ho.1 ns (by rw [hr, hns])

theorem realRoots_safe (hs : s.Valid) {p : P} {v : Var} {values : Assignment}
    (h : ∀ n ∈ values.map (·.2), ∃ x, n.Denotes s x) :
    Safe (Arithmetic.realRoots p v values) s fun roots t =>
      Holdings.Denote t { numbers := roots.getD [] } :=
  (Arithmetic.safe_rootsUnder {} hs (Assignment.valued_of_forall h _)).mono fun _ _ _ _ ho =>
    denote_getD ho

theorem evaluate_safe (hs : s.Valid) {e : RootExpr P} {values : Assignment}
    (h : ∀ n ∈ values.map (·.2), ∃ x, n.Denotes s x) :
    Safe (evaluate e values).perform s fun added t => added.Denote t := by
  refine ((realRoots_safe hs h).bind (R := fun o t => Holdings.Denote t { numbers := o.toList })
    fun roots t _ hval hr => ?_).bind fun o t _ hval ho => Safe.pure hval ho
  cases roots with
  | none => exact Safe.pure hval (Holdings.denote_empty t)
  | some ns =>
    refine Safe.pure hval ⟨fun n hn => hr.numbers n ?_, fun _ hu => absurd hu List.not_mem_nil⟩
    exact List.mem_of_getElem? (Option.mem_toList.1 hn)

/-- Every request narrows the store at most, whatever comes of it, and what it hands out stands for
reals. -/
theorem perform_safe (hs : s.Valid) (r : Request P) (h : r.operands.Denote s) :
    Safe r.perform s fun added t => added.Denote t := by
  -- what a request adds to the holdings is what the postcondition of its operation speaks of
  cases r with
  | ask q =>
    exact (q.pose_safe hs h).bind fun _ t _ hval _ => Safe.pure hval (Holdings.denote_empty t)
  | ofRational q => exact Safe.pure hs (Holdings.denote_number (Number.denotes_ofRational s q))
  | ofInterval p i =>
    exact number_safe (Number.ofInterval_safe hs p i) fun _ _ ⟨x, _, hx⟩ => ⟨x, hx⟩
  | ofVariable v => exact number_safe (Number.ofVariable_safe hs v) fun _ _ hx => ⟨0, hx⟩
  | realizeAll p =>
    exact (Thom.realizeAll_exactIf hs p).safe.bind fun us t _ hval ⟨xs, _, hus⟩ =>
      Safe.pure hval (Holdings.denote_encodings (hus.imp fun _ _ hu => hu.denotes))
  | realize p signs =>
    exact encoding_safe (Thom.realize_exactIf hs p signs).safe fun _ _ ⟨_, x, _, hu⟩ => ⟨x, hu.denotes⟩
  | ofThom u =>
    obtain ⟨x, hx⟩ := h.encoding
    exact Safe.pure hs (Holdings.denote_number (n := .ofThom u) hx)
  | negate u =>
    obtain ⟨x, hx⟩ := h.encoding
    exact encoding_safe (Thom.negate_exact hs hx).safe fun _ _ hw => ⟨-x, hw.1⟩
  | encodingWithVar u v =>
    obtain ⟨x, hx⟩ := h.encoding
    exact encoding_safe (Thom.withVar_exact hs hx v).safe fun _ _ hw => ⟨x, hw⟩
  | copy n flag =>
    obtain ⟨x, hx⟩ := h.number
    exact Safe.pure hs (Holdings.denote_number (Number.denotes_withRootFlag.2 hx))
  | abs n =>
    obtain ⟨x, hx⟩ := h.number
    exact number_safe (Number.abs_exact hs hx).safe fun _ _ hm => ⟨|x|, hm.denotes⟩
  | withVar n v =>
    obtain ⟨x, hx⟩ := h.number
    exact number_safe (Number.withVar_exact hs hx v).safe fun _ _ hm => ⟨x, hm⟩
  | encoding n =>
    obtain ⟨x, hx⟩ := h.number
    exact Safe.get_bind (Safe.pure hs (denote_thom? hx))
  | sampleBelow n =>
    exact Safe.get_bind (Safe.pure hs (Holdings.denote_number (Number.denotes_ofRational s _)))
  | sampleAbove n =>
    exact Safe.get_bind (Safe.pure hs (Holdings.denote_number (Number.denotes_ofRational s _)))
  | sampleBetween m n =>
    obtain ⟨x, y, hx, hy⟩ := h.pair
    refine number_safe (Number.sampleBetween_exactIf hs hx hy).safe fun k t hk => ?_
    obtain ⟨q, rfl, -⟩ := hk
    exact ⟨q, Number.denotes_ofRational t q⟩
  | isolate iso p v values => exact isolate_safe iso hs h.numbers
  | realRoots p v values =>
    exact (realRoots_safe hs h.numbers).bind fun roots t _ hval hr => Safe.pure hval hr
  | evaluate e values => exact evaluate_safe hs h.numbers

end Request

/-! ## What happens to a locator -/

namespace Locator

variable {l l' : Locator} {x : ℝ}

/-- Cuts, each of which narrows the interval strictly, and how many they are. -/
inductive Shrinks : ℕ → Locator → Locator → Prop
  | refl (l : Locator) : Shrinks 0 l l
  | cut {n : ℕ} {l m m' : Locator} : Shrinks n l m → m.CutTo m' →
      m'.interval.reals ⊂ m.interval.reals → Shrinks (n + 1) l m'

/-- A narrowing of a located root makes its interval smaller in each step. -/
theorem Narrows.shrinks (hl : l.Locates x) : ∀ {n l'}, Narrows n l l' → Shrinks n l l'
  | _, _, .refl _ => .refl _
  | _, _, .cut h hc => .cut (h.shrinks hl) hc (hc.spec (h.locates hl)).2.2.2

/-- What a locator keeps while it is narrowed: the polynomial, an interval that is a point or open
and lies in the one before, the root, and a count of the cuts. -/
structure Keeps (l l' : Locator) (x : ℝ) : Prop where
  poly_eq : l'.poly = l.poly
  isolating : l'.interval.Isolating
  subset : l'.interval.reals ⊆ l.interval.reals
  root_eq : l.poly.realRoots ∩ l.interval.reals = {x}
  root_eq' : l'.poly.realRoots ∩ l'.interval.reals = {x}
  counted : ∃ n, Shrinks n l l' ∧ l'.refinements = l.refinements + n

/-- What a narrowing keeps of a locator, with the root that it locates. -/
theorem Locates.keeps (hl : l.Locates x) {n : ℕ} (h : Narrows n l l') : l.Keeps l' x where
  poly_eq := h.poly_eq hl
  isolating := (h.locates hl).isolates.isolating
  subset := h.subset hl
  root_eq := hl.isolates.unique
  root_eq' := (h.locates hl).isolates.unique
  counted := ⟨n, h.shrinks hl, h.refinements_eq hl⟩

end Locator

namespace Number

variable {s t : Store} {n : Number} {id : LocatorId}

/-- A number changes its form only when its interval has become a point. -/
theorem form_of_not_point (h : n.stored = .root id) (hp : (s.get id).point? = none) :
    n.form s = .root id := by
  simp only [form, h, hp]

/-- And then it is that point. -/
theorem form_of_point (h : n.stored = .root id) {q : ℚ} (hp : (s.get id).point? = some q) :
    n.form s = .rational q := by
  simp only [form, h, hp]

/-- A number keeps its representation unless its interval becomes a point. -/
theorem form_narrowed (h : s.Narrowed t) {x : ℝ} (hn : n.Denotes s x) : n.form t = n.form s ∨
    ∃ id q, n.form s = .root id ∧ n.form t = .rational q ∧ (t.get id).interval = .point q := by
  cases hstored : n.stored with
  | rational q => exact .inl (by rw [form, form, hstored])
  | thom u => exact .inl (by rw [form, form, hstored])
  | root id =>
    have hid : id < s.locators.size := by
      rw [Denotes, hstored] at hn
      exact hn.1
    obtain ⟨k, hk⟩ := h.narrows id hid
    cases hp : (s.get id).point? with
    | some q =>
      have hp' : (t.get id).point? = some q := by rw [hk.eq_of_point hp, hp]
      exact .inl (by rw [form_of_point hstored hp, form_of_point hstored hp'])
    | none =>
      cases hp' : (t.get id).point? with
      | none => exact .inl (by rw [form_of_not_point hstored hp, form_of_not_point hstored hp'])
      | some q =>
        exact .inr ⟨id, q, form_of_not_point hstored hp, form_of_point hstored hp',
          Interval.eq_point_of_point? hp'⟩

end Number

/-! ## Sessions -/

/-- The store, and what the client has in hand. -/
structure Session where
  store : Store := {}
  held : Holdings := {}

namespace Session

variable {P : Type}

/-- The client has in hand what the request is about. -/
structure Allows (s : Session) (r : Request P) : Prop where
  numbers : r.operands.numbers ⊆ s.held.numbers
  encodings : r.operands.encodings ⊆ s.held.encodings

/-- The session after a computation of what the client gets in addition. When it fails the client
gets nothing, but what has been narrowed stays narrowed. -/
def after (s : Session) (action : RefineM Holdings) (rounds : ℕ) : Session :=
  match exec action rounds s.store with
  | (.ok added, t) => { store := t, held := s.held.append added }
  | (.error _, t) => { s with store := t }

/-- Serves a request. -/
def serve [Arithmetic P] (s : Session) (r : Request P) (rounds : ℕ) : Session :=
  s.after r.perform rounds

/-- Any number of requests about polynomials of a kind, one after the other. -/
inductive Run (P : Type) [Arithmetic P] : Session → Session → Prop
  | refl (s : Session) : Run P s s
  | step {s t : Session} (h : Run P s t) (r : Request P) (rounds : ℕ) (hr : t.Allows r) :
      Run P s (t.serve r rounds)

/-- The store is in order, and everything in hand stands for a real. -/
structure Sound (s : Session) : Prop where
  valid : s.store.Valid
  denote : s.held.Denote s.store

/-- What a later session has in common with an earlier one. -/
structure Extends (s t : Session) : Prop where
  narrowed : s.store.Narrowed t.store
  numbers : s.held.numbers ⊆ t.held.numbers
  encodings : s.held.encodings ⊆ t.held.encodings

variable {s t u : Session} {r : Request P}

theorem Extends.refl (s : Session) : s.Extends s :=
  ⟨.refl _, List.Subset.refl _, List.Subset.refl _⟩

/-- Sessions extend each other along a run. -/
theorem Extends.trans (h : s.Extends t) (h' : t.Extends u) : s.Extends u where
  narrowed := h.narrowed.trans h'.narrowed
  numbers := List.Subset.trans h.numbers h'.numbers
  encodings := List.Subset.trans h.encodings h'.encodings

theorem sound_empty : Sound {} where
  valid _ hid := absurd hid (Nat.not_lt_zero _)
  denote := Holdings.denote_empty _

/-- A computation that narrows the store at most keeps a session in order. -/
theorem Sound.after (h : s.Sound) {action : RefineM Holdings}
    (hsafe : Safe action s.store fun added t => added.Denote t) (rounds : ℕ) :
    (s.after action rounds).Sound ∧ s.Extends (s.after action rounds) := by
  unfold Session.after
  cases he : exec action rounds s.store with
  | mk o t =>
    obtain ⟨hnar, hval, hadded, -⟩ := hsafe rounds o t he
    have hheld := h.denote.narrowed h.valid hnar
    cases o with
    | ok added =>
      exact ⟨⟨hval, hheld.append (hadded added rfl)⟩, hnar, List.subset_append_left _ _,
        List.subset_append_left _ _⟩
    | error e => exact ⟨⟨hval, hheld⟩, hnar, List.Subset.refl _, List.Subset.refl _⟩

variable [Arithmetic P] [Arithmetic.Lawful P]

/-- What is asked for is held by the session, so it denotes reals. -/
theorem Sound.perform_safe (h : s.Sound) (hr : s.Allows r) :
    Safe r.perform s.store fun added t => added.Denote t :=
  r.perform_safe h.valid (h.denote.of_subset hr.numbers hr.encodings)

/-- One request keeps a session in order. -/
theorem Sound.serve (h : s.Sound) (hr : s.Allows r) (rounds : ℕ) :
    (s.serve r rounds).Sound ∧ s.Extends (s.serve r rounds) :=
  h.after (h.perform_safe hr) rounds

/-- Any number of requests keep it in order. -/
theorem Sound.run (h : s.Sound) (hrun : Run P s t) : t.Sound ∧ s.Extends t := by
  induction hrun with
  | refl => exact ⟨h, .refl s⟩
  | step _ r rounds hr ih =>
    obtain ⟨hsound, hext⟩ := ih
    obtain ⟨hsound', hext'⟩ := hsound.serve hr rounds
    exact ⟨hsound', hext.trans hext'⟩

/-- From any point of a session on, every locator keeps its polynomial and its root, its interval
only shrinks and is a point or open, and every cut is counted. What is in hand stays there and
denotes what it did; a number changes its representation only when its interval has become a point.
No request finds an interval empty. -/
theorem run_invariant (hs : Run P {} s) (ht : Run P s t) :
    (∀ id < s.store.locators.size, id < t.store.locators.size ∧
      ∃ x, (s.store.get id).Keeps (t.store.get id) x) ∧
    (∀ n ∈ s.held.numbers, n ∈ t.held.numbers ∧
      (∃ x, n.Denotes s.store x ∧ n.Denotes t.store x) ∧
      (n.form t.store = n.form s.store ∨ ∃ id q, n.form s.store = .root id ∧
        n.form t.store = .rational q ∧ (t.store.get id).interval = .point q)) ∧
    (∀ u ∈ s.held.encodings, u ∈ t.held.encodings ∧
      ∃ x, u.Denotes s.store x ∧ u.Denotes t.store x) ∧
    ∀ (r : Request P) (rounds : ℕ) (e : Error), t.Allows r →
      (exec r.perform rounds t.store).1 = .error e → e ≠ .emptyOpen ∧ e ≠ .emptyClosed := by
  obtain ⟨hsound, -⟩ := sound_empty.run hs
  obtain ⟨hsound', hext⟩ := hsound.run ht
  have hnar := hext.narrowed
  refine ⟨fun id hid => ⟨hid.trans_le hnar.size_le, ?_⟩, fun n hn => ⟨hext.numbers hn, ?_⟩,
    fun w hw => ⟨hext.encodings hw, ?_⟩, fun r rounds e hr he => ?_⟩
  · obtain ⟨x, hx⟩ := hsound.valid id hid
    obtain ⟨k, hk⟩ := hnar.narrows id hid
    exact ⟨x, hx.keeps hk⟩
  · obtain ⟨x, hx⟩ := hsound.denote.numbers n hn
    exact ⟨⟨x, hx, hx.narrowed hsound.valid hnar⟩, Number.form_narrowed hnar hx⟩
  · obtain ⟨x, hx⟩ := hsound.denote.encodings w hw
    exact ⟨x, hx, hx.narrowed hsound.valid hnar⟩
  · exact (hsound'.perform_safe hr rounds _ _ rfl).2.2.2 e he

/-- Requests about polynomials whose exponents are machine words. -/
abbrev MachineRequest : Type := Request (MvPoly.Machine .forward)

/-- A session in which the root of `x² - 2` between one and two has been built. -/
def sqrtTwo : Session :=
  serve {} (.ofInterval Locator.sqrtTwo.poly Locator.sqrtTwo.interval : MachineRequest) 1

/-- The interval around the square root of two is cut at `7 / 5`. -/
theorem run_invariant_sqrtTwo :
    let cut : MachineRequest := .ask (.avoid .sqrtTwo (7 / 5))
    Run (MvPoly.Machine .forward) {} sqrtTwo ∧
      Run (MvPoly.Machine .forward) sqrtTwo (sqrtTwo.serve cut 1) ∧
      ∃ x, (sqrtTwo.store.get 0).Keeps ((sqrtTwo.serve cut 1).store.get 0) x := by
  intro cut
  have hbuild : Run (MvPoly.Machine .forward) {} sqrtTwo :=
    .step (.refl {}) _ 1 ⟨List.nil_subset _, List.nil_subset _⟩
  have hheld : sqrtTwo.held.numbers = [.sqrtTwo] := by
    decide +kernel
  have hcut : Run (MvPoly.Machine .forward) sqrtTwo (sqrtTwo.serve cut 1) :=
    .step (.refl sqrtTwo) _ 1 ⟨hheld ▸ List.Subset.refl _, List.nil_subset _⟩
  have hsize : 0 < sqrtTwo.store.locators.size := by
    decide +kernel
  exact ⟨hbuild, hcut, ((run_invariant hbuild hcut).1 0 hsize).2⟩

end Session

end AlgebraicReal
