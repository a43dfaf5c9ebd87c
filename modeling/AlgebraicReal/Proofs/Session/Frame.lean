import AlgebraicReal.Proofs.Session
import AlgebraicReal.Proofs.Literal
import AlgebraicReal.Proofs.Isolator.Frame

/-!
# Frames of operations

Which numbers share a locator shows in their handles. An operation narrows locators through the
handles of its operands only (`Operation.footprint`), and for isolation, root expressions and signs
under an assignment only through those of the values that matter. Everything else in hand is the same
afterwards, and by induction this holds along a run (`Session.frame_exact`). A copy has the handle of
the original and shows the same in every store; a number in another variable, the opposite of a
negative number and a reflected encoding have a handle that nothing else has.
-/

namespace AlgebraicReal

open RefineM

/-! ## Operations -/

/-- What a client can do with numbers, encodings and literals. A literal or an assignment is made of
numbers that the client has in hand. -/
inductive Operation (P : Type) where
  | request (r : Request P)
  | compareLiterals (l m : Literal)
  | equalLiterals (l m : Literal)
  | literalKey (l : Literal)

/-- The handles of what is in hand. -/
def Holdings.handles (h : Holdings) : List LocatorId :=
  h.numbers.flatMap Number.handles ++ h.encodings.map (·.locator)

section

variable {P : Type} [Arithmetic P]

/-- The handles through which a question may narrow a locator. -/
def Question.footprint : Question P → List LocatorId
  | signUnder g values | meteredSign _ g values => values.handles (Arithmetic.vars g)
  | q => q.operands.handles

/-- The handles that a request may narrow. -/
def Request.footprint : Request P → List LocatorId
  | ask q => q.footprint
  | abs x => x.handles
  | sampleBetween x y => x.handles ++ y.handles
  | isolate _ p v values | realRoots p v values =>
    values.handles ((Arithmetic.vars p).filter (· ≠ v))
  | evaluate e values => values.handles e.vars
  -- the other requests look at their operands at most
  | ofRational _ | ofInterval _ _ | ofVariable _ | realizeAll _ | realize _ _ | ofThom _ | negate _
  | encodingWithVar _ _ | copy _ _ | withVar _ _ | encoding _ | sampleBelow _ | sampleAbove _ => []

namespace Operation

/-- What the operation is about. -/
def operands : Operation P → Holdings
  | request r => r.operands
  | compareLiterals l m | equalLiterals l m => { numbers := [l.value, m.value] }
  | literalKey l => { numbers := [l.value] }

/-- Carries out an operation. The result is what the client has in hand afterwards in addition. -/
def perform : Operation P → RefineM Holdings
  | request r => r.perform
  | compareLiterals l m => do
    Question.effect (l.compare m)
    return {}
  | equalLiterals l m => do
    Question.effect (l.equal m)
    return {}
  | literalKey l => do
    Question.effect l.key
    return {}

/-- The handles that an operation may narrow. -/
def footprint : Operation P → List LocatorId
  | request r => r.footprint
  | o => o.operands.handles

end Operation

end

variable {P : Type} [Arithmetic P] {K : Set LocatorId}

/-! ## What an operation leaves alone -/

namespace Holdings

variable {h : Holdings}

theorem mem_handles_of_number {n : Number} (hn : n ∈ h.numbers) {id : LocatorId}
    (hid : id ∈ n.handles) : id ∈ h.handles :=
  List.mem_append_left _ (List.mem_flatMap.2 ⟨n, hn, hid⟩)

theorem mem_handles_of_encoding {u : Thom} (hu : u ∈ h.encodings) : u.locator ∈ h.handles :=
  List.mem_append_right _ (List.mem_map_of_mem hu)

variable {n m : Number} {ns : List Number} {u w : Thom} {us : List Thom}

theorem number_of_handles (h : ∀ id ∈ handles { numbers := n :: ns }, id ∉ K) :
    ∀ id ∈ n.handles, id ∉ K := fun id hid =>
  h id (mem_handles_of_number (h := { numbers := n :: ns }) List.mem_cons_self hid)

theorem second_of_handles (h : ∀ id ∈ handles { numbers := m :: n :: ns }, id ∉ K) :
    ∀ id ∈ n.handles, id ∉ K := fun id hid =>
  h id (mem_handles_of_number (h := { numbers := m :: n :: ns })
    (List.mem_cons_of_mem m List.mem_cons_self) hid)

theorem encoding_of_handles (h : ∀ id ∈ handles { encodings := u :: us }, id ∉ K) :
    u.locator ∉ K :=
  h _ (mem_handles_of_encoding (h := { encodings := u :: us }) List.mem_cons_self)

theorem second_encoding_of_handles (h : ∀ id ∈ handles { encodings := u :: w :: us }, id ∉ K) :
    w.locator ∉ K :=
  h _ (mem_handles_of_encoding (h := { encodings := u :: w :: us })
    (List.mem_cons_of_mem u List.mem_cons_self))

end Holdings

/-- The values that a polynomial needs are among all of them. -/
theorem Assignment.handles_subset (values : Assignment) (vs : List Var) :
    values.handles vs ⊆ Holdings.handles { numbers := values.map (·.2) } := by
  intro id hid
  obtain ⟨v, -, hmem⟩ := List.mem_flatMap.1 hid
  cases hlookup : values.lookup v with
  | none =>
    rw [hlookup] at hmem
    cases hmem
  | some x =>
    rw [hlookup] at hmem
    exact Holdings.mem_handles_of_number (h := { numbers := values.map (·.2) }) (n := x)
      (mem_of_lookup hlookup) hmem

/-- The footprint is among what the operands hold. -/
theorem Operation.footprint_subset (o : Operation P) : o.footprint ⊆ o.operands.handles := by
  have hask : ∀ q : Question P, q.footprint ⊆ q.operands.handles := fun q => by
    cases q with
    | signUnder g values | meteredSign iso g values => exact values.handles_subset _
    | _ => exact List.Subset.refl _
  have hrequest : ∀ r : Request P, r.footprint ⊆ r.operands.handles := fun r => by
    cases r with
    | ask q => exact hask q
    | isolate iso p v values | realRoots p v values => exact values.handles_subset _
    | evaluate e values => exact values.handles_subset _
    | abs x =>
      exact fun id hid =>
        Holdings.mem_handles_of_number (h := { numbers := [x] }) List.mem_cons_self hid
    | sampleBetween x y =>
      intro id hid
      rcases List.mem_append.1 hid with hid | hid
      · exact Holdings.mem_handles_of_number (h := { numbers := [x, y] }) List.mem_cons_self hid
      · exact Holdings.mem_handles_of_number (h := { numbers := [x, y] })
          (List.mem_cons_of_mem x List.mem_cons_self) hid
    | _ => exact List.nil_subset _
  cases o with
  | request r => exact hrequest r
  | _ => exact List.Subset.refl _

/-- A question that is asked for its narrowings. -/
theorem leaves_effect {α : Type} {action : RefineM α} (h : Leaves K action) :
    Leaves K (Question.effect action) :=
  h.bind fun _ => .pure _

open Holdings in
/-- By cases on the question: each narrows what it is about. -/
theorem Question.leaves_pose (q : Question P) (h : ∀ id ∈ q.footprint, id ∉ K) : Leaves K q.pose := by
  -- by the kind of operand: one number, two, an assignment, one encoding, two
  cases q with
  | refine x | settleIntegers x => exact Number.leaves_narrow (number_of_handles h) _
  | avoid x q => exact leaves_effect (Number.leaves_avoid (number_of_handles h) q)
  | isIntegral x => exact leaves_effect (Number.leaves_isIntegral (number_of_handles h))
  | floor x => exact leaves_effect (Number.leaves_floor (number_of_handles h))
  | sign x => exact leaves_effect (Number.leaves_sign (number_of_handles h))
  | isZero x => exact leaves_effect (Number.leaves_isZero (number_of_handles h))
  | signOf x p => exact leaves_effect (Number.leaves_signOf (number_of_handles h) p)
  | isRootOf x p => exact leaves_effect (Number.leaves_isRootOf (number_of_handles h) p)
  | containedIn x i => exact leaves_effect (Number.leaves_containedIn (number_of_handles h) i)
  | compare x y =>
    exact leaves_effect (Number.leaves_compare (number_of_handles h) (second_of_handles h))
  | checkOrder x y =>
    exact leaves_effect (Number.leaves_checkOrder (number_of_handles h) (second_of_handles h))
  | equal x y =>
    exact leaves_effect (Number.leaves_equal (number_of_handles h) (second_of_handles h))
  | less x y =>
    exact leaves_effect (Number.leaves_less (number_of_handles h) (second_of_handles h))
  | signUnder g values => exact leaves_effect (Arithmetic.leaves_signUnder h)
  | meteredSign iso g values =>
    exact leaves_effect ((Isolator.leaves_signUnder h iso).bind fun r => .ofExcept r.1)
  | encodingSign t => exact leaves_effect (Thom.leaves_sign (encoding_of_handles h))
  | encodingIsZero t => exact leaves_effect (Thom.leaves_isZero (encoding_of_handles h))
  | encodingSignOf t p => exact leaves_effect (Thom.leaves_signOf (encoding_of_handles h) p)
  | encodingCompareRational t q =>
    exact leaves_effect (Thom.leaves_compareRational (encoding_of_handles h) q)
  | encodingCompare t u =>
    exact leaves_effect
      (Thom.leaves_compare (encoding_of_handles h) (second_encoding_of_handles h))

/-- By cases on the request. -/
theorem Request.leaves_perform (r : Request P) (h : ∀ id ∈ r.footprint, id ∉ K) :
    Leaves K r.perform := by
  cases r with
  | ask q => exact (q.leaves_pose h).bind fun _ => .pure _
  | ofRational q | ofThom t | copy x flag => exact .pure _
  | ofInterval p i => exact (Number.leaves_ofInterval p i).bind fun _ => .pure _
  | ofVariable v => exact (Number.leaves_ofLocator _).bind fun _ => .pure _
  | realizeAll p => exact (Thom.leaves_realizeAll p).bind fun _ => .pure _
  | realize p signs => exact (Thom.leaves_realize p signs).bind fun _ => .pure _
  | negate t => exact t.leaves_negate.bind fun _ => .pure _
  | encodingWithVar t v => exact (t.leaves_withVar v).bind fun _ => .pure _
  | abs x => exact (Number.leaves_abs h).bind fun _ => .pure _
  | withVar x v => exact (x.leaves_withVar v).bind fun _ => .pure _
  | encoding x | sampleBelow x | sampleAbove x => exact .get_bind fun _ => .pure _
  | sampleBetween x y =>
    exact (Number.leaves_sampleBetween (fun id hid => h id (List.mem_append_left _ hid))
      fun id hid => h id (List.mem_append_right _ hid)).bind fun _ => .pure _
  | isolate iso p v values =>
    exact (Isolator.leaves_isolate h iso).bind fun o => (Leaves.ofExcept o.1).bind fun _ => .pure _
  | realRoots p v values => exact (Arithmetic.leaves_realRoots h).bind fun _ => .pure _
  | evaluate e values => exact (RootExpr.leaves_evaluate h).bind fun _ => .pure _

open Holdings in
/-- An operation changes no locator outside its footprint. -/
theorem Operation.leaves_perform (o : Operation P) (h : ∀ id ∈ o.footprint, id ∉ K) :
    Leaves K o.perform := by
  cases o with
  | request r => exact r.leaves_perform h
  | compareLiterals l m =>
    exact (leaves_effect (Literal.leaves_compare (number_of_handles h)
      (second_of_handles h))).bind fun _ => .pure _
  | equalLiterals l m =>
    exact (leaves_effect (Literal.leaves_equal (number_of_handles h)
      (second_of_handles h))).bind fun _ => .pure _
  | literalKey l =>
    exact (leaves_effect (Literal.leaves_key (number_of_handles h))).bind fun _ => .pure _

/-! ## Numbers that are left alone -/

/-- The number is held as before, and its locator is the same in every respect. -/
structure Number.Unchanged (n : Number) (s t : Store) : Prop where
  form_eq : n.form t = n.form s
  get_eq : ∀ id ∈ n.handles, t.get id = s.get id
  interval_eq : n.interval t = n.interval s
  refinements_eq : n.refinements t = n.refinements s

/-- Two numbers with one locator, which show the same in every store. -/
structure Number.Shares (n m : Number) : Prop where
  handles_eq : m.handles = n.handles
  form_eq : ∀ t : Store, m.form t = n.form t
  interval_eq : ∀ t : Store, m.interval t = n.interval t
  refinements_eq : ∀ t : Store, m.refinements t = n.refinements t

namespace Number

variable {n m : Number} {s t : Store}

/-- What is seen of a number is read off its locators. -/
theorem unchanged_of_get (h : ∀ id ∈ n.handles, t.get id = s.get id) : n.Unchanged s t := by
  have hform : n.form t = n.form s := by
    unfold form
    split
    next id hid =>
      have hmem : id ∈ n.handles := by
        rw [handles, hid]
        exact List.mem_cons_self
      rw [h id hmem]
    next => rfl
  have hlocator : n.locator? t = n.locator? s := by
    unfold locator?
    rw [hform]
    split
    next id hid =>
      have hmem := handles_form_subset s n (a := id) (by rw [hid]; exact List.mem_cons_self)
      rw [h id hmem]
    next => rfl
  exact ⟨hform, h, congrArg (Option.map _) hlocator, congrArg (Option.map _) hlocator⟩

/-- So it is displayed in the same way. -/
theorem Unchanged.text_eq (h : n.Unchanged s t) : n.text t = n.text s := by
  unfold text
  rw [h.form_eq]
  cases hform : n.form s with
  | rational q => rfl
  | root id =>
    have hmem := handles_form_subset s n (a := id) (by rw [hform]; exact List.mem_cons_self)
    simp only [h.get_eq id hmem]
  | thom u => rfl

theorem shares_of_stored (h : m.stored = n.stored) : n.Shares m := by
  have hform : ∀ t : Store, m.form t = n.form t := fun t => by rw [form, form, h]
  have hlocator : ∀ t : Store, m.locator? t = n.locator? t := fun t => by
    rw [locator?, locator?, hform]
  exact ⟨congrArg Form.handles h, hform, fun t => congrArg (Option.map _) (hlocator t),
    fun t => congrArg (Option.map _) (hlocator t)⟩

end Number

/-! ## New locators -/

/-- The handle is new, and the locator behind it has not been narrowed. -/
structure Store.IsNew (s t : Store) (id : LocatorId) : Prop where
  size_le : s.locators.size ≤ id
  lt_size : id < t.locators.size
  refinements_eq : (t.get id).refinements = 0

section

variable {s t u : Store} {rounds : ℕ} {n m : Number} {v w : Thom} {x : ℝ}

/-- A locator that was never refined, at a handle that was not there. -/
theorem Store.isNew_allocate {l : Locator} (hl : l.refinements = 0) {id : LocatorId}
    (h : exec (allocate l) rounds s = (.ok id, t)) : s.IsNew t id := by
  rw [exec_allocate] at h
  cases h
  refine ⟨le_rfl, ?_, ?_⟩
  · rw [size_add]
    exact Nat.lt_succ_self _
  · rw [get_add_self, hl]

/-- What is new to a larger store is new to a smaller one. -/
theorem Store.IsNew.mono {id : LocatorId} (h : u.IsNew t id)
    (hle : s.locators.size ≤ u.locators.size) : s.IsNew t id :=
  ⟨hle.trans h.size_le, h.lt_size, h.refinements_eq⟩

/-- The opposite encoding has a locator of its own. -/
theorem Thom.isNew_negate (h : exec v.negate rounds s = (.ok w, t)) : s.IsNew t w.locator := by
  unfold negate at h
  rw [exec_get_bind] at h
  obtain ⟨id, t', halloc, h⟩ := exec_bind_eq_ok h
  cases h
  exact Store.isNew_allocate rfl halloc

/-- And so has the encoding in another variable. -/
theorem Thom.isNew_withVar {y : Var} (h : exec (v.withVar y) rounds s = (.ok w, t)) :
    s.IsNew t w.locator := by
  unfold withVar at h
  rw [exec_get_bind] at h
  obtain ⟨id, t', halloc, h⟩ := exec_bind_eq_ok h
  cases h
  exact Store.isNew_allocate rfl halloc

namespace Number

theorem exec_current_bind {β : Type} (n : Number) (f : Form → RefineM β) :
    exec (n.current >>= f) rounds s = exec (f (n.form s)) rounds s := rfl

/-- A number made of a locator that was not there. -/
theorem isNew_ofLocator {l : Locator} (hl : l.refinements = 0)
    (h : exec (ofLocator l) rounds s = (.ok m, t)) : ∃ id, m.handles = [id] ∧ s.IsNew t id := by
  obtain ⟨id, t', halloc, h⟩ := exec_bind_eq_ok h
  cases h
  exact ⟨id, rfl, Store.isNew_allocate hl halloc⟩

/-- In another variable a number has a locator of its own, unless it is held as a rational. -/
theorem isNew_withVar (hn : n.isRational s = false) {y : Var}
    (h : exec (n.withVar y) rounds s = (.ok m, t)) : ∃ id, m.handles = [id] ∧ s.IsNew t id := by
  unfold withVar at h
  rw [exec_current_bind] at h
  unfold isRational at hn
  cases hform : n.form s with
  | rational q =>
    rw [hform] at hn
    cases hn
  | root id =>
    rw [hform, exec_get_bind] at h
    obtain ⟨result, t', hresult, h⟩ := exec_bind_eq_ok h
    cases h
    obtain ⟨id', hid', hnew⟩ := isNew_ofLocator rfl hresult
    exact ⟨id', hid', hnew⟩
  | thom e =>
    rw [hform] at h
    obtain ⟨w, t', hw, h⟩ := exec_bind_eq_ok h
    cases h
    exact ⟨w.locator, rfl, Thom.isNew_withVar hw⟩

/-- The absolute value of a located number shares the handle exactly if nothing has to be negated.
-/
theorem handles_abs_root (hs : s.Valid) (hden : n.Denotes s x) {id : LocatorId}
    (hform : n.form s = .root id) (h : exec n.abs rounds s = (.ok m, t)) :
    (0 < x → m.stored = n.stored) ∧ (x < 0 → ∃ id, m.handles = [id] ∧ s.IsNew t id) := by
  have hf := hden.form
  unfold abs at h
  rw [exec_current_bind, hform] at h
  rw [hform] at hf
  obtain ⟨b, u, hask, h⟩ := exec_bind_eq_ok h
  obtain ⟨hnar, -, hb, -⟩ := (avoidZero_exact hs hf.1 hf.2).safe rounds _ _ hask
  obtain ⟨rfl, hsign, -⟩ := hb b rfl
  by_cases hx : x = 0
  · exact ⟨fun hpos => absurd hx hpos.ne', fun hneg => absurd hx hneg.ne⟩
  · rw [if_pos (decide_eq_true hx), exec_get_bind] at h
    -- with zero outside, the interval shows the sign
    by_cases hpos : (u.get id).interval.isPositive = true
    · simp only [if_pos hpos] at h
      cases h
      exact ⟨fun _ => rfl, fun hneg => absurd hneg ((hsign hx).1 hpos).not_gt⟩
    · simp only [if_neg hpos] at h
      refine ⟨fun h0 => absurd ((hsign hx).2 h0) hpos, fun _ => ?_⟩
      obtain ⟨result, t', hresult, h⟩ := exec_bind_eq_ok h
      cases h
      obtain ⟨id', hid', hnew⟩ := isNew_ofLocator rfl hresult
      exact ⟨id', hid', hnew.mono hnar.size_le⟩

/-- The same for an encoding. -/
theorem handles_abs_thom (hs : s.Valid) (hden : n.Denotes s x) (hform : n.form s = .thom v)
    (h : exec n.abs rounds s = (.ok m, t)) :
    (0 < x → m.stored = n.stored) ∧ (x < 0 → ∃ id, m.handles = [id] ∧ s.IsNew t id) := by
  have hf := hden.form
  unfold abs at h
  rw [exec_current_bind, hform] at h
  rw [hform] at hf
  obtain ⟨o, u, hask, h⟩ := exec_bind_eq_ok h
  obtain ⟨hnar, -, ho, -⟩ := (Thom.sign_exact hs hf).safe rounds _ _ hask
  rw [ho o rfl] at h
  by_cases hneg : x < 0
  · rw [if_pos (Sign.ofReal_of_neg hneg)] at h
    refine ⟨fun h0 => absurd h0 hneg.not_gt, fun _ => ?_⟩
    obtain ⟨w, t', hw, h⟩ := exec_bind_eq_ok h
    cases h
    exact ⟨w.locator, rfl, (Thom.isNew_negate hw).mono hnar.size_le⟩
  · rw [if_neg fun heq => hneg (Sign.ofReal_eq_negative_iff.1 heq)] at h
    cases h
    exact ⟨fun _ => rfl, fun h0 => absurd h0 hneg⟩

/-- The absolute value of a positive number has its locator, and that of a negative one has a locator
of its own. -/
theorem handles_abs (hs : s.Valid) (hden : n.Denotes s x) (hn : n.isRational s = false)
    (h : exec n.abs rounds s = (.ok m, t)) : (0 < x → m.stored = n.stored) ∧
      (x < 0 → ∃ id, m.handles = [id] ∧ s.IsNew t id) := by
  cases hform : n.form s with
  | rational q =>
    rw [isRational, hform] at hn
    cases hn
  | root id => exact handles_abs_root hs hden hform h
  | thom v => exact handles_abs_thom hs hden hform h

end Number

end

/-! ## Along a run -/

/-- An operation on what is held leaves a valid store. -/
theorem Operation.perform_safe [Arithmetic.Lawful P] {s : Store} (hs : s.Valid) (o : Operation P)
    (h : o.operands.Denote s) : Safe o.perform s fun added t => added.Denote t := by
  have heffect : ∀ {α : Type} {action : RefineM α} {Q : α → Store → Prop}, Safe action s Q →
      Safe (do
        Question.effect action
        return ({} : Holdings)) s fun added t => added.Denote t := fun hsafe =>
    (Question.effect_safe hsafe).bind fun _ t _ hval _ =>
      Safe.pure hval (Holdings.denote_empty t)
  cases o with
  | request r => exact r.perform_safe hs h
  | compareLiterals l m =>
    obtain ⟨x, y, hx, hy⟩ := h.pair
    exact heffect (Literal.compare_exact hs hx hy).safe
  | equalLiterals l m =>
    obtain ⟨x, y, hx, hy⟩ := h.pair
    exact heffect (Literal.equal_exact hs hx hy).safe
  | literalKey l =>
    obtain ⟨x, hx⟩ := h.number
    exact heffect (Literal.key_exact hs hx).safe

namespace Session

/-- The client has in hand what the operation is about. -/
structure Permits (s : Session) (o : Operation P) : Prop where
  numbers : o.operands.numbers ⊆ s.held.numbers
  encodings : o.operands.encodings ⊆ s.held.encodings

/-- The session after one operation. -/
def carryOut (s : Session) (o : Operation P) (rounds : ℕ) : Session := s.after o.perform rounds

/-- Any number of operations of some kind, one after the other. -/
inductive Runs (kind : Operation P → Prop) : Session → Session → Prop
  | refl (s : Session) : Runs kind s s
  | step {s t : Session} (h : Runs kind s t) (o : Operation P) (rounds : ℕ) (ho : t.Permits o)
      (hkind : kind o) : Runs kind s (t.carryOut o rounds)

/-- What has handles of the given ones only is the same in a later session: the locators, the numbers
and encodings in hand, and the literals about numbers in hand. -/
structure KeepsAt (K : Set LocatorId) (s t : Session) : Prop where
  locators : ∀ id < s.store.locators.size, id ∈ K → t.store.get id = s.store.get id
  numbers : ∀ n ∈ s.held.numbers, (∀ id ∈ n.handles, id ∈ K) → n.Unchanged s.store t.store
  encodings : ∀ u ∈ s.held.encodings, u.locator ∈ K →
    t.store.get u.locator = s.store.get u.locator
  literals : ∀ l : Literal, l.value ∈ s.held.numbers → (∀ id ∈ l.value.handles, id ∈ K) →
    l.value.Unchanged s.store t.store ∧ l.text t.store = l.text s.store

variable {s t : Session} {o : Operation P} {kind : Operation P → Prop}

/-- The step lemma of soundness. -/
theorem Sound.carryOut [Arithmetic.Lawful P] (h : s.Sound) (ho : s.Permits o) (rounds : ℕ) :
    (s.carryOut o rounds).Sound ∧ s.Extends (s.carryOut o rounds) :=
  h.after (o.perform_safe h.valid (h.denote.of_subset ho.numbers ho.encodings)) rounds

/-- By induction on the run. -/
theorem Sound.runs [Arithmetic.Lawful P] (h : s.Sound) (hrun : Runs kind s t) : t.Sound := by
  induction hrun with
  | refl => exact h
  | step _ o rounds ho _ ih => exact (ih.carryOut ho rounds).1

theorem Runs.mono {kind' : Operation P → Prop} (hrun : Runs kind s t) (h : ∀ o, kind o → kind' o) :
    Runs kind' s t := by
  induction hrun with
  | refl => exact .refl s
  | step _ o rounds ho hkind ih => exact .step ih o rounds ho (h o hkind)

/-- What is in hand has its locators in the store. -/
theorem Sound.handle_lt (h : s.Sound) : ∀ id ∈ s.held.handles, id < s.store.locators.size := by
  intro id hid
  rcases List.mem_append.1 hid with hid | hid
  · obtain ⟨n, hn, hid⟩ := List.mem_flatMap.1 hid
    obtain ⟨x, hx⟩ := h.denote.numbers n hn
    exact hx.handle_lt id hid
  · obtain ⟨u, hu, rfl⟩ := List.mem_map.1 hid
    obtain ⟨x, hx⟩ := h.denote.encodings u hu
    exact hx.id_lt

/-- The step lemma: what is not in the footprint is not touched. -/
theorem frozen_carryOut (hK : ∀ id ∈ K, id < s.store.locators.size)
    (ho : ∀ id ∈ o.footprint, id ∉ K) (rounds : ℕ) :
    s.store.Frozen K (s.carryOut o rounds).store := by
  have hleaves := o.leaves_perform ho rounds s.store hK
  unfold carryOut after
  cases he : exec o.perform rounds s.store with
  | mk r t =>
    rw [he] at hleaves
    cases r with
    | ok added => exact hleaves
    | error e => exact hleaves

/-- Operations elsewhere change nothing, however many there are. -/
theorem frozen_runs (hK : ∀ id ∈ K, id < s.store.locators.size)
    (hrun : Runs (fun o : Operation P => ∀ id ∈ o.footprint, id ∉ K) s t) : s.store.Frozen K t.store := by
  induction hrun with
  | refl => exact .refl K s.store
  | step _ o rounds _ ho ih =>
    exact ih.trans (frozen_carryOut (fun id hid => (hK id hid).trans_le ih.size_le) ho rounds)

/-- What is in hand stays the same with its locators. -/
theorem Sound.keepsAt (h : s.Sound)
    (hget : ∀ id < s.store.locators.size, id ∈ K → t.store.get id = s.store.get id) :
    s.KeepsAt K t := by
  have hnumbers : ∀ n ∈ s.held.numbers, (∀ id ∈ n.handles, id ∈ K) →
      n.Unchanged s.store t.store := fun n hn hK =>
    Number.unchanged_of_get fun id hid =>
      hget id (h.handle_lt id (Holdings.mem_handles_of_number hn hid)) (hK id hid)
  refine ⟨hget, hnumbers, fun u hu hK => ?_, fun l hl hK => ?_⟩
  · exact hget _ (h.handle_lt _ (Holdings.mem_handles_of_encoding hu)) hK
  · have hvalue := hnumbers l.value hl hK
    exact ⟨hvalue, by rw [Literal.text, Literal.text, hvalue.text_eq]⟩

/-- The handles outside the footprint keep everything that is seen of them. -/
theorem Sound.keepsAt_carryOut (h : s.Sound) (o : Operation P) (rounds : ℕ) :
    s.KeepsAt {id | id ∉ o.footprint} (s.carryOut o rounds) := by
  have hfrozen : s.store.Frozen {id | id < s.store.locators.size ∧ id ∉ o.footprint}
      (s.carryOut o rounds).store :=
    frozen_carryOut (fun id hid => hid.1) (fun id hid hout => hout.2 hid) rounds
  exact h.keepsAt fun id hid hout => hfrozen.get_eq id ⟨hid, hout⟩

/-- By induction on the run, in which no operation has `K` in its footprint. -/
theorem Sound.keepsAt_runs (h : s.Sound)
    (hrun : Runs (fun o : Operation P => ∀ id ∈ o.footprint, id ∉ K) s t) : s.KeepsAt K t := by
  -- only handles that are there from the start can be frozen
  have hrun' : Runs (fun o : Operation P => ∀ id ∈ o.footprint,
      id ∉ {id | id < s.store.locators.size ∧ id ∈ K}) s t :=
    hrun.mono fun o ho id hid hmem => ho id hid hmem.2
  have hfrozen := frozen_runs (fun id hid => hid.1) hrun'
  exact h.keepsAt fun id hid hmem => hfrozen.get_eq id ⟨hid, hmem⟩

/-- Whatever a client has done so far, an operation changes only locators of its footprint, which its
operands hold; whatever in hand has other locators stays as it is, and so it does along any run of
such operations. Copies, the absolute value of a positive number, negated literals and the number of
an encoding share a locator with what they come from. Numbers in another variable, absolute values of
negative numbers, and encodings that are reflected or in another variable have a new locator that has
never been narrowed, and nothing in hand has that. -/
theorem frame_exact [Arithmetic.Lawful P] (hs : Runs (fun _ : Operation P => True) {} s) :
    (∀ (o : Operation P) (rounds : ℕ), s.Permits o → o.footprint ⊆ o.operands.handles ∧
      s.KeepsAt {id | id ∉ o.footprint} (s.carryOut o rounds)) ∧
    (∀ (K : Set LocatorId) (t : Session),
      Runs (fun o : Operation P => ∀ id ∈ o.footprint, id ∉ K) s t → s.KeepsAt K t) ∧
    (∀ n ∈ s.held.numbers, (∀ flag, n.Shares (n.withRootFlag flag)) ∧
      (∀ l : Literal, l.value = n → n.Shares l.negation.value) ∧
      ∀ {rounds m t x}, n.isRational s.store = false → n.Denotes s.store x → 0 < x →
        exec n.abs rounds s.store = (.ok m, t) → n.Shares m) ∧
    (∀ u ∈ s.held.encodings, (Number.ofThom u).handles = [u.locator] ∧
      ∀ t, (Number.ofThom u).thom? t = some u) ∧
    (∀ n ∈ s.held.numbers, n.isRational s.store = false → ∀ {rounds m t},
      ((∃ v, exec (n.withVar v) rounds s.store = (.ok m, t)) ∨
        (∃ x < 0, n.Denotes s.store x ∧ exec n.abs rounds s.store = (.ok m, t))) →
          ∃ id, m.handles = [id] ∧ s.store.IsNew t id) ∧
    (∀ u ∈ s.held.encodings, ∀ {rounds w t},
      (exec u.negate rounds s.store = (.ok w, t) ∨
        ∃ v, exec (u.withVar v) rounds s.store = (.ok w, t)) → s.store.IsNew t w.locator) ∧
    ∀ id ∈ s.held.handles, id < s.store.locators.size := by
  -- every handle of a sound session is allocated, so what is new is not among them
  have hsound := sound_empty.runs hs
  refine ⟨fun o rounds ho => ⟨o.footprint_subset, hsound.keepsAt_carryOut o rounds⟩,
    fun K t hrun => hsound.keepsAt_runs hrun,
    fun n hn => ⟨fun flag => ?_, fun l hl => ?_, fun {rounds m t x} hrat hx hpos h => ?_⟩,
    fun u _ => ⟨rfl, fun t => rfl⟩, fun n hn hrat {rounds m t} h => ?_,
    fun u hu {rounds w t} h => ?_, hsound.handle_lt⟩
  · exact Number.shares_of_stored rfl
  · exact Number.shares_of_stored (congrArg Number.stored hl)
  · exact Number.shares_of_stored ((Number.handles_abs hsound.valid hx hrat h).1 hpos)
  · rcases h with ⟨v, h⟩ | ⟨x, hneg, hx, h⟩
    · exact Number.isNew_withVar hrat h
    · exact (Number.handles_abs hsound.valid hx hrat h).2 hneg
  · rcases h with h | ⟨v, h⟩
    · exact Thom.isNew_negate h
    · exact Thom.isNew_withVar h

/-- Operations with polynomials whose exponents are machine words. -/
abbrev MachineOperation : Type := Operation (MvPoly.Machine .forward)

/-- A session with the square root of two, and with the same number in another variable. -/
def sqrtTwoTwice : Session :=
  carryOut (carryOut {}
    (.request (.ofInterval Locator.sqrtTwo.poly Locator.sqrtTwo.interval) : MachineOperation) 1)
    (.request (.withVar .sqrtTwo 3) : MachineOperation) 1

/-- The number with the second of the two locators. -/
def secondSqrtTwo : Number := { stored := .root 1 }

/-- Cutting the interval of the second number leaves the first one alone. -/
theorem frame_sqrtTwo :
    let cut : MachineOperation := .request (.ask (.refine secondSqrtTwo))
    Runs (fun _ : MachineOperation => True) {} sqrtTwoTwice ∧
      Runs (fun o : MachineOperation => ∀ id ∈ o.footprint, id ∉ ({0} : Set LocatorId)) sqrtTwoTwice
        (sqrtTwoTwice.carryOut cut 1) ∧
      Number.sqrtTwo.Unchanged sqrtTwoTwice.store (sqrtTwoTwice.carryOut cut 1).store := by
  intro cut
  have hheld : sqrtTwoTwice.held.numbers = [.sqrtTwo, secondSqrtTwo] := by
    decide +kernel
  have hbuild : Runs (fun _ : MachineOperation => True) {} sqrtTwoTwice := by
    refine .step (.step (.refl {}) _ 1 ⟨List.nil_subset _, List.nil_subset _⟩ trivial) _ 1
      ⟨?_, List.nil_subset _⟩ trivial
    decide +kernel
  have hcut : Runs (fun o : MachineOperation => ∀ id ∈ o.footprint, id ∉ ({0} : Set LocatorId))
      sqrtTwoTwice (sqrtTwoTwice.carryOut cut 1) := by
    refine .step (.refl _) _ 1 ⟨?_, List.nil_subset _⟩ fun id hid => ?_
    · rw [hheld]
      exact List.subset_cons_self _ _
    · rw [List.mem_singleton.1 hid]
      exact Nat.one_ne_zero
  refine ⟨hbuild, hcut, ((frame_exact hbuild).2.1 {0} _ hcut).numbers _ ?_ fun id hid => ?_⟩
  · rw [hheld]
    exact List.mem_cons_self
  · exact List.mem_singleton.1 hid

end Session

end AlgebraicReal
