import AlgebraicReal.Proofs.Point.Enclosure
import AlgebraicReal.Proofs.Isolator.Candidates
import AlgebraicReal.Proofs.Isolator.Errors
import AlgebraicReal.Proofs.Isolator.Frame

/-!
# Sign tests and isolation keep the store in order

Whatever an arithmetic makes of its polynomials, sign tests and isolation narrow the locators that
are there at most, they allocate locators that isolate a root each, and no request for an interval is
empty. All that is asked of the arithmetic is that its failures are its own (`Arithmetic.Lawful`), so
this holds of exponents that wrap around as well.
-/

namespace AlgebraicReal

open RefineM

/-- The operations fail for reasons of their own only: an elimination that goes on for too long or
overflows, and a polynomial that is not univariate. -/
class Arithmetic.Lawful (P : Type) [Arithmetic P] : Prop where
  eliminate_error : ∀ {p : P} {u : UniPoly} {e : Error}, eliminate p u = .error e →
    e = .exhausted ∨ e = .overflow
  toUniPoly_error : ∀ {p : P} {v : Var} {e : Error}, toUniPoly p v = .error e →
    ∃ w, e = .notUnivariate v w

instance : Arithmetic.Lawful MvPoly where
  eliminate_error h := nomatch h
  toUniPoly_error {p v e} h := by
    obtain ⟨w, rfl, -⟩ := MvPoly.toUniPoly_eq_error h
    exact ⟨w, rfl⟩

/-- A resultant in machine words is found, or a division on the way has not come to an end. -/
theorem MvPoly.eliminate_machine_eq {reading : MvPoly.Reading} {p : MvPoly.Machine reading}
    {u : UniPoly} {o : Except Error (MvPoly.Machine reading)} (h : Arithmetic.eliminate p u = o) :
    (∃ r, MvPoly.Raw.resultant reading p (.ofUniPoly u) u.var = some r ∧ o = .ok r) ∨
      o = .error .exhausted := by
  simp only [Arithmetic.eliminate] at h
  split at h
  next r hr => exact .inl ⟨r, hr, h.symm⟩
  next => exact .inr h.symm

/-- What the elimination answers is the resultant with the same variable. -/
theorem MvPoly.resultant_of_eliminate {reading : MvPoly.Reading} {p r : MvPoly.Machine reading}
    {u : UniPoly} (h : Arithmetic.eliminate p u = .ok r) :
    MvPoly.Raw.resultant reading p (.ofUniPoly u) u.var = some r := by
  obtain ⟨r', hr', heq⟩ | heq := eliminate_machine_eq h
  · cases heq
    exact hr'
  · cases heq

/-- In machine words an elimination never stops because of a sum of exponents. -/
theorem MvPoly.eliminate_machine_error {reading : MvPoly.Reading} {p : MvPoly.Machine reading}
    {u : UniPoly} {e : Error} (h : Arithmetic.eliminate p u = .error e) : e = .exhausted := by
  obtain ⟨r', -, heq⟩ | heq := eliminate_machine_eq h
  · cases heq
  · cases heq
    rfl

instance (reading : MvPoly.Reading) : Arithmetic.Lawful (MvPoly.Machine reading) where
  eliminate_error h := .inl (MvPoly.eliminate_machine_error h)
  toUniPoly_error {p v e} h := by
    change MvPoly.Raw.toUniPoly p v = .error e at h
    unfold MvPoly.Raw.toUniPoly at h
    split at h
    next w _ =>
      cases h
      exact ⟨w, rfl⟩
    next => cases h

/-! ## The zero polynomial

An arithmetic may take a polynomial for another one than zero that is zero as a dense polynomial. It
has no candidates. -/

namespace UniPoly

variable {u : UniPoly}

theorem isZero_normalized (h : u.isZero = true) : u.normalized.isZero = true := by
  rw [← toPolynomial_eq_zero_iff] at h ⊢
  rw [toPolynomial_normalized, h, mul_zero]

theorem isConstant_of_isZero (h : u.isZero = true) : u.isConstant = true := by
  rw [isConstant_iff_natDegree, toPolynomial_eq_zero_iff.2 h, Polynomial.natDegree_zero]

theorem isZero_squareFree (h : u.isZero = true) : u.squareFree.isZero = true := by
  unfold squareFree
  rw [if_pos (isConstant_of_isZero h)]
  exact isZero_normalized h

/-- The zero polynomial has no interval to start from. -/
theorem isolateRoots?_of_isZero (h : u.isZero = true) (rounds : ℕ) (splitAtZero : Bool) :
    u.isolateRoots? rounds splitAtZero = some [] :=
  if_pos (isConstant_of_isZero (isZero_squareFree h))

end UniPoly

variable {P : Type} [Arithmetic P] {s t : Store}

/-! ## At a point -/

namespace AlgebraicPoint

variable {point : AlgebraicPoint}

/-- The coordinates have locators in the store. -/
def Held (s : Store) (point : AlgebraicPoint) : Prop := ∀ c ∈ point, c.2 < s.locators.size

/-- Handles stay valid in a later store. -/
theorem Held.narrowed (h : point.Held s) (hn : s.Narrowed t) : point.Held t :=
  fun c hc => (h c hc).trans_le hn.size_le

/-- The coordinates that occur are some of the coordinates. -/
theorem Held.involved (h : point.Held s) (g : P) : (point.involved g).Held s :=
  fun c hc => h c (List.mem_filter.1 hc).1

/-- A coordinate more, with a valid handle. -/
theorem Held.append (h : point.Held s) {v : Var} {id : LocatorId} (hid : id < s.locators.size) :
    Held s (point ++ [(v, id)]) := by
  intro c hc
  rcases List.mem_append.1 hc with hc | hc
  · exact h c hc
  · rwa [List.mem_singleton.1 hc]

/-- By induction on the rounds. Every round leaves a store of isolating intervals, so the next one
finds one. -/
theorem safe_signLoop (g : P) (radius : Option Rat) : ∀ (k : ℕ) {s : Store}, s.Valid →
    point.Held s → Safe (point.signLoop g radius k) s fun _ _ => True
  | 0, _, hs, _ => Safe.throw hs nofun nofun
  | k + 1, s, hs, hp => by
    rw [signLoop]
    refine Safe.get_bind ?_
    split
    next => exact Safe.pure hs trivial
    next =>
      split
      next => exact Safe.pure hs trivial
      next =>
        exact (refineAll_safe hs hp).bind fun _ t hnar hval _ =>
          safe_signLoop g radius k hval (hp.narrowed hnar)

section

variable [Arithmetic.Lawful P] {e : Error} {g : P}

/-- Only the arithmetic fails, and the cut off search. -/
theorem eliminate_error {h : P} (he : eliminate s point h = .error e) :
    e = .exhausted ∨ e = .overflow :=
  eliminate_reports (fun _ _ _ => Arithmetic.Lawful.eliminate_error) he

theorem eliminant_error {h : P} (he : eliminant s point h = .error e) :
    e = .exhausted ∨ e = .overflow :=
  eliminant_reports (fun _ _ _ => Arithmetic.Lawful.eliminate_error) he

/-- A polynomial other than zero has a Sturm chain, so only the halving can give up. -/
theorem zeroFreeRadius_error {rounds : ℕ} {u : UniPoly} (hu : ¬u.isZero = true)
    (h : zeroFreeRadius rounds u = .error e) : e = .exhausted := by
  obtain ⟨r, N, -, hrun⟩ := exists_zeroFreeRadius hu
  rw [hrun] at h
  split at h <;> cases h
  rfl

/-- The annihilator may be zero, and then there is no radius; that is not an error. -/
theorem radius_error {rounds : ℕ} (h : point.radius rounds s g = .error e) :
    e = .exhausted ∨ e = .overflow := by
  cases ha : point.annihilator s g with
  | error e' =>
    unfold radius at h
    rw [ha] at h
    cases h
    exact eliminate_error ha
  | ok a =>
    rw [radius_of_annihilator ha] at h
    split at h
    next u _ =>
      split at h
      next => cases h
      next hu => exact .inl (zeroFreeRadius_error hu h)
    next => cases h

theorem safe_signByEnclosure (hs : s.Valid) (hp : point.Held s) :
    Safe (point.signByEnclosure g) s fun _ _ => True := by
  refine (Safe.count hs _).bind fun _ t hnar hval _ => Safe.read_bind fun rounds =>
    Safe.get_bind ?_
  refine (Safe.ofExcept (Q := fun _ t' => t' = t) hval (fun _ _ => rfl) fun e he => ?_).bind
    fun r t' hnar' hval' _ => Safe.read_bind fun n =>
      safe_signLoop g r n hval' (hp.narrowed (hnar.trans hnar'))
  rcases radius_error he with rfl | rfl <;> exact ⟨nofun, nofun⟩

theorem safe_sign (hs : s.Valid) (hp : point.Held s) :
    Safe (point.sign g) s fun _ _ => True := by
  unfold sign
  split
  next => exact Safe.pure hs trivial
  next =>
    refine (Safe.count hs _).bind fun _ t hnar hval _ => ?_
    have hinv := (hp.involved g).narrowed hnar
    split
    next v id heq =>
      rw [heq] at hinv
      split
      next u _ =>
        obtain ⟨x, hx⟩ := hval id (hinv _ List.mem_cons_self)
        exact (Exact.sign hval (hinv _ List.mem_cons_self) hx u).safe.mono fun _ _ _ _ _ => trivial
      next => exact safe_signByEnclosure hval hinv
    next => exact safe_signByEnclosure hval hinv

/-- By induction on the coefficients: each sign leaves a valid store. -/
theorem safe_effectiveDegree : ∀ (cs : List P) {s : Store}, s.Valid → point.Held s →
    Safe (point.effectiveDegree cs) s fun _ _ => True
  | [], _, hs, _ => Safe.pure hs trivial
  | c :: cs, s, hs, hp => by
    rw [effectiveDegree]
    refine (safe_sign hs hp).bind fun o t hnar hval _ => ?_
    split
    next => exact safe_effectiveDegree cs hval (hp.narrowed hnar)
    next => exact Safe.pure hval trivial

/-- Zero tests that may tell anything and need not come to an end. -/
theorem Held.zeroTests (hp : point.Held s) (p : P) (v : Var) (e : UniPoly) :
    ZeroTests False False s point p v e fun _ => True where
  rational hn ht _ := by
    refine ⟨?_, nofun⟩
    unfold vanishesAt
    split
    next => exact Safe.pure ht nofun
    next =>
      exact (safe_sign ht (hp.narrowed hn)).bind fun _ _ _ hval _ => Safe.pure hval nofun
  root hn ht hid _ _ := by
    refine ⟨?_, nofun⟩
    unfold vanishesAtRoot
    split
    next => exact Safe.pure ht nofun
    next =>
      exact (safe_sign ht ((hp.narrowed hn).append hid)).bind fun _ _ _ hval _ =>
        Safe.pure hval nofun

/-- The numbers that are found stand for reals. -/
theorem safe_roots (config : IsolationConfig) (hs : s.Valid) (hp : point.Held s) (p : P) (v : Var) :
    Safe (point.roots config p v) s fun o t => ∀ ns, o = some ns →
      ∃ xs, List.Forall₂ (fun n x => n.Denotes t x) ns xs := by
  unfold roots
  refine Safe.get_bind ((Safe.ofExcept (Q := fun _ _ => True) hs (fun _ _ => trivial)
    fun e he => ?_).bind fun r t hnar hval _ => ?_)
  · rcases eliminant_error he with rfl | rfl <;> exact ⟨nofun, nofun⟩
  dsimp only
  refine (Safe.count hval _).bind fun _ t' hnar' hval' _ => ?_
  have hpt := hp.narrowed (hnar.trans hnar')
  split
  next => exact Safe.pure hval' nofun
  next =>
    refine (Safe.ofExcept (Q := fun _ _ => True) hval' (fun _ _ => trivial) fun e he => ?_).bind
      fun u w hnar'' hval'' _ => ?_
    · obtain ⟨x, rfl⟩ := Arithmetic.Lawful.toUniPoly_error he
      exact ⟨nofun, nofun⟩
    -- a zero eliminant has no candidates, and no locator is made
    by_cases hu : u.isZero = true
    · have hz : (isolated config u).isZero = true := by
        unfold isolated
        split
        next => exact UniPoly.isZero_squareFree hu
        next => exact UniPoly.isZero_normalized hu
      refine Safe.read_bind fun rounds => ?_
      rw [show (if config.squareFree then u.squareFree else u.normalized) = isolated config u
        from rfl, UniPoly.isolateRoots?_of_isZero hz]
      refine (Safe.count hval'' _).bind fun _ t₂ _ hval₂ _ => Safe.pure hval₂ fun ns hns => ?_
      cases hns
      exact ⟨[], .nil⟩
    · refine (isolate_exactIf config hu ((hpt.narrowed hnar'').zeroTests p v _)
        hval'').safe.mono fun o _ _ _ ho ns hns => (ho ns hns).1

end

end AlgebraicPoint

/-! ## Under an assignment -/

/-- A number that denotes a real has a valid handle. -/
theorem Number.Denotes.handle_lt {n : Number} {x : ℝ} (h : n.Denotes s x) :
    ∀ id ∈ n.handles, id < s.locators.size := by
  unfold Number.Denotes at h
  unfold Number.handles
  cases hstored : n.stored with
  | rational q => exact fun id hid => absurd hid List.not_mem_nil
  | root id' =>
    rw [hstored] at h
    intro id hid
    rw [List.mem_singleton.1 hid]
    exact h.1
  | thom u =>
    rw [hstored] at h
    intro id hid
    rw [List.mem_singleton.1 hid]
    exact h.id_lt

/-- What is looked up is among the values. -/
theorem Assignment.mem_of_lookup {values : Assignment} {v : Var} {n : Number}
    (h : values.lookup v = some n) : n ∈ values.map (·.2) := by
  obtain ⟨l, l', heq, -⟩ := List.lookup_eq_some_iff.1 h
  rw [heq, List.map_append]
  exact List.mem_append_right _ List.mem_cons_self

/-- The values that the listed variables have stand for reals. -/
def Assignment.Valued (s : Store) (values : Assignment) (vs : List Var) : Prop :=
  ∀ w ∈ vs, ∀ n, values.lookup w = some n → ∃ x, n.Denotes s x

namespace Assignment

variable {values : Assignment} {vs : List Var}

/-- Values that all denote a real. -/
theorem valued_of_forall (h : ∀ n ∈ values.map (·.2), ∃ x, n.Denotes s x) (vs : List Var) :
    values.Valued s vs := fun _ _ n hn => h n (mem_of_lookup hn)

/-- The reals stay the same while the store is narrowed. -/
theorem Valued.narrowed (h : values.Valued s vs) (hs : s.Valid) (hn : s.Narrowed t) :
    values.Valued t vs := fun w hw n hlookup => by
  obtain ⟨x, hx⟩ := h w hw n hlookup
  exact ⟨x, hx.narrowed hs hn⟩

theorem Valued.handle_lt (h : values.Valued s vs) : ∀ id ∈ values.handles vs,
    id < s.locators.size := by
  intro id hid
  obtain ⟨v, hv, hmem⟩ := List.mem_flatMap.1 hid
  cases hlookup : values.lookup v with
  | none =>
    rw [hlookup] at hmem
    cases hmem
  | some n =>
    rw [hlookup] at hmem
    obtain ⟨x, hx⟩ := h v hv n hlookup
    exact hx.handle_lt id hmem

end Assignment

/-- Only a missing value is an obstacle to putting values in. -/
theorem PartialValue.substitute_error {values : Assignment} {e : Error} : ∀ {vs : List Var}
    {value : PartialValue P}, substitute s values vs value = .error e → ∃ v, e = .unassigned v
  | [], _, h => nomatch h
  | v :: vs, value, h => by
    rw [substitute] at h
    split at h
    next =>
      cases h
      exact ⟨v, rfl⟩
    next => split at h <;> exact substitute_error h

variable {p : P} {v : Var} {values : Assignment}

/-- The point that is left has valid handles, whatever goes on from it. -/
theorem PartialValue.safe_of_bind {β : Type} {except : List Var} {f : PartialValue P → RefineM β}
    {Q : β → Store → Prop} (hs : s.Valid) (h : values.Valued s (Arithmetic.vars p))
    (hf : ∀ value : PartialValue P, value.point.Held s → Safe (f value) s Q) :
    Safe (RefineM.ofExcept (PartialValue.of s values p except) >>= f) s Q := by
  cases hof : PartialValue.of s values p except with
  | error e =>
    obtain ⟨w, rfl⟩ := substitute_error hof
    exact (Safe.throw (e := .unassigned w) (Q := fun _ _ => False) hs nofun nofun).bind
      fun _ _ _ _ hfalse => hfalse.elim
  | ok value =>
    refine hf value fun c hc => ?_
    have hlisted : values.Valued s ((Arithmetic.vars p).filter (· ∉ except)) := fun w hw =>
      h w (List.mem_filter.1 hw).1
    exact hlisted.handle_lt _
      ((mem_handles_of_substitute hof c hc).resolve_left List.not_mem_nil)

variable [Arithmetic.Lawful P]

theorem Arithmetic.safe_signUnder (hs : s.Valid) {g : P} (h : values.Valued s (vars g)) :
    Safe (signUnder g values) s fun _ _ => True :=
  Safe.get_bind (PartialValue.safe_of_bind hs h fun _ hp => AlgebraicPoint.safe_sign hs hp)

/-- Every root that is found denotes a real. -/
theorem Arithmetic.safe_rootsUnder (config : IsolationConfig) (hs : s.Valid)
    (h : values.Valued s (vars p)) :
    Safe (rootsUnder config p v values) s fun o t => ∀ ns, o = some ns →
      ∃ xs, List.Forall₂ (fun n x => n.Denotes t x) ns xs := by
  unfold rootsUnder
  refine (Safe.count hs _).bind fun _ t hnar hval _ => Safe.get_bind ?_
  refine PartialValue.safe_of_bind hval (h.narrowed hs hnar) fun value hp => ?_
  refine (AlgebraicPoint.safe_effectiveDegree _ hval hp).bind fun o u hnar' hval' _ => ?_
  split
  next => exact Safe.pure hval' nofun
  next =>
    refine Safe.pure hval' fun ns hns => ?_
    cases hns
    exact ⟨[], .nil⟩
  next => exact AlgebraicPoint.safe_roots config hval' (hp.narrowed hnar') _ v

section

variable (iso : Isolator) (hs : s.Valid)
include hs

/-- No interval is empty, whatever becomes of the exponents. -/
theorem Isolator.safe_isolate (h : values.Valued s (Arithmetic.vars p)) :
    Safe (iso.isolate p v values) s fun o t =>
      (∀ ns, o.1 = .ok (some ns) → ∃ xs, List.Forall₂ (fun n x => n.Denotes t x) ns xs) ∧
        ∀ e, o.1 = .error e → e ≠ .emptyOpen ∧ e ≠ .emptyClosed := by
  have hroots := Arithmetic.safe_rootsUnder (p := p) (v := v)
    (s := { s with tally := iso.tally }) iso.config hs (h.narrowed hs (narrowed_tally s iso.tally))
  refine (hroots.metered fun o t u hval hn ho ns hns => ?_).bind fun r t _ hval hr =>
    Safe.pure hval ⟨fun ns hns => hr.1 _ hns ns rfl, hr.2⟩
  obtain ⟨xs, hxs⟩ := ho ns hns
  exact ⟨xs, Number.forall₂_narrowed hval hn hxs⟩

theorem Isolator.safe_signUnder {g : P} (h : values.Valued s (Arithmetic.vars g)) :
    Safe (iso.signUnder g values) s fun o _ =>
      ∀ e, o.1 = .error e → e ≠ .emptyOpen ∧ e ≠ .emptyClosed := by
  have hsign := Arithmetic.safe_signUnder (g := g) (s := { s with tally := iso.tally }) hs
    (h.narrowed hs (narrowed_tally s iso.tally))
  exact (hsign.metered fun _ _ _ _ _ _ => trivial).bind fun r t _ hval hr => Safe.pure hval hr.2

end

end AlgebraicReal
