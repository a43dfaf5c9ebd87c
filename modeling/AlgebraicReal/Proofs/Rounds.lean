import AlgebraicReal.Proofs.Store
import AlgebraicReal.Point

/-!
# More rounds

The rounds that a caller allows decide only whether a search is cut off. A search that comes to an
end comes to the same end with more of them, and so does a computation that is made of such searches
(`RefineM.Steady`): it leaves the same store with the same answer or the same error. Hence a
computation that settles on an answer has no other answer, and no error but the one that says that
the rounds are used up.
-/

namespace AlgebraicReal

/-! ## Searches -/

variable {m n : ℕ}

/-- A bisection that has come to an end is not changed by more rounds. -/
theorem UniPoly.bisect_of_le {p : UniPoly} {chain : List UniPoly} {a b : ℚ} (hmn : m ≤ n)
    (h : a < b) {is : List Interval} (he : bisect p chain m a b h = some is) :
    bisect p chain n a b h = some is := by
  induction n, hmn using Nat.le_induction with
  | base => exact he
  | succ n _ ih => exact bisect_succ h ih

theorem UniPoly.isolateRoots?_of_le {p : UniPoly} {splitAtZero : Bool} (hmn : m ≤ n)
    {is : List Interval} (he : p.isolateRoots? m splitAtZero = some is) :
    p.isolateRoots? n splitAtZero = some is := by
  unfold isolateRoots? at he ⊢
  simp only at he ⊢
  split at he
  next hc =>
    rw [if_pos hc]
    exact he
  next hc =>
    rw [if_neg hc]
    split at he
    next hz =>
      rw [if_pos hz]
      obtain ⟨left, hl, he⟩ := Option.bind_eq_some_iff.1 he
      obtain ⟨right, hr, he⟩ := Option.bind_eq_some_iff.1 he
      refine Option.bind_eq_some_iff.2 ⟨left, bisect_of_le hmn _ hl, ?_⟩
      exact Option.bind_eq_some_iff.2 ⟨right, bisect_of_le hmn _ hr, he⟩
    next hz =>
      rw [if_neg hz]
      exact bisect_of_le hmn _ he

/-- Both searches make the same steps until the shorter one ends. -/
theorem Locator.signLoop_of_le {q : UniPoly} {chain : List UniPoly} :
    ∀ {m n : ℕ} {l : Locator}, m ≤ n → signLoop q chain m l ≠ .error .exhausted →
      signLoop q chain n l = signLoop q chain m l
  | 0, _, _, _, h => absurd rfl h
  | m + 1, 0, _, hmn, _ => absurd hmn (Nat.not_succ_le_zero m)
  | m + 1, n + 1, l, hmn, h => by
    rw [signLoop] at h ⊢
    rw [signLoop]
    cases hp : l.point? with
    | some v => rfl
    | none =>
      rw [hp] at h
      simp only at h ⊢
      split at h
      next hz => rw [if_pos hz, if_pos hz]
      next hz =>
        rw [if_neg hz, if_neg hz]
        cases hl : l.refine with
        | error e => rfl
        | ok l' =>
          rw [hl] at h
          exact signLoop_of_le (Nat.le_of_succ_le_succ hmn) h

/-- The sign that was found stays. -/
theorem Locator.sign_of_le {l : Locator} {q : UniPoly} (hmn : m ≤ n)
    (h : l.sign m q ≠ .error .exhausted) : l.sign n q = l.sign m q := by
  unfold sign at h ⊢
  cases hp : l.point? with
  | some v => rfl
  | none =>
    rw [hp] at h
    simp only at h ⊢
    split at h
    next hr => rw [if_pos hr, if_pos hr]
    next hr =>
      rw [if_neg hr, if_neg hr]
      exact signLoop_of_le hmn h

namespace AlgebraicPoint

/-- By induction on the rounds: the halvings are the same ones. -/
theorem shrinkRadius_of_le {chain : List UniPoly} : ∀ {m n : ℕ} {r : ℚ}, m ≤ n →
    shrinkRadius chain m r ≠ .error .exhausted →
      shrinkRadius chain n r = shrinkRadius chain m r
  | 0, _, _, _, h => absurd rfl h
  | m + 1, 0, _, hmn, _ => absurd hmn (Nat.not_succ_le_zero m)
  | m + 1, n + 1, r, hmn, h => by
    rw [shrinkRadius] at h ⊢
    rw [shrinkRadius]
    cases hi : Interval.closed? (-r) r with
    | none => rfl
    | some i =>
      rw [hi] at h
      simp only at h ⊢
      split at h
      next hz => rw [if_pos hz, if_pos hz]
      next hz =>
        rw [if_neg hz, if_neg hz]
        exact shrinkRadius_of_le (Nat.le_of_succ_le_succ hmn) h

theorem zeroFreeRadius_of_le {u : UniPoly} (hmn : m ≤ n)
    (h : zeroFreeRadius m u ≠ .error .exhausted) : zeroFreeRadius n u = zeroFreeRadius m u := by
  unfold zeroFreeRadius at h ⊢
  split at h
  next hc => rw [if_pos hc, if_pos hc]
  next hc =>
    rw [if_neg hc, if_neg hc]
    dsimp only at h ⊢
    rw [shrinkRadius_of_le hmn]
    intro he
    rw [he] at h
    exact h rfl

variable {P : Type} [Arithmetic P] {s : Store} {point : AlgebraicPoint} {g : P}

/-- The annihilator does not depend on the rounds. -/
theorem radius_of_le (hmn : m ≤ n) (h : point.radius m s g ≠ .error .exhausted) :
    point.radius n s g = point.radius m s g := by
  cases ha : point.annihilator s g with
  | error e =>
    unfold radius
    rw [ha]
    rfl
  | ok a =>
    rw [radius_of_annihilator ha] at h ⊢
    rw [radius_of_annihilator ha]
    split
    next u hu =>
      rw [hu] at h
      simp only at h
      split at h
      next hz => rw [if_pos hz, if_pos hz]
      next hz =>
        rw [if_neg hz, if_neg hz]
        exact zeroFreeRadius_of_le hmn h
    next => rfl

end AlgebraicPoint

/-! ## Computations -/

namespace RefineM

variable {α β : Type} {x y : RefineM α} {f g : α → RefineM β}

/-- With `n` rounds `y` comes to the end to which `x` comes with `m`, unless `x` is cut off. -/
def Continues (m n : ℕ) (x y : RefineM α) : Prop :=
  ∀ s, (exec x m s).1 ≠ .error .exhausted → exec y n s = exec x m s

theorem Continues.pure (a : α) : Continues m n (pure a : RefineM α) (pure a) := fun _ _ => rfl

theorem Continues.throw (e : Error) : Continues m n (throw e : RefineM α) (throw e) :=
  fun _ _ => rfl

/-- Where the first part gives up there is nothing to show; else the second one goes on from the
same store. -/
theorem Continues.bind (hx : Continues m n x y) (hf : ∀ a, Continues m n (f a) (g a)) :
    Continues m n (x >>= f) (y >>= g) := by
  intro s h
  have hfirst := hx s
  rw [exec_bind] at h
  rw [exec_bind, exec_bind]
  cases he : exec x m s with
  | mk o t =>
    rw [he] at h hfirst
    cases o with
    | error e =>
      rw [hfirst fun heq => h (congrArg Except.error (Except.error.inj heq))]
    | ok a =>
      rw [hfirst nofun]
      exact hf a t h

theorem Continues.get_bind {f g : Store → RefineM β} (h : ∀ s, Continues m n (f s) (g s)) :
    Continues m n (get >>= f) (get >>= g) := fun s => h s s

/-- The two computations read different numbers of rounds. -/
theorem Continues.read_bind {f g : ℕ → RefineM β} (h : Continues m n (f m) (g n)) :
    Continues m n (read >>= f) (read >>= g) := h

/-- A result that does not depend on the rounds unless it gives up. -/
theorem Continues.ofExcept {r r' : Except Error α} (h : r ≠ .error .exhausted → r' = r) :
    Continues m n (ofExcept r) (ofExcept r') := by
  intro s hs
  rw [exec_ofExcept] at hs
  rw [exec_ofExcept, exec_ofExcept, h hs]

theorem Continues.count (change : Tally → Tally) : Continues m n (count change) (count change) :=
  fun _ _ => rfl

theorem Continues.allocate (l : Locator) : Continues m n (allocate l) (allocate l) :=
  fun _ _ => rfl

/-- A question whose answer does not change unless it gives up. -/
theorem Continues.ask {id : LocatorId} {q q' : Locator → Except Error (α × Locator)}
    (h : ∀ l, q l ≠ .error .exhausted → q' l = q l) : Continues m n (ask id q) (ask id q') :=
  .get_bind fun _ => (Continues.ofExcept (h _)).bind fun _ => fun _ _ => rfl

theorem Continues.narrow {id : LocatorId} (step : Locator → Except Error Locator) :
    Continues m n (narrow id step) (narrow id step) := .ask fun _ _ => rfl

/-- By induction on the list. -/
theorem Continues.forM {γ : Type} {h : γ → RefineM PUnit} :
    ∀ {cs : List γ}, (∀ c ∈ cs, Continues m n (h c) (h c)) → Continues m n (cs.forM h) (cs.forM h)
  | [], _ => .pure _
  | c :: cs, hall => by
    rw [List.forall_mem_cons] at hall
    exact hall.1.bind fun _ => Continues.forM hall.2

/-- More rounds change nothing in a computation that is not cut off. -/
def Steady (action : RefineM α) : Prop :=
  ∀ ⦃m n : ℕ⦄, m ≤ n → Continues m n action action

/-- Where a computation settles, its only error is that the rounds are used up. -/
theorem Steady.eq_exhausted {s t : Store} {Q : α → Store → Prop} (h : Steady x)
    (hs : Settles x s Q) {rounds : ℕ} {e : Error} (he : exec x rounds s = (.error e, t)) :
    e = .exhausted := by
  by_contra hne
  obtain ⟨a, u, N, -, -, -, hN⟩ := hs
  have hmore := h (Nat.le_max_left rounds N) s
  rw [he, hN _ (Nat.le_max_right rounds N)] at hmore
  have hsame := hmore fun heq => hne (Except.error.inj heq)
  cases hsame

end RefineM

end AlgebraicReal
