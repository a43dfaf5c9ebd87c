import AlgebraicReal.Proofs.Frame
import AlgebraicReal.Proofs.Locator.Integers
import AlgebraicReal.Proofs.Number.Basic

/-!
# Narrowing a number

What a narrowing step does to a locator it does to the locator of a number, whether the number is
held as a root or as an encoding (`narrow_exact`). So a refinement halves the spread of a number, and
settling its integers leaves none inside; then the lower end of the interval has the integer part of
the number, and only an exact number is an integer.
-/

namespace AlgebraicReal

namespace Number

open RefineM

variable {s t : Store} {n : Number} {x : ℝ}

/-- A step that every locator allows. What it does to a locator that is exact it need not do, since
an exact locator is not narrowed. -/
theorem narrow_exact (hs : s.Valid) (h : n.Denotes s x) {step : Locator → Except Error Locator}
    {P : Locator → Locator → Prop}
    (hstep : ∀ {l : Locator} {y : ℝ}, l.Locates y →
      ∃ l' k, step l = .ok l' ∧ Locator.Narrows k l l' ∧ P l l')
    (hpoint : ∀ {l : Locator} {q : ℚ}, l.point? = some q → P l l) :
    Exact (n.narrow step) s fun _ t => ∀ id ∈ n.handles, P (s.get id) (t.get id) := by
  have hnarrow : ∀ {id : LocatorId}, id < s.locators.size → (s.get id).Locates x →
      Exact (RefineM.narrow id step) s fun _ t => P (s.get id) (t.get id) := by
    intro id hid hx
    obtain ⟨l, k, he, hnar, hP⟩ := hstep hx
    exact Exact.narrow (P := P (s.get id)) hs hid ⟨l, k, he, hnar, hP⟩
  refine Exact.form_bind ?_
  unfold Denotes at h
  unfold handles Number.form
  -- a rational has no locator, and a locator that is a point is left as it is
  cases hstored : n.stored with
  | rational q => exact Exact.pure hs fun id hid => absurd hid List.not_mem_nil
  | root id =>
    rw [hstored] at h
    simp only
    cases hp : (s.get id).point? with
    | some q =>
      refine Exact.pure hs fun i hi => ?_
      rw [List.mem_singleton.1 hi]
      exact hpoint hp
    | none =>
      refine (hnarrow h.1 h.2).mono fun _ t _ _ hP i hi => ?_
      rw [List.mem_singleton.1 hi]
      exact hP
  | thom u =>
    rw [hstored] at h
    refine (hnarrow h.id_lt h.locates).mono fun _ t _ _ hP i hi => ?_
    rw [List.mem_singleton.1 hi]
    exact hP

/-! ## Refining -/

/-- The spread of the locator of a form; a rational has none. -/
def spread (s : Store) (n : Number) : ℚ :=
  match n.stored with
  | .rational _ => 0
  | .root id => (s.get id).spread
  | .thom t => (s.get t.locator).spread

theorem refine_exact (hs : s.Valid) (h : n.Denotes s x) :
    Exact n.refine s fun _ t => n.spread t ≤ n.spread s / 2 := by
  have hnarrow : Exact n.refine s fun _ t =>
      ∀ id ∈ n.handles, (t.get id).spread ≤ (s.get id).spread / 2 :=
    narrow_exact (P := fun l l' => l'.spread ≤ l.spread / 2) hs h
      (fun hl => by
        obtain ⟨l', k, he, hnar⟩ := hl.refine_eq
        exact ⟨l', k, he, hnar, hl.spread_refine he⟩)
      fun hp => by rw [Locator.spread_of_point hp, zero_div]
  refine hnarrow.mono fun _ t _ _ hhalf => ?_
  unfold handles at hhalf
  unfold spread
  cases hstored : n.stored with
  | rational q => exact (zero_div 2).ge
  | root id =>
    rw [hstored] at hhalf
    exact hhalf id List.mem_cons_self
  | thom u =>
    rw [hstored] at hhalf
    exact hhalf u.locator List.mem_cons_self

/-- Whatever is narrowed, the spread does not grow. -/
theorem Denotes.spread_le (h : n.Denotes s x) (hn : s.Narrowed t) :
    n.spread t ≤ n.spread s := by
  unfold Denotes at h
  unfold spread
  cases hstored : n.stored with
  | rational q => exact le_rfl
  | root id =>
    rw [hstored] at h
    obtain ⟨k, hnar⟩ := hn.narrows id h.1
    exact hnar.spread_le h.2
  | thom u =>
    rw [hstored] at h
    obtain ⟨k, hnar⟩ := hn.narrows u.locator h.id_lt
    exact hnar.spread_le h.locates

/-! ## Integers -/

theorem settleIntegers_exact (hs : s.Valid) (h : n.Denotes s x) :
    Exact n.settleIntegers s fun _ t => ∀ id ∈ n.handles, (t.get id).interval.IntegersSettled :=
  narrow_exact (P := fun _ l => l.interval.IntegersSettled) hs h (fun hl => hl.settleIntegers_eq)
    fun hp => .inl (Option.isSome_iff_exists.2 ⟨_, hp⟩)

/-- An operation that settles the integers and then looks at the simplified form. -/
theorem Exact.settled_bind {β : Type} {f : Form → RefineM β} {R : β → Store → Prop} (hs : s.Valid)
    (h : n.Denotes s x) (hf : ∀ (g : Form) (t : Store), t.Valid → g.Denotes t x →
      (∀ id ∈ g.handles, (t.get id).interval.IntegersSettled) → Exact (f g) t R) :
    Exact (do
      n.settleIntegers
      f (← n.current)) s R := by
  refine (settleIntegers_exact hs h).bind fun _ t hnar hval hsettled => ?_
  exact Exact.form_bind (hf (n.form t) t hval (h.narrowed hs hnar).form fun id hid =>
    hsettled id (handles_form_subset t n hid))

theorem floor_exact (hs : s.Valid) (h : n.Denotes s x) :
    Exact n.floor s fun q _ => q = ⌊x⌋ := by
  refine Exact.settled_bind hs h fun g t hval hg hsettled => ?_
  cases g with
  | rational q =>
    refine Exact.pure hval ?_
    rw [show x = q from hg, Rat.floor_cast]
    rfl
  | root id =>
    refine Exact.get_bind (Exact.pure hval ?_)
    rw [hg.2.floor_lo (hsettled id List.mem_cons_self)]
  | thom u =>
    refine Exact.get_bind (Exact.pure hval ?_)
    rw [hg.locates.floor_lo (hsettled u.locator List.mem_cons_self)]

/-- All later states find one integer part. -/
theorem answers_floor_iff (hs : s.Valid) (h : n.Denotes s x) {q : ℚ} :
    Answers s n.floor q ↔ q = ⌊x⌋ :=
  answers_iff hs fun _ hnar hval => floor_exact hval (h.narrowed hs hnar)

theorem isIntegral_exact (hs : s.Valid) (h : n.Denotes s x) :
    Exact n.isIntegral s fun b _ => b = true ↔ ∃ k : ℤ, x = k := by
  refine Exact.settled_bind hs h fun g t hval hg hsettled => ?_
  cases g with
  | rational q =>
    refine Exact.pure hval ?_
    rw [show x = q from hg]
    exact Rational.isInteger_iff
  | root id =>
    exact Exact.get_bind (Exact.pure hval
      (hg.2.isIntegral_iff (hsettled id List.mem_cons_self)))
  | thom u =>
    exact Exact.get_bind (Exact.pure hval
      (hg.locates.isIntegral_iff (hsettled u.locator List.mem_cons_self)))

end Number

end AlgebraicReal
