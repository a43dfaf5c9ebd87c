import AlgebraicReal.Literal
import AlgebraicReal.Proofs.Number.Narrowing
import AlgebraicReal.Proofs.Number.Order

/-!
# Literals

The order of literals is that of the variables, the reals and the negations, one after the other, and
literals are equal if all three agree. The key of a literal has the integer part of its value, which
equal numbers have in common in all states of the store. So literals that are equal, or that compare
as equal, have one and the same key, whatever else differs between the two values.
-/

namespace AlgebraicReal

open RefineM

namespace Literal

variable {s : Store} {a b : Literal} {x y : ℝ}

/-- Literals are ordered by variable, value and negation. -/
theorem compare_exact (hs : s.Valid) (ha : a.value.Denotes s x) (hb : b.value.Denotes s y) :
    Exact (a.compare b) s fun o _ =>
      o = (Ord.compare a.var b.var).then ((cmp x y).then (Ord.compare a.negated b.negated)) := by
  unfold compare
  cases hvar : Ord.compare a.var b.var with
  | eq =>
    refine (Number.compare_exact hs ha hb).bind fun o t _ hval ho => Exact.pure hval ?_
    rw [ho]
    rfl
  | lt | gt => exact Exact.pure hs rfl

/-- Literals are equal if variable, value and negation are. -/
theorem equal_exact (hs : s.Valid) (ha : a.value.Denotes s x) (hb : b.value.Denotes s y) :
    Exact (a.equal b) s fun r _ => r = true ↔ a.var = b.var ∧ x = y ∧ a.negated = b.negated := by
  unfold equal
  split
  next hvar =>
    refine (Number.equal_exact hs ha hb).bind fun r t _ hval hr => Exact.pure hval ?_
    rw [Bool.and_eq_true, hr, decide_eq_true_iff]
    exact (and_iff_right hvar).symm
  next hvar => exact Exact.pure hs (iff_of_false Bool.false_ne_true fun h => hvar h.1)

theorem key_exact (hs : s.Valid) (ha : a.value.Denotes s x) :
    Exact a.key s fun k _ => k = (a.var, (⌊x⌋ : ℚ), a.negated) :=
  (Number.floor_exact hs ha).bind fun q t _ hval hq => Exact.pure hval (by rw [hq])

/-- Only literals that agree in variable, value and negation compare as equal. -/
theorem compare_eq_eq_iff :
    (Ord.compare a.var b.var).then ((cmp x y).then (Ord.compare a.negated b.negated)) = .eq ↔
      a.var = b.var ∧ x = y ∧ a.negated = b.negated := by
  rw [Ordering.then_eq_eq, Ordering.then_eq_eq, cmp_eq_eq_iff, Std.LawfulEqOrd.compare_eq_iff_eq,
    Std.LawfulEqOrd.compare_eq_iff_eq]

theorem answers_equal_iff (hs : s.Valid) (ha : a.value.Denotes s x) (hb : b.value.Denotes s y) :
    Answers s (a.equal b) true ↔ a.var = b.var ∧ x = y ∧ a.negated = b.negated :=
  answers_true_iff hs fun _ hnar hval =>
    equal_exact hval (ha.narrowed hs hnar) (hb.narrowed hs hnar)

/-- Two literals that some later state finds equal agree. -/
theorem agree_of_answers (hs : s.Valid) (ha : a.value.Denotes s x) (hb : b.value.Denotes s y)
    (h : Answers s (a.equal b) true ∨ Answers s (a.compare b) .eq) :
    a.var = b.var ∧ x = y ∧ a.negated = b.negated := by
  rcases h with h | h
  · exact (answers_equal_iff hs ha hb).1 h
  · exact compare_eq_eq_iff.1 (h.sound fun t hnar hval =>
      compare_exact hval (ha.narrowed hs hnar) (hb.narrowed hs hnar)).symm

theorem answers_key_iff (hs : s.Valid) (ha : a.value.Denotes s x) {k : Var × Rat × Bool} :
    Answers s a.key k ↔ k = (a.var, (⌊x⌋ : ℚ), a.negated) :=
  answers_iff hs fun _ hnar hval => key_exact hval (ha.narrowed hs hnar)

/-- In all forms and in all later states the integer part is found, integers are recognized, and
settling the integers leaves a point or an open interval without integers. So numbers that are found
equal have one integer part, now and later, and literals that are found equal have one key. -/
theorem integerPart_consistent (hs : s.Valid) (ha : a.value.Denotes s x)
    (hb : b.value.Denotes s y) :
    (∀ t, s.Narrowed t → t.Valid →
      Exact a.value.floor t (fun q _ => q = ⌊x⌋) ∧
      Exact a.value.isIntegral t (fun r _ => r = true ↔ ∃ k : ℤ, x = k) ∧
      Exact a.value.settleIntegers t fun _ u =>
        ∀ id ∈ a.value.handles, (u.get id).interval.IntegersSettled) ∧
    ((Answers s (a.value.equal b.value) true ∨ Answers s (a.value.compare b.value) .eq) →
      ∃ q, ∀ p, (Answers s a.value.floor p ↔ p = q) ∧ (Answers s b.value.floor p ↔ p = q)) ∧
    ((Answers s (a.equal b) true ∨ Answers s (a.compare b) .eq) →
      ∃ k, ∀ l, (Answers s a.key l ↔ l = k) ∧ (Answers s b.key l ↔ l = k)) := by
  refine ⟨fun t hnar hval => ?_, fun h => ?_, fun h => ?_⟩
  · have hat := ha.narrowed hs hnar
    exact ⟨Number.floor_exact hval hat, Number.isIntegral_exact hval hat,
      Number.settleIntegers_exact hval hat⟩
  · have hxy := Number.eq_of_answers hs ha hb h
    refine ⟨⌊x⌋, fun p => ⟨Number.answers_floor_iff hs ha, ?_⟩⟩
    rw [hxy]
    exact Number.answers_floor_iff hs hb
  · obtain ⟨hvar, hxy, hneg⟩ := agree_of_answers hs ha hb h
    refine ⟨(a.var, (⌊x⌋ : ℚ), a.negated), fun l => ⟨answers_key_iff hs ha, ?_⟩⟩
    rw [hvar, hxy, hneg]
    exact answers_key_iff hs hb

/-- The integer part of the square root of two is one, and a copy without the root flag has the key of
the original. -/
theorem integerPart_sqrtTwo :
    Exact Number.sqrtTwo.floor .sqrtTwo (fun q _ => q = 1) ∧
    ∃ k, Answers .sqrtTwo (mk 3 Number.sqrtTwo true).key k ∧
      Answers .sqrtTwo (mk 3 (Number.sqrtTwo.withRootFlag false) true).key k := by
  have hcopy : (Number.sqrtTwo.withRootFlag false).Denotes .sqrtTwo √2 := Number.denotes_sqrtTwo
  obtain ⟨hexact, -, hkey⟩ := integerPart_consistent (a := mk 3 Number.sqrtTwo true)
    (b := mk 3 (Number.sqrtTwo.withRootFlag false) true) Store.valid_sqrtTwo
    Number.denotes_sqrtTwo hcopy
  constructor
  · refine ((hexact _ (.refl _) Store.valid_sqrtTwo).1).mono fun q _ _ _ hq => ?_
    have hfloor : ⌊√2⌋ = 1 := by
      rw [Int.floor_eq_iff, Int.cast_one]
      exact ⟨Real.one_lt_sqrt_two.le, by linarith [Real.sqrt_two_lt_three_halves]⟩
    rw [hq, hfloor, Int.cast_one]
  · have hequal := (answers_equal_iff (a := mk 3 Number.sqrtTwo true)
      (b := mk 3 (Number.sqrtTwo.withRootFlag false) true) Store.valid_sqrtTwo
      Number.denotes_sqrtTwo hcopy).2 ⟨rfl, rfl, rfl⟩
    obtain ⟨k, hk⟩ := hkey (.inl hequal)
    exact ⟨k, (hk k).1.2 rfl, (hk k).2.2 rfl⟩

end Literal

end AlgebraicReal
