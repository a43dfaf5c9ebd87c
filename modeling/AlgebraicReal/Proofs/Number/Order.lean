import AlgebraicReal.Proofs.Number.Basic
import AlgebraicReal.Number.Order

/-!
# The order of numbers

Any two numbers of a valid store are compared as the reals they denote, in whatever forms they are
held and whether or not they share a locator. The comparison of rationals, roots and encodings in
pairs comes down to the comparison of two locators and to Thom's lemma.
-/

namespace AlgebraicReal

open RefineM

variable {s t : Store} {x y : ℝ}

theorem Form.compareRational_exact (hs : s.Valid) {f : Form} (h : f.Denotes s x) (q : ℚ) :
    Exact (f.compareRational q) s fun o _ => o = cmp x q := by
  cases f with
  | rational v => exact Exact.pure hs (by rw [show x = v from h, Rational.compare_eq_cmp])
  | root id =>
    obtain ⟨l, n, he, hnar⟩ := h.2.compareRational_eq q
    show Exact (RefineM.ask id (·.compareRational q)) s fun o _ => o = cmp x q
    exact Exact.ask (P := fun o _ => o = _) hs h.1 ⟨_, l, n, he, hnar, rfl⟩
  | thom t => exact Thom.compareRational_exact hs h q

namespace Number

variable {m n : Number}

/-- Comparisons of numbers are exact in all pairs of forms. -/
theorem compare_exact (hs : s.Valid) (hm : m.Denotes s x) (hn : n.Denotes s y) :
    Exact (m.compare n) s fun o _ => o = cmp x y := by
  refine Exact.current_bind hm fun f hf => Exact.current_bind hn fun g hg => ?_
  -- a rational on the left is compared from the right
  have hswap : ∀ (q : ℚ) (g : Form), x = q → g.Denotes s y →
      Exact (do return (← g.compareRational q).swap) s fun o _ => o = cmp x y :=
    fun q g hx hg => (Form.compareRational_exact hs hg q).bind fun o t _ hval ho =>
      Exact.pure hval (by rw [ho, cmp_swap, hx])
  cases g with
  | rational q =>
    rw [show y = q from hg]
    cases f <;> exact Form.compareRational_exact hs hf q
  | root b =>
    cases f with
    | rational q => exact hswap q (.root b) hf hg
    | root a => exact Exact.compare hs hf.2 hg.2
    | thom t => exact Exact.compare hs hf.locates hg.2
  | thom u =>
    cases f with
    | rational q => exact hswap q (.thom u) hf hg
    | root a => exact Exact.compare hs hf.2 hg.locates
    | thom t => exact Thom.compare_exact hs hf hg

theorem checkOrder_exact (hs : s.Valid) (hm : m.Denotes s x) (hn : n.Denotes s y) :
    Exact (m.checkOrder n) s fun r _ => (r.1 = true ↔ x = y) ∧ (r.2 = true ↔ x < y) :=
  (compare_exact hs hm hn).bind fun o t _ hval ho => Exact.pure hval (by
    rw [ho, decide_eq_true_iff, decide_eq_true_iff, cmp_eq_eq_iff, cmp_eq_lt_iff]
    exact ⟨Iff.rfl, Iff.rfl⟩)

theorem equal_exact (hs : s.Valid) (hm : m.Denotes s x) (hn : n.Denotes s y) :
    Exact (m.equal n) s fun b _ => b = true ↔ x = y :=
  (checkOrder_exact hs hm hn).bind fun _ _ _ hval hr => Exact.pure hval hr.1

theorem less_exact (hs : s.Valid) (hm : m.Denotes s x) (hn : n.Denotes s y) :
    Exact (m.less n) s fun b _ => b = true ↔ x < y :=
  (checkOrder_exact hs hm hn).bind fun _ _ _ hval hr => Exact.pure hval hr.2

/-! ## The order is total -/

/-- The answers to comparisons of two numbers of a store, in any later state of it. -/
def Orders (s : Store) (m n : Number) (o : Ordering) : Prop :=
  ∃ t rounds u, s.Narrowed t ∧ t.Valid ∧ exec (m.compare n) rounds t = (.ok o, u)

/-- There is one answer, whatever has been narrowed in between. -/
theorem orders_iff (hs : s.Valid) (hm : m.Denotes s x) (hn : n.Denotes s y) {o : Ordering} :
    Orders s m n o ↔ o = cmp x y :=
  answers_iff hs fun _ hnar hval => compare_exact hval (hm.narrowed hs hnar) (hn.narrowed hs hnar)

/-- Numbers that some later state finds equal denote one real. -/
theorem eq_of_answers (hs : s.Valid) (hm : m.Denotes s x) (hn : n.Denotes s y)
    (h : Answers s (m.equal n) true ∨ Answers s (m.compare n) .eq) : x = y := by
  rcases h with h | h
  · exact (answers_true_iff hs fun _ hnar hval =>
      equal_exact hval (hm.narrowed hs hnar) (hn.narrowed hs hnar)).1 h
  · exact (cmp_eq_eq_iff x y).1 ((orders_iff hs hm hn).1 h).symm

/-- Numbers are compared as the reals they denote, in all forms and in all later states, and the
tests for equality and for strict order agree with the comparison. Therefore it is a total order. -/
theorem compare_total (hs : s.Valid) {k : Number} {z : ℝ} (hm : m.Denotes s x) (hn : n.Denotes s y)
    (hk : k.Denotes s z) :
    (∀ t, s.Narrowed t → t.Valid →
      Exact (m.compare n) t (fun o _ => o = cmp x y) ∧
      Exact (m.checkOrder n) t (fun r _ => (r.1 = true ↔ x = y) ∧ (r.2 = true ↔ x < y)) ∧
      Exact (m.equal n) t (fun b _ => b = true ↔ x = y) ∧
      Exact (m.less n) t (fun b _ => b = true ↔ x < y)) ∧
    (∀ o, Orders s m m o ↔ o = .eq) ∧
    (∀ o, Orders s m n o ↔ Orders s n m o.swap) ∧
    (∀ o o', Orders s m n o → Orders s n m o' → o ≠ .gt → o' ≠ .gt → o = .eq) ∧
    ∀ o o' o'', Orders s m n o → Orders s n k o' → Orders s m k o'' → o ≠ .gt → o' ≠ .gt →
      o'' ≠ .gt := by
  refine ⟨fun t hnar hval => ?_, fun o => ?_, fun o => ?_, fun o o' ho ho' hle hge => ?_,
    fun o o' o'' ho ho' ho'' hle hle' => ?_⟩
  · have hmt := hm.narrowed hs hnar
    have hnt := hn.narrowed hs hnar
    exact ⟨compare_exact hval hmt hnt, checkOrder_exact hval hmt hnt, equal_exact hval hmt hnt,
      less_exact hval hmt hnt⟩
  · -- a recorded answer is the order of the two reals, and the laws are those of the reals
    rw [orders_iff hs hm hm, cmp_self_eq_eq]
  · rw [orders_iff hs hm hn, orders_iff hs hn hm, ← cmp_swap x y]
    exact Ordering.swap_inj.symm
  · rw [orders_iff hs hm hn] at ho
    rw [orders_iff hs hn hm] at ho'
    rw [ho, ne_eq, cmp_eq_gt_iff, not_lt] at hle
    rw [ho', ne_eq, cmp_eq_gt_iff, not_lt] at hge
    rw [ho, cmp_eq_eq_iff]
    exact le_antisymm hle hge
  · rw [orders_iff hs hm hn] at ho
    rw [orders_iff hs hn hk] at ho'
    rw [orders_iff hs hm hk] at ho''
    rw [ho, ne_eq, cmp_eq_gt_iff, not_lt] at hle
    rw [ho', ne_eq, cmp_eq_gt_iff, not_lt] at hle'
    rw [ho'', ne_eq, cmp_eq_gt_iff, not_lt]
    exact hle.trans hle'

/-- One is less than the square root of two, whose copies are equal. -/
theorem compare_sqrtTwo : Exact ((ofRational 1).compare sqrtTwo) .sqrtTwo (fun o _ => o = .lt) ∧
    Orders .sqrtTwo sqrtTwo (sqrtTwo.withRootFlag false) .eq := by
  have hone := denotes_ofRational .sqrtTwo 1
  have hflag : (sqrtTwo.withRootFlag false).Denotes .sqrtTwo √2 := denotes_sqrtTwo
  obtain ⟨hexact, -⟩ := compare_total Store.valid_sqrtTwo hone denotes_sqrtTwo hflag
  have hlt : ((1 : ℚ) : ℝ) < √2 := by
    rw [Rat.cast_one]
    exact (Real.lt_sqrt zero_le_one).2 (by norm_num)
  refine ⟨((hexact _ (.refl _) Store.valid_sqrtTwo).1).mono fun o _ _ _ ho => ?_, ?_⟩
  · rw [ho, (cmp_eq_lt_iff _ _).2 hlt]
  · exact (orders_iff Store.valid_sqrtTwo denotes_sqrtTwo hflag).2 (cmp_self_eq_eq √2).symm

end Number

end AlgebraicReal
