import AlgebraicReal.Proofs.MvPoly.Variables

/-!
# The lexicographic order

The comparison of monomials is the lexicographic order of the exponents, where the smaller variable
is the more significant one (`Monomial.compare_lt_iff`). So the first term of a polynomial is the
leading term (`MvPoly.degree_of_cons`), and the division of monomials is the subtraction of
exponents.
-/

open MvPolynomial

namespace AlgebraicReal

/-- Variables are ordered by their numbers. -/
local instance Var.linearOrder : LinearOrder Var where
  le_refl := UInt32.le_refl
  le_trans _ _ _ := UInt32.le_trans
  le_antisymm _ _ := UInt32.le_antisymm
  le_total := UInt32.le_total
  lt_iff_le_not_ge v w := by
    rw [UInt32.not_le]
    exact ⟨fun h => ⟨UInt32.le_of_lt h, h⟩, And.right⟩
  toDecidableLE := inferInstance
  toDecidableLT := inferInstance
  toDecidableEq := inferInstance

/-- The lexicographic order on exponents. -/
noncomputable abbrev lexOrder : MonomialOrder Var := MonomialOrder.lex

/-- The first difference decides. -/
theorem toSyn_lt_of_first_difference {e f : Var →₀ ℕ} {v : Var} (hbelow : ∀ u, u < v → e u = f u)
    (hv : e v < f v) : lexOrder.toSyn e < lexOrder.toSyn f :=
  MonomialOrder.lex_lt_iff.2 (Finsupp.Lex.lt_iff.2 ⟨v, hbelow, hv⟩)

/-! ## Comparing lists of powers -/

theorem exponents_cons_of_ne {v w : Var} {k : ℕ} {rest : List (Var × ℕ)} (h : v ≠ w) :
    exponents ((w, k) :: rest) v = exponents rest v := by
  show (Finsupp.single w k + exponents rest) v = _
  rw [Finsupp.add_apply, Finsupp.single_eq_of_ne h, zero_add]

/-- Below the first variable of a list there are no exponents. -/
theorem exponents_eq_zero_of_lt {v : Var} : ∀ {l : List (Var × ℕ)}, (∀ a ∈ l, v < a.1) →
    exponents l v = 0
  | [], _ => rfl
  | (w, k) :: rest, h => by
    rw [List.forall_mem_cons] at h
    rw [exponents_cons_of_ne (UInt32.ne_of_lt h.1), exponents_eq_zero_of_lt h.2]

theorem exponents_cons_self {v : Var} {k : ℕ} {rest : List (Var × ℕ)} (h : ∀ a ∈ rest, v < a.1) :
    exponents ((v, k) :: rest) v = k := by
  show (Finsupp.single v k + exponents rest) v = k
  rw [Finsupp.add_apply, Finsupp.single_eq_same, exponents_eq_zero_of_lt h, add_zero]

/-- A power of a variable above all of one list makes the other list larger. -/
theorem toSyn_lt_cons {w : Var} {k : ℕ} {l r : List (Var × ℕ)} (hl : ∀ a ∈ l, w < a.1)
    (hr : ∀ a ∈ r, w < a.1) (hk : 0 < k) :
    lexOrder.toSyn (exponents l) < lexOrder.toSyn (exponents ((w, k) :: r)) := by
  refine toSyn_lt_of_first_difference (v := w) (fun u hu => ?_) ?_
  · rw [exponents_eq_zero_of_lt fun a ha => UInt32.lt_trans hu (hl a ha), exponents_eq_zero_of_lt]
    exact List.forall_mem_cons.2 ⟨hu, fun a ha => UInt32.lt_trans hu (hr a ha)⟩
  · rw [exponents_cons_self hr, exponents_eq_zero_of_lt hl]
    exact hk

/-- Of two powers of the first variable the larger one decides. -/
theorem toSyn_cons_lt_cons {v : Var} {j k : ℕ} {l r : List (Var × ℕ)} (hl : ∀ a ∈ l, v < a.1)
    (hr : ∀ a ∈ r, v < a.1) (hjk : j < k) :
    lexOrder.toSyn (exponents ((v, j) :: l)) < lexOrder.toSyn (exponents ((v, k) :: r)) := by
  refine toSyn_lt_of_first_difference (v := v) (fun u hu => ?_) ?_
  · rw [exponents_eq_zero_of_lt, exponents_eq_zero_of_lt]
    · exact List.forall_mem_cons.2 ⟨hu, fun a ha => UInt32.lt_trans hu (hr a ha)⟩
    · exact List.forall_mem_cons.2 ⟨hu, fun a ha => UInt32.lt_trans hu (hl a ha)⟩
  · rw [exponents_cons_self hl, exponents_cons_self hr]
    exact hjk

/-- The lists stand side by side with their exponents; the first difference decides. -/
theorem toSyn_lt_of_compareLex_lt : ∀ {l r : List (Var × ℕ)}, l.Pairwise (fun a b => a.1 < b.1) →
    r.Pairwise (fun a b => a.1 < b.1) → (∀ a ∈ r, 0 < a.2) → Monomial.compareLex l r = .lt →
      lexOrder.toSyn (exponents l) < lexOrder.toSyn (exponents r)
  | [], [], _, _, _, h => by cases h
  | _ :: _, [], _, _, _, h => by cases h
  | [], (w, k) :: r, _, hr, hpos, _ =>
    toSyn_lt_cons nofun (List.pairwise_cons.1 hr).1 (hpos _ List.mem_cons_self)
  | (v, j) :: l, (w, k) :: r, hl, hr, hpos, h => by
    obtain ⟨hv, hl'⟩ := List.pairwise_cons.1 hl
    obtain ⟨hw, hr'⟩ := List.pairwise_cons.1 hr
    obtain ⟨hk, hpos'⟩ := List.forall_mem_cons.1 hpos
    unfold Monomial.compareLex at h
    split at h
    next hwv =>
      refine toSyn_lt_cons ?_ hw hk
      exact List.forall_mem_cons.2 ⟨hwv, fun a ha => UInt32.lt_trans hwv (hv a ha)⟩
    next hwv =>
      split at h
      next => cases h
      next hvw =>
        obtain rfl : v = w := le_antisymm (not_lt.1 hwv) (not_lt.1 hvw)
        split at h
        next hjk => exact toSyn_cons_lt_cons hv hw hjk
        next hjk =>
          split at h
          next => cases h
          next hkj =>
            -- the heads are the same, and the tails decide
            obtain rfl : j = k := le_antisymm (not_lt.1 hkj) (not_lt.1 hjk)
            have ih : lexOrder.toSyn (exponents l) < lexOrder.toSyn (exponents r) :=
              toSyn_lt_of_compareLex_lt hl' hr' hpos' h
            show lexOrder.toSyn (Finsupp.single v j + exponents l)
              < lexOrder.toSyn (Finsupp.single v j + exponents r)
            rw [map_add, map_add]
            exact add_lt_add_right ih _

namespace Monomial

variable {m n c : Monomial}

theorem toSyn_lt_of_compare_lt (h : m.compare n = .lt) :
    lexOrder.toSyn m.toExponents < lexOrder.toSyn n.toExponents :=
  toSyn_lt_of_compareLex_lt m.sorted n.sorted n.positive h

/-- The comparison of monomials is the lexicographic order of their exponents. -/
theorem compare_lt_iff : m.compare n = .lt ↔
    lexOrder.toSyn m.toExponents < lexOrder.toSyn n.toExponents := by
  refine ⟨toSyn_lt_of_compare_lt, fun h => ?_⟩
  cases hc : m.compare n with
  | lt => rfl
  | eq => exact absurd (eq_of_compare_eq hc ▸ h) (lt_irrefl _)
  | gt =>
    have hnm : n.compare m = .lt := by
      rw [← compare_swap, hc]
      rfl
    exact absurd (toSyn_lt_of_compare_lt hnm) h.asymm

theorem compare_gt_iff : m.compare n = .gt ↔
    lexOrder.toSyn n.toExponents < lexOrder.toSyn m.toExponents := by
  rw [← compare_lt_iff, ← compare_swap m n]
  cases m.compare n <;> decide

/-! ## Division of monomials -/

theorem exponents_map_sub (g : Var → ℕ) (v : Var) : ∀ {l : List (Var × ℕ)},
    l.Pairwise (fun a b => a.1 < b.1) →
      exponents (l.map fun a => (a.1, a.2 - g a.1)) v = exponents l v - g v
  | [], _ => (Nat.zero_sub _).symm
  | (w, j) :: rest, h => by
    obtain ⟨hw, hrest⟩ := List.pairwise_cons.1 h
    by_cases hvw : v = w
    · subst hvw
      have htail : ∀ a ∈ rest.map fun a => (a.1, a.2 - g a.1), v < a.1 := List.forall_mem_map.2 hw
      exact (exponents_cons_self htail).trans (congrArg (· - g v) (exponents_cons_self hw).symm)
    · rw [List.map_cons, exponents_cons_of_ne hvw, exponents_cons_of_ne hvw,
        exponents_map_sub g v hrest]

theorem all_powers_le_iff :
    (n.powers.all fun a => a.2 ≤ m.degree a.1) = true ↔ n.toExponents ≤ m.toExponents := by
  rw [List.all_eq_true, Finsupp.le_def]
  constructor
  · intro h v
    rcases Nat.eq_zero_or_pos (n.toExponents v) with h0 | hpos
    · rw [h0]
      exact Nat.zero_le _
    · have hv := of_decide_eq_true (h _ (mem_powers_iff.2 ⟨hpos, rfl⟩))
      rwa [← toExponents_apply] at hv
  · rintro h ⟨v, k⟩ ha
    obtain ⟨-, rfl⟩ := mem_powers_iff.1 ha
    rw [decide_eq_true_iff, ← toExponents_apply]
    exact h v

/-- The quotient of two monomials is the one whose product with the divisor is the dividend. -/
theorem div?_eq_some_iff : m.div? n = some c ↔ n.mul c = m := by
  -- truncated subtraction is subtraction where every power is large enough
  have hquot : n.toExponents ≤ m.toExponents →
      n.mul (ofPowers (m.powers.map fun a => (a.1, a.2 - n.degree a.1))) = m := by
    intro h
    refine toExponents_injective ?_
    rw [toExponents_mul, toExponents_ofPowers]
    ext v
    rw [Finsupp.add_apply, exponents_map_sub _ _ m.sorted, ← toExponents_apply]
    exact Nat.add_sub_of_le (h v)
  unfold div?
  constructor
  · intro h
    split at h
    next hle =>
      rw [← Option.some.inj h]
      exact hquot (all_powers_le_iff.1 hle)
    next => cases h
  · intro h
    have hle : n.toExponents ≤ m.toExponents := by
      rw [← h, toExponents_mul]
      exact le_self_add
    rw [if_pos (all_powers_le_iff.2 hle), Option.some_inj]
    refine toExponents_injective (add_left_cancel (a := n.toExponents) ?_)
    rw [← toExponents_mul, ← toExponents_mul, h, hquot hle]

theorem div?_eq_none_iff : m.div? n = none ↔ ¬n.toExponents ≤ m.toExponents := by
  rw [← all_powers_le_iff, div?]
  split
  next h => exact iff_of_false nofun (not_not.2 h)
  next h => exact iff_of_true rfl h

end Monomial

/-! ## Leading terms -/

namespace MvPoly

variable {p : MvPoly} {t : Term} {rest : List Term}

/-- The first term has the leading monomial. -/
theorem degree_of_cons (h : p.terms = t :: rest) :
    lexOrder.degree p.toPolynomial = t.monomial.toExponents := by
  have ht : t ∈ p.terms := h ▸ List.mem_cons_self
  refine lexOrder.toSyn.injective (le_antisymm ?_ ?_)
  · refine MonomialOrder.degree_le_iff.2 fun e he => ?_
    obtain ⟨u, hu, rfl⟩ := mem_support_iff.1 he
    rw [h] at hu
    rcases List.mem_cons.1 hu with rfl | hu
    · exact le_rfl
    · exact (Monomial.compare_gt_iff.1 ((List.pairwise_cons.1 (h ▸ p.sorted)).1 u hu)).le
  · exact MonomialOrder.le_degree (mem_support_iff.2 ⟨t, ht, rfl⟩)

theorem leadingCoeff_of_cons (h : p.terms = t :: rest) :
    lexOrder.leadingCoeff p.toPolynomial = t.coeff := by
  rw [MonomialOrder.leadingCoeff, degree_of_cons h,
    coeff_toPolynomial_of_mem (h ▸ List.mem_cons_self)]

end MvPoly

/-- Where two polynomials have the leading term in common, it cancels. -/
theorem lt_degree_of_mem_support_sub {f g : MvPolynomial Var ℚ}
    (hdegree : lexOrder.degree g = lexOrder.degree f)
    (hcoeff : lexOrder.leadingCoeff g = lexOrder.leadingCoeff f) {e : Var →₀ ℕ}
    (he : e ∈ (f - g).support) : lexOrder.toSyn e < lexOrder.toSyn (lexOrder.degree f) := by
  refine lt_of_le_of_ne ?_ fun h => ?_
  · rcases Finset.mem_union.1 (support_sub _ f g he) with he | he
    · exact lexOrder.le_degree he
    · exact hdegree ▸ lexOrder.le_degree he
  · rw [MvPolynomial.mem_support_iff, lexOrder.toSyn.injective h, coeff_sub] at he
    refine he (sub_eq_zero.2 ?_)
    rw [MonomialOrder.leadingCoeff, MonomialOrder.leadingCoeff, hdegree] at hcoeff
    exact hcoeff.symm

end AlgebraicReal
