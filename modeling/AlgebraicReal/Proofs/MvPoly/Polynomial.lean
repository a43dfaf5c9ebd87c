import Mathlib
import AlgebraicReal.MvPoly.Basic

/-!
# Sparse polynomials as elements of the polynomial ring

`MvPoly.toPolynomial` reads a sparse polynomial as an element of `MvPolynomial Var ℚ`. The reading
is faithful, because a polynomial has one list of terms, and it turns the operations on term lists
into those of the ring.
-/

open MvPolynomial

namespace AlgebraicReal

/-! ## Exponents -/

/-- The exponents of a list of powers, added up where a variable is repeated. -/
noncomputable def exponents : List (Var × ℕ) → Var →₀ ℕ
  | [] => 0
  | (v, k) :: rest => Finsupp.single v k + exponents rest

namespace Monomial

/-- The exponents of a monomial. -/
noncomputable def toExponents (m : Monomial) : Var →₀ ℕ := exponents m.powers

/-- A power is inserted at its place, or added to the one that is there. -/
theorem exponents_insertPower (v : Var) (k : ℕ) : ∀ l : List (Var × ℕ),
    exponents (insertPower v k l) = Finsupp.single v k + exponents l
  | [] => rfl
  | (w, j) :: rest => by
    unfold insertPower
    split
    next => rfl
    next =>
      split
      next h =>
        subst h
        show Finsupp.single v (j + k) + exponents rest = _
        rw [Finsupp.single_add, add_assoc, add_left_comm]
        rfl
      next =>
        show Finsupp.single w j + exponents (insertPower v k rest) = _
        rw [exponents_insertPower v k rest, add_left_comm]
        rfl

@[simp] theorem toExponents_unit : unit.toExponents = 0 := rfl

@[simp] theorem toExponents_timesPower (m : Monomial) (v : Var) (k : ℕ) :
    (m.timesPower v k).toExponents = Finsupp.single v k + m.toExponents := by
  unfold timesPower
  split
  next h => rw [h, Finsupp.single_zero, zero_add]
  next h => exact exponents_insertPower v k m.powers

@[simp] theorem toExponents_power (v : Var) (k : ℕ) :
    (power v k).toExponents = Finsupp.single v k := by
  rw [power, toExponents_timesPower, toExponents_unit, add_zero]

/-- The exponents do not depend on the order in which the powers are given. -/
theorem toExponents_ofPowers : ∀ l : List (Var × ℕ), (ofPowers l).toExponents = exponents l
  | [] => rfl
  | a :: l => by
    show ((ofPowers l).timesPower a.1 a.2).toExponents = _
    rw [toExponents_timesPower, toExponents_ofPowers l]
    rfl

/-- Multiplication is addition of exponents. -/
@[simp] theorem toExponents_mul (m n : Monomial) :
    (m.mul n).toExponents = m.toExponents + n.toExponents := by
  have h : ∀ l : List (Var × ℕ), (l.foldr (fun a k => k.timesPower a.1 a.2) n).toExponents
      = exponents l + n.toExponents := by
    intro l
    induction l with
    | nil => exact (zero_add _).symm
    | cons a l ih =>
      rw [List.foldr_cons, toExponents_timesPower, ih, ← add_assoc]
      rfl
  exact h m.powers

/-- A sorted list holds an exponent of its own for each variable in it. -/
theorem exponents_apply {v : Var} : ∀ {l : List (Var × ℕ)}, l.Pairwise (fun a b => a.1 < b.1) →
    exponents l v = (l.lookup v).getD 0
  | [], _ => rfl
  | (w, j) :: rest, h => by
    obtain ⟨hw, hrest⟩ := List.pairwise_cons.1 h
    show (Finsupp.single w j + exponents rest) v = _
    rw [Finsupp.add_apply, exponents_apply hrest, List.lookup_cons]
    by_cases hvw : v = w
    · subst hvw
      have hnone : rest.lookup v = none := by
        rw [List.lookup_eq_none_iff]
        intro a ha
        rw [bne_iff_ne]
        exact UInt32.ne_of_lt (hw a ha)
      rw [Finsupp.single_eq_same, hnone, beq_self_eq_true]
      rfl
    · rw [Finsupp.single_eq_of_ne hvw, beq_false_of_ne hvw, zero_add]

/-- The exponent of a variable is the degree in it. -/
theorem toExponents_apply (m : Monomial) (v : Var) : m.toExponents v = m.degree v :=
  exponents_apply m.sorted

/-- Exactly the powers with a positive exponent are listed. -/
theorem mem_powers_iff {m : Monomial} {v : Var} {k : ℕ} :
    (v, k) ∈ m.powers ↔ 0 < k ∧ m.toExponents v = k := by
  have h : ∀ {l : List (Var × ℕ)}, l.Pairwise (fun a b => a.1 < b.1) → (∀ a ∈ l, 0 < a.2) →
      ((v, k) ∈ l ↔ 0 < k ∧ exponents l v = k) := by
    intro l hl hpos
    rw [exponents_apply hl]
    induction l with
    | nil =>
      refine iff_of_false List.not_mem_nil ?_
      rintro ⟨hk, h0⟩
      exact hk.ne h0
    | cons a rest ih =>
      obtain ⟨w, j⟩ := a
      obtain ⟨hw, hrest⟩ := List.pairwise_cons.1 hl
      rw [List.forall_mem_cons] at hpos
      rw [List.mem_cons, List.lookup_cons, Prod.mk.injEq]
      by_cases hvw : v = w
      · subst hvw
        have hout : (v, k) ∉ rest := fun hm => UInt32.lt_irrefl v (hw _ hm)
        rw [beq_self_eq_true, or_iff_left hout]
        show v = v ∧ k = j ↔ 0 < k ∧ j = k
        constructor
        · rintro ⟨-, rfl⟩
          exact ⟨hpos.1, rfl⟩
        · rintro ⟨-, rfl⟩
          exact ⟨rfl, rfl⟩
      · rw [beq_false_of_ne hvw, ih hrest hpos.2]
        exact or_iff_right fun h => hvw h.1
  exact h m.sorted m.positive

/-- A monomial is determined by its exponents. -/
theorem toExponents_injective : Function.Injective toExponents := by
  intro m n h
  refine Monomial.ext (List.Pairwise.eq_of_mem_iff m.sorted n.sorted ?_)
  rintro ⟨v, k⟩
  rw [mem_powers_iff, mem_powers_iff, h]

@[simp] theorem toExponents_without (m : Monomial) (v : Var) :
    (m.without v).toExponents = m.toExponents.erase v := by
  have h : ∀ l : List (Var × ℕ),
      exponents (l.filter fun a => a.1 ≠ v) = (exponents l).erase v := by
    intro l
    induction l with
    | nil => exact Finsupp.erase_zero v |>.symm
    | cons a l ih =>
      obtain ⟨w, j⟩ := a
      show _ = (Finsupp.single w j + exponents l).erase v
      rw [Finsupp.erase_add]
      by_cases hw : w = v
      · rw [List.filter_cons_of_neg (by simpa using hw), ih, hw, Finsupp.erase_single, zero_add]
      · rw [List.filter_cons_of_pos (by simpa using hw), Finsupp.erase_single_ne (Ne.symm hw), ← ih]
        rfl
  exact h m.powers

/-- The unit is the monomial without exponents. -/
theorem isUnit_iff {m : Monomial} : m.isUnit = true ↔ m.toExponents = 0 := by
  unfold isUnit
  rw [List.isEmpty_iff]
  constructor
  · intro h
    unfold toExponents
    rw [h]
    rfl
  · intro h
    have hm : m = unit := toExponents_injective h
    rw [hm]
    rfl

/-- The variables of a monomial are those with a positive exponent. -/
theorem mem_vars_iff {m : Monomial} {v : Var} : v ∈ m.vars ↔ 0 < m.degree v := by
  unfold vars
  rw [List.mem_map]
  constructor
  · rintro ⟨⟨w, k⟩, ha, rfl⟩
    have h := mem_powers_iff.1 ha
    rw [← toExponents_apply, h.2]
    exact h.1
  · intro h
    refine ⟨(v, m.degree v), mem_powers_iff.2 ⟨h, toExponents_apply m v⟩, rfl⟩

end Monomial

/-! ## Terms -/

/-- The element of the polynomial ring that a term stands for. -/
noncomputable def Term.toPolynomial (t : Term) : MvPolynomial Var ℚ :=
  MvPolynomial.monomial t.monomial.toExponents t.coeff

namespace MvPoly

/-- The sum of a list of terms. -/
noncomputable def termsPolynomial : List Term → MvPolynomial Var ℚ
  | [] => 0
  | t :: rest => t.toPolynomial + termsPolynomial rest

/-- The polynomial as an element of the polynomial ring. -/
noncomputable def toPolynomial (p : MvPoly) : MvPolynomial Var ℚ := termsPolynomial p.terms

/-- Terms are added where their monomials agree, and dropped where their sum is zero. -/
theorem termsPolynomial_addTerms (p q : List Term) :
    termsPolynomial (addTerms p q) = termsPolynomial p + termsPolynomial q := by
  fun_induction addTerms p q with
  | case1 q => exact (zero_add _).symm
  | case2 a p => exact (add_zero _).symm
  | case3 a p b q _ ih =>
    show a.toPolynomial + termsPolynomial (addTerms p (b :: q)) = _
    rw [ih, ← add_assoc]
    rfl
  | case4 a p b q _ ih =>
    show b.toPolynomial + termsPolynomial (addTerms (a :: p) q) = _
    rw [ih, add_left_comm]
    rfl
  | case5 a p b q hab hsum ih =>
    have hm := Monomial.eq_of_compare_eq hab
    have hcancel : a.toPolynomial + b.toPolynomial = 0 := by
      unfold Term.toPolynomial
      rw [hm, ← map_add, hsum, map_zero]
    rw [ih]
    show _ = a.toPolynomial + termsPolynomial p + (b.toPolynomial + termsPolynomial q)
    rw [add_add_add_comm, hcancel, zero_add]
  | case6 a p b q hab _ ih =>
    have hm := Monomial.eq_of_compare_eq hab
    show MvPolynomial.monomial a.monomial.toExponents (a.coeff + b.coeff)
        + termsPolynomial (addTerms p q)
      = a.toPolynomial + termsPolynomial p + (b.toPolynomial + termsPolynomial q)
    rw [ih, map_add, add_add_add_comm]
    unfold Term.toPolynomial
    rw [hm]

@[simp] theorem toPolynomial_zero : zero.toPolynomial = 0 := rfl

/-- The sum of polynomials. -/
@[simp] theorem toPolynomial_add (p q : MvPoly) :
    (p.add q).toPolynomial = p.toPolynomial + q.toPolynomial :=
  termsPolynomial_addTerms p.terms q.terms

@[simp] theorem toPolynomial_ofTerm (t : Term) : (ofTerm t).toPolynomial = t.toPolynomial := by
  unfold ofTerm
  split
  next h =>
    unfold Term.toPolynomial
    rw [h, map_zero]
    rfl
  next h => exact add_zero _

/-- Terms may be given in any order, and with repetitions. -/
@[simp] theorem toPolynomial_ofTerms : ∀ ts : List Term,
    (ofTerms ts).toPolynomial = termsPolynomial ts
  | [] => rfl
  | t :: ts => by
    show ((ofTerm t).add (ofTerms ts)).toPolynomial = _
    rw [toPolynomial_add, toPolynomial_ofTerm, toPolynomial_ofTerms ts]
    rfl

/-- A map on terms that an additive map of the ring describes. -/
theorem termsPolynomial_map {f : Term → Term} (φ : MvPolynomial Var ℚ →+ MvPolynomial Var ℚ)
    (h : ∀ t, (f t).toPolynomial = φ t.toPolynomial) :
    ∀ ts : List Term, termsPolynomial (ts.map f) = φ (termsPolynomial ts)
  | [] => (map_zero φ).symm
  | t :: ts => by
    show (f t).toPolynomial + termsPolynomial (ts.map f) = φ (t.toPolynomial + termsPolynomial ts)
    rw [map_add, h, termsPolynomial_map φ h ts]

@[simp] theorem toPolynomial_constant (c : ℚ) : (constant c).toPolynomial = C c :=
  toPolynomial_ofTerm _

@[simp] theorem toPolynomial_one : one.toPolynomial = 1 := by
  rw [one, toPolynomial_constant, C_1]

@[simp] theorem toPolynomial_varPower (v : Var) (k : ℕ) :
    (varPower v k).toPolynomial = X v ^ k := by
  rw [varPower, toPolynomial_ofTerm, Term.toPolynomial, Monomial.toExponents_power,
    X_pow_eq_monomial]

@[simp] theorem toPolynomial_ofVar (v : Var) : (ofVar v).toPolynomial = X v := by
  rw [ofVar, toPolynomial_varPower, pow_one]

/-! ## Arithmetic -/

@[simp] theorem toPolynomial_scale (p : MvPoly) (c : ℚ) :
    (p.scale c).toPolynomial = C c * p.toPolynomial := by
  rw [scale, toPolynomial_ofTerms]
  refine termsPolynomial_map (AddMonoidHom.mulLeft (C c)) (fun t => ?_) p.terms
  unfold Term.toPolynomial
  rw [AddMonoidHom.coe_mulLeft, C_mul_monomial, mul_comm]

@[simp] theorem toPolynomial_neg (p : MvPoly) : p.neg.toPolynomial = -p.toPolynomial := by
  rw [neg, toPolynomial_ofTerms]
  refine termsPolynomial_map (-AddMonoidHom.id _) (fun t => ?_) p.terms
  exact map_neg (MvPolynomial.monomial t.monomial.toExponents) t.coeff

@[simp] theorem toPolynomial_sub (p q : MvPoly) :
    (p.sub q).toPolynomial = p.toPolynomial - q.toPolynomial := by
  rw [sub, toPolynomial_add, toPolynomial_neg, sub_eq_add_neg]

@[simp] theorem toPolynomial_mulTerm (p : MvPoly) (s : Term) :
    (p.mulTerm s).toPolynomial = p.toPolynomial * s.toPolynomial := by
  rw [mulTerm, toPolynomial_ofTerms]
  refine termsPolynomial_map (AddMonoidHom.mulRight s.toPolynomial) (fun t => ?_) p.terms
  unfold Term.toPolynomial
  rw [AddMonoidHom.mulRight_apply, Monomial.toExponents_mul, monomial_mul]

/-- The product, one term of the second factor after another. -/
@[simp] theorem toPolynomial_mul (p q : MvPoly) :
    (p.mul q).toPolynomial = p.toPolynomial * q.toPolynomial := by
  have h : ∀ ts : List Term, (ts.foldr (fun t r => (q.mulTerm t).add r) zero).toPolynomial
      = termsPolynomial ts * q.toPolynomial := by
    intro ts
    induction ts with
    | nil => exact (zero_mul _).symm
    | cons t ts ih =>
      rw [List.foldr_cons, toPolynomial_add, toPolynomial_mulTerm, ih]
      show _ = (t.toPolynomial + termsPolynomial ts) * q.toPolynomial
      rw [add_mul, mul_comm t.toPolynomial]
  exact h p.terms

/-- The power, by repeated multiplication. -/
@[simp] theorem toPolynomial_pow (p : MvPoly) (k : ℕ) :
    (p.pow k).toPolynomial = p.toPolynomial ^ k := by
  induction k using Nat.strong_induction_on with
  | _ k ih =>
    rw [pow]
    split
    next h => rw [h, pow_zero, toPolynomial_one]
    next h =>
      have hlt : k / 2 < k := Nat.div_lt_self (Nat.pos_of_ne_zero h) one_lt_two
      simp only
      split
      next hodd =>
        rw [toPolynomial_mul, toPolynomial_mul, ih _ hlt, ← pow_add, ← pow_succ']
        congr 1
        omega
      next heven =>
        rw [toPolynomial_mul, ih _ hlt, ← pow_add]
        congr 1
        omega

/-! ## The reading is faithful -/

/-- The monomials of a sum of terms are among those of the terms. -/
theorem exists_of_mem_support {e : Var →₀ ℕ} : ∀ {ts : List Term},
    e ∈ (termsPolynomial ts).support → ∃ t ∈ ts, t.monomial.toExponents = e
  | [], h => by
    rw [show termsPolynomial [] = 0 from rfl, support_zero] at h
    exact absurd h (Finset.notMem_empty e)
  | t :: ts, h => by
    rcases Finset.mem_union.1 (support_add h) with h | h
    · have hsingle := support_monomial_subset h
      exact ⟨t, List.mem_cons_self, (Finset.mem_singleton.1 hsingle).symm⟩
    · obtain ⟨u, hu, he⟩ := exists_of_mem_support h
      exact ⟨u, List.mem_cons_of_mem t hu, he⟩

/-- In a list without repeated monomials each coefficient stands by its monomial. -/
theorem coeff_termsPolynomial {ts : List Term}
    (h : ts.Pairwise fun s t => s.monomial.compare t.monomial = .gt) {t : Term} (ht : t ∈ ts) :
    (termsPolynomial ts).coeff t.monomial.toExponents = t.coeff := by
  have hout : ∀ {us : List Term} {m : Monomial}, (∀ u ∈ us, u.monomial ≠ m) →
      (termsPolynomial us).coeff m.toExponents = 0 := by
    intro us m hus
    refine notMem_support_iff.1 fun hmem => ?_
    obtain ⟨u, hu, he⟩ := exists_of_mem_support hmem
    exact hus u hu (Monomial.toExponents_injective he)
  induction ts with
  | nil => exact absurd ht List.not_mem_nil
  | cons s ts ih =>
    obtain ⟨hs, hts⟩ := List.pairwise_cons.1 h
    show (s.toPolynomial + termsPolynomial ts).coeff _ = _
    have hne : ∀ u ∈ ts, u.monomial ≠ s.monomial := by
      intro u hu e
      have hgt := hs u hu
      rw [e, Monomial.compare_self] at hgt
      cases hgt
    rw [coeff_add, Term.toPolynomial, coeff_monomial]
    rcases List.mem_cons.1 ht with rfl | ht
    · rw [if_pos rfl, hout hne, add_zero]
    · rw [if_neg fun e => hne t ht (Monomial.toExponents_injective e).symm, zero_add, ih hts ht]

/-- The coefficients that are listed are the coefficients. -/
theorem coeff_toPolynomial_of_mem {p : MvPoly} {t : Term} (ht : t ∈ p.terms) :
    p.toPolynomial.coeff t.monomial.toExponents = t.coeff :=
  coeff_termsPolynomial p.sorted ht

/-- The terms are the monomials that occur, with their coefficients. -/
theorem mem_support_iff {p : MvPoly} {e : Var →₀ ℕ} :
    e ∈ p.toPolynomial.support ↔ ∃ t ∈ p.terms, t.monomial.toExponents = e := by
  refine ⟨exists_of_mem_support, ?_⟩
  rintro ⟨t, ht, rfl⟩
  rw [MvPolynomial.mem_support_iff, coeff_toPolynomial_of_mem ht]
  exact p.nonzero t ht

/-- The polynomial is zero exactly if no term is listed. -/
theorem toPolynomial_eq_zero_iff {p : MvPoly} : p.toPolynomial = 0 ↔ p.isZero = true := by
  constructor
  · intro h
    unfold isZero
    rw [List.isEmpty_iff]
    refine List.eq_nil_iff_forall_not_mem.2 fun t ht => p.nonzero t ht ?_
    rw [← coeff_toPolynomial_of_mem ht, h, coeff_zero]
  · intro h
    rw [isZero_iff.1 h, toPolynomial_zero]

theorem toPolynomial_ne_zero_iff {p : MvPoly} : p.toPolynomial ≠ 0 ↔ ¬p.isZero = true :=
  toPolynomial_eq_zero_iff.not

/-- A polynomial is determined by what it stands for. -/
theorem toPolynomial_injective : Function.Injective toPolynomial := by
  have hmem : ∀ (p : MvPoly) (t : Term), t ∈ p.terms ↔
      t.coeff ≠ 0 ∧ p.toPolynomial.coeff t.monomial.toExponents = t.coeff := by
    intro p t
    refine ⟨fun ht => ⟨p.nonzero t ht, coeff_toPolynomial_of_mem ht⟩, fun ⟨hne, hcoeff⟩ => ?_⟩
    obtain ⟨u, hu, he⟩ := mem_support_iff.1
      (MvPolynomial.mem_support_iff.2 fun h0 => hne (hcoeff.symm.trans h0))
    have hm := Monomial.toExponents_injective he
    have hc : u.coeff = t.coeff := by rw [← hcoeff, ← he, coeff_toPolynomial_of_mem hu]
    rwa [show t = u from by cases t; cases u; cases hm; cases hc; rfl]
  intro p q h
  have : Std.Irrefl fun s t : Term => s.monomial.compare t.monomial = .gt :=
    ⟨fun t ht => by rw [Monomial.compare_self] at ht; cases ht⟩
  have : Std.Antisymm fun s t : Term => s.monomial.compare t.monomial = .gt :=
    ⟨fun s t hst hts => by
      have hss := Monomial.compare_trans hst hts
      rw [Monomial.compare_self] at hss
      cases hss⟩
  exact ext (p.sorted.eq_of_mem_iff q.sorted fun t => by rw [hmem, hmem, h])

end MvPoly

end AlgebraicReal
