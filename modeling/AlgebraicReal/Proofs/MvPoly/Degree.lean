import AlgebraicReal.Proofs.MvPoly.Variables

/-!
# Total degrees

The total degree of a polynomial is that of the element of the polynomial ring it stands for
(`MvPoly.totalDegree_toPolynomial`). Sums, coefficients and values at rationals have no greater one, a
product of nonzero factors has the sum of theirs. A polynomial fits into words of 32 bits if its total
degree does (`MvPoly.Fits`); then so do all exponents in it.
-/

open MvPolynomial

namespace AlgebraicReal

/-! ## Monomials -/

/-- The degree of the exponents is the sum of the powers. -/
theorem degree_exponents : ∀ l : List (Var × ℕ),
    (exponents l).degree = (l.map (·.2)).sum
  | [] => map_zero _
  | (v, k) :: rest => by
    show (Finsupp.single v k + exponents rest).degree = k + (rest.map (·.2)).sum
    rw [map_add, Finsupp.degree_single, degree_exponents rest]

namespace Monomial

variable {m n c : Monomial} {v : Var}

/-- The total degree, as a sum over the powers. -/
theorem totalDegree_eq_sum (m : Monomial) : m.totalDegree = (m.powers.map (·.2)).sum := by
  unfold totalDegree
  induction m.powers with
  | nil => rfl
  | cons a l ih => rw [List.foldr_cons, ih, List.map_cons, List.sum_cons]

/-- The total degree, as that of a monomial of the library. -/
theorem totalDegree_eq_degree (m : Monomial) : m.totalDegree = m.toExponents.degree := by
  rw [totalDegree_eq_sum, toExponents, degree_exponents]

@[simp] theorem totalDegree_unit : unit.totalDegree = 0 := rfl

@[simp] theorem totalDegree_power (v : Var) (k : ℕ) : (power v k).totalDegree = k := by
  rw [totalDegree_eq_degree, toExponents_power, Finsupp.degree_single]

/-- Exponents are added, so total degrees are. -/
@[simp] theorem totalDegree_mul (m n : Monomial) :
    (m.mul n).totalDegree = m.totalDegree + n.totalDegree := by
  rw [totalDegree_eq_degree, toExponents_mul, map_add, ← totalDegree_eq_degree,
    ← totalDegree_eq_degree]

/-- A variable and the others together. -/
theorem degree_add_totalDegree_without (m : Monomial) (v : Var) :
    m.degree v + (m.without v).totalDegree = m.totalDegree := by
  have h := congrArg Finsupp.degree (Finsupp.single_add_erase v m.toExponents)
  rwa [map_add, Finsupp.degree_single, toExponents_apply, ← toExponents_without,
    ← totalDegree_eq_degree, ← totalDegree_eq_degree] at h

/-- No exponent is larger than the total degree. -/
theorem degree_le_totalDegree (m : Monomial) (v : Var) : m.degree v ≤ m.totalDegree :=
  Nat.le.intro (m.degree_add_totalDegree_without v)

/-- To leave a variable out makes the total degree no larger. -/
theorem totalDegree_without_le (m : Monomial) (v : Var) :
    (m.without v).totalDegree ≤ m.totalDegree :=
  Nat.le.intro ((Nat.add_comm _ _).trans (m.degree_add_totalDegree_without v))

@[simp] theorem totalDegree_timesPower (m : Monomial) (v : Var) (k : ℕ) :
    (m.timesPower v k).totalDegree = k + m.totalDegree := by
  rw [totalDegree_eq_degree, toExponents_timesPower, map_add, Finsupp.degree_single,
    ← totalDegree_eq_degree]

/-- Also when a variable is repeated. -/
theorem totalDegree_ofPowers (l : List (Var × ℕ)) :
    (ofPowers l).totalDegree = (l.map (·.2)).sum := by
  rw [totalDegree_eq_degree, toExponents_ofPowers, degree_exponents]

@[simp] theorem totalDegree_rename (m : Monomial) (v w : Var) :
    (m.rename v w).totalDegree = m.totalDegree := by
  rw [rename, totalDegree_ofPowers, totalDegree_eq_sum, List.map_map]
  rfl

/-- The exponents and their sum are words of 32 bits. -/
def Fits (m : Monomial) : Prop := m.totalDegree < 2 ^ 32

instance (m : Monomial) : Decidable m.Fits := inferInstanceAs (Decidable (_ < _))

/-- An exponent is at most the total degree. -/
theorem Fits.degree_lt (h : m.Fits) (v : Var) : m.degree v < 2 ^ 32 :=
  (m.degree_le_totalDegree v).trans_lt h

/-- In a monomial that fits every exponent does. -/
theorem Fits.exponent_lt (h : m.Fits) {a : Var × ℕ} (ha : a ∈ m.powers) : a.2 < 2 ^ 32 := by
  refine lt_of_le_of_lt ?_ h
  rw [totalDegree_eq_sum]
  exact List.single_le_sum (fun _ _ => Nat.zero_le _) _ (List.mem_map_of_mem ha)

theorem fits_unit : unit.Fits := Nat.two_pow_pos 32

theorem Fits.without (h : m.Fits) (v : Var) : (m.without v).Fits :=
  (m.totalDegree_without_le v).trans_lt h

theorem Fits.rename (h : m.Fits) (v w : Var) : (m.rename v w).Fits :=
  (m.totalDegree_rename v w).trans_lt h

end Monomial

/-! ## Polynomials -/

namespace MvPoly

variable {p q r : MvPoly} {v w : Var} {N M : ℕ}

/-- The total degree of a polynomial is the largest one of its terms. -/
theorem totalDegree_le_iff : p.totalDegree ≤ N ↔ ∀ t ∈ p.terms, t.monomial.totalDegree ≤ N := by
  unfold totalDegree
  induction p.terms with
  | nil => simp
  | cons t ts ih => rw [List.foldr_cons, Nat.max_le, ih, List.forall_mem_cons]

/-- The total degree is that of no term exceeded. -/
theorem le_totalDegree {t : Term} (ht : t ∈ p.terms) : t.monomial.totalDegree ≤ p.totalDegree :=
  totalDegree_le_iff.1 le_rfl t ht

theorem degree_le_totalDegree (p : MvPoly) (v : Var) : p.degree v ≤ p.totalDegree := by
  rcases Nat.eq_zero_or_pos (p.degree v) with h | h
  · rw [h]
    exact Nat.zero_le _
  · obtain ⟨t, ht, he⟩ := exists_of_degree_pos h
    rw [← he]
    exact (t.monomial.degree_le_totalDegree v).trans (le_totalDegree ht)

/-- It is the total degree of the polynomial. -/
theorem totalDegree_toPolynomial (p : MvPoly) : p.toPolynomial.totalDegree = p.totalDegree := by
  refine le_antisymm (Finset.sup_le fun e he => ?_) (totalDegree_le_iff.2 fun t ht => ?_)
  · obtain ⟨t, ht, rfl⟩ := mem_support_iff.1 he
    exact t.monomial.totalDegree_eq_degree.symm.trans_le (le_totalDegree ht)
  · rw [Monomial.totalDegree_eq_degree]
    exact MvPolynomial.le_totalDegree (mem_support_iff.2 ⟨t, ht, rfl⟩)

/-- The monomials of a sum of terms are among those of the terms. -/
theorem totalDegree_ofTerms_le {ts : List Term} (h : ∀ t ∈ ts, t.monomial.totalDegree ≤ N) :
    (ofTerms ts).totalDegree ≤ N := by
  rw [← totalDegree_toPolynomial, toPolynomial_ofTerms]
  refine Finset.sup_le fun e he => ?_
  obtain ⟨t, ht, rfl⟩ := exists_of_mem_support he
  exact t.monomial.totalDegree_eq_degree.symm.trans_le (h t ht)

/-- A map on terms that raises no total degree. -/
theorem totalDegree_ofTerms_map_le {f : Term → Term}
    (hf : ∀ t, (f t).monomial.totalDegree ≤ t.monomial.totalDegree + M) (p : MvPoly) :
    (ofTerms (p.terms.map f)).totalDegree ≤ p.totalDegree + M :=
  totalDegree_ofTerms_le (List.forall_mem_map.2 fun t ht =>
    (hf t).trans (Nat.add_le_add_right (le_totalDegree ht) M))

@[simp] theorem totalDegree_zero : zero.totalDegree = 0 := rfl

theorem totalDegree_constant (c : ℚ) : (constant c).totalDegree = 0 := by
  rw [← totalDegree_toPolynomial, toPolynomial_constant, totalDegree_C]

theorem totalDegree_varPower (v : Var) (k : ℕ) : (varPower v k).totalDegree = k := by
  rw [← totalDegree_toPolynomial, toPolynomial_varPower, totalDegree_X_pow]

/-- A sum has no larger total degree than the larger of the two. -/
theorem totalDegree_add_le (p q : MvPoly) :
    (p.add q).totalDegree ≤ max p.totalDegree q.totalDegree := by
  rw [← totalDegree_toPolynomial, ← totalDegree_toPolynomial, ← totalDegree_toPolynomial,
    toPolynomial_add]
  exact totalDegree_add _ _

theorem totalDegree_scale_le (p : MvPoly) (c : ℚ) : (p.scale c).totalDegree ≤ p.totalDegree :=
  totalDegree_ofTerms_map_le (M := 0) (f := fun t => ⟨t.coeff * c, t.monomial⟩) (fun _ => le_rfl) p

theorem totalDegree_neg_le (p : MvPoly) : p.neg.totalDegree ≤ p.totalDegree :=
  totalDegree_ofTerms_map_le (M := 0) (f := fun t => ⟨-t.coeff, t.monomial⟩) (fun _ => le_rfl) p

theorem totalDegree_sub_le (p q : MvPoly) :
    (p.sub q).totalDegree ≤ max p.totalDegree q.totalDegree :=
  (totalDegree_add_le _ _).trans (max_le_max le_rfl (totalDegree_neg_le q))

/-- A term that is multiplied in adds its own. -/
theorem totalDegree_mulTerm_le (p : MvPoly) (s : Term) :
    (p.mulTerm s).totalDegree ≤ p.totalDegree + s.monomial.totalDegree :=
  totalDegree_ofTerms_map_le (fun t => (Monomial.totalDegree_mul t.monomial s.monomial).le) p

/-- A product has at most the sum; less, if leading terms cancel. -/
theorem totalDegree_mul_le (p q : MvPoly) :
    (p.mul q).totalDegree ≤ p.totalDegree + q.totalDegree := by
  rw [← totalDegree_toPolynomial, ← totalDegree_toPolynomial, ← totalDegree_toPolynomial,
    toPolynomial_mul]
  exact totalDegree_mul _ _

/-- Without zero divisors nothing of the sum is lost. -/
theorem totalDegree_mul (hp : p.isZero ≠ true) (hq : q.isZero ≠ true) :
    (p.mul q).totalDegree = p.totalDegree + q.totalDegree := by
  rw [← totalDegree_toPolynomial, ← totalDegree_toPolynomial, ← totalDegree_toPolynomial,
    toPolynomial_mul]
  exact totalDegree_mul_of_isDomain (toPolynomial_ne_zero_iff.2 hp) (toPolynomial_ne_zero_iff.2 hq)

/-- A power has at most the multiple. -/
theorem totalDegree_pow_le (p : MvPoly) (k : ℕ) : (p.pow k).totalDegree ≤ k * p.totalDegree := by
  rw [← totalDegree_toPolynomial, ← totalDegree_toPolynomial, toPolynomial_pow]
  exact totalDegree_pow _ _

/-- Coefficients in one variable are made of the same terms. -/
theorem totalDegree_coeff_le (p : MvPoly) (v : Var) (k : ℕ) :
    (p.coeff v k).totalDegree ≤ p.totalDegree :=
  totalDegree_ofTerms_le (List.forall_mem_map.2 fun t ht =>
    (t.monomial.totalDegree_without_le v).trans (le_totalDegree (List.mem_filter.1 ht).1))

theorem totalDegree_rename_le (p : MvPoly) (v w : Var) :
    (p.rename v w).totalDegree ≤ p.totalDegree :=
  totalDegree_ofTerms_map_le (M := 0) (fun t => (t.monomial.totalDegree_rename v w).le) p

/-- A rational for a variable lowers it at most. -/
theorem totalDegree_evalAt_le (p : MvPoly) (v : Var) (c : ℚ) :
    (p.evalAt v c).totalDegree ≤ p.totalDegree :=
  totalDegree_ofTerms_map_le (M := 0) (fun t => t.monomial.totalDegree_without_le v) p

/-- A derivative loses a degree, or the term. -/
theorem totalDegree_derivative_le (p : MvPoly) (v : Var) :
    (p.derivative v).totalDegree ≤ p.totalDegree := by
  refine totalDegree_ofTerms_map_le (M := 0) (fun t => ?_) p
  have h := t.monomial.degree_add_totalDegree_without v
  rw [Monomial.totalDegree_timesPower]
  omega

/-! ## Polynomials that fit -/

/-- All exponents and total degrees are words of 32 bits. -/
def Fits (p : MvPoly) : Prop := p.totalDegree < 2 ^ 32

instance (p : MvPoly) : Decidable p.Fits := inferInstanceAs (Decidable (_ < _))

/-- A polynomial fits if all its terms do. -/
theorem fits_iff : p.Fits ↔ ∀ t ∈ p.terms, t.monomial.Fits := by
  refine ⟨fun h t ht => (le_totalDegree ht).trans_lt h, fun h => ?_⟩
  refine Nat.lt_of_le_pred (Nat.two_pow_pos 32) (totalDegree_le_iff.2 fun t ht => ?_)
  exact Nat.le_pred_of_lt (h t ht)

/-- All monomials of a polynomial that fits do. -/
theorem Fits.monomial (h : p.Fits) {t : Term} (ht : t ∈ p.terms) : t.monomial.Fits :=
  fits_iff.1 h t ht

/-- So does its degree in any variable. -/
theorem Fits.degree_lt (h : p.Fits) (v : Var) : p.degree v < 2 ^ 32 :=
  (p.degree_le_totalDegree v).trans_lt h

/-- Like terms are collected, which does not raise a degree. -/
theorem fits_ofTerms {ts : List Term} (h : ∀ t ∈ ts, t.monomial.Fits) : (ofTerms ts).Fits :=
  Nat.lt_of_le_pred (Nat.two_pow_pos 32) (totalDegree_ofTerms_le fun t ht => Nat.le_pred_of_lt (h t ht))

theorem fits_zero : zero.Fits := Nat.two_pow_pos 32

theorem fits_constant (c : ℚ) : (constant c).Fits :=
  (totalDegree_constant c).trans_lt (Nat.two_pow_pos 32)

/-- No new monomial comes in. -/
theorem Fits.add (hp : p.Fits) (hq : q.Fits) : (p.add q).Fits :=
  (totalDegree_add_le p q).trans_lt (max_lt hp hq)

theorem Fits.scale (h : p.Fits) (c : ℚ) : (p.scale c).Fits := (totalDegree_scale_le p c).trans_lt h

theorem Fits.neg (h : p.Fits) : p.neg.Fits := (totalDegree_neg_le p).trans_lt h

/-- Differences fit, as sums do. -/
theorem Fits.sub (hp : p.Fits) (hq : q.Fits) : (p.sub q).Fits := hp.add hq.neg

theorem Fits.coeff (h : p.Fits) (v : Var) (k : ℕ) : (p.coeff v k).Fits :=
  (totalDegree_coeff_le p v k).trans_lt h

theorem Fits.truncate (h : p.Fits) (v : Var) (d : ℕ) : (p.truncate v d).Fits :=
  fits_ofTerms fun _ ht => h.monomial (List.mem_filter.1 ht).1

theorem Fits.rename (h : p.Fits) (v w : Var) : (p.rename v w).Fits :=
  (totalDegree_rename_le p v w).trans_lt h

theorem Fits.evalAt (h : p.Fits) (v : Var) (c : ℚ) : (p.evalAt v c).Fits :=
  (totalDegree_evalAt_le p v c).trans_lt h

theorem Fits.derivative (h : p.Fits) (v : Var) : (p.derivative v).Fits :=
  (totalDegree_derivative_le p v).trans_lt h

end MvPoly

end AlgebraicReal
