import AlgebraicReal.Proofs.Thom

/-!
# Where two sign lists differ

The signs of the derivatives at a root determine it (`eq_of_signsAt_eq`). Where the signs at two
points agree above some derivative, the derivative before has one sign all the way between the points
(`oneSign_of_agree`), and if it were zero the signs below would agree as well. So above the highest
derivative whose signs differ there is never a zero (`above_ne_zero`), and the comparison by signs
knows in which direction to go.
-/

open Polynomial

namespace AlgebraicReal

namespace Thom

variable {p : UniPoly} {x y : ℝ}

theorem length_signsAt (p : UniPoly) (x : ℝ) : (signsAt p x).length = p.degree - 1 := by
  rw [signsAt, List.length_map, List.length_range]

theorem getElem_signsAt (p : UniPoly) (x : ℝ) {k : ℕ} (hk : k < (signsAt p x).length) :
    (signsAt p x)[k] = Sign.ofReal ((Polynomial.derivative^[k + 1] p.overReal).eval x) := by
  simp only [signsAt, List.getElem_map, List.getElem_range]

theorem getElem?_signsAt (p : UniPoly) (x : ℝ) {k : ℕ} (hk : k < p.degree - 1) :
    (signsAt p x)[k]? = some (Sign.ofReal ((Polynomial.derivative^[k + 1] p.overReal).eval x)) := by
  have hk' : k < (signsAt p x).length := by rwa [length_signsAt]
  rw [List.getElem?_eq_getElem hk', getElem_signsAt]

/-- Two roots with the same signs are the same. -/
theorem eq_of_signsAt_eq (hp : p.toPolynomial.Monic) (hx : p.overReal.IsRoot x)
    (hy : p.overReal.IsRoot y) (h : signsAt p x = signsAt p y) : x = y := by
  have hcompare := compareSigns_signsAt hp hx hy
  rw [h, compareSigns_self] at hcompare
  exact cmp_eq_eq_iff _ _ |>.1 hcompare.symm

/-- The sign of a derivative with the one before the list, which is a positive constant. -/
theorem getD_signsAt (hp : p.toPolynomial.Monic) (x : ℝ) {k : ℕ} (hk : k < p.degree) :
    (signsAt p x)[k]?.getD .positive
      = Sign.ofReal ((Polynomial.derivative^[k + 1] p.overReal).eval x) := by
  rcases Nat.lt_or_ge k (p.degree - 1) with h | h
  · rw [getElem?_signsAt p x h, Option.getD_some]
  · have htop : k + 1 = p.degree := by omega
    rw [List.getElem?_eq_none (by rwa [length_signsAt]), Option.getD_none, htop]
    exact (oneSign_top hp x x x Set.left_mem_uIcc).symm

/-- Where all signs from some derivative up agree, that derivative keeps its sign between the points.
-/
theorem oneSign_of_agree (hp : p.toPolynomial.Monic) {k : ℕ} (hk : k < p.degree)
    (h : ∀ j, k ≤ j → (signsAt p x)[j]? = (signsAt p y)[j]?) :
    OneSign (Polynomial.derivative^[k + 1] p.overReal) x y
      ((signsAt p x)[k]?.getD .positive) := by
  rw [getD_signsAt hp x hk]
  -- down from the derivative of the order of the degree, which is constant
  refine Nat.decreasingInduction' (P := fun j => OneSign (Polynomial.derivative^[j + 1] p.overReal)
    x y (Sign.ofReal ((Polynomial.derivative^[j + 1] p.overReal).eval x)))
    (fun j hj hkj ih => ?_) (Nat.le_sub_one_of_lt hk) ?_
  · have hagree := h j hkj
    rw [getElem?_signsAt p x hj, getElem?_signsAt p y hj, Option.some_inj] at hagree
    rw [Function.iterate_succ_apply'] at ih
    exact ih.of_derivative hagree
  · have htop := oneSign_top hp x y
    rw [Nat.sub_add_cancel (Nat.one_le_of_lt hk), htop x Set.left_mem_uIcc]
    exact htop

/-- Just above the highest derivative where the signs at two points differ, the sign is not zero. -/
theorem above_ne_zero (hp : p.toPolynomial.Monic) {k : ℕ}
    (hk : (signsAt p x)[k]? ≠ (signsAt p y)[k]?)
    (h : ∀ j, k < j → (signsAt p x)[j]? = (signsAt p y)[j]?) :
    (signsAt p x)[k + 1]?.getD .positive ≠ .zero := by
  have hlt : k < p.degree - 1 := by
    by_contra hge
    rw [not_lt] at hge
    apply hk
    rw [List.getElem?_eq_none (by rwa [length_signsAt]),
      List.getElem?_eq_none (by rwa [length_signsAt])]
  rw [getElem?_signsAt p x hlt, getElem?_signsAt p y hlt, ne_eq, Option.some_inj] at hk
  have hone := oneSign_of_agree hp (by omega) h
  rw [Function.iterate_succ_apply'] at hone
  exact hone.ne_zero hk

/-! ## Two encodings -/

variable {s : Store} {t u : Thom}

/-- With the same coefficients neither the rounds nor the store matter. -/
theorem exec_compare (hc : t.poly.coeffs = u.poly.coeffs) (rounds : ℕ) (s : Store) :
    RefineM.exec (t.compare u) rounds s
      = (.ok (compareSigns .positive t.signs.reverse u.signs.reverse), s) := by
  unfold Thom.compare
  rw [if_pos hc]
  rfl

/-- The encodings of two roots of a polynomial order them by signs, without looking at a locator. -/
structure OrdersBySigns (s : Store) (t u : Thom) (x y : ℝ) : Prop where
  compare_eq : ∀ rounds, RefineM.exec (t.compare u) rounds s = (.ok (cmp x y), s)
  /-- The locators give the same answer. -/
  locators : RefineM.Exact (RefineM.compare t.locator u.locator) s fun o _ => o = cmp x y
  length_eq : t.signs.length = u.signs.length
  signs_eq_iff : t.signs = u.signs ↔ x = y
  /-- The sign above the highest derivative where they differ is the same, and not zero. -/
  above_ne_zero : ∀ k, t.signs[k]? ≠ u.signs[k]? → (∀ j, k < j → t.signs[j]? = u.signs[j]?) →
    t.signs[k + 1]?.getD .positive = u.signs[k + 1]?.getD .positive ∧
      t.signs[k + 1]?.getD .positive ≠ .zero

theorem Denotes.ordersBySigns (hs : s.Valid) (ht : t.Denotes s x) (hu : u.Denotes s y)
    (hc : t.poly.coeffs = u.poly.coeffs) : OrdersBySigns s t u x y := by
  obtain ⟨hy, hsigns⟩ := hu.of_coeffs_eq hc
  have hsigns' := ht.signs_eq
  refine ⟨fun rounds => ?_, .compare hs ht.locates hu.locates, ?_, ⟨fun h => ?_, fun h => ?_⟩,
    fun k hk hagree => ⟨by rw [hagree (k + 1) k.lt_succ_self], ?_⟩⟩
  · rw [exec_compare hc, ht.compareSigns_eq hu hc]
  · rw [hsigns, hsigns', length_signsAt, length_signsAt]
  · rw [hsigns, hsigns'] at h
    exact eq_of_signsAt_eq ht.monic ht.isRoot hy h
  · rw [hsigns, hsigns', h]
  · rw [hsigns'] at hk hagree ⊢
    rw [hsigns] at hk hagree
    exact above_ne_zero ht.monic hk hagree

end Thom

end AlgebraicReal
