import AlgebraicReal.Proofs.UniPoly.Worklist

/-!
# Where the search for roots starts

Cauchy's bound is one more than the largest ratio between a coefficient and the leading one
(`isGreatest_ratio`), and every complex root is smaller (`norm_lt_cauchyBound`). So the open
interval between the bounds holds all real roots, and none is lost if the search starts with this
interval, or with its two halves and the number zero (`countRoots_cauchyBound`,
`countRoots_between_add`).
-/

open Polynomial

namespace AlgebraicReal

namespace UniPoly

variable {p : UniPoly}

/-! ## The largest ratio -/

theorem exists_largestRatio_eq {lc : ℚ} (hlc : 0 ≤ lc) :
    ∀ {cs : List ℚ}, cs ≠ [] → ∃ c ∈ cs, largestRatio lc cs = |c| / lc
  | c :: cs, _ => by
    have hcons : largestRatio lc (c :: cs) = Rational.larger (|c| / lc) (largestRatio lc cs) := by
      rw [← Rational.abs_eq_abs]
      rfl
    rw [hcons, Rational.larger]
    split
    next hle =>
      rcases eq_or_ne cs [] with rfl | hne
      · -- the fold starts at zero, which is no larger than a ratio
        exact ⟨c, List.mem_singleton_self c, le_antisymm (div_nonneg (abs_nonneg c) hlc) hle⟩
      · obtain ⟨c', hmem, heq⟩ := exists_largestRatio_eq hlc hne
        exact ⟨c', List.mem_cons_of_mem c hmem, heq⟩
    next => exact ⟨c, List.mem_cons_self, rfl⟩

/-- Cauchy's bound is one more than the largest ratio. -/
theorem isGreatest_ratio (hp : 0 < p.degree) :
    IsGreatest {m | ∃ k < p.degree, m = |p.toPolynomial.coeff k| / |p.leadingCoeff|}
      (p.cauchyBound - 1) := by
  have hc : ¬p.isConstant = true := by
    rw [isConstant_iff_natDegree, natDegree_toPolynomial]
    exact hp.ne'
  have hlen : p.coeffs.dropLast.length = p.degree := List.length_dropLast
  have hcoeff : ∀ {k} (hk : k < p.coeffs.dropLast.length),
      p.toPolynomial.coeff k = p.coeffs.dropLast[k] := fun hk => by
    rw [coeff_toPolynomial, List.getElem_dropLast, List.getD_eq_getElem]
  rw [cauchyBound, if_neg hc, add_sub_cancel_left, Rational.abs_eq_abs]
  refine ⟨?_, ?_⟩
  · have hne : p.coeffs.dropLast ≠ [] := List.ne_nil_of_length_pos (hlen ▸ hp)
    obtain ⟨c, hmem, heq⟩ := exists_largestRatio_eq (abs_nonneg p.leadingCoeff) hne
    obtain ⟨k, hk, rfl⟩ := List.getElem_of_mem hmem
    exact ⟨k, hlen ▸ hk, by rw [heq, hcoeff hk]⟩
  · rintro m ⟨k, hk, rfl⟩
    rw [hcoeff (hlen.symm ▸ hk), ← Rational.abs_eq_abs p.coeffs.dropLast[k]]
    exact abs_div_le_largestRatio (List.getElem_mem _)

/-! ## Counts over the first intervals -/

theorem encard_realRoots_inter_singleton (q : ℚ) :
    (p.realRoots ∩ {(q : ℝ)}).encard = ((if p.isRoot q = true then 1 else 0 : ℕ) : ℕ∞) := by
  split
  next h =>
    have hq : (q : ℝ) ∈ p.realRoots := isRoot_ratCast.2 h
    rw [Set.inter_eq_right.2 (Set.singleton_subset_iff.2 hq), Set.encard_singleton, Nat.cast_one]
  next h =>
    have hq : (q : ℝ) ∉ p.realRoots := isRoot_ratCast.not.2 h
    rw [Set.inter_singleton_eq_empty.2 hq, Set.encard_empty, Nat.cast_zero]

/-- A split counts every root once. -/
theorem countRoots_between_add (hp : ¬p.isZero = true) {a m b : ℚ} (h₁ : a < m) (h₂ : m < b) :
    p.countRoots (.between a m h₁) + (if p.isRoot m = true then 1 else 0)
        + p.countRoots (.between m b h₂)
      = p.countRoots (.between a b (h₁.trans h₂)) := by
  have h₁' : (a : ℝ) < m := Rat.cast_lt.2 h₁
  have h₂' : (m : ℝ) < b := Rat.cast_lt.2 h₂
  have hleft : Disjoint (p.realRoots ∩ Set.Ioo (a : ℝ) m) (p.realRoots ∩ {(m : ℝ)}) :=
    Set.disjoint_left.2 fun x hx hm => hx.2.2.ne hm.2
  have hright : Disjoint (p.realRoots ∩ Set.Ioo (a : ℝ) m ∪ p.realRoots ∩ {(m : ℝ)})
      (p.realRoots ∩ Set.Ioo (m : ℝ) b) := by
    refine Set.disjoint_left.2 ?_
    rintro x (hx | hx) hx'
    · exact lt_asymm hx.2.2 hx'.2.1
    · exact hx'.2.1.ne' hx.2
  have hcount := (countRoots_exact hp).1
  -- the roots in the whole interval are those in its parts and at the middle
  have hcast : ((p.countRoots (.between a m h₁) + (if p.isRoot m = true then 1 else 0)
      + p.countRoots (.between m b h₂) : ℕ) : ℕ∞)
        = (p.countRoots (.between a b (h₁.trans h₂)) : ℕ) := by
    rw [Nat.cast_add, Nat.cast_add, hcount, hcount, hcount, ← encard_realRoots_inter_singleton,
      Interval.reals_between, Interval.reals_between, Interval.reals_between,
      ← Set.encard_union_eq hleft, ← Set.encard_union_eq hright, Ioo_eq_union h₁' h₂',
      Set.inter_union_distrib_left, Set.inter_union_distrib_left]
  exact_mod_cast hcast

/-- Between Cauchy's bounds there are all real roots. -/
theorem countRoots_cauchyBound (hp : ¬p.isZero = true) (h : -p.cauchyBound < p.cauchyBound) :
    p.countRoots (.between (-p.cauchyBound) p.cauchyBound h) = p.countAllRoots := by
  obtain ⟨hcount, hall⟩ := countRoots_exact hp
  have hcast : (p.countRoots (.between (-p.cauchyBound) p.cauchyBound h) : ℕ∞)
      = p.countAllRoots := by
    rw [hcount, hall, Interval.reals_between, Set.inter_eq_left.2 (realRoots_subset_Ioo hp)]
  exact_mod_cast hcast

theorem countAllRoots_squareFree (hp : ¬p.isZero = true) :
    p.squareFree.countAllRoots = p.countAllRoots := by
  have hs := squareFree_not_isZero hp
  have hcast : (p.squareFree.countAllRoots : ℕ∞) = p.countAllRoots := by
    rw [(countRoots_exact hs).2, (countRoots_exact hp).2, realRoots_squareFree]
  exact_mod_cast hcast

/-- Cauchy's bound is one more than the largest ratio between a coefficient and the leading one, and
every complex root is smaller, than this bound and also than that of the square-free part, where the
search starts. So all real roots are between the bounds and are counted there, also if the roots are
split at zero, and the search finds them all. -/
theorem cauchyBound_exact (hp : 0 < p.degree) :
    IsGreatest {m | ∃ k < p.degree, m = |p.toPolynomial.coeff k| / |p.leadingCoeff|}
        (p.cauchyBound - 1) ∧
      (∀ z : ℂ, aeval z p.toPolynomial = 0 →
        ‖z‖ < (p.cauchyBound : ℝ) ∧ ‖z‖ < (p.squareFree.cauchyBound : ℝ)) ∧
      p.realRoots ⊆ Set.Ioo (-p.cauchyBound : ℝ) p.cauchyBound ∧
      (∃ (hneg : -p.squareFree.cauchyBound < 0) (hpos : 0 < p.squareFree.cauchyBound),
        p.realRoots
            ⊆ (Interval.between (-p.squareFree.cauchyBound) p.squareFree.cauchyBound
                (hneg.trans hpos)).reals ∧
          p.squareFree.countRoots (.between _ _ (hneg.trans hpos)) = p.countAllRoots ∧
          p.squareFree.countRoots (.between _ _ hneg)
              + (if p.squareFree.isRoot 0 = true then 1 else 0)
              + p.squareFree.countRoots (.between _ _ hpos) = p.countAllRoots) ∧
      ∀ splitAtZero, ∃ is, p.searchRoots? splitAtZero = some is ∧ p.IsolatesAll Set.univ is := by
  have hp' : ¬p.isZero = true := toPolynomial_ne_zero_iff.1 (ne_zero_of_degree_pos hp)
  have hs := squareFree_not_isZero hp'
  have hpos := p.squareFree.cauchyBound_pos
  have hneg : -p.squareFree.cauchyBound < 0 := neg_lt_zero.2 hpos
  -- the bound of the square-free part is the one that the search starts from
  have hcount := (countRoots_cauchyBound hs (hneg.trans hpos)).trans (countAllRoots_squareFree hp')
  refine ⟨isGreatest_ratio hp, fun z hz => ⟨norm_lt_cauchyBound hp' hz, ?_⟩, ?_,
    ⟨hneg, hpos, ?_, hcount, ?_⟩, fun splitAtZero => ?_⟩
  · exact norm_lt_cauchyBound hs (aeval_squareFree_eq_zero_iff.2 hz)
  · exact_mod_cast realRoots_subset_Ioo hp'
  · rw [← realRoots_squareFree p]
    exact realRoots_subset_Ioo hs
  · rw [countRoots_between_add hs, hcount]
  · obtain ⟨is, N, his⟩ := exists_isolateRoots? hp' splitAtZero
    exact ⟨is, searchRoots?_eq hp' (his N le_rfl), isolateRoots?_lists hp' (his N le_rfl)⟩

/-- The polynomial `(x² + 1)² (x - 3)` has the bound seven and its square-free part the bound four;
both are above its roots. -/
theorem cauchyBound_exact_quintic :
    let p := ofCoeffs 0 [-3, 1, -6, 2, -3, 1]
    0 < p.degree ∧ p.cauchyBound = 7 ∧ p.squareFree.cauchyBound = 4 ∧
      aeval Complex.I p.toPolynomial = 0 ∧ ‖Complex.I‖ < (4 : ℝ) ∧
      (3 : ℝ) ∈ p.realRoots ∧ (3 : ℝ) ∈ Set.Ioo (-7 : ℝ) 7 ∧
      ∃ is, p.searchRoots? true = some is ∧ p.IsolatesAll Set.univ is := by
  intro p
  have hdegree : 0 < p.degree := by decide +kernel
  have hbound : p.cauchyBound = 7 := by decide +kernel
  have hbound' : p.squareFree.cauchyBound = 4 := by decide +kernel
  have hthree : (3 : ℝ) ∈ p.realRoots := by
    have hroot : p.isRoot 3 = true := by decide +kernel
    exact_mod_cast isRoot_ratCast.2 hroot
  have hpoly : p.toPolynomial = coeffsPolynomial [-3, 1, -6, 2, -3, 1] := toPolynomial_ofCoeffs ..
  have hI : aeval Complex.I p.toPolynomial = 0 := by
    rw [hpoly]
    simp only [coeffsPolynomial, map_add, map_mul, map_neg, map_one, map_zero, map_ofNat, aeval_X]
    linear_combination (Complex.I - 3) * (Complex.I ^ 2 + 1) * Complex.I_sq
  obtain ⟨-, hcomplex, hreal, -, hsearch⟩ := cauchyBound_exact hdegree
  rw [hbound] at hreal
  have hI' := (hcomplex Complex.I hI).2
  rw [hbound'] at hI'
  exact ⟨hdegree, hbound, hbound', hI, by exact_mod_cast hI', hthree,
    by exact_mod_cast hreal hthree, hsearch true⟩

end UniPoly

end AlgebraicReal
