import AlgebraicReal.Proofs.UniPoly.Sturm
import AlgebraicReal.UniPoly.Isolation

/-!
# Isolation of the real roots

Halving finds every root once and in ascending order (`bisect_lists`), and it comes to an end
(`bisect_isSome`): an interval that is shorter than the least distance between two roots holds one
root at most. With Cauchy's bound this carries over to all real roots (`isolateRoots?_lists`,
`exists_isolateRoots?`).
-/

open Polynomial

namespace AlgebraicReal

namespace UniPoly

/-- An interval isolates a root: it has one of the two shapes of isolating intervals, and the root
is the only one in it. -/
structure Isolates (p : UniPoly) (i : Interval) (x : ℝ) : Prop where
  isolating : i.Isolating
  unique : p.realRoots ∩ i.reals = {x}

theorem Isolates.mem {p : UniPoly} {i : Interval} {x : ℝ} (h : p.Isolates i x) :
    x ∈ p.realRoots ∩ i.reals := by
  rw [h.unique]
  exact Set.mem_singleton x

/-- A list holds the roots in a set, in strictly ascending order. -/
structure Lists (p : UniPoly) (S : Set ℝ) (xs : List ℝ) : Prop where
  ascending : xs.Pairwise (· < ·)
  mem_iff : ∀ x, x ∈ xs ↔ x ∈ p.realRoots ∩ S

/-- Intervals isolate, from left to right, the roots in a set. -/
def IsolatesAll (p : UniPoly) (S : Set ℝ) (is : List Interval) : Prop :=
  ∃ xs, List.Forall₂ p.Isolates is xs ∧ p.Lists S xs

variable {p : UniPoly}

/-! ## Joining lists of roots -/

theorem Lists.append {S T : Set ℝ} {xs ys : List ℝ} (hx : p.Lists S xs) (hy : p.Lists T ys)
    (h : ∀ x ∈ S, ∀ y ∈ T, x < y) : p.Lists (S ∪ T) (xs ++ ys) where
  ascending := List.pairwise_append.2 ⟨hx.ascending, hy.ascending, fun x hxm y hym =>
    h x ((hx.mem_iff x).1 hxm).2 y ((hy.mem_iff y).1 hym).2⟩
  mem_iff x := by
    rw [List.mem_append, hx.mem_iff, hy.mem_iff, Set.inter_union_distrib_left]
    exact Iff.rfl

theorem IsolatesAll.append {S T : Set ℝ} {is js : List Interval} (hi : p.IsolatesAll S is)
    (hj : p.IsolatesAll T js) (h : ∀ x ∈ S, ∀ y ∈ T, x < y) :
    p.IsolatesAll (S ∪ T) (is ++ js) := by
  obtain ⟨xs, hx, hxs⟩ := hi
  obtain ⟨ys, hy, hys⟩ := hj
  exact ⟨xs ++ ys, List.rel_append hx hy, hxs.append hys h⟩

theorem isolatesAll_nil {S : Set ℝ} (h : p.realRoots ∩ S = ∅) : p.IsolatesAll S [] := by
  refine ⟨[], .nil, List.Pairwise.nil, fun x => ?_⟩
  rw [h]
  exact iff_of_false List.not_mem_nil (Set.notMem_empty x)

theorem isolatesAll_singleton {S : Set ℝ} {i : Interval} {x : ℝ} (h : p.Isolates i x)
    (hS : p.realRoots ∩ S = {x}) : p.IsolatesAll S [i] := by
  refine ⟨[x], .cons h .nil, List.pairwise_singleton _ x, fun y => ?_⟩
  rw [hS]
  exact List.mem_singleton

/-- A rational number is reported as a point if it is a root. -/
theorem isolatesAll_point (q : ℚ) :
    p.IsolatesAll {(q : ℝ)} (if p.isRoot q = true then [.point q] else []) := by
  split
  next h =>
    have hq : p.realRoots ∩ {(q : ℝ)} = {(q : ℝ)} :=
      Set.inter_eq_right.2 (Set.singleton_subset_iff.2 (isRoot_ratCast.2 h))
    refine isolatesAll_singleton ⟨.point q, ?_⟩ hq
    rw [Interval.reals_point, hq]
  next h =>
    refine isolatesAll_nil (Set.inter_singleton_eq_empty.2 ?_)
    exact isRoot_ratCast.not.2 h

theorem Ioo_eq_union {a m b : ℝ} (h₁ : a < m) (h₂ : m < b) :
    Set.Ioo a b = Set.Ioo a m ∪ {m} ∪ Set.Ioo m b := by
  rw [Set.Ioo_union_right h₁, Set.Ioc_union_Ioo_eq_Ioo h₁.le h₂]

/-- The roots of an interval from those of its parts beside a number inside. -/
theorem IsolatesAll.join {a m b : ℚ} (h₁ : a < m) (h₂ : m < b) {left right : List Interval}
    (hl : p.IsolatesAll (Set.Ioo (a : ℝ) m) left) (hr : p.IsolatesAll (Set.Ioo (m : ℝ) b) right) :
    p.IsolatesAll (Set.Ioo (a : ℝ) b)
      (left ++ (if p.isRoot m = true then [.point m] else []) ++ right) := by
  have h₁' : (a : ℝ) < m := Rat.cast_lt.2 h₁
  have h₂' : (m : ℝ) < b := Rat.cast_lt.2 h₂
  rw [Ioo_eq_union h₁' h₂']
  refine (hl.append (isolatesAll_point m) ?_).append hr ?_
  · rintro x hx y rfl
    exact hx.2
  · rintro x (hx | rfl) y hy
    · exact hx.2.trans hy.1
    · exact hy.1

/-! ## Halving -/

theorem finite_realRoots (hp : ¬p.isZero = true) : p.realRoots.Finite := by
  exact (finite_roots_with (overReal_ne_zero_iff.2 hp) fun _ => True).subset fun x hx =>
    ⟨hx, trivial⟩

/-- Sturm's count for an open interval. -/
theorem rootsIn_between (hp : ¬p.isZero = true) {a b : ℚ} (h : a < b) :
    rootsIn p.sturmChain (.between a b h) = (p.realRoots ∩ Set.Ioo (a : ℝ) b).ncard :=
  countRoots_eq_ncard hp (.between a b h)

/-- What halving finds, in any number of rounds that suffices. -/
theorem bisect_lists (hp : ¬p.isZero = true) : ∀ {rounds : ℕ} {a b : ℚ} (h : a < b)
    {is : List Interval}, bisect p p.sturmChain rounds a b h = some is →
      p.IsolatesAll (Set.Ioo (a : ℝ) b) is
  | 0, _, _, _, _, heq => by cases heq
  | rounds + 1, a, b, h, is, heq => by
    have hcount := rootsIn_between hp h
    unfold bisect at heq
    split at heq
    next hzero =>
      cases heq
      rw [hzero] at hcount
      have hfin : (p.realRoots ∩ Set.Ioo (a : ℝ) b).Finite := (finite_realRoots hp).inter_of_left _
      exact isolatesAll_nil ((Set.ncard_eq_zero hfin).1 hcount.symm)
    next hone =>
      cases heq
      rw [hone] at hcount
      obtain ⟨x, hx⟩ := Set.ncard_eq_one.1 hcount.symm
      exact isolatesAll_singleton ⟨.between a b h, hx⟩ hx
    next =>
      obtain ⟨left, hl, heq⟩ := Option.bind_eq_some_iff.1 heq
      obtain ⟨right, hr, heq⟩ := Option.bind_eq_some_iff.1 heq
      cases heq
      exact (bisect_lists hp _ hl).join (Rational.lt_midpoint h) (Rational.midpoint_lt h)
        (bisect_lists hp _ hr)

/-- More rounds do not change what was found. -/
theorem bisect_succ {chain : List UniPoly} : ∀ {rounds : ℕ} {a b : ℚ} (h : a < b)
    {is : List Interval}, bisect p chain rounds a b h = some is →
      bisect p chain (rounds + 1) a b h = some is
  | 0, _, _, _, _, heq => by cases heq
  | rounds + 1, a, b, h, is, heq => by
    rw [bisect] at heq ⊢
    split at heq
    next => exact heq
    next => exact heq
    next =>
      obtain ⟨left, hl, heq⟩ := Option.bind_eq_some_iff.1 heq
      obtain ⟨right, hr, heq⟩ := Option.bind_eq_some_iff.1 heq
      refine Option.bind_eq_some_iff.2 ⟨left, bisect_succ _ hl, ?_⟩
      exact Option.bind_eq_some_iff.2 ⟨right, bisect_succ _ hr, heq⟩

/-- Distinct members of a finite set of reals are some positive distance apart. -/
theorem exists_separation {S : Set ℝ} (hS : S.Finite) :
    ∃ δ > 0, ∀ x ∈ S, ∀ y ∈ S, x < y → δ ≤ y - x := by
  have hgaps : {d : ℝ | ∃ x ∈ S, ∃ y ∈ S, x < y ∧ d = y - x}.Finite := by
    refine ((hS.prod hS).image fun z : ℝ × ℝ => z.2 - z.1).subset ?_
    rintro d ⟨x, hx, y, hy, -, rfl⟩
    exact ⟨(x, y), ⟨hx, hy⟩, rfl⟩
  rcases Set.eq_empty_or_nonempty {d : ℝ | ∃ x ∈ S, ∃ y ∈ S, x < y ∧ d = y - x} with he | hne
  · refine ⟨1, one_pos, fun x hx y hy hlt => ?_⟩
    have hmem : y - x ∈ {d : ℝ | ∃ x ∈ S, ∃ y ∈ S, x < y ∧ d = y - x} := ⟨x, hx, y, hy, hlt, rfl⟩
    rw [he] at hmem
    exact absurd hmem (Set.notMem_empty _)
  · obtain ⟨d, ⟨x, hx, y, hy, hlt, rfl⟩, hmin⟩ := hgaps.exists_minimal hne
    refine ⟨y - x, sub_pos.2 hlt, fun x' hx' y' hy' hlt' => ?_⟩
    by_contra hcon
    exact hcon (hmin ⟨x', hx', y', hy', hlt', rfl⟩ (not_le.1 hcon).le)

/-- A set of reals in an interval not longer than their distance has one member at most. -/
theorem ncard_le_one_of_separated {S : Set ℝ} (hS : S.Finite) {δ : ℝ}
    (h : ∀ x ∈ S, ∀ y ∈ S, x < y → δ ≤ y - x)
    {a b : ℝ} (hab : b - a ≤ δ) : (S ∩ Set.Ioo a b).ncard ≤ 1 := by
  refine (Set.ncard_le_one_iff_eq (hS.inter_of_left _)).2 ?_
  rcases Set.eq_empty_or_nonempty (S ∩ Set.Ioo a b) with he | ⟨x, hx⟩
  · exact Or.inl he
  · refine Or.inr ⟨x, Set.eq_singleton_iff_unique_mem.2 ⟨hx, fun y hy => ?_⟩⟩
    by_contra hne
    rcases lt_or_gt_of_ne hne with hlt | hlt
    · have := h y hy.1 x hx.1 hlt
      linarith [hy.2.1, hx.2.2]
    · have := h x hx.1 y hy.1 hlt
      linarith [hx.2.1, hy.2.2]

/-- Each round halves the interval, so that it is short enough in the end. -/
theorem bisect_isSome (hp : ¬p.isZero = true) {δ : ℝ}
    (hδ : ∀ x ∈ p.realRoots, ∀ y ∈ p.realRoots, x < y → δ ≤ y - x) :
    ∀ (rounds : ℕ) {a b : ℚ} (h : a < b), (b : ℝ) - a ≤ δ * 2 ^ rounds →
      (bisect p p.sturmChain (rounds + 1) a b h).isSome
  | rounds, a, b, h, hlen => by
    rw [bisect]
    split
    next => rfl
    next => rfl
    next h0 h1 =>
      cases rounds with
      | zero =>
        -- the interval is not longer than the distance of any two roots
        have hle := ncard_le_one_of_separated (finite_realRoots hp) hδ (by simpa using hlen)
        rw [← rootsIn_between hp h] at hle
        exact absurd (Nat.le_one_iff_eq_zero_or_eq_one.1 hle) (not_or.2 ⟨h0, h1⟩)
      | succ rounds =>
        have hmid : ((Rational.midpoint a b : ℚ) : ℝ) = ((a : ℝ) + b) / 2 := by
          unfold Rational.midpoint
          push_cast
          rfl
        rw [pow_succ] at hlen
        have hl := bisect_isSome hp hδ rounds (Rational.lt_midpoint h) (by
          rw [hmid]
          linarith)
        have hr := bisect_isSome hp hδ rounds (Rational.midpoint_lt h) (by
          rw [hmid]
          linarith)
        obtain ⟨left, hl⟩ := Option.isSome_iff_exists.1 hl
        obtain ⟨right, hr⟩ := Option.isSome_iff_exists.1 hr
        simp only [hl, hr, bind, Option.bind, pure, Option.isSome_some]

/-- From some number of rounds on halving gives the same intervals. -/
theorem exists_bisect (hp : ¬p.isZero = true) {a b : ℚ} (h : a < b) :
    ∃ is N, ∀ rounds ≥ N, bisect p p.sturmChain rounds a b h = some is := by
  obtain ⟨δ, hpos, hδ⟩ := exists_separation (finite_realRoots hp)
  obtain ⟨n, hn⟩ := pow_unbounded_of_one_lt (((b : ℝ) - a) / δ) one_lt_two
  have hlen : (b : ℝ) - a ≤ δ * 2 ^ n := by
    rw [div_lt_iff₀ hpos] at hn
    linarith
  obtain ⟨is, his⟩ := Option.isSome_iff_exists.1 (bisect_isSome hp hδ n h hlen)
  refine ⟨is, n + 1, fun rounds hge => ?_⟩
  induction rounds, hge using Nat.le_induction with
  | base => exact his
  | succ rounds _ ih => exact bisect_succ h ih

/-! ## Cauchy's bound -/

theorem abs_div_le_largestRatio {lc c : ℚ} :
    ∀ {cs : List ℚ}, c ∈ cs → c.abs / lc ≤ largestRatio lc cs
  | c' :: cs, h => by
    show c.abs / lc ≤ Rational.larger (c'.abs / lc) (largestRatio lc cs)
    rcases List.mem_cons.1 h with rfl | h
    · exact Rational.le_larger_left _ _
    · exact (abs_div_le_largestRatio h).trans (Rational.le_larger_right _ _)

/-- The bound reads the absolute values of the coefficients only, so it is the same over the reals
and over the complex numbers. -/
theorem cauchyBound_map {K : Type*} [RCLike K] (f : ℚ[X]) :
    (f.map (algebraMap ℚ K)).cauchyBound = f.cauchyBound := by
  unfold Polynomial.cauchyBound
  rw [natDegree_map, leadingCoeff_map, nnnorm_algebraMap']
  simp only [coeff_map, nnnorm_algebraMap']

theorem cauchyBound_toPolynomial_le (p : UniPoly) :
    (p.toPolynomial.cauchyBound : ℝ) ≤ (p.cauchyBound : ℝ) := by
  unfold Polynomial.cauchyBound UniPoly.cauchyBound
  split
  next hc =>
    rw [isConstant_iff_natDegree.1 hc]
    simp
  next hc =>
    -- the largest coefficient below the leading one is among those that the fold compares
    have hne : (Finset.range p.toPolynomial.natDegree).Nonempty :=
      Finset.nonempty_range_iff.2 (isConstant_iff_natDegree.not.1 hc)
    obtain ⟨k, hk, hsup⟩ := Finset.exists_mem_eq_sup _ hne fun k => ‖p.toPolynomial.coeff k‖₊
    rw [Finset.mem_range, natDegree_toPolynomial] at hk
    have hlen : k < p.coeffs.dropLast.length := by
      rw [List.length_dropLast]
      exact hk
    have hcoeff : p.toPolynomial.coeff k = p.coeffs.dropLast[k] := by
      rw [coeff_toPolynomial, List.getElem_dropLast, List.getD_eq_getElem]
    have hratio : |p.coeffs.dropLast[k]| / |p.leadingCoeff|
        ≤ largestRatio p.leadingCoeff.abs p.coeffs.dropLast := by
      rw [← Rational.abs_eq_abs, ← Rational.abs_eq_abs]
      exact abs_div_le_largestRatio (List.getElem_mem hlen)
    rw [hsup, leadingCoeff_toPolynomial, hcoeff, add_comm]
    push_cast
    rw [← Rat.norm_cast_real, ← Rat.norm_cast_real, Real.norm_eq_abs, Real.norm_eq_abs]
    refine add_le_add_right ?_ 1
    exact_mod_cast hratio

/-- All roots are smaller than the bound, the complex ones as well. -/
theorem norm_lt_cauchyBound {K : Type*} [RCLike K] (hp : ¬p.isZero = true) {x : K}
    (hx : aeval x p.toPolynomial = 0) : ‖x‖ < (p.cauchyBound : ℝ) := by
  have hne : p.toPolynomial.map (algebraMap ℚ K) ≠ 0 :=
    (Polynomial.map_ne_zero_iff (algebraMap ℚ K).injective).2 (toPolynomial_ne_zero_iff.2 hp)
  have hroot : (p.toPolynomial.map (algebraMap ℚ K)).IsRoot x := by
    rw [IsRoot.def, eval_map_algebraMap]
    exact hx
  calc ‖x‖ < ((p.toPolynomial.map (algebraMap ℚ K)).cauchyBound : ℝ) :=
        NNReal.coe_lt_coe.2 (IsRoot.norm_lt_cauchyBound hne hroot)
    _ = p.toPolynomial.cauchyBound := by rw [cauchyBound_map]
    _ ≤ p.cauchyBound := cauchyBound_toPolynomial_le p

/-- All roots lie strictly between the bounds. -/
theorem abs_lt_cauchyBound (hp : ¬p.isZero = true) {x : ℝ} (hx : x ∈ p.realRoots) :
    |x| < (p.cauchyBound : ℝ) := by
  have hroot : aeval x p.toPolynomial = 0 := by
    rw [← eval_map_algebraMap]
    exact hx
  exact norm_lt_cauchyBound hp hroot

/-! ## All real roots -/

/-- The roots of a polynomial are those between Cauchy's bounds of its square-free part. -/
theorem realRoots_subset_Ioo (hp : ¬p.isZero = true) :
    p.realRoots ⊆ Set.Ioo ((-p.cauchyBound : ℚ) : ℝ) (p.cauchyBound : ℚ) := by
  intro x hx
  rw [Rat.cast_neg]
  exact abs_lt.1 (abs_lt_cauchyBound hp hx)

theorem IsolatesAll.congr {q : UniPoly} {S T : Set ℝ} {is : List Interval} (h : p.IsolatesAll S is)
    (hroots : q.realRoots = p.realRoots) (hST : p.realRoots ∩ S = p.realRoots ∩ T) :
    q.IsolatesAll T is := by
  obtain ⟨xs, hx, hxs⟩ := h
  have himp : ∀ i x, p.Isolates i x → q.Isolates i x := fun i x hi =>
    ⟨hi.isolating, by rw [hroots]; exact hi.unique⟩
  refine ⟨xs, hx.imp himp, hxs.ascending, fun x => ?_⟩
  rw [hxs.mem_iff, hST, hroots]

theorem realRoots_squareFree (p : UniPoly) : p.squareFree.realRoots = p.realRoots :=
  Set.ext fun _ => isRoot_squareFree

/-- Isolation finds all real roots in ascending order. -/
theorem isolateRoots?_lists (hp : ¬p.isZero = true) {rounds : ℕ} {splitAtZero : Bool}
    {is : List Interval} (h : p.isolateRoots? rounds splitAtZero = some is) :
    p.IsolatesAll Set.univ is := by
  have hs := squareFree_not_isZero hp
  have hroots := realRoots_squareFree p
  simp only [isolateRoots?] at h
  split at h
  next hc =>
    cases h
    -- a nonzero constant has no roots
    refine isolatesAll_nil (Set.eq_empty_of_forall_notMem fun x hx => ?_)
    have hx' : x ∈ p.squareFree.realRoots := by
      rw [hroots]
      exact hx.1
    exact not_isRoot_of_isConstant hs hc x hx'
  next =>
    have hinter : p.squareFree.realRoots
        ∩ Set.Ioo ((-p.squareFree.cauchyBound : ℚ) : ℝ) (p.squareFree.cauchyBound : ℚ)
          = p.squareFree.realRoots ∩ Set.univ := by
      rw [Set.inter_univ, Set.inter_eq_left]
      exact realRoots_subset_Ioo hs
    split at h
    next =>
      obtain ⟨left, hl, h⟩ := Option.bind_eq_some_iff.1 h
      obtain ⟨right, hr, h⟩ := Option.bind_eq_some_iff.1 h
      cases h
      exact ((bisect_lists hs _ hl).join (by simp [cauchyBound_pos]) (cauchyBound_pos _)
        (bisect_lists hs _ hr)).congr hroots.symm hinter
    next => exact (bisect_lists hs _ h).congr hroots.symm hinter

/-- With enough rounds isolation succeeds, and it always finds the same intervals then. -/
theorem exists_isolateRoots? (hp : ¬p.isZero = true) (splitAtZero : Bool) :
    ∃ is N, ∀ rounds ≥ N, p.isolateRoots? rounds splitAtZero = some is := by
  have hs := squareFree_not_isZero hp
  unfold isolateRoots?
  by_cases hc : p.squareFree.isConstant = true
  · exact ⟨[], 0, fun rounds _ => if_pos hc⟩
  · simp only [if_neg hc]
    cases splitAtZero with
    | false =>
      simp only [Bool.false_eq_true, if_false]
      exact exists_bisect hs _
    | true =>
      have hneg : -p.squareFree.cauchyBound < 0 := by simp [cauchyBound_pos]
      obtain ⟨left, N₁, h₁⟩ := exists_bisect hs hneg
      obtain ⟨right, N₂, h₂⟩ := exists_bisect hs p.squareFree.cauchyBound_pos
      refine ⟨left ++ (if p.squareFree.isRoot 0 then [.point 0] else []) ++ right, max N₁ N₂,
        fun rounds hge => ?_⟩
      rw [h₁ rounds (le_of_max_le_left hge), h₂ rounds (le_of_max_le_right hge)]
      rfl

end UniPoly

end AlgebraicReal
