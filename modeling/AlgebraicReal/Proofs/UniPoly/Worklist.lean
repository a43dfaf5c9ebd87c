import AlgebraicReal.Proofs.UniPoly.Isolation
import AlgebraicReal.UniPoly.Worklist

/-!
# The isolating intervals from left to right

Halving gives intervals each of which lies to the left of the next one (`bisect_parts`). The search
with a worklist finds the same intervals in another order (`search_of_bisect`). In a list of
isolating intervals from left to right the ends are in order as well, and only one order of the list
has the ends in order; so sorting restores it (`searchRoots?_eq`).
-/

namespace AlgebraicReal

namespace Interval

/-- All elements of the one interval are below all elements of the other. -/
def LeftOf (i j : Interval) : Prop := ∀ x ∈ i.reals, ∀ y ∈ j.reals, x < y

variable {i j : Interval}

theorem Isolating.isLUB (h : i.Isolating) : IsLUB i.reals (i.hi : ℝ) := by
  cases h with
  | point q =>
    rw [reals_point]
    exact isLUB_singleton
  | between a b h =>
    rw [reals_between]
    exact isLUB_Ioo (Rat.cast_lt.2 h)

theorem Isolating.isGLB (h : i.Isolating) : IsGLB i.reals (i.lo : ℝ) := by
  cases h with
  | point q =>
    rw [reals_point]
    exact isGLB_singleton
  | between a b h =>
    rw [reals_between]
    exact isGLB_Ioo (Rat.cast_lt.2 h)

theorem Isolating.lo_le_hi (h : i.Isolating) : i.lo ≤ i.hi := by
  cases h with
  | point q => exact le_rfl
  | between a b h => exact h.le

/-- An interval left of another ends before that begins. -/
theorem LeftOf.hi_le_lo (h : i.LeftOf j) (hi : i.Isolating) (hj : j.Isolating) :
    i.hi ≤ j.lo := by
  have hle : (i.hi : ℝ) ≤ j.lo :=
    hi.isLUB.2 fun x hx => hj.isGLB.2 fun y hy => (h x hx y hy).le
  exact_mod_cast hle

/-- The two have no point in common. -/
theorem LeftOf.disjoint (h : i.LeftOf j) : Disjoint i.reals j.reals :=
  Set.disjoint_left.2 fun x hx hy => lt_irrefl x (h x hx x hy)

/-- Isolating intervals from left to right are in the order of the sort. -/
theorem LeftOf.sortsBefore (h : i.LeftOf j) (hi : i.Isolating) (hj : j.Isolating) :
    i.sortsBefore j = true := by
  have hle := h.hi_le_lo hi hj
  rw [Interval.sortsBefore, decide_eq_true_iff]
  rcases (hi.lo_le_hi.trans hle).lt_or_eq with hlt | heq
  · exact .inl hlt
  · exact .inr ⟨heq, hle.trans hj.lo_le_hi⟩

theorem sortsBefore_trans (i j k : Interval) (hij : i.sortsBefore j = true)
    (hjk : j.sortsBefore k = true) : i.sortsBefore k = true := by
  rw [sortsBefore, decide_eq_true_iff] at hij hjk ⊢
  grind

/-- Any two intervals are sorted one way or the other. -/
theorem sortsBefore_total (i j : Interval) : (i.sortsBefore j || j.sortsBefore i) = true := by
  rw [Bool.or_eq_true, sortsBefore, sortsBefore, decide_eq_true_iff, decide_eq_true_iff]
  grind

/-- Isolating intervals with the same ends are the same. -/
theorem eq_of_sortsBefore (hi : i.Isolating) (hj : j.Isolating) (hij : i.sortsBefore j = true)
    (hji : j.sortsBefore i = true) : i = j := by
  rw [sortsBefore, decide_eq_true_iff] at hij hji
  have hlo : i.lo = j.lo := by grind
  have hhi : i.hi = j.hi := by grind
  cases hi with
  | point q =>
    cases hj with
    | point r => exact congrArg point hlo
    | between c d h => exact absurd (hlo.symm.trans hhi) h.ne
  | between a b h =>
    cases hj with
    | point r => exact absurd (hlo.trans hhi.symm) h.ne
    | between c d h' =>
      obtain rfl : a = c := hlo
      obtain rfl : b = d := hhi
      rfl

/-- Intervals inside a set, from left to right. -/
structure Parts (S : Set ℝ) (is : List Interval) : Prop where
  inside : ∀ i ∈ is, i.reals ⊆ S
  ordered : is.Pairwise LeftOf

variable {S T : Set ℝ} {is js : List Interval}

theorem parts_nil : Parts S [] := ⟨nofun, .nil⟩

/-- One interval is a part by itself. -/
theorem parts_singleton (h : i.reals ⊆ S) : Parts S [i] where
  inside := List.forall_mem_singleton.2 h
  ordered := List.pairwise_singleton ..

theorem Parts.mono (h : Parts S is) (hST : S ⊆ T) : Parts T is :=
  ⟨fun i hi => (h.inside i hi).trans hST, h.ordered⟩

/-- Parts of a set left of another set come first. -/
theorem Parts.append (hi : Parts S is) (hj : Parts T js) (h : ∀ x ∈ S, ∀ y ∈ T, x < y) :
    Parts (S ∪ T) (is ++ js) where
  inside i hmem := (List.mem_append.1 hmem).elim
    (fun hmem => (hi.inside i hmem).trans Set.subset_union_left)
    fun hmem => (hj.inside i hmem).trans Set.subset_union_right
  ordered := List.pairwise_append.2 ⟨hi.ordered, hj.ordered, fun i hmem j hmem' x hx y hy =>
    h x (hi.inside i hmem hx) y (hj.inside j hmem' hy)⟩

/-- The parts beside a number, and perhaps the number itself. -/
theorem Parts.join {a m b : ℚ} (h₁ : a < m) (h₂ : m < b) {root : Bool}
    (hi : Parts (Set.Ioo (a : ℝ) m) is) (hj : Parts (Set.Ioo (m : ℝ) b) js) :
    Parts (Set.Ioo (a : ℝ) b) (is ++ (if root then [point m] else []) ++ js) := by
  have h₁' : (a : ℝ) < m := Rat.cast_lt.2 h₁
  have h₂' : (m : ℝ) < b := Rat.cast_lt.2 h₂
  have hmid : Parts {(m : ℝ)} (if root then [point m] else []) := by
    split
    next => exact parts_singleton (reals_point m).subset
    next => exact parts_nil
  refine ((hi.append hmid ?_).append hj ?_).mono ?_
  · rintro x hx y rfl
    exact hx.2
  · rintro x (hx | rfl) y hy
    · exact hx.2.trans hy.1
    · exact hy.1
  · rintro x ((hx | rfl) | hx)
    · exact ⟨hx.1, hx.2.trans h₂'⟩
    · exact ⟨h₁', h₂'⟩
    · exact ⟨h₁'.trans hx.1, hx.2⟩

/-- The sort restores the order from left to right. -/
theorem mergeSort_of_perm (hperm : js.Perm is) (hisolating : ∀ i ∈ is, i.Isolating)
    (h : is.Pairwise LeftOf) : js.mergeSort sortsBefore = is := by
  have hsorted : (js.mergeSort sortsBefore).Pairwise fun i j => i.sortsBefore j = true :=
    List.pairwise_mergeSort sortsBefore_trans sortsBefore_total js
  have hordered : is.Pairwise fun i j => i.sortsBefore j = true :=
    h.imp_of_mem fun hi hj hij => hij.sortsBefore (hisolating _ hi) (hisolating _ hj)
  have hperm' := (List.mergeSort_perm js sortsBefore).trans hperm
  exact hperm'.eq_of_pairwise (fun i j hi hj => eq_of_sortsBefore
    (hisolating i (hperm'.mem_iff.1 hi)) (hisolating j hj)) hsorted hordered

end Interval

namespace UniPoly

variable {p : UniPoly} {chain : List UniPoly}

/-- Halving gives intervals from left to right. -/
theorem bisect_parts : ∀ {rounds : ℕ} {a b : ℚ} (h : a < b) {is : List Interval},
    bisect p chain rounds a b h = some is → Interval.Parts (Set.Ioo (a : ℝ) b) is
  | 0, _, _, _, _, heq => by cases heq
  | rounds + 1, a, b, h, is, heq => by
    rw [bisect] at heq
    split at heq
    next =>
      cases heq
      exact Interval.parts_nil
    next =>
      cases heq
      exact Interval.parts_singleton (Interval.reals_between h).subset
    next =>
      obtain ⟨left, hl, heq⟩ := Option.bind_eq_some_iff.1 heq
      obtain ⟨right, hr, heq⟩ := Option.bind_eq_some_iff.1 heq
      cases heq
      exact (bisect_parts _ hl).join (Rational.lt_midpoint h) (Rational.midpoint_lt h)
        (bisect_parts _ hr)

/-- The intervals lie from left to right, and none of them but a point holds zero if the roots are
split there. -/
theorem isolateRoots?_parts {rounds : ℕ} {splitAtZero : Bool} {is : List Interval}
    (h : p.isolateRoots? rounds splitAtZero = some is) :
    is.Pairwise Interval.LeftOf ∧
      (splitAtZero = true → ∀ i ∈ is, (0 : ℝ) ∈ i.reals → i = .point 0) := by
  simp only [isolateRoots?] at h
  split at h
  next =>
    cases h
    exact ⟨.nil, fun _ i hi => absurd hi List.not_mem_nil⟩
  next =>
    split at h
    next =>
      obtain ⟨left, hl, h⟩ := Option.bind_eq_some_iff.1 h
      obtain ⟨right, hr, h⟩ := Option.bind_eq_some_iff.1 h
      cases h
      have hleft := bisect_parts _ hl
      have hright := bisect_parts _ hr
      refine ⟨(hleft.join (by simp [cauchyBound_pos]) (cauchyBound_pos _) hright).ordered,
        fun _ i hi h0 => ?_⟩
      -- an interval left or right of zero ends there and does not contain it
      rcases List.mem_append.1 hi with hi | hi
      · rcases List.mem_append.1 hi with hi | hi
        · exact absurd (hleft.inside i hi h0).2 (by simp)
        · split at hi
          next => exact List.mem_singleton.1 hi
          next => cases hi
      · exact absurd (hright.inside i hi h0).1 (by simp)
    next hsplit => exact ⟨(bisect_parts _ h).ordered, fun hs => absurd hs hsplit⟩

/-- Only points and open intervals are found. -/
theorem isolating_of_isolateRoots? (hp : ¬p.isZero = true) {rounds : ℕ} {splitAtZero : Bool}
    {is : List Interval} (h : p.isolateRoots? rounds splitAtZero = some is) :
    ∀ i ∈ is, i.Isolating := by
  obtain ⟨xs, hisolates, -⟩ := isolateRoots?_lists hp h
  intro i hi
  obtain ⟨k, hk, rfl⟩ := List.getElem_of_mem hi
  exact (hisolates.get hk (hisolates.length_eq ▸ hk)).isolating

/-! ## The worklist -/

/-- One step of the worklist: no root, one root, or the interval is split. -/
theorem search_cons {a b : ℚ} (h : a < b) (found : List Interval) (queue : List (ℚ × ℚ)) :
    search p chain found ((a, b) :: queue)
      = match rootsIn chain (.between a b h) with
        | 0 => search p chain found queue
        | 1 => search p chain (found ++ [.between a b h]) queue
        | _ =>
          search p chain
            (found ++ if p.isRoot (Rational.midpoint a b) then [.point (Rational.midpoint a b)]
              else [])
            ((Rational.midpoint a b, b) :: (a, Rational.midpoint a b) :: queue) := by
  have hopen : Interval.open? a b = some (.between a b h) := dif_pos h
  rw [search, hopen]
  rfl

/-- The right half is searched before the left one, and the cut before both. -/
theorem perm_of_halves {α : Type} {left left' right right' cut : List α} (hl : left'.Perm left)
    (hr : right'.Perm right) : (cut ++ right' ++ left').Perm (left ++ cut ++ right) :=
  calc (cut ++ right' ++ left').Perm (left' ++ (cut ++ right')) := List.perm_append_comm
    _ |>.Perm (left ++ (cut ++ right)) := hl.append (hr.append_left cut)
    _ = left ++ cut ++ right := (List.append_assoc ..).symm

/-- The search in an interval finds what halving finds, in some order, and goes on with the rest of
the list. -/
theorem search_of_bisect : ∀ {rounds : ℕ} {a b : ℚ} (h : a < b) {is : List Interval},
    bisect p chain rounds a b h = some is → ∀ (found : List Interval) (queue : List (ℚ × ℚ)),
      ∃ js, js.Perm is ∧
        search p chain found ((a, b) :: queue) = search p chain (found ++ js) queue
  | 0, _, _, _, _, heq, _, _ => by cases heq
  | rounds + 1, a, b, h, is, heq, found, queue => by
    rw [bisect] at heq
    rw [search_cons h]
    generalize rootsIn chain (.between a b h) = n at heq ⊢
    rcases n with _ | _ | n
    · cases heq
      refine ⟨[], .refl _, ?_⟩
      show search p chain found queue = _
      rw [List.append_nil]
    · cases heq
      exact ⟨[.between a b h], .refl _, rfl⟩
    · -- the interval holds several roots
      obtain ⟨left, hl, heq⟩ := Option.bind_eq_some_iff.1 heq
      obtain ⟨right, hr, heq⟩ := Option.bind_eq_some_iff.1 heq
      cases heq
      set mid := Rational.midpoint a b
      set root : List Interval := if p.isRoot mid = true then [.point mid] else []
      -- the right half is on top of the list
      obtain ⟨js, hright, hsearch⟩ := search_of_bisect (Rational.midpoint_lt h) hr (found ++ root)
        ((a, mid) :: queue)
      obtain ⟨js', hleft, hsearch'⟩ := search_of_bisect (Rational.lt_midpoint h) hl
        (found ++ root ++ js) queue
      refine ⟨root ++ js ++ js', perm_of_halves hleft hright, ?_⟩
      show search p chain (found ++ root) ((mid, b) :: (a, mid) :: queue) = _
      rw [hsearch, hsearch', List.append_assoc, List.append_assoc, List.append_assoc]

/-- With any number of rounds that suffices, the search gives the same intervals. -/
theorem searchRoots?_eq (hp : ¬p.isZero = true) {rounds : ℕ} {splitAtZero : Bool}
    {is : List Interval} (h : p.isolateRoots? rounds splitAtZero = some is) :
    p.searchRoots? splitAtZero = some is := by
  have hisolating := isolating_of_isolateRoots? hp h
  have hordered := (isolateRoots?_parts h).1
  simp only [isolateRoots?] at h
  simp only [searchRoots?]
  split at h
  next hc =>
    rw [if_pos hc]
    exact h
  next hc =>
    rw [if_neg hc]
    cases splitAtZero with
    | false =>
      obtain ⟨js, hperm, hsearch⟩ := search_of_bisect _ h [] []
      rw [List.nil_append, search] at hsearch
      rw [if_neg Bool.false_ne_true, hsearch]
      exact congrArg some (Interval.mergeSort_of_perm hperm hisolating hordered)
    -- below zero, zero itself and above zero: the search goes through the halves in turn
    | true =>
      obtain ⟨left, hl, heq⟩ := Option.bind_eq_some_iff.1 h
      obtain ⟨right, hr, heq⟩ := Option.bind_eq_some_iff.1 heq
      cases heq
      set zero : List Interval := if p.squareFree.isRoot 0 = true then [.point 0] else []
      obtain ⟨js, hright, hsearch⟩ := search_of_bisect _ hr zero
        [(-p.squareFree.cauchyBound, 0)]
      obtain ⟨js', hleft, hsearch'⟩ := search_of_bisect _ hl (zero ++ js) []
      rw [if_pos rfl, hsearch, hsearch', search]
      exact congrArg some
        (Interval.mergeSort_of_perm (perm_of_halves hleft hright) hisolating hordered)

/-- Isolation ends, with a list of points and open intervals from left to right: no two of them
share an element, each holds one real root, and every real root is in one of them. If the roots are
split at zero, a root there is a point, and no open interval holds zero. -/
theorem searchRoots?_exact (hp : 0 < p.degree) (splitAtZero : Bool) :
    ∃ is, p.searchRoots? splitAtZero = some is ∧
      (∃ N, ∀ rounds ≥ N, p.isolateRoots? rounds splitAtZero = some is) ∧
      (∀ i ∈ is, i.Isolating) ∧ is.Pairwise Interval.LeftOf ∧
      (∀ i ∈ is, ∃! x, x ∈ p.realRoots ∩ i.reals) ∧
      (∀ x ∈ p.realRoots, ∃! i, i ∈ is ∧ x ∈ i.reals) ∧
      (splitAtZero = true →
        (p.isRoot 0 = true → .point 0 ∈ is) ∧ ∀ i ∈ is, (0 : ℝ) ∈ i.reals → i = .point 0) := by
  have hp' : ¬p.isZero = true := fun h => by
    rw [degree, isZero_iff.1 h] at hp
    exact lt_irrefl 0 hp
  obtain ⟨is, N, his⟩ := exists_isolateRoots? hp' splitAtZero
  have hisolating := isolating_of_isolateRoots? hp' (his N le_rfl)
  obtain ⟨hordered, hzero⟩ := isolateRoots?_parts (his N le_rfl)
  obtain ⟨xs, hisolates, hlists⟩ := isolateRoots?_lists hp' (his N le_rfl)
  have hfound : ∀ x ∈ p.realRoots, ∃ i ∈ is, x ∈ i.reals := fun x hx => by
    obtain ⟨k, hk, rfl⟩ := List.getElem_of_mem ((hlists.mem_iff x).2 ⟨hx, Set.mem_univ x⟩)
    have hk' : k < is.length := hisolates.length_eq ▸ hk
    exact ⟨is[k], List.getElem_mem hk', (hisolates.get hk' hk).mem.2⟩
  -- ordered intervals do not meet, so no root has two of them
  have hdisjoint : is.Pairwise fun i j => Disjoint i.reals j.reals :=
    hordered.imp fun hij => hij.disjoint
  have : Std.Symm fun i j : Interval => Disjoint i.reals j.reals := ⟨fun _ _ h => h.symm⟩
  refine ⟨is, searchRoots?_eq hp' (his N le_rfl), ⟨N, his⟩, hisolating, hordered, ?_, ?_, ?_⟩
  · intro i hi
    obtain ⟨k, hk, rfl⟩ := List.getElem_of_mem hi
    have hunique := (hisolates.get hk (hisolates.length_eq ▸ hk)).unique
    rw [List.get_eq_getElem] at hunique
    rw [hunique]
    exact ⟨_, rfl, fun y hy => hy⟩
  · intro x hx
    obtain ⟨i, hi, hxi⟩ := hfound x hx
    refine ⟨i, ⟨hi, hxi⟩, fun j hj => ?_⟩
    by_contra hne
    exact Set.disjoint_left.1 (hdisjoint.forall hj.1 hi hne) hj.2 hxi
  · intro hsplit
    refine ⟨fun hroot => ?_, hzero hsplit⟩
    have h0 := isRoot_ratCast.2 hroot
    rw [Rat.cast_zero] at h0
    obtain ⟨i, hi, hi0⟩ := hfound 0 h0
    rw [← hzero hsplit i hi hi0]
    exact hi

/-- Two irrational roots beside a root at zero. -/
theorem searchRoots?_cubic :
    let p := ofCoeffs 0 [0, -2, 0, 1]
    0 < p.degree ∧ p.isRoot 0 = true ∧ ∃ is, p.searchRoots? true = some is ∧ .point 0 ∈ is ∧
      is.Pairwise Interval.LeftOf ∧ ∀ x ∈ p.realRoots, ∃! i, i ∈ is ∧ x ∈ i.reals := by
  intro p
  have hdegree : 0 < p.degree := by decide +kernel
  have hroot : p.isRoot 0 = true := by decide +kernel
  obtain ⟨is, hsearch, -, -, hordered, -, hunique, hzero⟩ := searchRoots?_exact hdegree true
  exact ⟨hdegree, hroot, is, hsearch, (hzero rfl).1 hroot, hordered, hunique⟩

end UniPoly

end AlgebraicReal
