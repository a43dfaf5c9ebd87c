import AlgebraicReal.Proofs.Store

/-!
# Avoiding several numbers

An open interval from which some numbers have been cut away ends at the nearest of them on both
sides of the root, or where it ended before; if the root is one of them, nothing but the root is
left. `Remains` says this of a set of numbers, so the order in which they were avoided does not
show. Avoiding one more number adds it to the set (`Remains.avoid`), whether it is inside the
interval or has been cut away already, and by induction on the list a run leaves what the listed
numbers leave (`Remains.avoidAll`).

The count of narrowings does depend on the order: a number that is nearer to the root takes the
numbers behind it with it.
-/

namespace AlgebraicReal.Locator

variable {l : Locator} {x : ℝ} {a b q : ℚ} {s : Set ℚ}

/-! ## What is left of an interval -/

/-- The lower end `a`, and the numbers of `s` below `x`. -/
def lowerEnds (x : ℝ) (a : ℚ) (s : Set ℚ) : Set ℚ := insert a (s ∩ {c | (c : ℝ) < x})

/-- The upper end `b`, and the numbers of `s` above `x`. -/
def upperEnds (x : ℝ) (b : ℚ) (s : Set ℚ) : Set ℚ := insert b (s ∩ {c | x < (c : ℝ)})

/-- What is left for the root `x` of the open interval from `a` to `b` without the numbers of `s`:
the root alone if it is one of them, and else what lies between those nearest to it. -/
inductive Remains (x : ℝ) (a b : ℚ) (s : Set ℚ) : Interval → Prop
  | point {q : ℚ} (hq : q ∈ s) (hx : x = q) : Remains x a b s (.point q)
  | between {lo hi : ℚ} (h : lo < hi) (hne : ∀ q ∈ s, x ≠ q)
      (hlo : IsGreatest (lowerEnds x a s) lo) (hhi : IsLeast (upperEnds x b s) hi) :
      Remains x a b s (.between lo hi h)

/-- No numbers cut nothing away. -/
theorem remains_empty (hab : a < b) : Remains x a b ∅ (.between a b hab) := by
  refine .between hab (fun q hq => absurd hq (Set.notMem_empty q)) ?_ ?_
  · rw [lowerEnds, Set.empty_inter, insert_empty_eq]
    exact isGreatest_singleton
  · rw [upperEnds, Set.empty_inter, insert_empty_eq]
    exact isLeast_singleton

/-- What is left depends on the set of numbers only. -/
theorem Remains.unique {i j : Interval} (hi : Remains x a b s i) (hj : Remains x a b s j) :
    i = j := by
  cases hi with
  | point hq hx =>
    cases hj with
    | point hq' hx' => rw [Rat.cast_injective (hx.symm.trans hx')]
    | between h hne hlo hhi => exact absurd hx (hne _ hq)
  | between h hne hlo hhi =>
    cases hj with
    | point hq' hx' => exact absurd hx' (hne _ hq')
    | between h' hne' hlo' hhi' =>
      obtain rfl := hlo.unique hlo'
      obtain rfl := hhi.unique hhi'
      rfl

/-! ## One more number -/

theorem lowerEnds_insert (h : (q : ℝ) < x) :
    lowerEnds x a (insert q s) = insert q (lowerEnds x a s) := by
  have hinter := Set.insert_inter_of_mem (s := s) (t := {c : ℚ | (c : ℝ) < x}) h
  rw [lowerEnds, hinter, Set.insert_comm, lowerEnds]

theorem lowerEnds_insert_of_lt (h : x < (q : ℝ)) :
    lowerEnds x a (insert q s) = lowerEnds x a s := by
  have hinter := Set.insert_inter_of_notMem (s := s) (t := {c : ℚ | (c : ℝ) < x}) (lt_asymm h)
  rw [lowerEnds, hinter, lowerEnds]

theorem upperEnds_insert (h : x < (q : ℝ)) :
    upperEnds x b (insert q s) = insert q (upperEnds x b s) := by
  have hinter := Set.insert_inter_of_mem (s := s) (t := {c : ℚ | x < (c : ℝ)}) h
  rw [upperEnds, hinter, Set.insert_comm, upperEnds]

theorem upperEnds_insert_of_lt (h : (q : ℝ) < x) :
    upperEnds x b (insert q s) = upperEnds x b s := by
  have hinter := Set.insert_inter_of_notMem (s := s) (t := {c : ℚ | x < (c : ℝ)}) (lt_asymm h)
  rw [upperEnds, hinter, upperEnds]

/-- A number below the root moves the lower end up to itself, unless the end is there or beyond. -/
theorem Remains.insert_below {lo hi lo' : ℚ} {h : lo < hi} (hr : Remains x a b s (.between lo hi h))
    (hq : (q : ℝ) < x) (hmax : max q lo = lo') (hlt : lo' < hi) :
    Remains x a b (insert q s) (.between lo' hi hlt) := by
  cases hr with
  | between h hne hlo hhi =>
    refine .between hlt ?_ ?_ ?_
    · rintro r (rfl | hr)
      · exact hq.ne'
      · exact hne r hr
    · rw [lowerEnds_insert hq, ← hmax]
      exact hlo.insert q
    · rw [upperEnds_insert_of_lt hq]
      exact hhi

theorem Remains.insert_above {lo hi hi' : ℚ} {h : lo < hi} (hr : Remains x a b s (.between lo hi h))
    (hq : x < (q : ℝ)) (hmin : min q hi = hi') (hlt : lo < hi') :
    Remains x a b (insert q s) (.between lo hi' hlt) := by
  cases hr with
  | between h hne hlo hhi =>
    refine .between hlt ?_ ?_ ?_
    · rintro r (rfl | hr)
      · exact hq.ne
      · exact hne r hr
    · rw [lowerEnds_insert_of_lt hq]
      exact hlo
    · rw [upperEnds_insert hq, ← hmin]
      exact hhi.insert q

/-- A cut at a number inside takes that number away and no other. -/
theorem Remains.cutPart {lo hi : ℚ} {h : lo < hi} (hr : Remains x a b s (.between lo hi h))
    (hlo : lo < q) (hhi : q < hi) : Remains x a b (insert q s) (Locator.cutPart x hlo hhi) := by
  unfold Locator.cutPart
  rcases lt_trichotomy (q : ℝ) x with hq | hq | hq
  · rw [if_neg hq.ne', if_neg hq.not_gt]
    exact hr.insert_below hq (max_eq_left hlo.le) hhi
  · rw [if_pos hq.symm]
    exact .point (Set.mem_insert q s) hq.symm
  · rw [if_neg hq.ne, if_pos hq]
    exact hr.insert_above hq (min_eq_left hhi.le) hlo

/-- A number outside is away already. -/
theorem Remains.outside {lo hi : ℚ} {h : lo < hi} (hr : Remains x a b s (.between lo hi h))
    (hx : x ∈ (Interval.between lo hi h).reals)
    (hq : ¬(Interval.between lo hi h).contains q = true) :
    Remains x a b (insert q s) (.between lo hi h) := by
  rw [Interval.contains_iff_mem_reals, Interval.reals_between, Set.mem_Ioo, Rat.cast_lt,
    Rat.cast_lt, not_and_or, not_lt, not_lt] at hq
  rcases hq with hq | hq
  · exact hr.insert_below ((Rat.cast_le.2 hq).trans_lt hx.1) (max_eq_right hq) h
  · exact hr.insert_above (hx.2.trans_le (Rat.cast_le.2 hq)) (min_eq_right hq) h

/-- One call adds its number to those that are away. -/
theorem Remains.avoid (h : l.Locates x) (hr : Remains x a b s l.interval) (q : ℚ) :
    ∃ l', l.avoid q = .ok (decide (x ≠ q), l') ∧ l'.Locates x ∧ l'.poly = l.poly ∧
      Remains x a b (insert q s) l'.interval := by
  obtain ⟨l', n, he, hnar, -⟩ := h.avoid_eq q
  refine ⟨l', he, hnar.locates h, hnar.poly_eq h, ?_⟩
  have hx := h.mem
  generalize heq : l.interval = i at hr hx
  cases hr with
  | @point v hv hxv =>
    have hp : l.point? = some v := by rw [point?, heq, Interval.point?_point]
    rw [hnar.eq_of_point hp, heq]
    exact .point (Set.mem_insert_of_mem q hv) hxv
  | @between lo hi hlt hne hlo hhi =>
    have hr : Remains x a b s (.between lo hi hlt) := .between hlt hne hlo hhi
    have hp : l.point? = none := by rw [point?, heq, Interval.point?_between]
    -- a rational outside the interval leaves it as it is
    by_cases hq : l.interval.contains q = true
    · have hin := hq
      rw [heq, Interval.contains_iff_mem_reals] at hin
      have hloq : lo < q := Rat.cast_lt.1 hin.1
      have hqhi : q < hi := Rat.cast_lt.1 hin.2
      simp only [Locator.avoid, hp, if_pos hq, h.split_eq heq hloq hqhi] at he
      rw [← (Prod.mk.inj (Except.ok.inj he)).2]
      exact hr.cutPart hloq hqhi
    · simp only [Locator.avoid, hp, if_neg hq] at he
      rw [← (Prod.mk.inj (Except.ok.inj he)).2, heq]
      rw [heq] at hq
      exact hr.outside hx hq

/-! ## All numbers of a list -/

/-- Avoids the listed numbers one after the other, and tells of each whether the root differs from
it. -/
def avoidAll : List ℚ → Locator → Except Error (List Bool × Locator)
  | [], l => .ok ([], l)
  | q :: qs, l => do
    let (differs, l) ← l.avoid q
    let (rest, l) ← avoidAll qs l
    return (differs :: rest, l)

theorem Remains.avoidAll (h : l.Locates x) (hr : Remains x a b s l.interval) (qs : List ℚ) :
    ∃ l', Locator.avoidAll qs l = .ok (qs.map fun q : ℚ => decide (x ≠ q), l') ∧ l'.Locates x ∧
      l'.poly = l.poly ∧ Remains x a b ({q | q ∈ qs} ∪ s) l'.interval := by
  induction qs generalizing l s with
  | nil =>
    refine ⟨l, rfl, h, rfl, ?_⟩
    have hset : {q : ℚ | q ∈ ([] : List ℚ)} ∪ s = s := by simp
    rwa [hset]
  | cons q qs ih =>
    obtain ⟨l₁, he, h₁, hpoly, hr₁⟩ := hr.avoid h q
    obtain ⟨l₂, he', h₂, hpoly', hr₂⟩ := ih h₁ hr₁
    refine ⟨l₂, ?_, h₂, hpoly'.trans hpoly, ?_⟩
    · simp only [Locator.avoidAll, he, he', bind, Except.bind, pure, Except.pure, List.map_cons]
    · have hset : {r : ℚ | r ∈ q :: qs} ∪ s = {r | r ∈ qs} ∪ insert q s := by
        ext r
        simp only [Set.mem_union, Set.mem_ofPred_eq, List.mem_cons, Set.mem_insert_iff]
        tauto
      rwa [hset]

/-- The numbers of a list, avoided in any order, leave what lies between those nearest to the root,
or the root if it is listed. Every call answers whether the root differs from its number, and a
permutation of the list gives the same interval and the same answers. -/
theorem avoidAll_exact (h : l.Locates x) {hab : a < b} (hi : l.interval = .between a b hab)
    (qs : List ℚ) :
    ∃ l', avoidAll qs l = .ok (qs.map fun q : ℚ => decide (x ≠ q), l') ∧ l'.Locates x ∧
      l'.poly = l.poly ∧ Remains x a b {q | q ∈ qs} l'.interval ∧
      ∀ rs, qs.Perm rs → ∃ l'', avoidAll rs l = .ok (rs.map fun q : ℚ => decide (x ≠ q), l'') ∧
        l''.interval = l'.interval := by
  have hstart : Remains x a b ∅ l.interval := by
    rw [hi]
    exact remains_empty hab
  obtain ⟨l', he, hx, hpoly, hr⟩ := hstart.avoidAll h qs
  rw [Set.union_empty] at hr
  refine ⟨l', he, hx, hpoly, hr, fun rs hperm => ?_⟩
  obtain ⟨l'', he', -, -, hr'⟩ := hstart.avoidAll h rs
  have hset : {q | q ∈ rs} = {q | q ∈ qs} := Set.ext fun q => hperm.symm.mem_iff
  rw [Set.union_empty, hset] at hr'
  exact ⟨l'', he', hr'.unique hr⟩

/-- Of `3 / 2`, `3` and `5 / 4` the first and the last are next to the square root of two, and
become the ends in either order. -/
theorem avoidAll_sqrtTwo :
    ∃ l' l'', avoidAll [3 / 2, 3, 5 / 4] sqrtTwo = .ok ([true, true, true], l') ∧
      l'.interval = .between (5 / 4) (3 / 2) (by norm_num) ∧
      avoidAll [5 / 4, 3, 3 / 2] sqrtTwo = .ok ([true, true, true], l'') ∧
      l''.interval = .between (5 / 4) (3 / 2) (by norm_num) := by
  have hlower : ((5 / 4 : ℚ) : ℝ) < √2 := by
    rw [Real.lt_sqrt (by norm_num)]
    norm_num
  have hupper : √2 < ((3 / 2 : ℚ) : ℝ) := by
    rw [Real.sqrt_lt' (by norm_num)]
    norm_num
  have hthree : √2 < ((3 : ℚ) : ℝ) := hupper.trans (by norm_num)
  have hi : sqrtTwo.interval = .between 1 2 (by decide) := rfl
  obtain ⟨l', he, -, -, hr, hperm⟩ := avoidAll_exact locates_sqrtTwo hi [3 / 2, 3, 5 / 4]
  obtain ⟨l'', he', heq⟩ := hperm [5 / 4, 3, 3 / 2] (List.reverse_perm _).symm
  have hleft : Remains √2 1 2 {q | q ∈ [3 / 2, 3, 5 / 4]}
      (.between (5 / 4) (3 / 2) (by norm_num)) := by
    have hset : {q : ℚ | q ∈ [3 / 2, 3, 5 / 4]} = insert (3 / 2) (insert 3 (insert (5 / 4) ∅)) := by
      ext q
      simp
    have hone : Remains √2 1 2 (insert (5 / 4) ∅) (.between (5 / 4) 2 (by norm_num)) :=
      (remains_empty (by norm_num)).insert_below hlower (by norm_num) _
    have htwo : Remains √2 1 2 (insert 3 (insert (5 / 4) ∅)) (.between (5 / 4) 2 (by norm_num)) :=
      hone.insert_above hthree (by norm_num) _
    rw [hset]
    exact htwo.insert_above hupper (by norm_num) _
  simp only [List.map_cons, List.map_nil, decide_eq_true hupper.ne, decide_eq_true hthree.ne,
    decide_eq_true hlower.ne'] at he he'
  exact ⟨l', l'', he, hr.unique hleft, he', heq.trans (hr.unique hleft)⟩

end AlgebraicReal.Locator
