import AlgebraicReal.Proofs.Number.Basic

/-!
# Numbers from intervals

A polynomial and an interval make a number if the polynomial is not constant, the interval is open
or a point, and exactly one root of the polynomial lies in it. Anything else is refused, and the
store is as before. The number is rational where it has to be; otherwise it is kept in an open
interval inside the given one, which is cut at zero if zero was in it (`Number.Keeps`).
-/

open Polynomial

namespace AlgebraicReal

open RefineM

theorem Interval.isolating_iff {i : Interval} :
    i.Isolating ↔ i.isOpen = true ∨ i.isPoint = true := by
  constructor
  · intro h
    cases h with
    | point q =>
      right
      rw [isPoint, point?_point]
      rfl
    | between a b hab => exact Or.inl rfl
  · intro h
    exact h.elim Number.isolating_of_isOpen Number.isolating_of_isPoint

/-- Avoiding a number leaves that number, if it is the root, or else an open part without it. -/
theorem Locator.Locates.avoided {l l' : Locator} {x : ℝ} {q : ℚ} {answer : Bool}
    (h : l.Locates x) (hp : l.point? = none) (ha : l.avoid q = .ok (answer, l')) :
    l'.Locates x ∧ l'.poly = l.poly ∧ (x = q → l'.point? = some q) ∧
      (x ≠ q → ∃ a b hab, l'.interval = .between a b hab ∧
        Set.Ioo (a : ℝ) b ⊆ l.interval.reals ∧ l.poly.realRoots ∩ Set.Ioo (a : ℝ) b = {x} ∧
        (q : ℝ) ∉ Set.Ioo (a : ℝ) b) := by
  obtain ⟨m, k, havoid, hnar, houtside⟩ := h.avoid_eq q
  rw [havoid] at ha
  cases ha
  have hlocates := hnar.locates h
  have hpoly := hnar.poly_eq h
  have hpoint := point?_avoid hp havoid
  refine ⟨hlocates, hpoly, ?_, ?_⟩
  · -- the locator becomes a point only if the root is `q`
    intro hx
    rwa [decide_eq_false (not_not.2 hx), if_neg Bool.false_ne_true] at hpoint
  · intro hx
    rw [decide_eq_true hx, if_pos rfl] at hpoint
    obtain ⟨a, b, hab, hinterval, -, -⟩ := hlocates.exists_between hpoint
    have hsub := hnar.subset h
    have hunique := hlocates.isolates.unique
    have hnotin := mt Interval.contains_iff_mem_reals.2 (Bool.eq_false_iff.1 (houtside hx))
    rw [hinterval] at hsub hnotin
    rw [hpoly, hinterval] at hunique
    exact ⟨a, b, hab, hinterval, hsub, hunique, hnotin⟩

namespace Number

variable {p : UniPoly} {i : Interval} {s t : Store} {m : Number} {x : ℝ} (rounds : ℕ)

/-- What a number built from an interval is: the only root of the polynomial in the interval. It is
rational if the square-free part is linear, the interval is a point or the root is zero. Otherwise
it has a locator with the square-free part and an open interval inside the given one, away from
zero. -/
structure Keeps (p : UniPoly) (i : Interval) (m : Number) (t : Store) (x : ℝ) : Prop where
  root : p.realRoots ∩ i.reals = {x}
  denotes : m.Denotes t x
  rational : p.squareFree.toPolynomial.natDegree = 1 ∨ i.isPoint = true ∨ x = 0 →
    ∃ q : ℚ, m.form t = .rational q ∧ x = q
  located : ¬(p.squareFree.toPolynomial.natDegree = 1 ∨ i.isPoint = true ∨ x = 0) →
    ∃ id a b hab, m.form t = .root id ∧ (t.get id).poly = p.squareFree ∧
      (t.get id).interval = .between a b hab ∧ Set.Ioo (a : ℝ) b ⊆ i.reals ∧
      p.squareFree.realRoots ∩ Set.Ioo (a : ℝ) b = {x} ∧ (0 : ℝ) ∉ Set.Ioo (a : ℝ) b

theorem Keeps.of_rational {q : ℚ} (h : p.realRoots ∩ i.reals = {(q : ℝ)})
    (hq : p.squareFree.toPolynomial.natDegree = 1 ∨ i.isPoint = true) :
    Keeps p i (ofRational q) t q where
  root := h
  denotes := denotes_ofRational t q
  rational _ := ⟨q, form_ofRational t q, rfl⟩
  located hnot := absurd (hq.imp_right Or.inl) hnot

/-- The number of a new locator that comes from the given interval by keeping it off zero. -/
theorem Keeps.of_avoid {l : Locator} {answer : Bool} (hp : ¬p.squareFree.isZero = true)
    (hx : p.squareFree.Isolates i x) (hd : p.squareFree.toPolynomial.natDegree ≠ 1)
    (hi : i.point? = none) (hl : (Locator.fresh p.squareFree i).avoid 0 = .ok (answer, l)) :
    Keeps p i { stored := .root (s.add l).1 } (s.add l).2 x := by
  obtain ⟨hlocates, hpoly, hcut, hopen⟩ := (Locator.locates_fresh hp hx).avoided hi hl
  rw [Rat.cast_zero] at hcut hopen
  have hget := Store.get_add_self s l
  refine ⟨?_, ?_, ?_, ?_⟩
  · rw [← UniPoly.realRoots_squareFree]
    exact hx.unique
  · refine ⟨?_, ?_⟩
    · rw [Store.size_add]
      exact Nat.lt_succ_self _
    · rw [hget]
      exact hlocates
  · intro hrational
    -- of the three reasons for a rational the first two are excluded, the root is zero
    have hzero : x = 0 := by
      rcases hrational with h | h | h
      · exact absurd h hd
      · rw [Interval.isPoint, hi] at h
        cases h
      · exact h
    refine ⟨0, ?_, ?_⟩
    · simp only [form, hget, hcut hzero]
    · rw [hzero, Rat.cast_zero]
  · intro hnot
    -- zero was cut away, so an open interval is left
    have hzero : x ≠ 0 := fun h => hnot (Or.inr (Or.inr h))
    obtain ⟨a, b, hab, hinterval, hsub, hunique, houtside⟩ := hopen hzero
    refine ⟨(s.add l).1, a, b, hab, ?_, ?_, ?_, hsub, hunique, houtside⟩
    · have hpoint : l.point? = none := by
        rw [Locator.point?, hinterval, Interval.point?_between]
      simp only [form, hget, hpoint]
    · rw [hget]
      exact hpoly
    · rw [hget]
      exact hinterval

/-! ## Outcomes -/

theorem exec_ofInterval_constant (h : p.isConstant = true) :
    exec (ofInterval p i) rounds s = (.error .degeneratePolynomial, s) := by
  unfold ofInterval
  rw [if_pos h]
  rfl

theorem exec_ofInterval_refused (hc : ¬p.isConstant = true)
    (h : p.squareFree.countRoots i ≠ 1 ∨ ¬(i.isOpen = true ∨ i.isPoint = true)) :
    exec (ofInterval p i) rounds s =
      (.error (.invalidIsolatingInterval i (p.squareFree.countRoots i)), s) := by
  unfold ofInterval
  rw [if_neg hc]
  simp only [if_pos h]
  rfl

/-- Exactly one root in an interval of the right shape is found and kept. -/
theorem exists_exec_ofInterval (hc : ¬p.isConstant = true) (hx : p.squareFree.Isolates i x) :
    ∃ m t, exec (ofInterval p i) rounds s = (.ok m, t) ∧ Keeps p i m t x := by
  have hz := UniPoly.toPolynomial_ne_zero_iff.2 (UniPoly.not_isZero_of_not_isConstant hc)
  have hsz := UniPoly.toPolynomial_ne_zero_iff.1 (UniPoly.squareFree_ne_zero hz)
  have hroot : p.realRoots ∩ i.reals = {x} := by
    rw [← UniPoly.realRoots_squareFree]
    exact hx.unique
  have hcount : p.squareFree.countRoots i = 1 := by
    rw [UniPoly.countRoots_eq_ncard hsz, hx.unique, Set.ncard_singleton]
  have haccept : ¬(p.squareFree.countRoots i ≠ 1 ∨ ¬(i.isOpen = true ∨ i.isPoint = true)) :=
    not_or.2 ⟨not_not.2 hcount, not_not.2 (Interval.isolating_iff.1 hx.isolating)⟩
  have hfresh := Locator.locates_fresh hsz hx
  unfold ofInterval
  rw [if_neg hc]
  simp only [if_neg haccept]
  -- linear, a point, or an open interval from which zero is cut
  by_cases hd : p.squareFree.degree = 1
  · have hq := eq_of_isRoot_linear (UniPoly.monic_squareFree hz) hd hfresh.isRoot
    simp only [if_pos hd]
    subst hq
    refine ⟨_, _, rfl, .of_rational hroot (Or.inl ?_)⟩
    rw [UniPoly.natDegree_toPolynomial, hd]
  · simp only [if_neg hd]
    cases hi : i.point? with
    | some q =>
      obtain rfl := hfresh.eq_point hi
      refine ⟨_, _, rfl, .of_rational hroot (Or.inr ?_)⟩
      rw [Interval.isPoint, hi]
      rfl
    | none =>
      obtain ⟨l, k, havoid, -, -⟩ := hfresh.avoid_eq 0
      rw [havoid]
      refine ⟨_, _, rfl, .of_avoid hsz hx ?_ hi havoid⟩
      rwa [UniPoly.natDegree_toPolynomial]

/-- Building a number from an interval is refused if and only if the polynomial is constant or the
interval has the wrong shape or a number of roots other than one, and the error names the interval
and that number. In all other cases it gives the root, kept as `Keeps` says, with the square-free
part of the polynomial. -/
theorem ofInterval_validates (p : UniPoly) (i : Interval) (s : Store) :
    (exec (ofInterval p i) rounds s = (.error .degeneratePolynomial, s) ↔
      p.toPolynomial.natDegree = 0) ∧
    (∀ n, exec (ofInterval p i) rounds s = (.error (.invalidIsolatingInterval i n), s) ↔
      p.toPolynomial.natDegree ≠ 0 ∧ n = (p.realRoots ∩ i.reals).ncard ∧
        (n ≠ 1 ∨ ¬i.Isolating)) ∧
    (p.toPolynomial.natDegree ≠ 0 → (p.realRoots ∩ i.reals).ncard = 1 → i.Isolating →
      ∃ m t x, exec (ofInterval p i) rounds s = (.ok m, t) ∧ Keeps p i m t x ∧
        p.squareFree.IsSquareFreePart p) := by
  have hconstant := UniPoly.isConstant_iff_natDegree (p := p)
  -- one of the three outcomes holds, and it excludes the conditions of the other two
  by_cases hc : p.isConstant = true
  · have hdegree := hconstant.1 hc
    rw [exec_ofInterval_constant rounds hc]
    refine ⟨iff_of_true rfl hdegree, fun n => iff_of_false nofun ?_, fun h => absurd hdegree h⟩
    exact fun h => h.1 hdegree
  have hdegree : p.toPolynomial.natDegree ≠ 0 := hconstant.not.1 hc
  have hz := UniPoly.toPolynomial_ne_zero_iff.2 (UniPoly.not_isZero_of_not_isConstant hc)
  have hsz := UniPoly.toPolynomial_ne_zero_iff.1 (UniPoly.squareFree_ne_zero hz)
  have hcount : p.squareFree.countRoots i = (p.realRoots ∩ i.reals).ncard := by
    rw [UniPoly.countRoots_eq_ncard hsz, UniPoly.realRoots_squareFree]
  by_cases h : (p.realRoots ∩ i.reals).ncard = 1 ∧ i.Isolating
  · obtain ⟨hone, hshape⟩ := h
    obtain ⟨x, hx⟩ := Set.ncard_eq_one.1 hone
    obtain ⟨m, t, hexec, hkeeps⟩ := exists_exec_ofInterval (s := s) rounds hc
      ⟨hshape, (UniPoly.realRoots_squareFree p).symm ▸ hx⟩
    rw [hexec]
    refine ⟨iff_of_false nofun hdegree, fun n => iff_of_false nofun ?_, fun _ _ _ => ?_⟩
    · intro hrefused
      obtain ⟨-, rfl, hwrong⟩ := hrefused
      exact hwrong.elim (fun hne => hne hone) fun hne => hne hshape
    · exact ⟨m, t, x, rfl, hkeeps, UniPoly.isSquareFreePart_squareFree hz⟩
  · have hwrong : (p.realRoots ∩ i.reals).ncard ≠ 1 ∨ ¬i.Isolating := not_and_or.1 h
    rw [exec_ofInterval_refused rounds hc (by rwa [hcount, ← Interval.isolating_iff]), hcount]
    refine ⟨iff_of_false nofun hdegree, fun n => ?_, fun _ hone hshape => absurd ⟨hone, hshape⟩ h⟩
    constructor
    · intro heq
      cases heq
      exact ⟨hdegree, rfl, hwrong⟩
    · intro hrefused
      obtain ⟨-, rfl, -⟩ := hrefused
      rfl

/-- The double roots of `(x² - 2)²`: a constant polynomial, an interval with both roots, a closed
interval with one of them, and an open one that is cut at zero. -/
theorem ofInterval_validates_double_root :
    let p := UniPoly.ofCoeffs 0 [4, 0, -4, 0, 1]
    let both := Interval.between (-2) 2 (by decide)
    let closed : Interval := ⟨.weak 1, .weak 2, by decide⟩
    let around := Interval.between (-1) 2 (by decide)
    exec (ofInterval (.ofCoeffs 0 [5]) both) 0 {} = (.error .degeneratePolynomial, {}) ∧
    exec (ofInterval p both) 0 {} = (.error (.invalidIsolatingInterval both 2), {}) ∧
    exec (ofInterval p closed) 0 {} = (.error (.invalidIsolatingInterval closed 1), {}) ∧
    p.toPolynomial.natDegree ≠ 0 ∧ (p.realRoots ∩ around.reals).ncard = 1 ∧ around.Isolating ∧
    ∃ m t x id, exec (ofInterval p around) 0 {} = (.ok m, t) ∧ Keeps p around m t x ∧
      m.form t = .root id := by
  intro p both closed around
  have hz : ¬p.isZero = true := by decide +kernel
  have hdegree : p.toPolynomial.natDegree ≠ 0 := by
    rw [UniPoly.natDegree_toPolynomial]
    decide +kernel
  have hboth : (p.realRoots ∩ both.reals).ncard = 2 := by
    rw [← UniPoly.countRoots_eq_ncard hz]
    decide +kernel
  have hclosed : (p.realRoots ∩ closed.reals).ncard = 1 := by
    rw [← UniPoly.countRoots_eq_ncard hz]
    decide +kernel
  have haround : (p.realRoots ∩ around.reals).ncard = 1 := by
    rw [← UniPoly.countRoots_eq_ncard hz]
    decide +kernel
  have hshape : around.Isolating := .between (-1) 2 (by decide)
  refine ⟨?_, ?_, ?_, hdegree, haround, hshape, ?_⟩
  · apply (ofInterval_validates 0 _ _ _).1.2
    rw [UniPoly.natDegree_toPolynomial]
    decide_cbv
  · exact ((ofInterval_validates 0 _ _ _).2.1 2).2 ⟨hdegree, hboth.symm, Or.inl (by decide)⟩
  · apply ((ofInterval_validates 0 _ _ _).2.1 1).2
    refine ⟨hdegree, hclosed.symm, Or.inr ?_⟩
    rw [Interval.isolating_iff]
    decide_cbv
  · obtain ⟨m, t, x, hexec, hkeeps, -⟩ := (ofInterval_validates 0 p around {}).2.2 hdegree haround
      hshape
    have hx : x ∈ p.realRoots ∩ around.reals := by
      rw [hkeeps.root]
      exact Set.mem_singleton x
    obtain ⟨id, -, -, -, hform, -⟩ := hkeeps.located <| by
      intro h
      rcases h with h | h | rfl
      · rw [UniPoly.natDegree_toPolynomial] at h
        exact absurd h (by decide_cbv)
      · cases h
      · have hroot : p.overReal.IsRoot ((0 : ℚ) : ℝ) := by
          rw [Rat.cast_zero]
          exact hx.1
        exact absurd (UniPoly.isRoot_ratCast.1 hroot) (by decide_cbv)
    exact ⟨m, t, x, id, hexec, hkeeps, hform⟩

end Number

end AlgebraicReal
