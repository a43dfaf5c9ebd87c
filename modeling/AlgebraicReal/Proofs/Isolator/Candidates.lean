import AlgebraicReal.Proofs.Number.Basic
import AlgebraicReal.RootExpr

/-!
# Candidates

The roots of an eliminant are candidates. Each is put to a test, and those that pass are kept in
their order. This holds for polynomials of any arithmetic: what the tests tell enters as a hypothesis
(`ZeroTests`), and what is kept follows (`isolate_exactIf`).

Two conditions go with the tests. Under `D` their answers are right, and under `C` they come to an
end. Without the conditions the isolation is still safe.
-/

namespace AlgebraicReal

open RefineM

/-- Numbers that stand for the members of a set of reals, in strictly ascending order. -/
def Number.Lists (s : Store) (S : Set ℝ) (ns : List Number) : Prop :=
  ∃ xs : List ℝ, List.Forall₂ (fun n x => n.Denotes s x) ns xs ∧ xs.Pairwise (· < ·) ∧
    ∀ x, x ∈ xs ↔ x ∈ S

theorem Number.forall₂_narrowed {s t : Store} (hs : s.Valid) (hn : s.Narrowed t) {ns : List Number}
    {xs : List ℝ} (h : List.Forall₂ (fun n x => n.Denotes s x) ns xs) :
    List.Forall₂ (fun n x => n.Denotes t x) ns xs :=
  h.imp fun _ _ hd => hd.narrowed hs hn

theorem Number.Lists.narrowed {s t : Store} {S : Set ℝ} {ns : List Number} (h : Number.Lists s S ns)
    (hs : s.Valid) (hn : s.Narrowed t) : Number.Lists t S ns := by
  obtain ⟨xs, hxs, hrest⟩ := h
  exact ⟨xs, forall₂_narrowed hs hn hxs, hrest⟩

/-- The number of a locator whose polynomial has leading coefficient one. -/
theorem Number.ofRoot_exact {s : Store} (hs : s.Valid) {id : LocatorId}
    (hid : id < s.locators.size) {x : ℝ} (hx : (s.get id).Locates x)
    (hmonic : (s.get id).poly.toPolynomial.Monic) :
    Exact (Number.ofRoot id) s fun n t => n.Denotes t x := by
  obtain ⟨l, k, he, hnar, -⟩ := hx.avoid_eq 0
  have hnarrow : Exact (RefineM.narrow id fun l => return (← l.avoid 0).2) s fun _ t =>
      (t.get id).Locates x ∧ (t.get id).poly.toPolynomial.Monic := by
    refine Exact.narrow (P := fun l => l.Locates x ∧ l.poly.toPolynomial.Monic) hs hid
      ⟨l, k, ?_, hnar, hnar.locates hx, (hnar.poly_eq hx).symm ▸ hmonic⟩
    rw [he]
    rfl
  refine hnarrow.bind fun _ t hnar' hval ht => Exact.get_bind ?_
  by_cases hd : (t.get id).poly.degree = 1
  · simp only [if_pos hd]
    exact Exact.pure hval (Number.eq_of_isRoot_linear ht.2 hd ht.1.isRoot)
  · simp only [if_neg hd]
    exact Exact.pure hval ⟨hid.trans_le hnar'.size_le, ht.1⟩

namespace AlgebraicPoint

variable {P : Type} [Arithmetic P] {C D : Prop} {s t : Store} {point : AlgebraicPoint} {p : P}
  {v : Var} {e : UniPoly} {Z : ℝ → Prop}

/-- Tests at the roots of `e` whether the polynomial vanishes there, which is to say whether the root
has the property `Z`. They work in every later store. -/
structure ZeroTests (C D : Prop) (s : Store) (point : AlgebraicPoint) (p : P) (v : Var)
    (e : UniPoly) (Z : ℝ → Prop) : Prop where
  rational : ∀ {t : Store} {q : ℚ}, s.Narrowed t → t.Valid → e.overReal.IsRoot q →
    ExactIf C (point.vanishesAt p v q) t fun b _ => D → (b = true ↔ Z q)
  root : ∀ {t : Store} {id : LocatorId} {x : ℝ}, s.Narrowed t → t.Valid →
    id < t.locators.size → (t.get id).Locates x → e.overReal.IsRoot x →
      ExactIf C (point.vanishesAtRoot p v id) t fun b _ => D → (b = true ↔ Z x)

theorem ZeroTests.narrowed (h : ZeroTests C D s point p v e Z) (hn : s.Narrowed t) :
    ZeroTests C D t point p v e Z where
  rational hn' := h.rational (hn.trans hn')
  root hn' := h.root (hn.trans hn')

/-- A candidate is kept exactly if it passes the test. -/
theorem candidate_exactIf (htests : ZeroTests C D s point p v e Z) (hmonic : e.toPolynomial.Monic)
    (hs : s.Valid) {i : Interval} {x : ℝ} (hi : e.Isolates i x) :
    ExactIf C (point.candidate p v e i) s fun o t => (∀ n, o = some n → n.Denotes t x) ∧
      (D → (o.isSome = true ↔ Z x)) := by
  have hl := Locator.locates_fresh (UniPoly.toPolynomial_ne_zero_iff.1 hmonic.ne_zero) hi
  unfold candidate
  cases hq : i.point? with
  | some q =>
    obtain rfl : x = q := hl.eq_point hq
    refine (htests.rational (.refl s) hs hi.mem.1).bind fun b t _ hval hb => ?_
    refine ExactIf.pure hval ?_
    cases b with
    | true =>
      refine ⟨fun n hn => ?_, fun hD => iff_of_true rfl ((hb hD).1 rfl)⟩
      cases hn
      exact Number.denotes_ofRational t q
    | false => exact ⟨nofun, fun hD => iff_of_false nofun fun h => nomatch (hb hD).2 h⟩
  | none =>
    refine (Exact.allocate hs hl).exactIf.bind fun id t hnar hval hid => ?_
    -- the root is tested as a coordinate, and then it is the number that is returned
    have hx : (t.get id).Locates x := by
      rw [hid.2]
      exact hl
    refine (htests.root hnar hval hid.1 hx hi.mem.1).bind fun b u hnar' hval' hb => ?_
    cases b with
    | true =>
      have hpoly : (u.get id).poly.toPolynomial.Monic := by
        rw [hnar'.poly_eq hval hid.1, hid.2]
        exact hmonic
      refine (Number.ofRoot_exact hval' (hid.1.trans_le hnar'.size_le) (hnar'.locates hid.1 hx)
        hpoly).exactIf.bind fun n w _ hval'' hn =>
          ExactIf.pure hval'' ⟨fun m hm => ?_, fun hD => ?_⟩
      · cases hm
        exact hn
      · exact iff_of_true rfl ((hb hD).1 rfl)
    | false =>
      exact ExactIf.pure hval' ⟨nofun, fun hD => iff_of_false nofun fun h => nomatch (hb hD).2 h⟩

open Classical in
/-- The candidates that pass are kept, in their order. -/
theorem keepRoots_exactIf (hmonic : e.toPolynomial.Monic) : ∀ {is : List Interval} {xs : List ℝ}
    {s : Store}, ZeroTests C D s point p v e Z → s.Valid → List.Forall₂ e.Isolates is xs →
      ExactIf C (point.keepRoots p v e is) s fun ns t => ∃ ys,
        List.Forall₂ (fun n x => n.Denotes t x) ns ys ∧ (D → ys = xs.filter fun x => Z x)
  | [], [], _, _, hs, _ => ExactIf.pure hs ⟨[], .nil, fun _ => rfl⟩
  | i :: is, x :: xs, s, htests, hs, .cons hi his => by
    rw [keepRoots]
    refine (candidate_exactIf htests hmonic hs hi).bind fun o t hnar hval ho => ?_
    cases o with
    | some n =>
      refine (keepRoots_exactIf hmonic (htests.narrowed hnar) hval his).bind
        fun ns u hnar' hval' hns => ?_
      obtain ⟨ys, hys, hfilter⟩ := hns
      have hn := (ho.1 n rfl).narrowed hval hnar'
      refine ExactIf.pure hval' ⟨x :: ys, .cons hn hys, fun hD => ?_⟩
      rw [List.filter_cons_of_pos, hfilter hD]
      exact decide_eq_true ((ho.2 hD).1 rfl)
    -- the candidate is dropped, and the tally notes it
    | none =>
      refine (Exact.count hval _).exactIf.bind fun _ u hnar' hval' _ => ?_
      refine (keepRoots_exactIf hmonic (htests.narrowed (hnar.trans hnar')) hval' his).mono
        fun ns w _ _ hns => ?_
      obtain ⟨ys, hys, hfilter⟩ := hns
      refine ⟨ys, hys, fun hD => ?_⟩
      rw [List.filter_cons_of_neg, hfilter hD]
      rw [decide_eq_true_iff]
      exact fun h => nomatch (ho.2 hD).2 h

/-! ## The roots of an eliminant -/

/-- The polynomial whose roots are isolated. -/
def isolated (config : IsolationConfig) (u : UniPoly) : UniPoly :=
  if config.squareFree then u.squareFree else u.normalized

theorem isolated_spec (config : IsolationConfig) {u : UniPoly} (hu : ¬u.isZero = true) :
    (isolated config u).toPolynomial.Monic ∧
      ∀ x, (isolated config u).overReal.IsRoot x ↔ u.overReal.IsRoot x := by
  have hne := UniPoly.toPolynomial_ne_zero_iff.2 hu
  unfold isolated
  split
  next => exact ⟨UniPoly.monic_squareFree hne, fun x => UniPoly.isRoot_squareFree⟩
  next => exact ⟨UniPoly.monic_normalized hne, fun x => UniPoly.isRoot_normalized⟩

theorem forall₂_withRootFlag {ns : List Number} {xs : List ℝ}
    (h : List.Forall₂ (fun n x => n.Denotes s x) ns xs) (flag : Bool) :
    List.Forall₂ (fun n x => n.Denotes s x) (ns.map (·.withRootFlag flag)) xs := by
  rw [List.forall₂_map_left_iff]
  exact h

/-- The candidates that pass are the roots with the property, in ascending order. -/
theorem isolate_exactIf (config : IsolationConfig) {u : UniPoly} (hu : ¬u.isZero = true)
    (htests : ZeroTests C D s point p v (isolated config u) Z) (hs : s.Valid) :
    ExactIf C (do
      match (isolated config u).isolateRoots? (← read) config.splitAtZero with
      | none => throw .exhausted
      | some intervals =>
        RefineM.count fun t => { t with candidates := t.candidates + intervals.length }
        let numbers ← point.keepRoots p v (isolated config u) intervals
        return some (numbers.map (·.withRootFlag config.markRoots))) s fun o t => ∀ ns, o = some ns →
      (∃ xs, List.Forall₂ (fun n x => n.Denotes t x) ns xs) ∧
        (D → Number.Lists t {x | u.overReal.IsRoot x ∧ Z x} ns) := by
  classical
  obtain ⟨hmonic, hroots⟩ := isolated_spec config hu
  refine isolateRoots_exactIf hs (UniPoly.toPolynomial_ne_zero_iff.1 hmonic.ne_zero)
    config.splitAtZero fun is his => ?_
  obtain ⟨xs, hxs, hlists⟩ := his
  refine (Exact.count hs _).exactIf.bind fun _ t hnar hval _ => ?_
  refine (keepRoots_exactIf hmonic (htests.narrowed hnar) hval hxs).bind
    fun ns w _ hval' hns => ExactIf.pure hval' fun ms hms => ?_
  obtain ⟨ys, hys, hfilter⟩ := hns
  cases hms
  -- marking the numbers as roots does not change what they denote
  have hflag := forall₂_withRootFlag hys config.markRoots
  refine ⟨⟨ys, hflag⟩, fun hD => ⟨ys, hflag, ?_, fun x => ?_⟩⟩
  · rw [hfilter hD]
    exact hlists.ascending.filter _
  · rw [hfilter hD, List.mem_filter, hlists.mem_iff, Set.inter_univ, decide_eq_true_iff]
    exact and_congr_left fun _ => hroots x

end AlgebraicPoint

end AlgebraicReal
