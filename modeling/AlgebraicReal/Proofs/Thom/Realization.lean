import AlgebraicReal.Proofs.Thom.Order

/-!
# Building encodings

Isolating the roots of the square-free part and asking for the signs of its derivatives at each of
them gives one encoding for each real root, in ascending order (`realizeAll_exactIf`). Different
roots have different signs, so a search among the encodings for given signs finds the one root that
has them (`realize_exact`). If there is none, the request is refused (`realize_refuses`).
-/

open Polynomial

namespace AlgebraicReal

namespace Thom

open RefineM

variable {s : Store} {p : UniPoly} {x : ℝ} {signs : List Sign}

/-- The encoding is that of a root of `p`, taken as a root of its square-free part. -/
structure Encodes (p : UniPoly) (s : Store) (t : Thom) (x : ℝ) : Prop where
  denotes : t.Denotes s x
  poly_eq : t.poly = p.squareFree

theorem Encodes.signs_eq {t : Thom} (h : Encodes p s t x) : t.signs = signsAt p.squareFree x := by
  rw [← h.poly_eq]
  exact h.denotes.signs_eq

/-! ## All roots -/

/-- The encoding of the root in an isolating interval. -/
theorem ofInterval_exact (hs : s.Valid) (hp : p.toPolynomial.Monic) {i : Interval}
    (hi : p.Isolates i x) :
    Exact (ofInterval p i) s fun t s' => t.Denotes s' x ∧ t.poly = p := by
  have hl := Locator.locates_fresh (UniPoly.toPolynomial_ne_zero_iff.1 hp.ne_zero) hi
  have hsigns : Exact (do RefineM.ofExcept ((Locator.fresh p i).signs (← read) (derivatives p))) s
      fun r _ => r.1 = (derivatives p).map (fun q => Sign.ofReal (q.overReal.eval x)) ∧
        ∃ n, Locator.Narrows n (Locator.fresh p i) r.2 := by
    refine Exact.read_ofExcept hs (fun rounds => ?_) ?_
    · rcases hl.signs_eq rounds (derivatives p) with he | ⟨l, n, he, hnar⟩
      · exact .inl he
      · exact .inr ⟨_, he, rfl, n, hnar⟩
    · obtain ⟨l, n, N, -, he⟩ := hl.exists_signs (derivatives p)
      exact ⟨_, N, he⟩
  refine Exact.read_bind hsigns fun r s₁ _ hval hr => ?_
  obtain ⟨signs, l⟩ := r
  obtain ⟨hsig, n, hnar⟩ := hr
  refine (Exact.allocate hval (hnar.locates hl)).bind fun id s₂ _ hval₂ hid => Exact.pure hval₂ ?_
  exact ⟨denotes_allocated hid (hnar.locates hl) (hnar.poly_eq hl) hp hsig, rfl⟩

/-- The encodings found are those of all real roots, in ascending order. -/
theorem realizeAll_exactIf (hs : s.Valid) (p : UniPoly) :
    ExactIf (0 < p.degree) (realizeAll p) s fun ts s' =>
      ∃ xs, p.Lists Set.univ xs ∧ List.Forall₂ (Encodes p s') ts xs := by
  unfold realizeAll
  split
  next hc =>
    refine ExactIf.throw hs nofun nofun fun hdeg => ?_
    rw [UniPoly.isConstant_iff_natDegree, UniPoly.natDegree_toPolynomial] at hc
    exact hdeg.ne' hc
  next hc =>
    have hz := UniPoly.toPolynomial_ne_zero_iff.2 (UniPoly.not_isZero_of_not_isConstant hc)
    have hsz := UniPoly.toPolynomial_ne_zero_iff.1 (UniPoly.squareFree_ne_zero hz)
    refine isolateRoots_exactIf hs hsz true fun intervals hintervals => Exact.exactIf ?_
    obtain ⟨xs, hisolates, hlists⟩ := hintervals
    have hbuild := Exact.mapM (f := ofInterval p.squareFree) (K := fun x t s' => Encodes p s' t x)
      (fun x t s₁ s₂ hval hnar h => ⟨h.denotes.narrowed hval hnar, h.poly_eq⟩) hs hisolates
      fun i x s' _ hval hi => (ofInterval_exact hval (UniPoly.monic_squareFree hz) hi).mono
        fun t s₁ _ _ h => ⟨h.1, h.2⟩
    refine hbuild.mono fun ts s' _ _ h => ⟨xs, ⟨hlists.ascending, fun x => ?_⟩, h⟩
    rw [hlists.mem_iff, UniPoly.realRoots_squareFree]

/-! ## Roots and their signs -/

/-- Different roots have different signs. -/
theorem eq_of_signs_eq (hp : p.toPolynomial ≠ 0) {y : ℝ} (hx : x ∈ p.realRoots)
    (hy : y ∈ p.realRoots) (h : signsAt p.squareFree x = signsAt p.squareFree y) : x = y :=
  eq_of_signsAt_eq (UniPoly.monic_squareFree hp) (UniPoly.isRoot_squareFree.2 hx)
    (UniPoly.isRoot_squareFree.2 hy) h

/-- What stands for something in a list of counterparts stands for one of them. -/
theorem exists_of_mem_forall₂ {α β : Type} {r : α → β → Prop} {x : α} :
    ∀ {xs : List α} {ys : List β}, List.Forall₂ r xs ys → x ∈ xs → ∃ y ∈ ys, r x y
  | _ :: _, y :: _, .cons h hs, hx => by
    rcases List.mem_cons.1 hx with rfl | hx
    · exact ⟨y, List.mem_cons_self, h⟩
    · obtain ⟨z, hz, hr⟩ := exists_of_mem_forall₂ hs hx
      exact ⟨z, List.mem_cons_of_mem _ hz, hr⟩

section

variable {ts : List Thom} {xs : List ℝ}

theorem pairwise_signs_ne (hp : p.toPolynomial ≠ 0) (hxs : p.Lists Set.univ xs)
    (hts : List.Forall₂ (Encodes p s) ts xs) : ts.Pairwise fun t u => t.signs ≠ u.signs := by
  refine List.pairwise_iff_getElem.2 fun i j hi hj hij heq => ?_
  have hi' : i < xs.length := hts.length_eq ▸ hi
  have hj' : j < xs.length := hts.length_eq ▸ hj
  have hlt : xs[i] < xs[j] := List.pairwise_iff_getElem.1 hxs.ascending i j hi' hj' hij
  have hroot := fun k (hk : k < xs.length) => ((hxs.mem_iff xs[k]).1 (List.getElem_mem hk)).1
  refine hlt.ne (eq_of_signs_eq hp (hroot i hi') (hroot j hj') ?_)
  calc signsAt p.squareFree xs[i] = ts[i].signs := (hts.get hi hi').signs_eq.symm
    _ = ts[j].signs := heq
    _ = signsAt p.squareFree xs[j] := (hts.get hj hj').signs_eq

/-- What a search for signs finds among the encodings of all roots. -/
theorem exists_of_find? (hxs : p.Lists Set.univ xs) (hts : List.Forall₂ (Encodes p s) ts xs)
    {t : Thom} (ht : ts.find? (·.signs = signs) = some t) :
    t.signs = signs ∧ ∃ x ∈ p.realRoots, Encodes p s t x := by
  have hsigns := List.find?_some ht
  obtain ⟨x, hx, henc⟩ := exists_of_mem_forall₂ hts (List.mem_of_find?_eq_some ht)
  exact ⟨of_decide_eq_true hsigns, x, ((hxs.mem_iff x).1 hx).1, henc⟩

/-- It finds something if some root has the signs. -/
theorem find?_ne_none (hxs : p.Lists Set.univ xs) (hts : List.Forall₂ (Encodes p s) ts xs)
    (hx : x ∈ p.realRoots) (hsigns : signsAt p.squareFree x = signs) :
    ts.find? (·.signs = signs) ≠ none := by
  intro hnone
  have hmem : x ∈ xs := (hxs.mem_iff x).2 ⟨hx, Set.mem_univ x⟩
  obtain ⟨t, ht, henc⟩ := exists_of_mem_forall₂ hts.flip hmem
  apply List.find?_eq_none.1 hnone t ht
  rw [decide_eq_true_iff, henc.signs_eq, hsigns]

end

/-! ## The root with given signs -/

/-- The encoding asked for is that of a root with the signs, if there is one. -/
theorem realize_exactIf (hs : s.Valid) (p : UniPoly) (signs : List Sign) :
    ExactIf (0 < p.degree ∧ ∃ x ∈ p.realRoots, signsAt p.squareFree x = signs) (realize p signs) s
      fun t s' => t.signs = signs ∧ ∃ x ∈ p.realRoots, Encodes p s' t x := by
  have hall := realizeAll_exactIf hs p
  refine ExactIf.bind ⟨hall.safe, fun hC => hall.settles hC.1⟩ fun ts s' _ hval h => ?_
  obtain ⟨xs, hxs, hts⟩ := h
  split
  next t ht => exact ExactIf.pure hval (exists_of_find? hxs hts ht)
  next hnone =>
    refine ExactIf.throw hval nofun nofun fun hC => ?_
    obtain ⟨-, x, hx, hsigns⟩ := hC
    exact find?_ne_none hxs hts hx hsigns hnone

/-- It is the only root with these signs. -/
theorem realize_exact (hs : s.Valid) (hp : 0 < p.degree) (hx : x ∈ p.realRoots)
    (hsigns : signsAt p.squareFree x = signs) :
    Exact (realize p signs) s fun t s' => t.signs = signs ∧ Encodes p s' t x := by
  refine ((realize_exactIf hs p signs).exact ⟨hp, x, hx, hsigns⟩).mono fun t s' _ _ h => ?_
  obtain ⟨ht, y, hy, henc⟩ := h
  have hsame : signsAt p.squareFree x = signsAt p.squareFree y := by
    rw [hsigns, ← ht, henc.signs_eq]
  rw [eq_of_signs_eq (UniPoly.ne_zero_of_degree_pos hp) hx hy hsame]
  exact ⟨ht, henc⟩

/-- Signs that no root has are refused. -/
theorem realize_refuses (hs : s.Valid) (hp : 0 < p.degree)
    (h : ∀ x ∈ p.realRoots, signsAt p.squareFree x ≠ signs) :
    Refuses (realize p signs) s .invalidThomEncoding := by
  refine ((realizeAll_exactIf hs p).exact hp).refuses_bind fun ts s' _ hval hall => ?_
  obtain ⟨xs, hxs, hts⟩ := hall
  split
  next t ht =>
    obtain ⟨hsigns, x, hx, henc⟩ := exists_of_find? hxs hts ht
    apply absurd _ (h x hx)
    rw [← henc.signs_eq, hsigns]
  next => exact Refuses.throw hval nofun nofun

theorem exists_realize_iff (hs : s.Valid) (hp : 0 < p.degree) :
    (∃ rounds u t, exec (realize p signs) rounds s = (.ok u, t)) ↔
      ∃ x ∈ p.realRoots, signsAt p.squareFree x = signs := by
  constructor
  · intro hok
    by_contra hnone
    push Not at hnone
    obtain ⟨rounds, u, t, he⟩ := hok
    exact (realize_refuses hs hp hnone).not_ok rounds u t he
  · intro hroot
    obtain ⟨x, hx, hsigns⟩ := hroot
    obtain ⟨u, t, N, -, -, -, he⟩ := (realize_exact hs hp hx hsigns).settles
    exact ⟨N, u, t, he N le_rfl⟩

/-- The encodings of all real roots are found in ascending order, each with the signs of the
derivatives of the square-free part, and no two with the same. Signs are realized by the one root
that has them, and refused if no root has them. -/
theorem realization_exact (hs : s.Valid) (hp : 0 < p.degree) :
    Exact (realizeAll p) s (fun ts t => ts.Pairwise (fun u w => u.signs ≠ w.signs) ∧
      ∃ xs, p.Lists Set.univ xs ∧ List.Forall₂ (fun u x => u.Denotes t x ∧
        u.poly = p.squareFree ∧ u.signs.length = p.squareFree.degree - 1 ∧
        ∀ k < p.squareFree.degree - 1, u.signs[k]? =
          some (Sign.ofReal ((Polynomial.derivative^[k + 1] p.squareFree.overReal).eval x))) ts xs) ∧
    ∀ signs : List Sign,
      ((∃ rounds u t, exec (realize p signs) rounds s = (.ok u, t)) ↔
        ∃ x ∈ p.realRoots, signsAt p.squareFree x = signs) ∧
      (∀ x ∈ p.realRoots, signsAt p.squareFree x = signs →
        (∀ y ∈ p.realRoots, signsAt p.squareFree y = signs → y = x) ∧
        Exact (realize p signs) s fun u t =>
          u.Denotes t x ∧ u.poly = p.squareFree ∧ u.signs = signs) ∧
      ((∀ x ∈ p.realRoots, signsAt p.squareFree x ≠ signs) →
        Refuses (realize p signs) s .invalidThomEncoding) := by
  have hne := UniPoly.ne_zero_of_degree_pos hp
  refine ⟨((realizeAll_exactIf hs p).exact hp).mono fun ts t _ _ h => ?_, fun signs =>
    ⟨exists_realize_iff hs hp, fun x hx hsigns => ⟨fun y hy hsigns' => ?_, ?_⟩,
      realize_refuses hs hp⟩⟩
  · obtain ⟨xs, hxs, hts⟩ := h
    refine ⟨pairwise_signs_ne hne hxs hts, xs, hxs, hts.imp fun u x hu => ?_⟩
    rw [hu.signs_eq]
    exact ⟨hu.denotes, hu.poly_eq, length_signsAt _ x, fun k hk => getElem?_signsAt _ x hk⟩
  · -- the signs of all derivatives tell two roots apart
    exact eq_of_signs_eq hne hy hx (hsigns'.trans hsigns.symm)
  · exact (realize_exact hs hp hx hsigns).mono fun u t _ _ hu =>
      ⟨hu.2.denotes, hu.2.poly_eq, hu.1⟩

/-- The derivative of `x² - 2` is `2x`. -/
theorem signsAt_sqrtTwo (x : ℝ) :
    signsAt (UniPoly.ofCoeffs 0 [-2, 0, 1]) x = [Sign.ofReal (2 * x)] := by
  have hderivative : (derivative (UniPoly.ofCoeffs 0 [-2, 0, 1]).overReal).eval x = 2 * x := by
    rw [UniPoly.overReal_sqrtTwo, derivative_sub, derivative_C, sub_zero, derivative_X_sq,
      eval_mul, eval_C, eval_X]
  rw [← hderivative]
  rfl

/-- The square root of two is the root of `x² - 2` at which the derivative is positive. At no root is
the derivative zero. -/
theorem realization_sqrtTwo :
    let p := UniPoly.ofCoeffs 0 [-2, 0, 1]
    0 < p.degree ∧
      Exact (realize p [.positive]) .sqrtTwo (fun u t =>
        u.Denotes t √2 ∧ u.poly = p.squareFree ∧ u.signs = [.positive]) ∧
      Refuses (realize p [.zero]) .sqrtTwo .invalidThomEncoding := by
  intro p
  have hp : 0 < p.degree := by decide
  have hsquareFree : p.squareFree = p := by decide +kernel
  have hsigns : ∀ x, signsAt p.squareFree x = [Sign.ofReal (2 * x)] := by
    rw [hsquareFree]
    exact signsAt_sqrtTwo
  obtain ⟨-, hrealize⟩ := realization_exact Store.valid_sqrtTwo hp
  refine ⟨hp, ((hrealize [.positive]).2.1 √2 ?_ ?_).2, (hrealize [.zero]).2.2 fun x hx hz => ?_⟩
  · exact UniPoly.isRoot_sqrtTwo.2 (Real.sq_sqrt zero_le_two)
  · rw [hsigns, Sign.ofReal_of_pos (by positivity)]
  · rw [hsigns, List.cons.injEq, Sign.ofReal_eq_zero_iff] at hz
    have hsq : x ^ 2 = 2 := UniPoly.isRoot_sqrtTwo.1 hx
    have hx0 : x = 0 := by linarith [hz.1]
    rw [hx0] at hsq
    norm_num at hsq

end Thom

end AlgebraicReal
