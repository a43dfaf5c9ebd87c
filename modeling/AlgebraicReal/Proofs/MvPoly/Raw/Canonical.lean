import AlgebraicReal.Proofs.MvPoly.Raw.Monomial

/-!
# Canonical term lists

A term list is canonical if its monomials are in descending order, no coefficient is zero and every
monomial is kept as it should be (`MvPoly.Raw.Canonical`). The canonical lists are the term lists of
the polynomials with proofs that fit (`canonical_iff`), so two of them are equal as soon as they stand
for the same element of the polynomial ring (`Represents.unique`). Sorting and merging makes any list
of terms with canonical monomials canonical and does not change what it stands for
(`represents_ofTerms`), because sorting brings equal monomials together.
-/

open MvPolynomial Std

namespace AlgebraicReal

/-! ## Polynomials -/

/-- A term with its exponents in words. -/
def Term.raw (t : Term) : Raw := ⟨t.coeff, t.monomial.raw⟩

/-- Nothing is lost if the exponents fit. -/
theorem Term.raw_inj {s t : Term} (hs : s.monomial.Fits) (ht : t.monomial.Fits)
    (h : s.raw = t.raw) : s = t := by
  obtain ⟨hc, hm⟩ := Term.Raw.mk.inj h
  have hmonomial := hs.raw_inj ht hm
  cases s
  cases t
  cases hc
  cases hmonomial
  rfl

/-- The element of the polynomial ring that a term stands for, canonical or not. -/
noncomputable def Term.Raw.toPolynomial (t : Term.Raw) : MvPolynomial Var ℚ :=
  MvPolynomial.monomial (exponents (natPowers t.monomial.powers)) t.coeff

theorem Term.toPolynomial_raw {t : Term} (h : t.monomial.Fits) :
    t.raw.toPolynomial = t.toPolynomial := by
  rw [Raw.toPolynomial, Term.raw, h.natPowers_raw]
  rfl

namespace MvPoly

/-- The term list of a polynomial, with words for the exponents. -/
def raw (p : MvPoly) : Raw := p.terms.map Term.raw

namespace Raw

/-- What a list of terms stands for. -/
noncomputable def toPolynomial (p : Raw) : MvPolynomial Var ℚ :=
  (p.map Term.Raw.toPolynomial).sum

theorem toPolynomial_map_raw : ∀ {ts : List Term}, (∀ t ∈ ts, t.monomial.Fits) →
    toPolynomial (ts.map Term.raw) = termsPolynomial ts
  | [], _ => rfl
  | t :: ts, h => by
    rw [List.forall_mem_cons] at h
    show Term.Raw.toPolynomial t.raw + toPolynomial (ts.map Term.raw) = _
    rw [toPolynomial_map_raw h.2, Term.toPolynomial_raw h.1]
    rfl

/-- Neither does the polynomial change. -/
theorem toPolynomial_raw {p : MvPoly} (h : p.Fits) : p.raw.toPolynomial = p.toPolynomial :=
  toPolynomial_map_raw fun _ => h.monomial

/-- The order of the terms does not matter for it. -/
theorem toPolynomial_perm {p q : Raw} (h : p.Perm q) : p.toPolynomial = q.toPolynomial :=
  (h.map _).sum_eq

theorem toPolynomial_append (p q : Raw) :
    toPolynomial (p ++ q) = p.toPolynomial + q.toPolynomial := by
  unfold toPolynomial
  rw [List.map_append, List.sum_append]

/-- Every monomial is kept as it should be. -/
def Proper (ts : List Term.Raw) : Prop := ∀ t ∈ ts, t.monomial.Canonical

/-- Descending monomials, no coefficient zero. -/
structure Canonical (p : Raw) : Prop where
  sorted : p.Pairwise fun s t => s.monomial.compare t.monomial = .gt
  nonzero : ∀ t ∈ p, t.coeff ≠ 0
  proper : Proper p

/-- Proper lists are those of terms that fit. -/
theorem proper_iff {ts : List Term.Raw} :
    Proper ts ↔ ∃ us : List Term, (∀ u ∈ us, u.monomial.Fits) ∧ us.map Term.raw = ts := by
  constructor
  · intro h
    induction ts with
    | nil => exact ⟨[], by simp, rfl⟩
    | cons t ts ih =>
      unfold Proper at h
      rw [List.forall_mem_cons] at h
      obtain ⟨m, hfits, hm⟩ := Monomial.Raw.canonical_iff.1 h.1
      obtain ⟨us, hus, rfl⟩ := ih h.2
      refine ⟨⟨t.coeff, m⟩ :: us, List.forall_mem_cons.2 ⟨hfits, hus⟩, ?_⟩
      rw [List.map_cons, Term.raw, hm]
  · rintro ⟨us, hus, rfl⟩ t ht
    obtain ⟨u, hu, rfl⟩ := List.mem_map.1 ht
    exact Monomial.Raw.canonical_raw (hus u hu)

/-- The canonical lists are the term lists of polynomials that fit. -/
theorem canonical_iff {p : Raw} : p.Canonical ↔ ∃ q : MvPoly, q.Fits ∧ q.raw = p := by
  constructor
  · rintro ⟨hsorted, hnonzero, hproper⟩
    obtain ⟨ts, hfits, rfl⟩ := proper_iff.1 hproper
    refine ⟨⟨ts, ?_, fun t ht => ?_⟩, fits_iff.2 hfits, rfl⟩
    · refine (List.pairwise_map.1 hsorted).imp_of_mem fun {s t} hs ht h => ?_
      exact (Monomial.Raw.compare_raw (hfits s hs) (hfits t ht)).symm.trans h
    · exact hnonzero t.raw (List.mem_map_of_mem ht)
  · rintro ⟨q, hfits, rfl⟩
    refine ⟨List.pairwise_map.2 (q.sorted.imp_of_mem fun {s t} hs ht h => ?_),
      List.forall_mem_map.2 q.nonzero, proper_iff.2 ⟨_, fun _ => hfits.monomial, rfl⟩⟩
    exact (Monomial.Raw.compare_raw (hfits.monomial hs) (hfits.monomial ht)).trans h

/-- A polynomial that fits has canonical words. -/
theorem canonical_raw {p : MvPoly} (h : p.Fits) : p.raw.Canonical := canonical_iff.2 ⟨p, h, rfl⟩

/-- A canonical list and what it stands for. -/
structure Represents (p : Raw) (f : MvPolynomial Var ℚ) : Prop where
  canonical : p.Canonical
  toPolynomial_eq : p.toPolynomial = f

theorem represents_raw {p : MvPoly} (h : p.Fits) : p.raw.Represents p.toPolynomial :=
  ⟨canonical_raw h, toPolynomial_raw h⟩

/-- A canonical list is that of the one polynomial that stands for the same, which fits. -/
theorem Represents.eq_raw {p : Raw} {q : MvPoly} (h : p.Represents q.toPolynomial) :
    p = q.raw ∧ q.Fits := by
  obtain ⟨r, hfits, rfl⟩ := canonical_iff.1 h.canonical
  have heq : r = q :=
    toPolynomial_injective ((toPolynomial_raw hfits).symm.trans h.toPolynomial_eq)
  exact ⟨congrArg MvPoly.raw heq, heq ▸ hfits⟩

/-- There is one canonical list for an element of the polynomial ring. -/
theorem Represents.unique {p q : Raw} {f : MvPolynomial Var ℚ} (hp : p.Represents f)
    (hq : q.Represents f) : p = q := by
  obtain ⟨q, hfits, rfl⟩ := canonical_iff.1 hq.canonical
  have h := hp.toPolynomial_eq.trans hq.toPolynomial_eq.symm
  rw [toPolynomial_raw hfits] at h
  exact (Represents.eq_raw ⟨hp.canonical, h⟩).1

/-- Polynomials that fit are told apart by their words. -/
theorem raw_inj {p q : MvPoly} (hp : p.Fits) (hq : q.Fits) (h : p.raw = q.raw) : p = q := by
  have heq := congrArg Raw.toPolynomial h
  rw [toPolynomial_raw hp, toPolynomial_raw hq] at heq
  exact toPolynomial_injective heq

/-! ## Normalizing -/

/-- Zeros do not count. -/
theorem toPolynomial_filter_ne_zero : ∀ ts : List Term.Raw,
    toPolynomial (ts.filter fun t => t.coeff ≠ 0) = toPolynomial ts
  | [] => rfl
  | t :: ts => by
    show _ = t.toPolynomial + toPolynomial ts
    rw [← toPolynomial_filter_ne_zero ts, List.filter_cons]
    split
    next => rfl
    next h =>
      have h0 : t.coeff = 0 := by simpa using h
      rw [Term.Raw.toPolynomial, h0, map_zero, zero_add]

/-- Where monomials are kept as they should be, two in weak order are equal or in strict order. -/
theorem eq_or_gt_of_ne_gt {m n : Monomial.Raw} (hm : m.Canonical) (hn : n.Canonical)
    (h : n.compare m ≠ .gt) : m = n ∨ m.compare n = .gt := by
  have hswap : m.compare n = (n.compare m).swap := OrientedCmp.eq_swap
  rw [hswap]
  obtain ⟨m, hmfits, rfl⟩ := Monomial.Raw.canonical_iff.1 hm
  obtain ⟨n, hnfits, rfl⟩ := Monomial.Raw.canonical_iff.1 hn
  rw [Monomial.Raw.compare_raw hnfits hmfits] at h ⊢
  cases hc : n.compare m with
  | gt => exact absurd hc h
  | eq => exact .inl (congrArg Monomial.raw (Monomial.eq_of_compare_eq hc).symm)
  | lt => exact .inr rfl

/-- The sum of the listed terms, in canonical form. -/
theorem represents_ofTerms {ts : List Term.Raw} (h : Proper ts) :
    (ofTerms ts).Represents (toPolynomial ts) := by
  set sorted := (ts.filter fun t => t.coeff ≠ 0).mergeSort fun a b =>
    b.monomial.compare a.monomial ≠ .gt with hsorted
  have hperm : sorted.Perm (ts.filter fun t => t.coeff ≠ 0) := List.mergeSort_perm _ _
  have hproper : Proper sorted := fun t ht => h t (List.mem_filter.1 (hperm.mem_iff.1 ht)).1
  -- sorting puts like monomials next to each other
  have hpairwise : sorted.Pairwise fun a b => a.monomial = b.monomial ∨
      a.monomial.compare b.monomial = .gt := by
    refine (List.pairwise_mergeSort (fun a b c hab hbc => ?_) (fun a b => ?_) _).imp_of_mem
      fun {a b} ha hb hle => ?_
    · simp only [decide_eq_true_eq, Ordering.ne_gt_iff_isLE] at hab hbc ⊢
      exact TransCmp.isLE_trans hbc hab
    · simp only [Bool.or_eq_true, decide_eq_true_eq, Ordering.ne_gt_iff_isLE]
      have hswap : a.monomial.compare b.monomial = (b.monomial.compare a.monomial).swap :=
        OrientedCmp.eq_swap
      rw [hswap]
      cases b.monomial.compare a.monomial <;> decide
    · exact eq_or_gt_of_ne_gt (hproper a ha) (hproper b hb) (of_decide_eq_true hle)
  set merged := mergeAdjacent (fun a b => a.monomial = b.monomial)
    (fun a b : Term.Raw => ⟨a.coeff + b.coeff, a.monomial⟩) sorted with hmerged
  -- and merging leaves one of each
  have hstrict : merged.Pairwise fun a b => a.monomial.compare b.monomial = .gt := by
    refine pairwise_mergeAdjacent (r := fun m n => Monomial.Raw.compare m n = .gt)
      Term.Raw.monomial ?_ ?_ TransCmp.gt_trans sorted hpairwise
    · exact fun _ _ => decide_eq_true_iff
    · exact fun _ _ => rfl
  have hproper' : Proper merged := by
    refine forall_mergeAdjacent ?_ sorted hproper
    exact fun _ _ ha _ => ha
  have hsum : toPolynomial merged = toPolynomial ts := by
    rw [← toPolynomial_filter_ne_zero ts, ← toPolynomial_perm hperm]
    refine sum_mergeAdjacent (fun a b hab => ?_) sorted
    rw [Term.Raw.toPolynomial, Term.Raw.toPolynomial, Term.Raw.toPolynomial, map_add,
      ← of_decide_eq_true hab]
  refine ⟨⟨hstrict.filter _, fun t ht => ?_, fun t ht => hproper' t (List.mem_filter.1 ht).1⟩, ?_⟩
  · exact of_decide_eq_true (List.mem_filter.1 ht).2
  · exact (toPolynomial_filter_ne_zero merged).trans hsum

/-- The normal form of a list is the polynomial that stands for the same. -/
theorem ofTerms_eq_raw {ts : List Term.Raw} {q : MvPoly} (h : Proper ts)
    (hq : toPolynomial ts = q.toPolynomial) : ofTerms ts = q.raw ∧ q.Fits :=
  Represents.eq_raw (hq ▸ represents_ofTerms h)

/-- Normalizing commutes with keeping exponents in words. -/
theorem ofTerms_map_raw {ts : List Term} (h : ∀ t ∈ ts, t.monomial.Fits) :
    ofTerms (ts.map Term.raw) = (MvPoly.ofTerms ts).raw :=
  (ofTerms_eq_raw (proper_iff.2 ⟨ts, h, rfl⟩) ((toPolynomial_map_raw h).trans
    (MvPoly.toPolynomial_ofTerms ts).symm)).1

end Raw

end MvPoly

end AlgebraicReal
