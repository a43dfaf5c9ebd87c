import AlgebraicReal.Proofs.MvPoly.Raw.Operations
import AlgebraicReal.Proofs.MvPoly.Division

/-!
# Division of term lists

Each round of the reduction takes off the leading term of what is left, and everything that comes in
its place is smaller in the lexicographic order; the order is well-founded, so the reduction ends
(`reduce_raw`). It leaves a quotient and a remainder of which no monomial is divisible by the
leading monomial of the divisor. There is only one such pair, so this is the pair that the division
by levels finds (`divRem?_raw`).

The factors of the divisor that are multiplied on the way are the terms of the quotient. So nothing
wraps around if the product of the quotient and the divisor fits (`DivisionFits`).
-/

open MvPolynomial

namespace AlgebraicReal.MvPoly

variable {p d : MvPoly} {top lead : Term} {rest tail : List Term}

/-- Below a polynomial whose leading term has been taken off. -/
theorem withBotDegree_lt {f g : MvPolynomial Var ℚ} (hf : f ≠ 0)
    (h : ∀ e ∈ g.support, lexOrder.toSyn e < lexOrder.toSyn (lexOrder.degree f)) :
    lexOrder.toWithBotSyn (lexOrder.withBotDegree g)
      < lexOrder.toWithBotSyn (lexOrder.withBotDegree f) := by
  rw [MonomialOrder.withBotDegree_lt_withBotDegree_iff]
  by_cases hg : g = 0
  · exact .inr ⟨hg, hf⟩
  · exact .inl (h _ (lexOrder.degree_mem_support hg))

/-- The polynomial without its first term. -/
def dropFirst (p : MvPoly) : MvPoly where
  terms := p.terms.tail
  sorted := p.sorted.tail
  nonzero t ht := p.nonzero t (List.mem_of_mem_tail ht)

theorem dropFirst_of_cons (h : p.terms = top :: rest) : p.dropFirst.terms = rest :=
  congrArg List.tail h

theorem Fits.dropFirst (h : p.Fits) : p.dropFirst.Fits :=
  fits_iff.2 fun _ ht => h.monomial (List.mem_of_mem_tail ht)

theorem raw_of_cons (h : p.terms = top :: rest) : p.raw = top.raw :: p.dropFirst.raw := by
  rw [MvPoly.raw, MvPoly.raw, dropFirst_of_cons h, h, List.map_cons]

theorem toPolynomial_of_cons (h : p.terms = top :: rest) :
    p.toPolynomial = top.toPolynomial + p.dropFirst.toPolynomial := by
  rw [toPolynomial, toPolynomial, dropFirst_of_cons h, h, termsPolynomial]

theorem ne_zero_of_cons (h : p.terms = top :: rest) : p.toPolynomial ≠ 0 := by
  rw [toPolynomial_ne_zero_iff, isZero, h]
  exact Bool.false_ne_true

/-- What is left is smaller than the first term. -/
theorem lt_degree_of_mem_support_dropFirst (h : p.terms = top :: rest) {e : Var →₀ ℕ}
    (he : e ∈ p.dropFirst.toPolynomial.support) :
    lexOrder.toSyn e < lexOrder.toSyn (lexOrder.degree p.toPolynomial) := by
  obtain ⟨u, hu, rfl⟩ := mem_support_iff.1 he
  rw [dropFirst_of_cons h] at hu
  rw [degree_of_cons h]
  exact Monomial.compare_gt_iff.1 ((List.pairwise_cons.1 (h ▸ p.sorted)).1 u hu)

/-- The multiple of the divisor that has the leading term of the dividend. -/
theorem leading_mulTerm (hp : p.terms = top :: rest) (hd : d.terms = lead :: tail) {m : Monomial}
    (hm : lead.monomial.mul m = top.monomial) :
    lexOrder.degree (d.mulTerm ⟨top.coeff / lead.coeff, m⟩).toPolynomial
        = lexOrder.degree p.toPolynomial ∧
      lexOrder.leadingCoeff (d.mulTerm ⟨top.coeff / lead.coeff, m⟩).toPolynomial
        = lexOrder.leadingCoeff p.toPolynomial := by
  have hlead : lead.coeff ≠ 0 := d.nonzero lead (hd ▸ List.mem_cons_self)
  have hc : top.coeff / lead.coeff ≠ 0 :=
    div_ne_zero (p.nonzero top (hp ▸ List.mem_cons_self)) hlead
  have hmonomial : (monomial m.toExponents (top.coeff / lead.coeff) : MvPolynomial Var ℚ) ≠ 0 :=
    mt monomial_eq_zero.1 hc
  have hdegree : lexOrder.degree (d.mulTerm ⟨top.coeff / lead.coeff, m⟩).toPolynomial
      = lexOrder.degree p.toPolynomial := by
    classical
    rw [toPolynomial_mulTerm, Term.toPolynomial, MonomialOrder.degree_mul (ne_zero_of_cons hd)
      hmonomial, MonomialOrder.degree_monomial, if_neg hc, degree_of_cons hd, degree_of_cons hp,
      ← hm, Monomial.toExponents_mul]
  refine ⟨hdegree, ?_⟩
  rw [MonomialOrder.leadingCoeff, hdegree, degree_of_cons hp, ← hm, Monomial.toExponents_mul,
    toPolynomial_mulTerm, Term.toPolynomial, coeff_mul_monomial,
    coeff_toPolynomial_of_mem (hd ▸ List.mem_cons_self), leadingCoeff_of_cons hp]
  exact mul_div_cancel₀ _ hlead

namespace Raw

/-! ## The rounds -/

section

variable {quotient remainder : Raw}

/-- A leading term that is divisible cancels. -/
theorem reduce_of_div (hp : p.terms = top :: rest) (hpfits : p.Fits) (hd : d.terms = lead :: tail)
    (hdfits : d.Fits) {m : Monomial} (hm : top.monomial.div? lead.monomial = some m)
    (hfits : d.totalDegree + m.totalDegree < 2 ^ 32) :
    reduce d.raw lead.raw p.raw quotient remainder
      = reduce d.raw lead.raw (p.sub (d.mulTerm ⟨top.coeff / lead.coeff, m⟩)).raw
        (quotient ++ [Term.raw ⟨top.coeff / lead.coeff, m⟩]) remainder := by
  have hdiv : top.raw.monomial.div? lead.raw.monomial = some m.raw :=
    (Monomial.Raw.div?_raw (hpfits.monomial (hp ▸ List.mem_cons_self))
      (hdfits.monomial (hd ▸ List.mem_cons_self))).trans (congrArg _ hm)
  have hmultiple : (d.mulTerm ⟨top.coeff / lead.coeff, m⟩).Fits :=
    (totalDegree_mulTerm_le d _).trans_lt hfits
  rw [← sub_raw hpfits hmultiple, ← mulTerm_raw hdfits hfits, raw_of_cons hp, reduce]
  simp only [hdiv]
  rfl

/-- A leading term that is not divisible goes to the remainder. -/
theorem reduce_of_not_div (hp : p.terms = top :: rest) (hpfits : p.Fits)
    (hd : d.terms = lead :: tail) (hdfits : d.Fits)
    (hm : top.monomial.div? lead.monomial = none) :
    reduce d.raw lead.raw p.raw quotient remainder
      = reduce d.raw lead.raw p.dropFirst.raw quotient (remainder ++ [top.raw]) := by
  have hdiv : top.raw.monomial.div? lead.raw.monomial = none :=
    (Monomial.Raw.div?_raw (hpfits.monomial (hp ▸ List.mem_cons_self))
      (hdfits.monomial (hd ▸ List.mem_cons_self))).trans (congrArg _ hm)
  rw [raw_of_cons hp, reduce]
  simp only [hdiv]

end

/-- The term that a round adds to the quotient is a term of the quotient: what it gives with the
divisor fits, and so does all that is left of the quotient. -/
theorem totalDegree_next_le {f r : MvPolynomial Var ℚ} (hp : p.terms = top :: rest)
    (hd : d.terms = lead :: tail) (hdivision : IsDivision d.toPolynomial p.toPolynomial f r)
    {m : Monomial} (hm : top.monomial.div? lead.monomial = some m) (c : ℚ) :
    m.totalDegree ≤ f.totalDegree ∧
      (f - Term.toPolynomial ⟨c, m⟩).totalDegree ≤ f.totalDegree := by
  have hmul := congrArg Monomial.toExponents (Monomial.div?_eq_some_iff.1 hm)
  rw [Monomial.toExponents_mul] at hmul
  have hle : lexOrder.degree d.toPolynomial ≤ lexOrder.degree p.toPolynomial := by
    rw [degree_of_cons hd, degree_of_cons hp, ← hmul]
    exact le_self_add
  obtain ⟨hf, hdegree⟩ := hdivision.degree_add (ne_zero_of_cons hd) (ne_zero_of_cons hp) hle
  have hlead : lexOrder.degree f = m.toExponents := by
    rw [degree_of_cons hd, degree_of_cons hp, ← hmul, add_comm] at hdegree
    exact add_left_cancel hdegree
  have hmle : m.totalDegree ≤ f.totalDegree := by
    rw [Monomial.totalDegree_eq_degree, ← hlead]
    exact MvPolynomial.le_totalDegree (lexOrder.degree_mem_support hf)
  refine ⟨hmle, (totalDegree_sub _ _).trans (max_le le_rfl ?_)⟩
  exact (totalDegree_monomial_le _ _).trans (m.totalDegree_eq_degree.symm.trans_le hmle)

/-- The reduction ends, with a quotient and a remainder. -/
theorem reduce_raw (hd : d.terms = lead :: tail) (hdfits : d.Fits) {f r : MvPolynomial Var ℚ}
    (p : MvPoly) (hpfits : p.Fits) (hpair : IsDivision d.toPolynomial p.toPolynomial f r)
    (hfits : f.totalDegree + d.totalDegree < 2 ^ 32) (quotient remainder : List Term) :
    ∃ qs rs : List Term, reduce d.raw lead.raw p.raw (quotient.map Term.raw)
        (remainder.map Term.raw)
          = some ((quotient ++ qs).map Term.raw, (remainder ++ rs).map Term.raw) ∧
      IsDivision d.toPolynomial p.toPolynomial (termsPolynomial qs) (termsPolynomial rs) ∧
      (∀ t ∈ qs, t.monomial.Fits) ∧ ∀ t ∈ rs, t.monomial.Fits := by
  -- on the leading monomial of what is left, with zero below all monomials
  induction hs : lexOrder.toWithBotSyn (lexOrder.withBotDegree p.toPolynomial)
    using WellFoundedLT.induction generalizing p f r quotient remainder with
  | _ s ih =>
    cases hp : p.terms with
    | nil =>
      obtain rfl : p = .zero := ext hp
      refine ⟨[], [], ?_, .of_dvd (zero_mul _), by simp, by simp⟩
      rw [zero_raw, reduce, List.append_nil, List.append_nil]
    | cons top rest =>
      have hp0 := ne_zero_of_cons hp
      cases hm : top.monomial.div? lead.monomial with
      | some m =>
        set t : Term := ⟨top.coeff / lead.coeff, m⟩ with ht
        obtain ⟨hmle, hfle⟩ := totalDegree_next_le hp hd hpair hm (top.coeff / lead.coeff)
        have hmfits : d.totalDegree + m.totalDegree < 2 ^ 32 := by omega
        have hpfits' : (p.sub (d.mulTerm t)).Fits :=
          hpfits.sub ((totalDegree_mulTerm_le d t).trans_lt hmfits)
        rw [reduce_of_div hp hpfits hd hdfits hm hmfits]
        obtain ⟨hdegree, hcoeff⟩ := leading_mulTerm hp hd (Monomial.div?_eq_some_iff.1 hm)
        have hless : lexOrder.toWithBotSyn (lexOrder.withBotDegree
            (p.sub (d.mulTerm t)).toPolynomial) < s := by
          rw [← hs, toPolynomial_sub]
          exact withBotDegree_lt hp0 fun e => lt_degree_of_mem_support_sub hdegree hcoeff
        have hrest : (p.sub (d.mulTerm t)).toPolynomial
            = p.toPolynomial - t.toPolynomial * d.toPolynomial - 0 := by
          rw [toPolynomial_sub, toPolynomial_mulTerm, mul_comm, sub_zero]
        have hnone : ∀ e ∈ (0 : MvPolynomial Var ℚ).support, ¬lexOrder.degree d.toPolynomial ≤ e :=
          fun e he => absurd he (by simp)
        obtain ⟨qs, rs, hreduce, hdivision, hqs, hrs⟩ := ih _ hless (p.sub (d.mulTerm t)) hpfits'
          (hrest ▸ hpair.sub hnone) (lt_of_le_of_lt (Nat.add_le_add_right hfle _) hfits)
          (quotient ++ [t]) remainder rfl
        refine ⟨t :: qs, rs, ?_, ?_, ?_, hrs⟩
        · rw [List.map_append, List.append_assoc] at hreduce
          exact hreduce
        · rw [hrest] at hdivision
          rw [termsPolynomial, add_comm, ← add_zero (termsPolynomial rs)]
          exact hdivision.add hnone
        · exact List.forall_mem_cons.2 ⟨(Nat.le_add_left _ _).trans_lt hmfits, hqs⟩
      | none =>
        rw [reduce_of_not_div hp hpfits hd hdfits hm]
        have hless : lexOrder.toWithBotSyn (lexOrder.withBotDegree p.dropFirst.toPolynomial)
            < s := by
          rw [← hs]
          exact withBotDegree_lt hp0 fun e => lt_degree_of_mem_support_dropFirst hp
        have hrest : p.dropFirst.toPolynomial
            = p.toPolynomial - 0 * d.toPolynomial - top.toPolynomial := by
          rw [toPolynomial_of_cons hp, zero_mul, sub_zero, add_sub_cancel_left]
        have hreduced : ∀ e ∈ top.toPolynomial.support, ¬lexOrder.degree d.toPolynomial ≤ e := by
          intro e he
          rw [degree_of_cons hd, Finset.mem_singleton.1 (support_monomial_subset he)]
          exact Monomial.div?_eq_none_iff.1 hm
        have hfits' : (f - 0).totalDegree + d.totalDegree < 2 ^ 32 := by rwa [sub_zero]
        obtain ⟨qs, rs, hreduce, hdivision, hqs, hrs⟩ := ih _ hless p.dropFirst hpfits.dropFirst
          (hrest ▸ hpair.sub hreduced) hfits' quotient (remainder ++ [top]) rfl
        refine ⟨qs, top :: rs, ?_, ?_, hqs, ?_⟩
        · rw [List.map_append, List.append_assoc] at hreduce
          exact hreduce
        · rw [hrest] at hdivision
          rw [termsPolynomial, add_comm, ← add_zero (termsPolynomial qs)]
          exact hdivision.add hreduced
        · exact List.forall_mem_cons.2 ⟨hpfits.monomial (hp ▸ List.mem_cons_self), hrs⟩

end Raw

/-- The quotient of a division gives products with the divisor that fit into words. -/
structure DivisionFits (p d : MvPoly) : Prop where
  dividend : p.Fits
  divisor : d.Fits
  product : ∀ q r, p.divRem? d = some (q, r) → q.totalDegree + d.totalDegree < 2 ^ 32

/-- Quotient and remainder fit. -/
theorem DivisionFits.fits {q r : MvPoly} (h : p.DivisionFits d) (hqr : p.divRem? d = some (q, r)) :
    q.Fits ∧ r.Fits := by
  have hproduct := h.product q r hqr
  have hd : d.toPolynomial ≠ 0 := by
    rw [toPolynomial_ne_zero_iff]
    intro hzero
    rw [MvPoly.divRem?, if_pos hzero] at hqr
    cases hqr
  have hr : r.toPolynomial = (p.sub (q.mul d)).toPolynomial := by
    rw [toPolynomial_sub, toPolynomial_mul, ← ((divRem?_eq_some_iff hd).1 hqr).eq,
      add_sub_cancel_left]
  rw [toPolynomial_injective hr]
  exact ⟨(Nat.le_add_right _ _).trans_lt hproduct, h.dividend.sub (Raw.fits_mul hproduct)⟩

namespace Raw

/-- Taking off leading terms and dividing by levels come to the same. -/
theorem divRem?_raw (h : p.DivisionFits d) :
    divRem? p.raw d.raw = (p.divRem? d).map (Prod.map MvPoly.raw MvPoly.raw) := by
  cases hd : d.terms with
  | nil =>
    obtain rfl : d = .zero := ext hd
    rfl
  | cons lead tail =>
    cases hqr : p.divRem? d with
    | none =>
      rw [MvPoly.divRem?, if_neg (toPolynomial_ne_zero_iff.1 (ne_zero_of_cons hd))] at hqr
      cases hqr
    | some qr =>
      obtain ⟨q, r⟩ := qr
      -- quotient and remainder are unique, so the reduction finds the exact ones
      have hpair := (divRem?_eq_some_iff (ne_zero_of_cons hd)).1 hqr
      have hproduct := h.product q r hqr
      rw [← totalDegree_toPolynomial q] at hproduct
      obtain ⟨qs, rs, hreduce, hdivision, hqs, hrs⟩ :=
        reduce_raw hd h.divisor p h.dividend hpair hproduct [] []
      obtain ⟨hq, hr⟩ := hpair.unique (ne_zero_of_cons hd) hdivision
      rw [← MvPoly.toPolynomial_ofTerms] at hq hr
      rw [Option.map_some, Prod.map_apply, toPolynomial_injective hq, toPolynomial_injective hr,
        ← ofTerms_map_raw hqs, ← ofTerms_map_raw hrs]
      rw [raw_of_cons hd] at hreduce ⊢
      rw [divRem?]
      exact congrArg (Option.map _) hreduce

end Raw

end AlgebraicReal.MvPoly
