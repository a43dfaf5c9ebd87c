import AlgebraicReal.Proofs.MvPoly.Raw.Canonical

/-!
# The operations on term lists

On the term lists of polynomials every operation gives the term list of the polynomial that the
operation with proofs gives, as long as what is added up fits into the words: sums, coefficients and
values of polynomials that fit always do, a product does if the sum of the total degrees is below
`2 ^ 32`. Negation and scaling keep the order of the list; a product does not depend on the order in
which the table of products is read (`mul_raw`), so neither does anything that is built from products.
-/

open MvPolynomial

namespace AlgebraicReal.MvPoly.Raw

variable {p q : MvPoly} {v : Var}

/-! ## Building -/

theorem zero_raw : MvPoly.zero.raw = [] := rfl

/-- The zero polynomial is the empty list. -/
theorem raw_of_toPolynomial_eq_zero (h : p.toPolynomial = 0) : p.raw = [] := by
  rw [toPolynomial_injective (h.trans MvPoly.toPolynomial_zero.symm), zero_raw]

/-- A map on terms that does to a list what another one does to a polynomial. -/
theorem ofTerms_map_eq {f : Term.Raw → Term.Raw} {g : Term → Term}
    (h : ∀ t ∈ p.terms, f t.raw = (g t).raw ∧ (g t).monomial.Fits) :
    ofTerms (p.raw.map f) = (MvPoly.ofTerms (p.terms.map g)).raw := by
  rw [← ofTerms_map_raw (List.forall_mem_map.2 fun t ht => (h t ht).2), List.map_map, MvPoly.raw,
    List.map_map]
  exact congrArg ofTerms (List.map_congr_left fun t ht => (h t ht).1)

/-- So emptiness is the test for zero. -/
theorem isEmpty_raw : p.raw.isEmpty = p.isZero := by
  unfold MvPoly.raw MvPoly.isZero
  cases p.terms <;> rfl

theorem constant_eq (c : ℚ) : constant c = (MvPoly.constant c).raw := by
  unfold constant MvPoly.constant MvPoly.ofTerm
  split
  next => rfl
  next => rfl

/-- A power of a variable fits by its type. -/
theorem varPower_eq (v : Var) (k : UInt32) : varPower v k = (MvPoly.varPower v k.toNat).raw := by
  unfold varPower MvPoly.varPower MvPoly.ofTerm
  rw [dif_neg one_ne_zero, Monomial.Raw.power_eq]
  rfl

/-- The exponents in a list of powers add up to a word. -/
def PowersFit (l : List (Var × UInt32)) : Prop := (l.map fun a => a.2.toNat).sum < 2 ^ 32

/-- If the exponents that are given add up to less than `2 ^ 32`, their monomial fits. -/
theorem PowersFit.fits {l : List (Var × UInt32)} (h : PowersFit l) :
    (Monomial.ofPowers (natPowers l)).Fits := by
  have hsum : ((natPowers l).map (·.2)).sum = (l.map fun a => a.2.toNat).sum :=
    congrArg List.sum List.map_map
  exact (Monomial.totalDegree_ofPowers _).trans_lt (hsum.trans_lt h)

/-- Terms that fit, collected to a polynomial. -/
theorem ofIntTerms_eq {ts : List (ℤ × List (Var × UInt32))} (h : ∀ a ∈ ts, PowersFit a.2) :
    ∃ f : MvPoly, f = .ofTerms (ts.map fun a => ⟨a.1, .ofPowers (natPowers a.2)⟩) ∧
      ofIntTerms ts = f.raw ∧ f.Fits := by
  have hfits : ∀ t ∈ ts.map fun a => (⟨a.1, .ofPowers (natPowers a.2)⟩ : Term), t.monomial.Fits :=
    List.forall_mem_map.2 fun a ha => (h a ha).fits
  refine ⟨_, rfl, ?_, fits_ofTerms hfits⟩
  rw [← ofTerms_map_raw hfits, List.map_map, ofIntTerms]
  refine congrArg ofTerms (List.map_congr_left fun a _ => ?_)
  rw [Monomial.Raw.ofPowers_eq]
  rfl

/-- As many coefficients as there are exponents. -/
theorem ofCoeffs_eq (v : Var) {cs : List ℚ} (h : cs.length ≤ 2 ^ 32) :
    ofCoeffs v cs = (MvPoly.ofCoeffs v cs).raw ∧ (MvPoly.ofCoeffs v cs).Fits := by
  have hplace : ∀ c ∈ cs.zipIdx, c.2 < 2 ^ 32 := fun c hc =>
    (List.snd_lt_of_mem_zipIdx hc).trans_le h
  have hfits : ∀ t ∈ cs.zipIdx.map fun c => (⟨c.1, .power v c.2⟩ : Term), t.monomial.Fits :=
    List.forall_mem_map.2 fun c hc => (Monomial.totalDegree_power v c.2).trans_lt (hplace c hc)
  refine ⟨?_, fits_ofTerms hfits⟩
  rw [MvPoly.ofCoeffs, ← ofTerms_map_raw hfits, List.map_map, ofCoeffs]
  refine congrArg ofTerms (List.map_congr_left fun c hc => ?_)
  rw [Monomial.Raw.power_eq, toNat_toUInt32 (hplace c hc)]
  rfl

/-! ## Reading -/

/-- The degree is read off the exponents. -/
theorem degree_raw (h : p.Fits) : degree p.raw v = p.degree v := by
  have hterms : ∀ ts : List Term, (∀ t ∈ ts, t.monomial.Fits) →
      ts.foldr (fun t d => max (t.monomial.raw.degree v) d) 0
        = ts.foldr (fun t d => max (t.monomial.degree v) d) 0 := by
    intro ts
    induction ts with
    | nil => exact fun _ => rfl
    | cons t ts ih =>
      intro hts
      rw [List.forall_mem_cons] at hts
      rw [List.foldr_cons, List.foldr_cons, ih hts.2, Monomial.Raw.degree_raw hts.1]
  rw [degree, MvPoly.raw, List.foldr_map]
  exact hterms p.terms fun _ => h.monomial

/-- The total degree is read off the sums that are kept with the monomials. -/
theorem totalDegree_raw (h : p.Fits) : totalDegree p.raw = p.totalDegree := by
  have hterms : ∀ ts : List Term, (∀ t ∈ ts, t.monomial.Fits) →
      ts.foldr (fun t d => max t.monomial.raw.totalDegree.toNat d) 0
        = ts.foldr (fun t d => max t.monomial.totalDegree d) 0 := by
    intro ts
    induction ts with
    | nil => exact fun _ => rfl
    | cons t ts ih =>
      intro hts
      rw [List.forall_mem_cons] at hts
      rw [List.foldr_cons, List.foldr_cons, ih hts.2, Monomial.raw, toNat_toUInt32 hts.1]
  rw [totalDegree, MvPoly.raw, List.foldr_map]
  exact hterms p.terms fun _ => h.monomial

/-- The terms whose exponent of `v` has some property. -/
theorem filter_degree_raw (h : p.Fits) (test : ℕ → Bool) :
    (p.raw.filter fun t => test (t.monomial.degree v))
      = (p.terms.filter fun t => test (t.monomial.degree v)).map Term.raw := by
  rw [MvPoly.raw, List.filter_map]
  refine congrArg (List.map _) (List.filter_congr fun t ht => ?_)
  exact congrArg test (Monomial.Raw.degree_raw (h.monomial ht))

/-- The power of the variable is removed, and the kept sum is corrected. -/
theorem coeff_raw (h : p.Fits) (k : ℕ) : coeff p.raw v k = (p.coeff v k).raw := by
  have hmem : ∀ t ∈ p.terms.filter fun t => t.monomial.degree v = k, t.monomial.Fits :=
    fun t ht => h.monomial (List.mem_filter.1 ht).1
  rw [MvPoly.coeff, ← ofTerms_map_raw, coeff, filter_degree_raw h fun d => d = k, List.map_map,
    List.map_map]
  · refine congrArg ofTerms (List.map_congr_left fun t ht => ?_)
    exact congrArg (Term.Raw.mk t.coeff) (Monomial.Raw.without_raw (hmem t ht))
  · exact List.forall_mem_map.2 fun t ht => (hmem t ht).without v

/-- Terms of high degree are left out. -/
theorem truncate_raw (h : p.Fits) (d : ℕ) : truncate p.raw v d = (p.truncate v d).raw := by
  rw [truncate, filter_degree_raw h fun k => k ≤ d, MvPoly.truncate, ofTerms_map_raw]
  exact fun t ht => h.monomial (List.mem_filter.1 ht).1

/-- The list of all coefficients. -/
theorem coefficients_raw (h : p.Fits) :
    coefficients p.raw v = (p.coefficients v).map MvPoly.raw := by
  rw [coefficients, MvPoly.coefficients, List.map_map, degree_raw h]
  exact List.map_congr_left fun k _ => coeff_raw h k

/-! ## Sums -/

/-- A list that keeps its order and its monomials, and gets other coefficients. -/
theorem map_coeff_raw {f : ℚ → ℚ} (hf : ∀ c ≠ 0, f c ≠ 0) (h : p.Fits) :
    p.raw.map (fun t => ⟨f t.coeff, t.monomial⟩)
      = (MvPoly.ofTerms (p.terms.map fun t => ⟨f t.coeff, t.monomial⟩)).raw := by
  have hfits : ∀ t ∈ p.terms.map fun t => (⟨f t.coeff, t.monomial⟩ : Term), t.monomial.Fits := by
    refine List.forall_mem_map.2 fun t ht => ?_
    show t.monomial.Fits
    exact h.monomial ht
  have hmap : p.raw.map (fun t => (⟨f t.coeff, t.monomial⟩ : Term.Raw))
      = (p.terms.map fun t => (⟨f t.coeff, t.monomial⟩ : Term)).map Term.raw := by
    rw [MvPoly.raw, List.map_map, List.map_map]
    rfl
  refine (Represents.eq_raw ⟨⟨List.pairwise_map.2 ?_, ?_, ?_⟩, ?_⟩).1
  · exact (canonical_raw h).sorted
  · intro t ht
    obtain ⟨u, hu, rfl⟩ := List.mem_map.1 ht
    exact hf _ ((canonical_raw h).nonzero u hu)
  · rw [hmap]
    exact proper_iff.2 ⟨_, hfits, rfl⟩
  · rw [hmap, toPolynomial_map_raw hfits, MvPoly.toPolynomial_ofTerms]

/-- Signs change, monomials do not. -/
theorem neg_raw (h : p.Fits) : neg p.raw = p.neg.raw := map_coeff_raw (fun _ => neg_ne_zero.2) h

theorem scale_raw (h : p.Fits) (c : ℚ) : scale p.raw c = (p.scale c).raw := by
  unfold scale
  split
  next hc =>
    refine (raw_of_toPolynomial_eq_zero ?_).symm
    rw [toPolynomial_scale, hc, C_0, zero_mul]
  next hc => exact map_coeff_raw (fun _ hd => mul_ne_zero hd hc) h

theorem proper_append {ts us : List Term.Raw} (ht : Proper ts) (hu : Proper us) :
    Proper (ts ++ us) := fun t h => (List.mem_append.1 h).elim (ht t) (hu t)

/-- A sum is a list to be collected, in which no new monomial comes up. -/
theorem add_raw (hp : p.Fits) (hq : q.Fits) : add p.raw q.raw = (p.add q).raw := by
  refine (ofTerms_eq_raw (proper_append (canonical_raw hp).proper (canonical_raw hq).proper) ?_).1
  rw [toPolynomial_append, toPolynomial_raw hp, toPolynomial_raw hq, MvPoly.toPolynomial_add]

theorem sub_raw (hp : p.Fits) (hq : q.Fits) : sub p.raw q.raw = (p.sub q).raw := by
  rw [sub, neg_raw hq, add_raw hp hq.neg, MvPoly.sub]

/-! ## Products -/

/-- The one condition of a product: the sum of the total degrees. -/
theorem mulTerm_raw {s : Term} (hp : p.Fits)
    (h : p.totalDegree + s.monomial.totalDegree < 2 ^ 32) :
    mulTerm p.raw s.raw = (p.mulTerm s).raw := by
  have hs : s.monomial.Fits := (Nat.le_add_left _ _).trans_lt h
  unfold mulTerm
  split
  next h0 =>
    refine (raw_of_toPolynomial_eq_zero ?_).symm
    rw [toPolynomial_mulTerm, Term.toPolynomial, show s.coeff = 0 from h0, map_zero, mul_zero]
  next =>
    refine ofTerms_map_eq fun t ht => ⟨?_, ?_⟩
    · exact congrArg (Term.Raw.mk _) (Monomial.Raw.mul_raw (hp.monomial ht) hs)
    · exact (Monomial.totalDegree_mul _ _).trans_lt
        ((Nat.add_le_add_right (le_totalDegree ht) _).trans_lt h)

/-- The product of two terms that fits stands for the product. -/
theorem product_raw {a b : Term} (h : a.monomial.totalDegree + b.monomial.totalDegree < 2 ^ 32) :
    Monomial.Raw.Canonical (a.raw.monomial.mul b.raw.monomial) ∧
    Term.Raw.toPolynomial ⟨a.raw.coeff * b.raw.coeff, a.raw.monomial.mul b.raw.monomial⟩
      = a.toPolynomial * b.toPolynomial := by
  have hfits : (a.monomial.mul b.monomial).Fits := (Monomial.totalDegree_mul _ _).trans_lt h
  have hmul : a.raw.monomial.mul b.raw.monomial = (a.monomial.mul b.monomial).raw :=
    Monomial.Raw.mul_raw ((Nat.le_add_right _ _).trans_lt h) ((Nat.le_add_left _ _).trans_lt h)
  rw [hmul]
  refine ⟨Monomial.Raw.canonical_raw hfits, ?_⟩
  refine (Term.toPolynomial_raw (t := ⟨a.coeff * b.coeff, a.monomial.mul b.monomial⟩) hfits).trans ?_
  rw [Term.toPolynomial, Monomial.toExponents_mul, ← monomial_mul]
  rfl

/-! ### The table of products -/

/-- The table has canonical monomials only. -/
theorem proper_enter {t : Term.Raw} (ht : t.monomial.Canonical) : ∀ {table : List Term.Raw},
    Proper table → Proper (enter t table)
  | [], _ => List.forall_mem_singleton.2 ht
  | e :: table, h => by
    unfold Proper at h
    rw [List.forall_mem_cons] at h
    unfold enter
    split
    next => exact List.forall_mem_cons.2 h
    next => exact List.forall_mem_cons.2 ⟨h.1, proper_enter ht h.2⟩

/-- A term is added where its monomial is found, or at the end. -/
theorem toPolynomial_enter (t : Term.Raw) : ∀ table : List Term.Raw,
    toPolynomial (enter t table) = t.toPolynomial + toPolynomial table
  | [] => rfl
  | e :: table => by
    unfold enter
    split
    next h =>
      show Term.Raw.toPolynomial ⟨e.coeff + t.coeff, e.monomial⟩ + toPolynomial table
        = t.toPolynomial + (e.toPolynomial + toPolynomial table)
      rw [Term.Raw.toPolynomial, Term.Raw.toPolynomial, Term.Raw.toPolynomial, map_add, ← h,
        ← add_assoc, add_comm (monomial _ t.coeff)]
    next =>
      show e.toPolynomial + toPolynomial (enter t table) = _ + (e.toPolynomial + toPolynomial table)
      rw [toPolynomial_enter t table, add_left_comm]

/-- One row of products. -/
theorem foldl_enter (a : Term) : ∀ {q : List Term} {table : List Term.Raw},
    (∀ b ∈ q, a.monomial.totalDegree + b.monomial.totalDegree < 2 ^ 32) → Proper table →
    Proper ((q.map Term.raw).foldl (fun table b =>
      enter ⟨a.raw.coeff * b.coeff, a.raw.monomial.mul b.monomial⟩ table) table) ∧
    toPolynomial ((q.map Term.raw).foldl (fun table b =>
      enter ⟨a.raw.coeff * b.coeff, a.raw.monomial.mul b.monomial⟩ table) table)
        = toPolynomial table + a.toPolynomial * termsPolynomial q
  | [], table, _, h => ⟨h, by
      rw [List.map_nil, List.foldl_nil, show termsPolynomial [] = 0 from rfl, mul_zero, add_zero]⟩
  | b :: q, table, hq, h => by
    rw [List.forall_mem_cons] at hq
    obtain ⟨hcanonical, hproduct⟩ := product_raw hq.1
    obtain ⟨hproper, hsum⟩ := foldl_enter a hq.2
      (proper_enter (t := ⟨a.raw.coeff * b.raw.coeff, a.raw.monomial.mul b.raw.monomial⟩)
        hcanonical h)
    refine ⟨hproper, hsum.trans ?_⟩
    rw [toPolynomial_enter, hproduct]
    show _ = toPolynomial table + a.toPolynomial * (b.toPolynomial + termsPolynomial q)
    ring

/-- The table holds the product. -/
theorem products_spec (h : p.totalDegree + q.totalDegree < 2 ^ 32) :
    Proper (products p.raw q.raw) ∧
      toPolynomial (products p.raw q.raw) = p.toPolynomial * q.toPolynomial := by
  -- the induction is on the terms of the first factor, over any table that is in order
  have hrows : ∀ (ts : List Term) (table : List Term.Raw),
      (∀ a ∈ ts, a.monomial.totalDegree ≤ p.totalDegree) → Proper table →
      Proper ((ts.map Term.raw).foldl (fun table a => q.raw.foldl (fun table b =>
        enter ⟨a.coeff * b.coeff, a.monomial.mul b.monomial⟩ table) table) table) ∧
      toPolynomial ((ts.map Term.raw).foldl (fun table a => q.raw.foldl (fun table b =>
        enter ⟨a.coeff * b.coeff, a.monomial.mul b.monomial⟩ table) table) table)
          = toPolynomial table + termsPolynomial ts * q.toPolynomial := by
    intro ts
    induction ts with
    | nil =>
      intro table _ htable
      refine ⟨htable, ?_⟩
      rw [List.map_nil, List.foldl_nil, show termsPolynomial [] = 0 from rfl, zero_mul, add_zero]
    | cons a ts ih =>
      intro table hts htable
      rw [List.forall_mem_cons] at hts
      obtain ⟨hrow, hsum⟩ := foldl_enter a (q := q.terms) (fun b hb =>
        (Nat.add_le_add hts.1 (le_totalDegree hb)).trans_lt h) htable
      obtain ⟨hproper, hsum'⟩ := ih _ hts.2 hrow
      refine ⟨hproper, hsum'.trans ?_⟩
      rw [hsum]
      show toPolynomial table + a.toPolynomial * q.toPolynomial + _
        = toPolynomial table + (a.toPolynomial + termsPolynomial ts) * q.toPolynomial
      ring
  obtain ⟨hproper, hsum⟩ := hrows p.terms [] (fun _ => le_totalDegree)
    fun t ht => absurd ht List.not_mem_nil
  exact ⟨hproper, hsum.trans (zero_add _)⟩

theorem fits_mul (h : p.totalDegree + q.totalDegree < 2 ^ 32) : (p.mul q).Fits :=
  (totalDegree_mul_le p q).trans_lt h

/-- In whatever order the table is read, the product is the same. -/
theorem mul_raw (reading : Reading) (h : p.totalDegree + q.totalDegree < 2 ^ 32) :
    mul reading p.raw q.raw = (p.mul q).raw := by
  obtain ⟨hproper, hsum⟩ := products_spec h
  have hperm := reading.perm (products p.raw q.raw)
  have hvalue : toPolynomial (reading.read (products p.raw q.raw)) = (p.mul q).toPolynomial := by
    rw [toPolynomial_perm hperm, hsum, MvPoly.toPolynomial_mul]
  unfold mul
  split
  next h0 =>
    rw [isEmpty_raw, isEmpty_raw, ← toPolynomial_eq_zero_iff, ← toPolynomial_eq_zero_iff] at h0
    refine (raw_of_toPolynomial_eq_zero ?_).symm
    rw [MvPoly.toPolynomial_mul, mul_eq_zero]
    exact h0
  next => exact (ofTerms_eq_raw (fun t ht => hproper t (hperm.mem_iff.1 ht)) hvalue).1

/-- By strong induction on the exponent, which each turn of the loop halves. -/
theorem powLoop_raw (reading : Reading) : ∀ (k : ℕ) {r p : MvPoly},
    r.totalDegree + k * p.totalDegree < 2 ^ 32 →
    powLoop reading r.raw p.raw k = (r.mul (p.pow k)).raw := by
  intro k
  induction k using Nat.strong_induction_on with
  | _ k ih =>
    intro r p hfits
    have hk := Nat.mod_add_div k 2
    have hdegrees : k * p.totalDegree = k % 2 * p.totalDegree + k / 2 * (2 * p.totalDegree) := by
      rw [mul_left_comm, ← mul_assoc, ← add_mul, hk]
    -- the result with the last binary digit taken in
    obtain ⟨r', hr', hvalue, hdegree⟩ : ∃ r' : MvPoly,
        (if k % 2 = 1 then mul reading r.raw p.raw else r.raw) = r'.raw ∧
          r'.toPolynomial = r.toPolynomial * p.toPolynomial ^ (k % 2) ∧
          r'.totalDegree ≤ r.totalDegree + k % 2 * p.totalDegree := by
      split
      next h =>
        refine ⟨r.mul p, mul_raw reading ?_, ?_, ?_⟩
        · rw [hdegrees, h, one_mul] at hfits
          omega
        · rw [MvPoly.toPolynomial_mul, h, pow_one]
        · rw [h, one_mul]
          exact totalDegree_mul_le r p
      next h =>
        refine ⟨r, rfl, ?_, Nat.le_add_right _ _⟩
        rw [Nat.mod_two_ne_one.1 h, pow_zero, mul_one]
    rw [powLoop]
    simp only [hr']
    split
    next h =>
      refine congrArg MvPoly.raw (toPolynomial_injective ?_)
      rw [MvPoly.toPolynomial_mul, toPolynomial_pow, h, pow_zero, mul_one]
    next h =>
      split
      next h' =>
        refine congrArg MvPoly.raw (toPolynomial_injective ?_)
        rw [h', mul_zero, add_zero] at hk
        rw [MvPoly.toPolynomial_mul, toPolynomial_pow, hvalue, hk]
      next h' =>
        have hsquare : 1 * (2 * p.totalDegree) ≤ k / 2 * (2 * p.totalDegree) :=
          Nat.mul_le_mul_right _ (Nat.pos_of_ne_zero h')
        have hbase := Nat.mul_le_mul_left (k / 2) (totalDegree_mul_le p p)
        rw [mul_raw reading (by omega), ih _ (Nat.div_lt_self (Nat.pos_of_ne_zero h) one_lt_two)
          (by rw [← two_mul] at hbase; omega)]
        refine congrArg MvPoly.raw (toPolynomial_injective ?_)
        rw [MvPoly.toPolynomial_mul, MvPoly.toPolynomial_mul, toPolynomial_pow, toPolynomial_pow,
          MvPoly.toPolynomial_mul, hvalue, mul_assoc, ← pow_two, ← pow_mul, ← pow_add, hk]

/-- The power fits if the multiple of the total degree does. -/
theorem fits_pow {k : ℕ} (h : k * p.totalDegree < 2 ^ 32) : (p.pow k).Fits :=
  (totalDegree_pow_le p k).trans_lt h

theorem pow_raw (reading : Reading) {k : ℕ} (h : k * p.totalDegree < 2 ^ 32) :
    pow reading p.raw k = (p.pow k).raw := by
  have hone : MvPoly.one.mul (p.pow k) = p.pow k := toPolynomial_injective (by
    rw [MvPoly.toPolynomial_mul, MvPoly.toPolynomial_one, one_mul])
  rw [pow, constant_eq, ← MvPoly.one, powLoop_raw, hone]
  rwa [MvPoly.one, totalDegree_constant, zero_add]

/-! ## Substitution and derivatives -/

/-- The products in the Horner scheme for the given coefficients fit into words. -/
def HornerFits (r : MvPoly) : List MvPoly → Prop
  | [] => True
  | _ :: cs => HornerFits r cs ∧
    (cs.foldr (fun c acc => (acc.mul r).add c) zero).totalDegree + r.totalDegree < 2 ^ 32

/-- What is multiplied while `r` is put in the place of `v` fits into words. -/
def SubstitutionFits (p : MvPoly) (v : Var) (r : MvPoly) : Prop :=
  p.Fits ∧ HornerFits r (p.coefficients v)

instance decidableHornerFits (r : MvPoly) : ∀ cs : List MvPoly, Decidable (HornerFits r cs)
  | [] => isTrue trivial
  | _ :: cs =>
    have := decidableHornerFits r cs
    inferInstanceAs (Decidable (_ ∧ _))

instance (p : MvPoly) (v : Var) (r : MvPoly) : Decidable (SubstitutionFits p v r) :=
  inferInstanceAs (Decidable (_ ∧ _))

/-- By induction on the coefficients: Horner's scheme multiplies by what is put in and adds. -/
theorem horner_raw (reading : Reading) {r : MvPoly} : ∀ {cs : List MvPoly}, (∀ c ∈ cs, c.Fits) →
    HornerFits r cs →
    (cs.map MvPoly.raw).foldr (fun c acc => add (mul reading acc r.raw) c) []
      = (cs.foldr (fun c acc => (acc.mul r).add c) zero).raw ∧
    (cs.foldr (fun c acc => (acc.mul r).add c) zero).Fits
  | [], _, _ => ⟨rfl, fits_zero⟩
  | c :: cs, hcs, h => by
    rw [List.forall_mem_cons] at hcs
    obtain ⟨ih, -⟩ := horner_raw reading hcs.2 h.1
    rw [List.map_cons, List.foldr_cons, List.foldr_cons, ih, mul_raw reading h.2,
      add_raw (fits_mul h.2) hcs.1]
    exact ⟨rfl, (fits_mul h.2).add hcs.1⟩

theorem fits_of_mem_coefficients (h : p.Fits) {c : MvPoly} (hc : c ∈ p.coefficients v) : c.Fits := by
  obtain ⟨k, -, rfl⟩ := List.mem_map.1 hc
  exact h.coeff v k

/-- A substitution is right if each step of its Horner scheme fits. -/
theorem substitute_raw (reading : Reading) {r : MvPoly} (h : SubstitutionFits p v r) :
    substitute reading p.raw v r.raw = (p.substitute v r).raw ∧ (p.substitute v r).Fits := by
  rw [substitute, coefficients_raw h.1]
  exact horner_raw reading (fun _ => fits_of_mem_coefficients h.1) h.2

theorem rename_self (p : MvPoly) (v : Var) : p.rename v v = p := by
  have hmonomial : ∀ m : Monomial, m.rename v v = m := fun m => by
    have hpowers : (m.powers.map fun a => (if a.1 = v then v else a.1, a.2)) = m.powers := by
      refine (List.map_congr_left fun a _ => ?_).trans (List.map_id _)
      split
      next h => exact Prod.ext h.symm rfl
      next => rfl
    rw [Monomial.rename, hpowers]
    exact Monomial.toExponents_injective (Monomial.toExponents_ofPowers _)
  refine toPolynomial_injective ?_
  rw [MvPoly.rename, toPolynomial_ofTerms]
  simp only [hmonomial]
  rw [List.map_id']
  rfl

/-- A variable takes the place of another one; if it was there, their exponents are added, and the
sum was counted before. -/
theorem rename_raw (h : p.Fits) (w : Var) : rename p.raw v w = (p.rename v w).raw := by
  unfold rename
  split
  next hvw => rw [← hvw, rename_self]
  next => exact ofTerms_map_eq fun t ht => ⟨
    congrArg (Term.Raw.mk _) (Monomial.Raw.rename_raw (h.monomial ht)), (h.monomial ht).rename v w⟩

/-- A rational in the place of a variable. -/
theorem evalAt_raw (h : p.Fits) (c : ℚ) : evalAt p.raw v c = (p.evalAt v c).raw := by
  have hwithout : ∀ m : Monomial, m.degree v = 0 → m.without v = m := fun m hm => by
    refine Monomial.toExponents_injective ?_
    rw [Monomial.toExponents_without, Finsupp.erase_of_notMem_support]
    rw [Finsupp.notMem_support_iff, Monomial.toExponents_apply, hm]
  refine ofTerms_map_eq fun t ht => ⟨?_, (h.monomial ht).without v⟩
  show (if t.monomial.raw.degree v = 0 then t.raw
      else ⟨t.coeff * c ^ t.monomial.raw.degree v, t.monomial.raw.without v⟩)
    = (⟨t.coeff * c ^ t.monomial.degree v, (t.monomial.without v).raw⟩ : Term.Raw)
  rw [Monomial.Raw.degree_raw (h.monomial ht)]
  split
  next h0 => rw [h0, pow_zero, mul_one, hwithout _ h0, Term.raw]
  next => rw [Monomial.Raw.without_raw (h.monomial ht)]

/-- Terms without the variable come to zero, and are left out from the start. -/
theorem derivative_raw (h : p.Fits) : derivative p.raw v = (p.derivative v).raw := by
  set f : Term → Term := fun t => ⟨t.coeff * (t.monomial.degree v : ℕ),
    (t.monomial.without v).timesPower v (t.monomial.degree v - 1)⟩ with hf
  -- terms without the variable are dropped first, and their derivative is zero
  have hzero : ∀ ts : List Term,
      termsPolynomial ((ts.filter fun t => t.monomial.degree v ≠ 0).map f)
        = termsPolynomial (ts.map f) := by
    intro ts
    induction ts with
    | nil => rfl
    | cons t ts ih =>
      rw [List.filter_cons, List.map_cons]
      show _ = (f t).toPolynomial + termsPolynomial (ts.map f)
      rw [← ih]
      split
      next => rfl
      next hv =>
        have h0 : t.monomial.degree v = 0 := by simpa using hv
        rw [Term.toPolynomial, hf]
        dsimp only
        rw [h0, Nat.cast_zero, mul_zero, map_zero, zero_add]
  have hmem : ∀ t ∈ p.terms.filter fun t => t.monomial.degree v ≠ 0, t.monomial.Fits :=
    fun t ht => h.monomial (List.mem_filter.1 ht).1
  have hfilter : (p.raw.filter fun t => t.monomial.degree v ≠ 0)
      = (p.terms.filter fun t => t.monomial.degree v ≠ 0).map Term.raw := by
    rw [MvPoly.raw, List.filter_map]
    refine congrArg (List.map _) (List.filter_congr fun t ht => decide_eq_decide.2 ?_)
    show t.monomial.raw.degree v ≠ 0 ↔ _
    rw [Monomial.Raw.degree_raw (h.monomial ht)]
  have hlist : derivative p.raw v = ofTerms (((p.terms.filter fun t =>
      t.monomial.degree v ≠ 0).map f).map Term.raw) := by
    rw [derivative, hfilter, List.map_map, List.map_map]
    refine congrArg ofTerms (List.map_congr_left fun t ht => ?_)
    have hlower : Term.Raw.mk (t.coeff * (t.monomial.raw.degree v : ℕ)) (t.monomial.raw.lower v)
        = (f t).raw := by
      rw [Monomial.Raw.degree_raw (hmem t ht), Monomial.Raw.lower_raw (hmem t ht)]
      rfl
    exact hlower
  -- lowering a power makes no exponent larger
  have hfits : ∀ t ∈ (p.terms.filter fun t => t.monomial.degree v ≠ 0).map f, t.monomial.Fits := by
    refine List.forall_mem_map.2 fun t ht => ?_
    have hdegree := t.monomial.degree_add_totalDegree_without v
    refine lt_of_le_of_lt ?_ (hmem t ht)
    rw [Monomial.totalDegree_timesPower]
    omega
  rw [hlist, ofTerms_map_raw hfits]
  refine congrArg MvPoly.raw (toPolynomial_injective ?_)
  rw [MvPoly.derivative, toPolynomial_ofTerms, toPolynomial_ofTerms, hzero]

end AlgebraicReal.MvPoly.Raw
