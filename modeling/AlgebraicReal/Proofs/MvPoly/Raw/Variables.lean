import AlgebraicReal.Proofs.MvPoly.Raw.Dense
import AlgebraicReal.Proofs.MvPoly.Raw.Determinant

/-!
# Variables of term lists

An exponent that wraps around may be wrong, but it is the exponent of a variable that was there
before: no operation brings in a variable (`MvPoly.Raw.Over`). A power whose exponent has wrapped to
zero may stay in a product. It does not stay in a quotient, where each monomial is built from the
powers of another one and powers without an exponent are left out (`Monomial.Raw.Full`). The last
thing that a resultant does is a division. So a resultant that is found, however many exponents have
wrapped around on the way, is free of the variable that it eliminates, and it has exactly the
variables that it lists (`MvPoly.Raw.over_resultant`).
-/

namespace AlgebraicReal

/-! ## Lists -/

/-- Without two neighbours that are the same nothing is merged. -/
theorem mergeAdjacent_eq_self {α : Type} {same : α → α → Bool} {merge : α → α → α} (l : List α)
    (h : l.Pairwise fun a b => same a b = false) : mergeAdjacent same merge l = l := by
  fun_induction mergeAdjacent same merge l with
  | case1 a b rest hab _ =>
    rw [(List.pairwise_cons.1 h).1 b List.mem_cons_self] at hab
    cases hab
  | case2 a b rest _ ih => rw [ih (List.pairwise_cons.1 h).2]
  | case3 l _ => rfl

theorem exists_of_mem_mapM {α β : Type} {f : α → Option β} : ∀ {l : List α} {l' : List β},
    l.mapM f = some l' → ∀ b ∈ l', ∃ a ∈ l, f a = some b
  | [], l', h, b, hb => by
    rw [List.mapM_nil] at h
    cases h
    cases hb
  | a :: l, l', h, b, hb => by
    rw [List.mapM_cons] at h
    obtain ⟨b', hb', h⟩ := Option.bind_eq_some_iff.1 h
    obtain ⟨bs, hbs, h⟩ := Option.bind_eq_some_iff.1 h
    cases h
    rcases List.mem_cons.1 hb with rfl | hb
    · exact ⟨a, List.mem_cons_self, hb'⟩
    · obtain ⟨a', ha', hfa'⟩ := exists_of_mem_mapM hbs b hb
      exact ⟨a', List.mem_cons_of_mem a ha', hfa'⟩

/-! ## Monomials -/

namespace Monomial.Raw

variable {K L : Set Var} {m n : Raw} {l : List (Var × UInt32)} {v : Var}

/-- Each variable is listed once, in increasing order, and is one of `K`. -/
structure Over (K : Set Var) (m : Raw) : Prop where
  sorted : m.powers.Pairwise fun a b => a.1 < b.1
  mem : ∀ a ∈ m.powers, a.1 ∈ K

/-- No power is listed with the exponent zero. -/
def Full (m : Raw) : Prop := ∀ a ∈ m.powers, 0 < a.2

/-- More variables may occur. -/
theorem Over.mono (h : m.Over K) (hK : K ⊆ L) : m.Over L := ⟨h.sorted, fun a ha => hK (h.mem a ha)⟩

theorem over_unit (K : Set Var) : unit.Over K := ⟨.nil, fun _ ha => nomatch ha⟩

/-- Over no variable at all there is no exponent that could be zero. -/
theorem Over.full (h : m.Over ∅) : m.Full := fun a ha => (h.mem a ha).elim

/-- Sorting and merging adds up exponents, but keeps the variables. -/
theorem over_ofPowers (h : ∀ a ∈ l, a.1 ∈ K) : (ofPowers l).Over K where
  sorted := by
    refine pairwise_mergeAdjacent (r := (· < ·)) Prod.fst ?_ ?_ UInt32.lt_trans _
      (pairwise_mergeSort_key Prod.fst _)
    · exact fun _ _ => decide_eq_true_iff
    · exact fun _ _ => rfl
  mem a ha := by
    have hperm := List.mergeSort_perm (l.filter fun a => 0 < a.2) fun a b => a.1 ≤ b.1
    refine forall_mergeAdjacent (P := fun a => a.1 ∈ K) ?_ _ (fun b hb => ?_) a ha
    · exact fun _ _ ha _ => ha
    · exact h b (List.mem_filter.1 (hperm.mem_iff.1 hb)).1

/-- If each variable comes once, nothing is added up. -/
theorem full_ofPowers (h : l.Pairwise fun a b => a.1 ≠ b.1) : (ofPowers l).Full := by
  have hperm := List.mergeSort_perm (l.filter fun a => 0 < a.2) fun a b => a.1 ≤ b.1
  have hdistinct := (hperm.pairwise_iff fun h => h.symm).2 (h.filter _)
  intro a ha
  rw [ofPowers, mergeAdjacent_eq_self _ (hdistinct.imp fun h => decide_eq_false h)] at ha
  exact of_decide_eq_true (List.mem_filter.1 (hperm.mem_iff.1 ha)).2

/-- Exponents may wrap to zero, but no variable comes in. -/
theorem over_mul (hm : m.Over K) (hn : n.Over K) : (m.mul n).Over K :=
  over_ofPowers fun a ha => (List.mem_append.1 ha).elim (hm.mem a) (hn.mem a)

/-- The variable that is removed does not occur. -/
theorem over_without (hm : m.Over K) : (m.without v).Over (K \ {v}) :=
  over_ofPowers fun a ha =>
    ⟨hm.mem a (List.mem_filter.1 ha).1, of_decide_eq_true (List.mem_filter.1 ha).2⟩

/-- And no exponent becomes zero. -/
theorem full_without (h : m.Over K) : (m.without v).Full :=
  full_ofPowers ((h.sorted.filter _).imp UInt32.ne_of_lt)

/-- A quotient has only variables of the dividend, and no power without an exponent. -/
theorem over_div? (hm : m.Over K) {q : Raw} (h : m.div? n = some q) : q.Over K ∧ q.Full := by
  unfold div? at h
  split at h
  next => cases h
  next =>
    cases h
    refine ⟨over_ofPowers fun a ha => ?_, full_ofPowers ?_⟩
    · obtain ⟨b, hb, rfl⟩ := List.mem_map.1 ha
      exact hm.mem b hb
    · exact List.pairwise_map.2 (hm.sorted.imp fun h => UInt32.ne_of_lt h)

/-- A variable that is listed has an exponent, if none has wrapped to zero. -/
theorem Full.degree_pos (h : m.Full) (hm : m.Over K) {a : Var × UInt32} (ha : a ∈ m.powers) :
    0 < m.degree a.1 := by
  have hlookup : m.powers.lookup a.1 = some a.2 := by
    obtain ⟨l, l', heq⟩ := List.append_of_mem ha
    refine List.lookup_eq_some_iff.2 ⟨l, l', heq, fun b hb => ?_⟩
    have hsorted := hm.sorted
    rw [heq, List.pairwise_append] at hsorted
    rw [bne_iff_ne]
    exact (UInt32.ne_of_lt (hsorted.2.2 b hb a List.mem_cons_self)).symm
  rw [degree, exponent, hlookup]
  exact UInt32.lt_iff_toNat_lt.1 (h a ha)

/-- A variable that is not met with an exponent is not listed at all. -/
theorem Over.diff (h : m.Over K) (hfull : m.Full) (hv : m.degree v = 0) : m.Over (K \ {v}) := by
  refine ⟨h.sorted, fun a ha => ⟨h.mem a ha, ?_⟩⟩
  rintro rfl
  exact absurd hv (hfull.degree_pos h ha).ne'

end Monomial.Raw

/-! ## Polynomials -/

namespace MvPoly.Raw

variable {K L : Set Var} {p q d : Raw} {v : Var}

/-- No variable but those of `K` is listed. -/
def Over (K : Set Var) (p : Raw) : Prop := ∀ t ∈ p, t.monomial.Over K

/-- No power is listed with the exponent zero. -/
def Full (p : Raw) : Prop := ∀ t ∈ p, t.monomial.Full

theorem Over.mono (h : p.Over K) (hK : K ⊆ L) : p.Over L := fun t ht => (h t ht).mono hK

theorem Over.full (h : p.Over ∅) : p.Full := fun t ht => (h t ht).full

theorem over_nil (K : Set Var) : Over K [] := fun _ ht => nomatch ht

theorem full_nil : Full [] := fun _ ht => nomatch ht

/-- The monomials of a sum are among those of the terms. -/
theorem forall_ofTerms {P : Monomial.Raw → Prop} {ts : List Term.Raw}
    (h : ∀ t ∈ ts, P t.monomial) : ∀ t ∈ ofTerms ts, P t.monomial := by
  intro t ht
  have hperm := List.mergeSort_perm (ts.filter fun t => t.coeff ≠ 0) fun a b =>
    b.monomial.compare a.monomial ≠ .gt
  refine forall_mergeAdjacent (P := fun t => P t.monomial) ?_ _ (fun u hu => ?_) t
    (List.mem_filter.1 ht).1
  · exact fun _ _ ha _ => ha
  · exact h u (List.mem_filter.1 (hperm.mem_iff.1 hu)).1

/-- To collect terms brings in no variable. -/
theorem over_ofTerms {ts : List Term.Raw} (h : Over K ts) : (ofTerms ts).Over K :=
  forall_ofTerms h

theorem over_constant (K : Set Var) (c : ℚ) : (constant c).Over K := by
  unfold constant
  split
  next => exact over_nil K
  next =>
    intro t ht
    rw [List.mem_singleton.1 ht]
    exact Monomial.Raw.over_unit K

theorem over_neg (h : p.Over K) : (neg p).Over K := fun t ht => by
  obtain ⟨u, hu, rfl⟩ := List.mem_map.1 ht
  exact h u hu

theorem full_neg (h : p.Full) : (neg p).Full := fun t ht => by
  obtain ⟨u, hu, rfl⟩ := List.mem_map.1 ht
  exact h u hu

theorem over_append (hp : p.Over K) (hq : q.Over K) : Over K (p ++ q) := fun t ht =>
  (List.mem_append.1 ht).elim (hp t) (hq t)

/-- A sum has the variables of its parts. -/
theorem over_add (hp : p.Over K) (hq : q.Over K) : (add p q).Over K :=
  over_ofTerms (over_append hp hq)

theorem over_sub (hp : p.Over K) (hq : q.Over K) : (sub p q).Over K := over_add hp (over_neg hq)

theorem over_mulTerm {s : Term.Raw} (hp : p.Over K) (hs : s.monomial.Over K) :
    (mulTerm p s).Over K := by
  unfold mulTerm
  split
  next => exact over_nil K
  next =>
    refine over_ofTerms fun t ht => ?_
    obtain ⟨u, hu, rfl⟩ := List.mem_map.1 ht
    exact Monomial.Raw.over_mul (hp u hu) hs

/-- The table of products. -/
theorem over_enter {t : Term.Raw} (ht : t.monomial.Over K) : ∀ {table : List Term.Raw},
    Over K table → Over K (enter t table)
  | [], _ => fun u hu => List.mem_singleton.1 hu ▸ ht
  | e :: table, h => by
    rw [Over, List.forall_mem_cons] at h
    rw [enter]
    split
    next => exact List.forall_mem_cons.2 h
    next => exact List.forall_mem_cons.2 ⟨h.1, over_enter ht h.2⟩

theorem over_products (hp : p.Over K) (hq : q.Over K) : Over K (products p q) := by
  refine List.foldlRecOn p _ (over_nil K) fun table htable a ha => ?_
  refine List.foldlRecOn q _ htable fun table htable b hb => ?_
  exact over_enter (Monomial.Raw.over_mul (hp a ha) (hq b hb)) htable

/-- In a product exponents may wrap, variables only disappear. -/
theorem over_mul (reading : Reading) (hp : p.Over K) (hq : q.Over K) :
    (mul reading p q).Over K := by
  unfold mul
  split
  next => exact over_nil K
  next => exact over_ofTerms fun t ht => over_products hp hq t ((reading.perm _).mem_iff.1 ht)

/-- By induction on the exponent. -/
theorem over_powLoop (reading : Reading) : ∀ (k : ℕ) {r p : Raw}, r.Over K → p.Over K →
    (powLoop reading r p k).Over K := by
  intro k
  induction k using Nat.strong_induction_on with
  | _ k ih =>
    intro r p hr hp
    rw [powLoop]
    split
    next => exact hr
    next hk =>
      have hresult : Over K (if k % 2 = 1 then mul reading r p else r) := by
        split
        next => exact over_mul reading hr hp
        next => exact hr
      dsimp only
      split
      next => exact hresult
      next => exact ih (k / 2) (by omega) hresult (over_mul reading hp hp)

theorem over_pow (reading : Reading) (hp : p.Over K) (k : ℕ) : (pow reading p k).Over K :=
  over_powLoop reading k (over_constant K 1) hp

/-- A coefficient is free of the variable, whatever its exponents were. -/
theorem over_coeff (hp : p.Over K) (k : ℕ) : (coeff p v k).Over (K \ {v}) := by
  refine over_ofTerms fun t ht => ?_
  obtain ⟨u, hu, rfl⟩ := List.mem_map.1 ht
  exact Monomial.Raw.over_without (hp u (List.mem_filter.1 hu).1)

/-- Terms are left out. -/
theorem over_truncate (hp : p.Over K) (hfull : p.Full) (d : ℕ) :
    (truncate p v d).Over K ∧ (truncate p v d).Full :=
  ⟨over_ofTerms fun t ht => hp t (List.mem_filter.1 ht).1,
    forall_ofTerms fun t ht => hfull t (List.mem_filter.1 ht).1⟩

/-- A variable that gets a value is gone. -/
theorem over_evalAt (hp : p.Over K) (hfull : p.Full) (c : ℚ) :
    (evalAt p v c).Over (K \ {v}) ∧ (evalAt p v c).Full := by
  have hterms : ∀ t ∈ evalAt p v c, t.monomial.Over (K \ {v}) ∧ t.monomial.Full := by
    refine forall_ofTerms (P := fun m => m.Over (K \ {v}) ∧ m.Full) fun u hu => ?_
    obtain ⟨t, ht, rfl⟩ := List.mem_map.1 hu
    split
    next hzero => exact ⟨(hp t ht).diff (hfull t ht) hzero, hfull t ht⟩
    next => exact ⟨Monomial.Raw.over_without (hp t ht), Monomial.Raw.full_without (hp t ht)⟩
  exact ⟨fun t ht => (hterms t ht).1, fun t ht => (hterms t ht).2⟩

/-! ### Quotients -/

/-- The terms of a quotient are quotients of monomials. -/
theorem over_reduce {lead : Term.Raw} (hd : d.Over K) :
    ∀ (p quotient remainder : Raw) (r : Raw × Raw), reduce d lead p quotient remainder = some r →
      p.Over K → Over K quotient → Full quotient → r.1.Over K ∧ r.1.Full := by
  refine reduce.partial_correctness d lead (fun p quotient _ r =>
    p.Over K → Over K quotient → Full quotient → r.1.Over K ∧ r.1.Full) ?_
  intro reduce ih p quotient remainder r hr hp hq hfull
  cases p with
  | nil =>
    cases hr
    exact ⟨hq, hfull⟩
  | cons top rest =>
    obtain ⟨htop, hrest⟩ := List.forall_mem_cons.1 hp
    dsimp only at hr
    split at hr
    next m hm =>
      obtain ⟨hover, hmfull⟩ := Monomial.Raw.over_div? htop hm
      refine ih _ _ _ _ hr (over_sub hp (over_mulTerm hd hover)) (over_append hq ?_) ?_
      · exact fun t ht => List.mem_singleton.1 ht ▸ hover
      · refine fun t ht => (List.mem_append.1 ht).elim (hfull t) fun ht => ?_
        exact List.mem_singleton.1 ht ▸ hmfull
    next => exact ih _ _ _ _ hr hrest hq hfull

/-- Quotient and remainder have the variables of dividend and divisor, and no exponent zero: each
step collects terms afresh. -/
theorem over_divRem? (hp : p.Over K) (hd : d.Over K) {r : Raw × Raw}
    (h : divRem? p d = some r) : r.1.Over K ∧ r.1.Full := by
  unfold divRem? at h
  split at h
  next => cases h
  next lead rest =>
    obtain ⟨r', hr', rfl⟩ := Option.map_eq_some_iff.1 h
    obtain ⟨hover, hfull⟩ := over_reduce hd p [] [] r' hr' hp (over_nil K) full_nil
    exact ⟨over_ofTerms hover, forall_ofTerms hfull⟩

/-! ### Determinants -/

section

variable {reading : Reading} {prev r : Raw} {rows others : List (List Raw)}
  {row pivotRow cleared : List Raw} {n : ℕ} {negate swapped : Bool}

/-- The pivot row is one of the rows, and so are the others. -/
theorem mem_of_pivot (h : pivot rows = some (swapped, pivotRow, others)) :
    pivotRow ∈ rows ∧ ∀ row ∈ others, row ∈ rows := by
  cases rows with
  | nil => cases h
  | cons top rest =>
    rw [pivot, exchange] at h
    split at h
    next =>
      cases h
      exact ⟨List.mem_cons_self, fun row hrow => List.mem_cons_of_mem _ hrow⟩
    next =>
      split at h
      next => cases h
      next i hi =>
        cases h
        obtain ⟨hlt, -⟩ := List.findIdx?_eq_some_iff_getElem.1 hi
        rw [List.getD_eq_getElem rest [] hlt]
        refine ⟨List.mem_cons_of_mem _ (List.getElem_mem hlt), fun row hrow => ?_⟩
        rcases List.mem_or_eq_of_mem_set hrow with hmem | rfl
        · exact List.mem_cons_of_mem _ hmem
        · exact List.mem_cons_self

theorem over_headD (h : ∀ e ∈ row, e.Over K) : (row.headD []).Over K := by
  cases row with
  | nil => exact over_nil K
  | cons e rest => exact h e List.mem_cons_self

/-- What is left of a row that is cleared has been divided. -/
theorem over_clearRow (hprev : prev.Over K) (hpivot : ∀ e ∈ pivotRow, e.Over K)
    (hrow : ∀ e ∈ row, e.Over K) (h : clearRow reading prev pivotRow row = some cleared) :
    ∀ e ∈ cleared, e.Over K ∧ e.Full := by
  intro e he
  obtain ⟨⟨top, entry⟩, hmem, hentry⟩ := exists_of_mem_mapM h e he
  obtain ⟨htop, hentry'⟩ := List.of_mem_zip hmem
  dsimp only at hentry
  split at hentry
  next =>
    cases hentry
    exact ⟨over_nil K, full_nil⟩
  next =>
    obtain ⟨q, hq, rfl⟩ := Option.map_eq_some_iff.1 hentry
    refine over_divRem? (over_sub (over_mul reading (over_headD hpivot) ?_)
      (over_mul reading (over_headD hrow) ?_)) hprev hq
    · exact hrow entry (List.mem_of_mem_tail hentry')
    · exact hpivot top (List.mem_of_mem_tail htop)

/-- A determinant has only variables of the entries. If a row is cleared on the way, or the entries
are like that to begin with, no power in it is without an exponent. -/
theorem over_eliminate : ∀ {n : ℕ} {negate : Bool} {prev : Raw} {rows : List (List Raw)},
    prev.Over K → (∀ row ∈ rows, ∀ e ∈ row, e.Over K) →
      (n = 0 → ∀ row ∈ rows, ∀ e ∈ row, e.Full) →
        eliminate reading n negate prev rows = some r → r.Over K ∧ r.Full
  -- nothing is left but the last pivot, and it is full
  | 0, negate, prev, rows, _, hrows, hfull, h => by
    have hdet : ((rows.headD []).headD []).Over K ∧ ((rows.headD []).headD []).Full := by
      cases rows with
      | nil => exact ⟨over_nil K, full_nil⟩
      | cons row rest =>
        cases row with
        | nil => exact ⟨over_nil K, full_nil⟩
        | cons e es =>
          exact ⟨hrows _ List.mem_cons_self e List.mem_cons_self,
            hfull rfl _ List.mem_cons_self e List.mem_cons_self⟩
    cases h
    split
    next => exact ⟨over_neg hdet.1, full_neg hdet.2⟩
    next => exact hdet
  | n + 1, negate, prev, rows, hprev, hrows, _, h => by
    rw [eliminate] at h
    split at h
    next =>
      cases h
      exact ⟨over_nil K, full_nil⟩
    next swapped pivotRow others hpivot =>
      -- the entries of the cleared rows are quotients, so they are full whatever the rows were
      obtain ⟨hmem, hothers⟩ := mem_of_pivot hpivot
      obtain ⟨cleared, hcleared, h⟩ := Option.bind_eq_some_iff.1 h
      have hentries : ∀ row ∈ cleared, ∀ e ∈ row, e.Over K ∧ e.Full := fun row hrow => by
        obtain ⟨row', hrow', heq⟩ := exists_of_mem_mapM hcleared row hrow
        exact over_clearRow hprev (hrows _ hmem) (hrows _ (hothers row' hrow')) heq
      exact over_eliminate (over_headD (hrows _ hmem)) (fun row hrow e he => (hentries row hrow e he).1)
        (fun _ row hrow e he => (hentries row hrow e he).2) h

end

/-! ### Resultants -/

/-- The rows of the matrix are made of coefficients and zeros. -/
theorem over_shiftedRows {cs : List Raw} (h : ∀ c ∈ cs, c.Over K) {count : ℕ} :
    ∀ row ∈ shiftedRows cs count, ∀ e ∈ row, e.Over K := by
  intro row hrow e he
  obtain ⟨i, -, rfl⟩ := List.mem_map.1 hrow
  rcases List.mem_append.1 he with he | he
  · rcases List.mem_append.1 he with he | he
    · exact List.eq_of_mem_replicate he ▸ over_nil K
    · exact h e (List.mem_reverse.1 he)
  · exact List.eq_of_mem_replicate he ▸ over_nil K

/-- A coefficient lacks the variable. -/
theorem over_coefficients (h : p.Over K) : ∀ c ∈ coefficients p v, c.Over (K \ {v}) := by
  intro c hc
  obtain ⟨k, -, rfl⟩ := List.mem_map.1 hc
  exact over_coeff h k

theorem le_degree {t : Term.Raw} (ht : t ∈ p) (v : Var) : t.monomial.degree v ≤ degree p v := by
  induction p with
  | nil => cases ht
  | cons u p ih =>
    rcases List.mem_cons.1 ht with rfl | ht
    · exact Nat.le_max_left _ _
    · exact (ih ht).trans (Nat.le_max_right _ _)

/-- A dense polynomial has no variable but its own, and that one only with an exponent. -/
theorem over_ofUniPoly (u : UniPoly) : (ofUniPoly u).Over {u.var} ∧ (ofUniPoly u).Full := by
  have hpower : ∀ k, (Monomial.Raw.power u.var k).Over {u.var} ∧ (Monomial.Raw.power u.var k).Full := by
    intro k
    unfold Monomial.Raw.power
    split
    next => exact ⟨Monomial.Raw.over_unit _, fun _ ha => nomatch ha⟩
    next hk =>
      refine ⟨⟨List.pairwise_singleton _ _, ?_⟩, ?_⟩
      · exact List.forall_mem_singleton.2 rfl
      · exact List.forall_mem_singleton.2 (UInt32.pos_iff_ne_zero.2 hk)
  constructor
  · refine over_ofTerms fun t ht => ?_
    obtain ⟨c, -, rfl⟩ := List.mem_map.1 ht
    exact (hpower _).1
  · refine forall_ofTerms fun t ht => ?_
    obtain ⟨c, -, rfl⟩ := List.mem_map.1 ht
    exact (hpower _).2

/-- A variable of degree zero may be left out, if no exponent is zero. -/
theorem Over.diff (h : p.Over K) (hfull : p.Full) (hv : degree p v = 0) : p.Over (K \ {v}) :=
  fun t ht => (h t ht).diff (hfull t ht) (Nat.eq_zero_of_le_zero (hv ▸ le_degree ht v))

/-- On the lists of this file the degree says whether a variable occurs. -/
theorem degree_pos_iff : 0 < degree p v ↔ hasVar p v = true := by
  induction p with
  | nil => exact iff_of_false (lt_irrefl 0) Bool.false_ne_true
  | cons t p ih =>
    change 0 < max (t.monomial.degree v) (degree p v)
      ↔ (decide (0 < t.monomial.degree v) || hasVar p v) = true
    rw [lt_max_iff, ih, Bool.or_eq_true, decide_eq_true_iff]

/-- A resultant is free of the variable that is eliminated, and lists no power without an exponent,
however many exponents have wrapped around on the way. -/
theorem over_resultant {reading : Reading} {u : UniPoly} {r : Raw} (hp : p.Over K)
    (hv : hasVar p u.var = true) (h : resultant reading p (ofUniPoly u) u.var = some r) :
    r.Over (K \ {u.var}) ∧ r.Full := by
  obtain ⟨hu, hufull⟩ := over_ofUniPoly u
  have hpos := degree_pos_iff.2 hv
  unfold resultant at h
  split at h
  next =>
    cases h
    exact ⟨over_nil _, full_nil⟩
  next =>
    rw [if_neg hpos.ne'] at h
    split at h
    next hdegree =>
      cases h
      have hpow : (pow reading (ofUniPoly u) (degree p u.var)).Over ∅ :=
        over_pow reading ((hu.diff hufull hdegree).mono (Set.sdiff_self.le)) _
      exact ⟨hpow.mono (Set.empty_subset _), hpow.full⟩
    next hdegree =>
      have hcoefficients : ∀ c ∈ coefficients (ofUniPoly u) u.var, c.Over (K \ {u.var}) :=
        fun c hc => (over_coefficients hu c hc).mono (by rw [Set.sdiff_self]; exact Set.empty_subset _)
      refine over_eliminate (over_constant _ 1) (fun row hrow => ?_) (fun hzero => ?_) h
      · exact (List.mem_append.1 hrow).elim (over_shiftedRows (over_coefficients hp) row)
          (over_shiftedRows hcoefficients row)
      · exact absurd hzero (by omega)

/-! ### Tidy lists -/

/-- Each monomial lists its variables in increasing order, and no power without an exponent. Nothing
is asked of the order of the terms and of the total degrees. -/
def Tidy (p : Raw) : Prop :=
  ∀ t ∈ p, (t.monomial.powers.Pairwise fun a b => a.1 < b.1) ∧ t.monomial.Full

/-- The variables that a tidy list has are those that it names. -/
theorem Tidy.over (h : p.Tidy) : p.Over {w | w ∈ vars p} := fun t ht =>
  ⟨(h t ht).1, fun _ ha => mem_vars_iff_exists.2 ⟨t, ht, List.mem_map_of_mem ha⟩⟩

theorem Tidy.full (h : p.Tidy) : p.Full := fun t ht => (h t ht).2

/-- What stands for a polynomial that fits is tidy. -/
theorem tidy_raw {f : MvPoly} (h : f.Fits) : f.raw.Tidy := fun t ht =>
  ⟨((canonical_raw h).proper t ht).sorted, ((canonical_raw h).proper t ht).positive⟩

/-- Over one variable there is a dense form. -/
theorem exists_toUniPoly (h : p.Over {v}) : ∃ u, toUniPoly p v = .ok u := by
  have hvars : (vars p).find? (· ≠ v) = none := by
    refine List.find?_eq_none.2 fun w hw => ?_
    obtain ⟨t, ht, hmem⟩ := mem_vars_iff_exists.1 hw
    obtain ⟨a, ha, rfl⟩ := List.mem_map.1 hmem
    simpa using (h t ht).mem a ha
  rw [toUniPoly, hvars]
  exact ⟨_, rfl⟩

end MvPoly.Raw

end AlgebraicReal
