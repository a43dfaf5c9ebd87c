import AlgebraicReal.MvPoly.Raw.Determinant
import AlgebraicReal.Proofs.MvPoly.Raw.Quotient
import AlgebraicReal.Proofs.MvPoly.Resultant

/-!
# Determinants of term lists

The elimination puts the pivot row in the place of the row on top, which moves to where the pivot
row was; the elimination with proofs keeps the other rows in their order instead. Either way the
rows are permuted and the minors stay divisible, so each new entry is a multiple of the previous
pivot, and that pivot is not zero (`eliminateBy_raw`). What the division does with a remainder or
with the divisor zero is therefore of no account: every division that is right in the other cases
gives the determinant (`determinantBy_raw`).

All this is so as long as the products that clear the rows fit into words (`EliminationFits`). The
entries that are left are then quotients of what fits.
-/

open MvPolynomial

namespace AlgebraicReal.MvPoly

namespace Raw

variable {p d prev : MvPoly} {rows : Rows} {n : ℕ}

/-! ## Clearing a row -/

/-- A loop over a list in which no round fails. -/
theorem mapM_map_eq_some {α β γ δ : Type} {f : α → β} {g : β → Option δ} {h : α → γ} {k : γ → δ} :
    ∀ {l : List α}, (∀ a ∈ l, g (f a) = some (k (h a))) →
      (l.map f).mapM g = some ((l.map h).map k)
  | [], _ => rfl
  | a :: l, hround => by
    rw [List.forall_mem_cons] at hround
    rw [List.map_cons, List.mapM_cons, hround.1, mapM_map_eq_some hround.2]
    rfl

theorem headD_map_raw (row : List MvPoly) :
    (row.map MvPoly.raw).headD [] = (row.headD .zero).raw := by
  cases row <;> rfl

/-- The empty row entry is zero. -/
theorem raw_eq_nil_iff : p.raw = [] ↔ p.isZero = true := by
  rw [← isEmpty_raw, List.isEmpty_iff]

/-- Where the division is exact, the quotient is the other factor. -/
theorem toPolynomial_quotient_mul (hd : d.toPolynomial ≠ 0)
    (h : d.toPolynomial ∣ p.toPolynomial) : (p.quotient d).mul d = p :=
  toPolynomial_injective ((toPolynomial_mul _ _).trans (toPolynomial_quotient hd h))

/-- An exact quotient is no greater than the dividend. -/
theorem totalDegree_quotient_le (hd : d.toPolynomial ≠ 0)
    (h : d.toPolynomial ∣ p.toPolynomial) : (p.quotient d).totalDegree ≤ p.totalDegree := by
  by_cases hq : (p.quotient d).isZero = true
  · rw [isZero_iff.1 hq, totalDegree_zero]
    exact Nat.zero_le _
  · have hdegree := totalDegree_mul hq (toPolynomial_ne_zero_iff.1 hd)
    rw [toPolynomial_quotient_mul hd h] at hdegree
    exact hdegree ▸ Nat.le_add_right _ _

/-- The division of a multiple of the divisor. -/
theorem divRem?_of_dvd (hp : p.Fits) (hdfits : d.Fits) (hd : d.toPolynomial ≠ 0)
    (h : d.toPolynomial ∣ p.toPolynomial) : divRem? p.raw d.raw = some ((p.quotient d).raw, []) := by
  have hdivision : IsDivision d.toPolynomial p.toPolynomial (p.quotient d).toPolynomial
      zero.toPolynomial := by
    rw [toPolynomial_zero]
    exact .of_dvd (toPolynomial_quotient hd h)
  have hne : d ≠ zero := fun h0 => hd (by rw [h0, toPolynomial_zero])
  rw [divRem?_raw (divisionFits_of_mul hne hp hdfits (toPolynomial_quotient_mul hd h)),
    (divRem?_eq_some_iff hd).2 hdivision]
  rfl

/-- A division that finds the quotient when there is no remainder. Nothing is said about the other
dividends, and nothing about the divisor zero. -/
def FindsQuotients (divide : Raw → Raw → Option Raw) : Prop :=
  ∀ ⦃p d q : Raw⦄, divRem? p d = some (q, []) → divide p d = some q

/-- A division that gives zero where it fails finds exact quotients, -/
theorem findsQuotients_quotientOrZero : FindsQuotients quotientOrZero := by
  intro p d q h
  cases d with
  | nil => cases h
  | cons lead tail =>
    rw [quotientOrZero, if_neg (by simp), h, Option.map_some]

/-- and so does one that fails. -/
theorem findsQuotients_divExact? : FindsQuotients divExact? := by
  intro p d q h
  rw [divExact?, h]

variable {divide : Raw → Raw → Option Raw}

/-- The products that clear a row fit into words. -/
def ClearFits (pivotRow row : List MvPoly) : Prop :=
  ∀ entries ∈ pivotRow.tail.zip row.tail,
    (pivotRow.headD zero).totalDegree + entries.2.totalDegree < 2 ^ 32 ∧
      (row.headD zero).totalDegree + entries.1.totalDegree < 2 ^ 32

instance (pivotRow row : List MvPoly) : Decidable (ClearFits pivotRow row) :=
  inferInstanceAs (Decidable (∀ entries ∈ pivotRow.tail.zip row.tail, _ ∧ _))

/-- The difference of two products that fit fits. -/
theorem ClearFits.sub {pivotRow row : List MvPoly} (h : ClearFits pivotRow row)
    {entries : MvPoly × MvPoly} (hentries : entries ∈ pivotRow.tail.zip row.tail) :
    (((pivotRow.headD zero).mul entries.2).sub ((row.headD zero).mul entries.1)).Fits :=
  (fits_mul (h entries hentries).1).sub (fits_mul (h entries hentries).2)

/-- Clearing a row by exact divisions. -/
theorem clearRowBy_raw (hdivide : FindsQuotients divide) (reading : Reading)
    (hprev : prev.toPolynomial ≠ 0) (hprevfits : prev.Fits) {pivotRow row : List MvPoly}
    (hfits : ClearFits pivotRow row)
    (hdvd : ∀ entries ∈ pivotRow.tail.zip row.tail, prev.toPolynomial ∣
      (((pivotRow.headD zero).mul entries.2).sub ((row.headD zero).mul entries.1)).toPolynomial) :
    clearRowBy divide reading prev.raw (pivotRow.map MvPoly.raw) (row.map MvPoly.raw)
      = some ((MvPoly.clearRow prev pivotRow row).map MvPoly.raw) := by
  unfold clearRowBy MvPoly.clearRow
  rw [← List.map_tail, ← List.map_tail, List.zip_map, headD_map_raw, headD_map_raw]
  refine mapM_map_eq_some fun ⟨top, entry⟩ hentries => ?_
  obtain ⟨hpivot, hrow⟩ := hfits _ hentries
  simp only [Prod.map_apply]
  rw [mul_raw reading hpivot, mul_raw reading hrow, sub_raw (fits_mul hpivot) (fits_mul hrow)]
  exact hdivide (divRem?_of_dvd (hfits.sub hentries) hprevfits hprev (hdvd _ hentries))

/-- What is left of a row that has been cleared by exact divisions fits. -/
theorem fits_clearRow (hprev : prev.toPolynomial ≠ 0) {pivotRow row : List MvPoly}
    (hfits : ClearFits pivotRow row)
    (hdvd : ∀ entries ∈ pivotRow.tail.zip row.tail, prev.toPolynomial ∣
      (((pivotRow.headD zero).mul entries.2).sub ((row.headD zero).mul entries.1)).toPolynomial) :
    ∀ entry ∈ MvPoly.clearRow prev pivotRow row, entry.Fits :=
  List.forall_mem_map.2 fun entries hentries =>
    (totalDegree_quotient_le hprev (hdvd entries hentries)).trans_lt (hfits.sub hentries)

/-- The entries that a step divides are two-rowed minors. -/
theorem dvd_of_minorsDivisible {pivotRow row : List MvPoly} {rest : Rows}
    (hp : pivotRow.length = n + 1) (hlen : rest.length = n)
    (hrest : ∀ row ∈ rest, row.length = n + 1)
    (h : MinorsDivisible prev.toPolynomial (matrixOf (n + 1) (pivotRow :: rest)))
    (hrow : row ∈ rest) {entries : MvPoly × MvPoly}
    (hentries : entries ∈ pivotRow.tail.zip row.tail) :
    prev.toPolynomial ∣
      (((pivotRow.headD zero).mul entries.2).sub
        ((row.headD zero).mul entries.1)).toPolynomial := by
  obtain ⟨i, hi, rfl⟩ := List.getElem_of_mem hrow
  obtain ⟨j, hj, rfl⟩ := List.getElem_of_mem hentries
  rw [List.length_zip, List.length_tail, List.length_tail, hp, hrest _ hrow, Nat.min_self] at hj
  have hdvd := h.dvd_cleared ⟨i, hlen ▸ hi⟩ ⟨j, hj⟩
  have hj' : j + 1 < n + 1 := Nat.succ_lt_succ hj
  rw [cleared_matrixOf] at hdvd
  dsimp only at hdvd
  rw [List.getD_eq_getElem _ _ hi, ← List.headD_eq_getD, ← List.headD_eq_getD,
    List.getD_eq_getElem rest[i] _ (by rwa [hrest _ hrow]),
    List.getD_eq_getElem pivotRow _ (by rwa [hp])] at hdvd
  rw [List.getElem_zip, List.getElem_tail, List.getElem_tail]
  exact hdvd

/-! ## The pivot row -/

/-- The lists of the entries. -/
def rawRows (rows : Rows) : List (List Raw) := rows.map (List.map MvPoly.raw)

/-- A pivot row in front of the other rows. They are the rows of the matrix in another order, with a
sign that tells whether two have been exchanged. -/
structure Pivoted (n : ℕ) (rows : Rows) (swapped : Bool) (pivotRow : List MvPoly)
    (others : Rows) : Prop where
  head_ne_zero : (pivotRow.headD zero).toPolynomial ≠ 0
  perm : (pivotRow :: others).Perm rows
  matrix : ∃ σ : Equiv.Perm (Fin n), Equiv.Perm.sign σ = (if swapped then -1 else 1) ∧
    matrixOf n (pivotRow :: others) = (matrixOf n rows).submatrix σ id

/-- Exchanging the row on top with one further down. -/
theorem matrixOf_swap {row : List MvPoly} {rest : Rows} {i : ℕ} (hi : i < rest.length)
    (hi' : i + 1 < n + 1) :
    matrixOf (n + 1) (rest[i] :: rest.set i row)
      = (matrixOf (n + 1) (row :: rest)).submatrix (Equiv.swap 0 ⟨i + 1, hi'⟩) id := by
  ext1 j k
  rw [Matrix.submatrix_apply, matrixOf_apply, matrixOf_apply]
  congr 2
  refine Fin.cases ?_ (fun j => ?_) j
  · rw [Equiv.swap_apply_left]
    show rest[i] = rest.getD i []
    rw [List.getD_eq_getElem _ _ hi]
  · show (rest.set i row).getD j [] = _
    by_cases hj : (j : ℕ) = i
    · have hji : j.succ = ⟨i + 1, hi'⟩ := Fin.ext (congrArg (· + 1) hj)
      rw [hji, Equiv.swap_apply_right, hj, List.getD_eq_getElem _ _ (by rwa [List.length_set]),
        List.getElem_set_self]
      rfl
    · have hji : j.succ ≠ ⟨i + 1, hi'⟩ := fun h =>
        hj (Nat.succ_injective ((Fin.ext_iff.1 h : (j : ℕ) + 1 = i + 1)))
      rw [Equiv.swap_apply_of_ne_of_ne (Fin.succ_ne_zero j) hji, List.getD_eq_getElem?_getD,
        List.getElem?_set_ne (Ne.symm hj), ← List.getD_eq_getElem?_getD]
      rfl

theorem headD_raw_ne_nil_iff {row : List MvPoly} :
    (row.map MvPoly.raw).headD [] ≠ [] ↔ (row.headD zero).isZero ≠ true := by
  rw [headD_map_raw, ne_eq, raw_eq_nil_iff]

/-- The choice of a row goes along with a map of the entries. -/
theorem exchange_map {α β : Type} {f : α → β} {eligible : List β → Bool} {eligible' : List α → Bool}
    (h : ∀ row, eligible (row.map f) = eligible' row) : ∀ rows : List (List α),
    exchange eligible (rows.map (List.map f))
      = (exchange eligible' rows).map (Prod.map id (Prod.map (List.map f) (List.map (List.map f))))
  | [] => rfl
  | row :: rest => by
    have hcomp : eligible ∘ List.map f = eligible' := funext h
    rw [List.map_cons, exchange, exchange, h, List.findIdx?_map, hcomp]
    split
    next => rfl
    next =>
      cases hfind : rest.findIdx? eligible' with
      | none => rfl
      | some i =>
        obtain ⟨hi, -, -⟩ := List.findIdx?_eq_some_iff_getElem.1 hfind
        simp only [Option.map_some, Prod.map_apply, id_eq]
        rw [List.getD_eq_getElem _ _ (by rwa [List.length_map]), List.getElem_map, List.map_set,
          List.getD_eq_getElem _ _ hi]

end Raw

/-- The pivot row of the elimination that exchanges two rows. -/
def pivot : Rows → Option (Bool × List MvPoly × Rows) :=
  Raw.exchange fun row => (row.headD zero).isZero ≠ true

namespace Raw

/-- The pivot row is the first with a head other than zero, on both sides. -/
theorem pivot_raw (rows : Rows) : pivot (rawRows rows)
    = (MvPoly.pivot rows).map (Prod.map id (Prod.map (List.map MvPoly.raw) rawRows)) :=
  exchange_map (fun _ => decide_eq_decide.2 headD_raw_ne_nil_iff) rows

/-- A row that can be a pivot, exchanged with the one on top. -/
theorem pivoted_exchange {row : List MvPoly} {rest : Rows} {i : ℕ} (hlen : rest.length = n)
    (hi : i < rest.length) (hpivot : (rest[i].headD zero).toPolynomial ≠ 0) :
    Pivoted (n + 1) (row :: rest) true rest[i] (rest.set i row) where
  head_ne_zero := hpivot
  perm := ((List.set_perm_cons_eraseIdx hi row).cons _).trans
    ((List.Perm.swap ..).trans ((List.getElem_cons_eraseIdx_perm hi).cons row))
  matrix := by
    have hi' : i + 1 < n + 1 := Nat.succ_lt_succ (hlen ▸ hi)
    refine ⟨Equiv.swap 0 ⟨i + 1, hi'⟩, ?_, matrixOf_swap hi hi'⟩
    rw [if_pos rfl, Equiv.Perm.sign_swap]
    exact Fin.ne_of_val_ne (Nat.succ_ne_zero i).symm

/-- Either the column is zero, or there is a pivot row. -/
theorem pivot_cases (hlen : rows.length = n + 1) :
    (MvPoly.pivot rows = none ∧ ∀ row ∈ rows, (row.headD zero).isZero = true) ∨
      ∃ swapped pivotRow others, MvPoly.pivot rows = some (swapped, pivotRow, others) ∧
        Pivoted (n + 1) rows swapped pivotRow others := by
  cases rows with
  | nil => cases hlen
  | cons row rest =>
    rw [List.length_cons, Nat.succ_inj] at hlen
    rw [MvPoly.pivot, exchange]
    split
    next h =>
      refine .inr ⟨false, row, rest, rfl, toPolynomial_ne_zero_iff.2 (of_decide_eq_true h), .refl _,
        1, ?_, ?_⟩
      · rw [map_one, if_neg Bool.false_ne_true]
      · rw [Equiv.Perm.coe_one, Matrix.submatrix_id_id]
    next h =>
      rw [decide_eq_true_iff, not_not] at h
      split
      -- no row starts with anything but zero
      next hnone =>
        refine .inl ⟨rfl, List.forall_mem_cons.2 ⟨h, fun r hr => ?_⟩⟩
        have hr' := List.findIdx?_eq_none_iff.1 hnone r hr
        rwa [decide_eq_false_iff_not, not_not] at hr'
      next i hsome =>
        obtain ⟨hi, hpivot, -⟩ := List.findIdx?_eq_some_iff_getElem.1 hsome
        refine .inr ⟨true, rest[i], rest.set i row, ?_,
          pivoted_exchange hlen hi (toPolynomial_ne_zero_iff.2 (of_decide_eq_true hpivot))⟩
        rw [List.getD_eq_getElem _ _ hi]

section

variable {swapped : Bool} {pivotRow : List MvPoly} {others : Rows}

/-- One row is taken out. -/
theorem Pivoted.length_others (h : Pivoted (n + 1) rows swapped pivotRow others)
    (hlen : rows.length = n + 1) : others.length = n := by
  have hperm := h.perm.length_eq
  rw [hlen, List.length_cons] at hperm
  exact Nat.succ_injective hperm

theorem Pivoted.length_row (h : Pivoted n rows swapped pivotRow others)
    (hrows : ∀ row ∈ rows, row.length = n) :
    pivotRow.length = n ∧ ∀ row ∈ others, row.length = n :=
  List.forall_mem_cons.1 fun row hrow => hrows row (h.perm.mem_iff.1 hrow)

/-- The rows are the same ones in another order. -/
theorem Pivoted.minorsDivisible {b : MvPolynomial Var ℚ}
    (h : Pivoted n rows swapped pivotRow others) (hminors : MinorsDivisible b (matrixOf n rows)) :
    MinorsDivisible b (matrixOf n (pivotRow :: others)) := by
  obtain ⟨σ, -, hmatrix⟩ := h.matrix
  exact hmatrix ▸ hminors.submatrix σ

/-- An exchange of two rows changes the sign. -/
theorem Pivoted.det_eq (h : Pivoted n rows swapped pivotRow others) :
    (matrixOf n (pivotRow :: others)).det
      = (if swapped then -1 else 1) * (matrixOf n rows).det := by
  obtain ⟨σ, hsign, hmatrix⟩ := h.matrix
  rw [hmatrix, Matrix.det_permute, hsign]
  cases swapped <;> simp

theorem Pivoted.fits (h : Pivoted n rows swapped pivotRow others)
    (hrows : ∀ row ∈ rows, ∀ entry ∈ row, entry.Fits) : (pivotRow.headD zero).Fits := by
  have hrow := hrows pivotRow (h.perm.mem_iff.1 List.mem_cons_self)
  cases pivotRow with
  | nil => exact fits_zero
  | cons entry rest => exact hrow entry List.mem_cons_self

/-- Clearing the other rows. -/
theorem mapM_clearRowBy_raw (hdivide : FindsQuotients divide) (reading : Reading)
    (hprev : prev.toPolynomial ≠ 0) (hprevfits : prev.Fits)
    (hfits : ∀ row ∈ others, ClearFits pivotRow row) (hp : pivotRow.length = n + 1) (hlen : others.length = n)
    (hothers : ∀ row ∈ others, row.length = n + 1)
    (hminors : MinorsDivisible prev.toPolynomial (matrixOf (n + 1) (pivotRow :: others))) :
    (rawRows others).mapM (clearRowBy divide reading prev.raw (pivotRow.map MvPoly.raw))
      = some (rawRows (others.map (MvPoly.clearRow prev pivotRow))) :=
  mapM_map_eq_some fun row hrow => clearRowBy_raw hdivide reading hprev hprevfits (hfits row hrow)
    fun _ => dvd_of_minorsDivisible hp hlen hothers hminors hrow

end

/-! ## Signs -/

/-- The polynomial or its opposite. -/
theorem toPolynomial_signed (swapped : Bool) (f : MvPoly) :
    (if swapped then f.neg else f).toPolynomial = (if swapped then -1 else 1) * f.toPolynomial := by
  cases swapped with
  | false => exact (one_mul _).symm
  | true => exact (toPolynomial_neg f).trans (neg_one_mul _).symm

/-- Two exchanges cancel. -/
theorem signed_signed (negate swapped : Bool) (f : MvPoly) :
    (if negate ^^ swapped then f.neg else f)
      = if negate then (if swapped then f.neg else f).neg else if swapped then f.neg else f := by
  refine toPolynomial_injective ?_
  cases negate <;> cases swapped <;> simp

end Raw

/-! ## Elimination -/

/-- What an elimination with `n` steps multiplies fits into words. -/
def EliminationFits : ℕ → MvPoly → Rows → Prop
  | 0, _, _ => True
  | n + 1, prev, rows =>
    match pivot rows with
    | none => True
    | some (_, pivotRow, others) =>
      (∀ row ∈ others, Raw.ClearFits pivotRow row) ∧
        EliminationFits n (pivotRow.headD zero) (others.map (clearRow prev pivotRow))

instance decidableEliminationFits : ∀ (n : ℕ) (prev : MvPoly) (rows : Rows),
    Decidable (EliminationFits n prev rows)
  | 0, _, _ => isTrue trivial
  | n + 1, prev, rows =>
    match h : pivot rows with
    | none => isTrue (by rw [EliminationFits, h]; trivial)
    | some (_, pivotRow, others) =>
      have := decidableEliminationFits n (pivotRow.headD zero) (others.map (clearRow prev pivotRow))
      decidable_of_iff ((∀ row ∈ others, Raw.ClearFits pivotRow row) ∧
        EliminationFits n (pivotRow.headD zero) (others.map (clearRow prev pivotRow)))
        (by rw [EliminationFits, h])

namespace Raw

/-- The elimination computes the determinant, divided by the powers of the previous pivot that it
has in excess, as long as the division finds the quotients of exact divisions. -/
theorem eliminateBy_raw (hdivide : FindsQuotients divide) (reading : Reading) :
    ∀ (n : ℕ) (negate : Bool) {prev : MvPoly} {rows : Rows}, prev.toPolynomial ≠ 0 → prev.Fits →
      (∀ row ∈ rows, ∀ entry ∈ row, entry.Fits) → EliminationFits n prev rows →
      rows.length = n + 1 → (∀ row ∈ rows, row.length = n + 1) →
        MinorsDivisible prev.toPolynomial (matrixOf (n + 1) rows) →
          ∃ minor : MvPoly, eliminateBy divide reading n negate prev.raw (rawRows rows)
              = some (if negate then minor.neg else minor).raw ∧ minor.Fits ∧
            minor.toPolynomial * prev.toPolynomial ^ n = (matrixOf (n + 1) rows).det
  | 0, negate, prev, rows, _, _, hentries, _, hlen, hrows, _ => by
    obtain ⟨row, rfl⟩ := List.length_eq_one_iff.1 hlen
    obtain ⟨entry, rfl⟩ := List.length_eq_one_iff.1 (hrows row List.mem_cons_self)
    have hentry : entry.Fits := hentries _ List.mem_cons_self entry List.mem_cons_self
    refine ⟨entry, ?_, hentry, ?_⟩
    · cases negate with
      | false => rfl
      | true => exact congrArg some (neg_raw hentry)
    · rw [pow_zero, mul_one, Matrix.det_fin_one, matrixOf_zero_zero]
      rfl
  | n + 1, negate, prev, rows, hprev, hprevfits, hentries, hfits, hlen, hrows, hminors => by
    rw [eliminateBy, pivot_raw]
    rw [EliminationFits] at hfits
    rcases pivot_cases hlen with ⟨hpivot, hzero⟩ | ⟨swapped, pivotRow, others, hpivot, hpivoted⟩
    · refine ⟨zero, ?_, fits_zero, ?_⟩
      · rw [hpivot]
        cases negate <;> rfl
      · rw [det_eq_zero_of_heads hlen hzero, toPolynomial_zero, zero_mul]
    · rw [hpivot] at hfits ⊢
      obtain ⟨hclear, hrest⟩ := hfits
      have hlen' := hpivoted.length_others hlen
      obtain ⟨hp, hothers⟩ := hpivoted.length_row hrows
      have hminors' := hpivoted.minorsDivisible hminors
      -- the minors of the cleared rows are divisible by the new pivot
      have hstep := hminors'.step hprev
        (by rw [matrixOf_zero_zero]; exact hpivoted.head_ne_zero)
        (matrixOf_clearRow hprev hp hlen' hothers hminors')
      rw [matrixOf_zero_zero] at hstep
      have hcleared : ∀ row ∈ others.map (MvPoly.clearRow prev pivotRow), ∀ entry ∈ row,
          entry.Fits := List.forall_mem_map.2 fun row hrow =>
        fits_clearRow hprev (hclear row hrow) fun _ =>
          dvd_of_minorsDivisible hp hlen' hothers hminors' hrow
      obtain ⟨minor, heliminate, hminorfits, hminor⟩ := eliminateBy_raw hdivide reading n
        (negate ^^ swapped) hpivoted.head_ne_zero (hpivoted.fits hentries) hcleared hrest
        (by rw [List.length_map, hlen'])
        (List.forall_mem_map.2 fun row hrow => length_clearRow hp (hothers row hrow)) hstep
      refine ⟨if swapped then minor.neg else minor, ?_, ?_, ?_⟩
      · simp only [Option.map_some, Prod.map_apply, id_eq, headD_map_raw]
        rw [mapM_clearRowBy_raw hdivide reading hprev hprevfits hclear hp hlen' hothers hminors',
          ← signed_signed]
        exact heliminate
      · cases swapped with
        | false => exact hminorfits
        | true => exact hminorfits.neg
      · have hdet := minor_eq_det hprev hpivoted.head_ne_zero hp hlen' hothers hminors'
          fun _ => by rw [pow_succ, ← mul_assoc, hminor]
        -- one power of the previous pivot is in excess on both sides
        rw [pow_succ, ← mul_assoc] at hdet
        rw [toPolynomial_signed, mul_assoc, mul_right_cancel₀ hprev hdet, hpivoted.det_eq,
          ← mul_assoc]
        cases swapped <;> simp

/-- What comes out of the elimination is the determinant. -/
theorem eliminateBy_one_raw (hdivide : FindsQuotients divide) (reading : Reading)
    (hentries : ∀ row ∈ rows, ∀ entry ∈ row, entry.Fits) (hfits : EliminationFits n one rows)
    (hlen : rows.length = n + 1) (hrows : ∀ row ∈ rows, row.length = n + 1) :
    eliminateBy divide reading n false (constant 1) (rawRows rows)
      = some (MvPoly.determinant rows).raw ∧ (MvPoly.determinant rows).Fits := by
  have hone : one.toPolynomial ≠ 0 := by
    rw [toPolynomial_one]
    exact one_ne_zero
  obtain ⟨minor, heliminate, hminorfits, hminor⟩ := eliminateBy_raw hdivide reading n false hone
    (fits_constant 1) hentries hfits hlen hrows (by
      rw [toPolynomial_one]
      exact minorsDivisible_one _)
  rw [toPolynomial_one, one_pow, mul_one] at hminor
  have hdet : minor = MvPoly.determinant rows :=
    toPolynomial_injective (hminor.trans (toPolynomial_determinant hlen hrows).symm)
  rw [constant_eq, ← hdet]
  exact ⟨heliminate, hminorfits⟩

/-- With any division that finds quotients the elimination is the one without a bound, and no
division on the way fails. -/
theorem determinantBy_raw (hdivide : FindsQuotients divide) (reading : Reading)
    (hentries : ∀ row ∈ rows, ∀ entry ∈ row, entry.Fits) (hfits : EliminationFits (n - 1) one rows)
    (hlen : rows.length = n) (hrows : ∀ row ∈ rows, row.length = n) :
    determinantBy divide reading (rawRows rows) = some (MvPoly.determinant rows).raw ∧
      (MvPoly.determinant rows).Fits := by
  unfold determinantBy
  have hraw : (rawRows rows).length = n := by
    rw [rawRows, List.length_map, hlen]
  rw [hraw]
  cases n with
  | zero =>
    rw [List.length_eq_zero_iff.1 hlen]
    exact ⟨congrArg some (constant_eq 1), fits_constant 1⟩
  | succ n => exact eliminateBy_one_raw hdivide reading hentries hfits hlen hrows

/-! ## The division that runs -/

theorem clearRow_eq_clearRowBy : clearRow = clearRowBy quotientOrZero := rfl

/-- What runs is the elimination with the division that gives zero. -/
theorem eliminate_eq_eliminateBy (reading : Reading) : ∀ (n : ℕ) (negate : Bool) (prev : Raw)
    (rows : List (List Raw)),
      eliminate reading n negate prev rows = eliminateBy quotientOrZero reading n negate prev rows
  | 0, _, _, _ => rfl
  | n + 1, negate, prev, rows => by
    rw [eliminate, eliminateBy, clearRow_eq_clearRowBy]
    cases pivot rows with
    | none => rfl
    | some choice =>
      exact Option.bind_congr fun cleared _ => eliminate_eq_eliminateBy reading n _ _ _

/-- What comes out of the elimination that runs is the determinant. -/
theorem eliminate_one_raw (reading : Reading)
    (hentries : ∀ row ∈ rows, ∀ entry ∈ row, entry.Fits) (hfits : EliminationFits n one rows)
    (hlen : rows.length = n + 1) (hrows : ∀ row ∈ rows, row.length = n + 1) :
    eliminate reading n false (constant 1) (rawRows rows)
      = some (MvPoly.determinant rows).raw ∧ (MvPoly.determinant rows).Fits := by
  rw [eliminate_eq_eliminateBy]
  exact eliminateBy_one_raw findsQuotients_quotientOrZero reading hentries hfits hlen hrows

end Raw

end AlgebraicReal.MvPoly
