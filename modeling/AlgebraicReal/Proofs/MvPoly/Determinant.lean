import AlgebraicReal.Proofs.MvPoly.Division

/-!
# Determinants by fraction-free elimination

Clearing the first column of a matrix with a pivot `a` multiplies the other rows by `a`. The entries
that are left are two-rowed minors of the matrix, and by Chio's identity the minors of what is left
are those of the matrix times a power of `a` (`chio`). So if `prev ^ j` divides the minors with `j +
1` rows, the division of the new entries by `prev` is exact, and the minors of the new matrix with
`j + 1` rows are divisible by `a ^ j` (`MinorsDivisible.step`): this carries the elimination through
(`eliminate_eq_det`).
-/

namespace AlgebraicReal

section Minors

variable {R : Type*} [CommRing R]

/-- What is left of a matrix when the first column is cleared with the first row. -/
def cleared {n : ℕ} (M : Matrix (Fin (n + 1)) (Fin (n + 1)) R) : Matrix (Fin n) (Fin n) R :=
  .of fun i j => M 0 0 * M i.succ j.succ - M i.succ 0 * M 0 j.succ

/-- Chio's identity. -/
theorem chio {n : ℕ} (M : Matrix (Fin (n + 1)) (Fin (n + 1)) R) :
    M 0 0 * (cleared M).det = M 0 0 ^ n * M.det := by
  -- scale all rows but the first one, then clear the column
  let scale : Fin (n + 1) → R := fun i => if i = 0 then 1 else M 0 0
  let A : Matrix (Fin (n + 1)) (Fin (n + 1)) R := .of fun i j => scale i * M i j
  let c : Fin (n + 1) → R := fun i => if i = 0 then 0 else -M i 0
  let B : Matrix (Fin (n + 1)) (Fin (n + 1)) R := .of fun i j => A i j + c i * A 0 j
  have hA : A.det = M 0 0 ^ n * M.det := by
    rw [Matrix.det_mul_column, Fin.prod_univ_succ]
    simp [scale, Fin.succ_ne_zero]
  have hAB : B.det = A.det :=
    Matrix.det_eq_of_forall_row_eq_smul_add_const c 0 (if_pos rfl) fun i j => rfl
  have hcol : ∀ i : Fin n, B i.succ 0 = 0 := by
    intro i
    simp only [B, A, c, scale, Matrix.of_apply, if_neg (Fin.succ_ne_zero i), if_pos]
    ring
  have hsub : B.submatrix (Fin.succAbove 0) Fin.succ = cleared M := by
    ext i j
    simp only [B, A, c, scale, cleared, Matrix.submatrix_apply, Matrix.of_apply, Fin.succAbove_zero,
      if_neg (Fin.succ_ne_zero i), if_pos]
    ring
  have h00 : B 0 0 = M 0 0 := by
    simp [B, A, c, scale]
  rw [← hA, ← hAB, Matrix.det_succ_column_zero, Fin.sum_univ_succ, hsub, h00]
  simp [hcol]

/-- The minors with `j + 1` rows are divisible by the `j`-th power. -/
def MinorsDivisible {n : ℕ} (prev : R) (M : Matrix (Fin n) (Fin n) R) : Prop :=
  ∀ (j : ℕ) (f g : Fin (j + 1) → Fin n), prev ^ j ∣ (M.submatrix f g).det

theorem minorsDivisible_one {n : ℕ} (M : Matrix (Fin n) (Fin n) R) : MinorsDivisible 1 M :=
  fun j f g => by
    rw [one_pow]
    exact one_dvd _

theorem MinorsDivisible.submatrix {n : ℕ} {prev : R} {M : Matrix (Fin n) (Fin n) R}
    (h : MinorsDivisible prev M) (σ : Fin n → Fin n) : MinorsDivisible prev (M.submatrix σ id) :=
  fun j f g => h j (σ ∘ f) g

variable {n : ℕ} {prev : R} {M : Matrix (Fin (n + 1)) (Fin (n + 1)) R}

/-- The entries that are left are two-rowed minors. -/
theorem MinorsDivisible.dvd_cleared (h : MinorsDivisible prev M) (i j : Fin n) :
    prev ∣ cleared M i j := by
  have hminor := h 1 ![0, i.succ] ![0, j.succ]
  rw [pow_one, Matrix.det_fin_two] at hminor
  have heq : cleared M i j = M 0 0 * M i.succ j.succ - M 0 j.succ * M i.succ 0 := by
    rw [cleared, Matrix.of_apply, mul_comm (M i.succ 0)]
  rw [heq]
  exact hminor

/-- A bordered minor of the matrix and the minor of what is left. -/
theorem cleared_submatrix {j : ℕ} (f g : Fin (j + 1) → Fin n) :
    (cleared M).submatrix f g
      = cleared (M.submatrix (Fin.cons 0 (Fin.succ ∘ f)) (Fin.cons 0 (Fin.succ ∘ g))) := by
  ext i k
  simp [cleared]

variable {N : Matrix (Fin n) (Fin n) R}

/-- After a step with a nonzero pivot the minors are divisible by powers of that pivot. -/
theorem MinorsDivisible.step [IsDomain R] (h : MinorsDivisible prev M) (hprev : prev ≠ 0)
    (hpivot : M 0 0 ≠ 0)
    (hN : cleared M = prev • N) : MinorsDivisible (M 0 0) N := by
  intro j f g
  have hchio := chio (M.submatrix (Fin.cons 0 (Fin.succ ∘ f)) (Fin.cons 0 (Fin.succ ∘ g)))
  rw [← cleared_submatrix, hN] at hchio
  obtain ⟨D, hD⟩ := h (j + 1) (Fin.cons 0 (Fin.succ ∘ f)) (Fin.cons 0 (Fin.succ ∘ g))
  have hdet : ((prev • N).submatrix f g).det = prev ^ (j + 1) * (N.submatrix f g).det := by
    rw [show (prev • N).submatrix f g = prev • N.submatrix f g from rfl, Matrix.det_smul,
      Fintype.card_fin]
  rw [hdet, hD] at hchio
  refine ⟨D, mul_left_cancel₀ (mul_ne_zero hpivot (pow_ne_zero (j + 1) hprev)) ?_⟩
  calc M 0 0 * prev ^ (j + 1) * (N.submatrix f g).det
      = M 0 0 * (prev ^ (j + 1) * (N.submatrix f g).det) := mul_assoc _ _ _
    _ = M 0 0 ^ (j + 1) * (prev ^ (j + 1) * D) := hchio
    _ = M 0 0 * prev ^ (j + 1) * (M 0 0 ^ j * D) := by ring

/-- How one step changes the determinant. -/
theorem det_step (hN : cleared M = prev • N) :
    M 0 0 * (prev ^ n * N.det) = M 0 0 ^ n * M.det := by
  have hchio := chio M
  rwa [hN, Matrix.det_smul, Fintype.card_fin] at hchio

end Minors

namespace MvPoly

/-- The matrix of a list of rows. -/
noncomputable def matrixOf (n : ℕ) (rows : Rows) :
    Matrix (Fin n) (Fin n) (MvPolynomial Var ℚ) :=
  .of fun i j => ((rows.getD i []).getD j zero).toPolynomial

theorem matrixOf_apply {n : ℕ} (rows : Rows) (i j : Fin n) :
    matrixOf n rows i j = ((rows.getD i []).getD j zero).toPolynomial := rfl

/-- Moving a row to the front is a permutation of the rows. -/
theorem matrixOf_move (n : ℕ) (above below : Rows) (row : List MvPoly)
    (hk : above.length < n + 1) :
    matrixOf (n + 1) (above ++ row :: below)
      = (matrixOf (n + 1) (row :: (above ++ below))).submatrix
          (Fin.cycleRange ⟨above.length, hk⟩) id := by
  ext1 i j
  have hrow : (above ++ row :: below).getD i []
      = (row :: (above ++ below)).getD (Fin.cycleRange ⟨above.length, hk⟩ i) [] := by
    rcases lt_trichotomy (i : ℕ) above.length with h | h | h
    · rw [Fin.coe_cycleRange_of_lt (Fin.lt_def.2 h), List.getD_cons_succ,
        List.getD_append _ _ _ _ h,
        List.getD_append _ _ _ _ h]
    · have hi : i = ⟨above.length, hk⟩ := Fin.ext h
      rw [hi, Fin.cycleRange_self, List.getD_append_right _ _ _ _ le_rfl]
      simp
    · rw [Fin.cycleRange_of_gt (Fin.lt_def.2 h), List.getD_append_right _ _ _ _ h.le]
      obtain ⟨m, hm⟩ := Nat.exists_eq_add_of_lt h
      rw [hm, show above.length + m + 1 - above.length = m + 1 by omega, List.getD_cons_succ,
        List.getD_cons_succ, List.getD_append_right _ _ _ _ (by omega),
        show above.length + m - above.length = m by omega]
  rw [Matrix.submatrix_apply, matrixOf_apply, matrixOf_apply, hrow]
  rfl

/-- Clearing a row. -/
theorem getD_clearRow {prev : MvPoly} {pivotRow row : List MvPoly} {n : ℕ}
    (hp : pivotRow.length = n + 1) (hr : row.length = n + 1) {j : ℕ} (hj : j < n) :
    (clearRow prev pivotRow row).getD j zero
      = (((pivotRow.getD 0 zero).mul (row.getD (j + 1) zero)).sub
          ((row.getD 0 zero).mul (pivotRow.getD (j + 1) zero))).quotient prev := by
  cases pivotRow with
  | nil => cases hp
  | cons a as =>
    cases row with
    | nil => cases hr
    | cons b bs =>
      rw [List.length_cons, Nat.succ_inj] at hp hr
      unfold clearRow
      rw [List.tail_cons, List.tail_cons, List.headD_cons, List.headD_cons, List.getD_cons_zero,
        List.getD_cons_zero, List.getD_cons_succ, List.getD_cons_succ,
        List.getD_eq_getElem _ _ (by simp [hp, hr, hj]), List.getD_eq_getElem _ _ (hr ▸ hj),
        List.getD_eq_getElem _ _ (hp ▸ hj)]
      simp

theorem length_clearRow {prev : MvPoly} {pivotRow row : List MvPoly} {n : ℕ}
    (hp : pivotRow.length = n + 1) (hr : row.length = n + 1) :
    (clearRow prev pivotRow row).length = n := by
  unfold clearRow
  simp [hp, hr]

theorem cleared_matrixOf {n : ℕ} (pivotRow : List MvPoly) (rest : Rows) (i j : Fin n) :
    cleared (matrixOf (n + 1) (pivotRow :: rest)) i j
      = (((pivotRow.getD 0 zero).mul ((rest.getD i []).getD (j + 1) zero)).sub
          (((rest.getD i []).getD 0 zero).mul (pivotRow.getD (j + 1) zero))).toPolynomial := by
  rw [toPolynomial_sub, toPolynomial_mul, toPolynomial_mul]
  rfl

/-- One step of the elimination leaves the cleared matrix, divided by the previous pivot. -/
theorem matrixOf_clearRow {n : ℕ} {prev : MvPoly} {pivotRow : List MvPoly} {rest : Rows}
    (hprev : prev.toPolynomial ≠ 0) (hp : pivotRow.length = n + 1) (hlen : rest.length = n)
    (hrest : ∀ row ∈ rest, row.length = n + 1)
    (h : MinorsDivisible prev.toPolynomial (matrixOf (n + 1) (pivotRow :: rest))) :
    cleared (matrixOf (n + 1) (pivotRow :: rest))
      = prev.toPolynomial • matrixOf n (rest.map (clearRow prev pivotRow)) := by
  ext1 i j
  have hi : (i : ℕ) < rest.length := hlen ▸ i.isLt
  have hrow : (rest.map (clearRow prev pivotRow)).getD i []
      = clearRow prev pivotRow (rest.getD i []) := by
    rw [List.getD_eq_getElem _ _ (by rwa [List.length_map]), List.getElem_map,
      List.getD_eq_getElem _ _ hi]
  have hrl : (rest.getD i []).length = n + 1 := by
    rw [List.getD_eq_getElem _ _ hi]
    exact hrest _ (List.getElem_mem hi)
  have hdvd := h.dvd_cleared i j
  rw [cleared_matrixOf] at hdvd ⊢
  rw [← toPolynomial_quotient hprev hdvd, ← getD_clearRow hp hrl j.isLt, ← hrow, mul_comm]
  rfl

/-! ## The pivot row -/

section

variable {n : ℕ} {prev minor : MvPoly} {above below rest rows : Rows} {row pivotRow : List MvPoly}

theorem matrixOf_zero_zero : matrixOf (n + 1) (pivotRow :: rest) 0 0
    = (pivotRow.headD zero).toPolynomial := by
  rw [List.headD_eq_getD]
  rfl

/-- A column of zeros. -/
theorem det_eq_zero_of_heads (hlen : rows.length = n + 1)
    (h : ∀ row ∈ rows, (row.headD zero).isZero = true) : (matrixOf (n + 1) rows).det = 0 := by
  refine Matrix.det_eq_zero_of_column_eq_zero 0 fun i => ?_
  have hi : (i : ℕ) < rows.length := by
    rw [hlen]
    exact i.isLt
  have hz := h _ (List.getElem_mem hi)
  show ((rows.getD i []).getD 0 zero).toPolynomial = 0
  rw [List.getD_eq_getElem _ _ hi, toPolynomial_eq_zero_iff, ← List.headD_eq_getD]
  exact hz

/-- The pivot row is the first one that does not start with zero. -/
theorem pivot_of_dropWhile
    (h : rows.dropWhile (fun row => (row.headD zero).isZero) = pivotRow :: below) :
    rows.takeWhile (fun row => (row.headD zero).isZero) ++ pivotRow :: below = rows ∧
      (pivotRow.headD zero).toPolynomial ≠ 0 := by
  constructor
  · rw [← h, List.takeWhile_append_dropWhile]
  · rw [toPolynomial_ne_zero_iff]
    have hhead := List.head?_dropWhile_not (fun row => (row.headD zero).isZero) rows
    rw [h] at hhead
    simpa using hhead

theorem det_move (hk : above.length < n + 1) :
    (matrixOf (n + 1) (above ++ row :: below)).det
      = (-1) ^ above.length * (matrixOf (n + 1) (row :: (above ++ below))).det := by
  rw [matrixOf_move n above below row hk, Matrix.det_permute, Fin.sign_cycleRange]
  simp

theorem minorsDivisible_move {r : MvPolynomial Var ℚ} (hk : above.length < n + 1)
    (h : MinorsDivisible r (matrixOf (n + 1) (above ++ row :: below))) :
    MinorsDivisible r (matrixOf (n + 1) (row :: (above ++ below))) := by
  have h' := h.submatrix (Fin.cycleRange ⟨above.length, hk⟩).symm
  rw [matrixOf_move n above below row hk, Matrix.submatrix_submatrix] at h'
  simpa using h'

/-- One step of the elimination, with the pivot row in front. -/
theorem minor_eq_det (hprev : prev.toPolynomial ≠ 0)
    (hpivot : (pivotRow.headD zero).toPolynomial ≠ 0) (hp : pivotRow.length = n + 1)
    (hlen : rest.length = n) (hrest : ∀ row ∈ rest, row.length = n + 1)
    (h : MinorsDivisible prev.toPolynomial (matrixOf (n + 1) (pivotRow :: rest)))
    (hminor : MinorsDivisible (pivotRow.headD zero).toPolynomial
        (matrixOf n (rest.map (clearRow prev pivotRow))) →
      minor.toPolynomial * (pivotRow.headD zero).toPolynomial ^ n
        = (matrixOf n (rest.map (clearRow prev pivotRow))).det
          * (pivotRow.headD zero).toPolynomial) :
    minor.toPolynomial * prev.toPolynomial ^ (n + 1)
      = (matrixOf (n + 1) (pivotRow :: rest)).det * prev.toPolynomial := by
  have hN := matrixOf_clearRow hprev hp hlen hrest h
  have hdet := det_step hN
  have hstep := h.step hprev (by rwa [matrixOf_zero_zero]) hN
  rw [matrixOf_zero_zero] at hdet hstep
  refine mul_left_cancel₀ (pow_ne_zero n hpivot) ?_
  linear_combination prev.toPolynomial ^ (n + 1) * hminor hstep + prev.toPolynomial * hdet

end

/-- Fraction-free elimination computes the determinant, divided by the powers of the previous pivot
that it has in excess. -/
theorem eliminate_eq_det : ∀ (n : ℕ) {prev : MvPoly} {rows : Rows}, prev.toPolynomial ≠ 0 →
    rows.length = n → (∀ row ∈ rows, row.length = n) →
      MinorsDivisible prev.toPolynomial (matrixOf n rows) →
        (eliminate n prev rows).toPolynomial * prev.toPolynomial ^ n
          = (matrixOf n rows).det * prev.toPolynomial
  | 0, prev, rows, _, _, _, _ => by
    rw [pow_zero, mul_one, Matrix.det_fin_zero, one_mul]
    rfl
  | n + 1, prev, rows, hprev, hlen, hrows, hminors => by
    rw [eliminate]
    simp only
    split
    next hnil =>
      rw [det_eq_zero_of_heads hlen (List.dropWhile_eq_nil_iff.1 hnil), zero_mul, toPolynomial_zero,
        zero_mul]
    next pivotRow below hcons =>
      obtain ⟨hsplit, hpivot⟩ := pivot_of_dropWhile hcons
      -- the pivot row is taken out from between the rows above and below it
      generalize rows.takeWhile (fun row => (row.headD zero).isZero) = above at hsplit ⊢
      subst hsplit
      rw [List.length_append, List.length_cons] at hlen
      have hk : above.length < n + 1 := by
        omega
      have hlen' : (above ++ below).length = n := by
        rw [List.length_append]
        omega
      have hrest : ∀ row ∈ above ++ below, row.length = n + 1 := fun row hrow =>
        hrows row (List.mem_append.2 ((List.mem_append.1 hrow).imp_right
          (List.mem_cons_of_mem pivotRow)))
      have hp : pivotRow.length = n + 1 :=
        hrows pivotRow (List.mem_append_right above List.mem_cons_self)
      have hclear : ∀ row ∈ (above ++ below).map (clearRow prev pivotRow), row.length = n := by
        intro row hrow
        obtain ⟨row', hrow', rfl⟩ := List.mem_map.1 hrow
        exact length_clearRow hp (hrest row' hrow')
      have hminor := minor_eq_det hprev hpivot hp hlen' hrest (minorsDivisible_move hk hminors)
        (eliminate_eq_det n hpivot (by rw [List.length_map, hlen']) hclear)
      -- moving it to the top changes the sign as often as there are rows above
      rw [det_move hk]
      split
      next hodd =>
        rw [Odd.neg_one_pow (Nat.odd_iff.2 hodd), toPolynomial_neg, neg_mul, hminor, neg_one_mul,
          neg_mul]
      next heven =>
        rw [Even.neg_one_pow (Nat.even_iff.2 (by omega)), one_mul, hminor]

/-- The determinant of a square matrix. -/
theorem toPolynomial_determinant {n : ℕ} {rows : Rows} (hlen : rows.length = n)
    (hrows : ∀ row ∈ rows, row.length = n) :
    (determinant rows).toPolynomial = (matrixOf n rows).det := by
  have hone : one.toPolynomial ≠ 0 := by
    rw [toPolynomial_one]
    exact one_ne_zero
  have h := eliminate_eq_det n hone hlen hrows (by
    rw [toPolynomial_one]
    exact minorsDivisible_one _)
  rw [toPolynomial_one, one_pow, mul_one, mul_one] at h
  rw [determinant, hlen, h]

end MvPoly

end AlgebraicReal
