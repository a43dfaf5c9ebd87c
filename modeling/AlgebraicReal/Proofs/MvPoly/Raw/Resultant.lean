import AlgebraicReal.Proofs.MvPoly.Raw.Determinant

/-!
# Resultants of term lists

The rows that are built from two term lists are the rows of the Sylvester matrix, and both
eliminations give its determinant, as long as what is multiplied on the way fits into words
(`resultant_raw`). So the resultant is the Leibniz sum over the Sylvester matrix, and no division on
the way to a determinant leaves a remainder or has the divisor zero (`determinants_exact`). A product
that wraps around can spoil a division, and then the resultant has lost terms, even where the
determinant itself would fit (`resultant_ne_determinant`).
-/

open MvPolynomial

namespace AlgebraicReal.MvPoly

/-- What the resultant multiplies fits into words: powers of a polynomial without `v`, and otherwise
the products in the elimination. -/
def ResultantFits (f g : MvPoly) (v : Var) : Prop :=
  f.Fits ∧ g.Fits ∧
    if f.degree v = 0 then g.degree v * f.totalDegree < 2 ^ 32
    else if g.degree v = 0 then f.degree v * g.totalDegree < 2 ^ 32
    else EliminationFits (f.degree v + g.degree v - 1) one (sylvester f g v)

instance (f g : MvPoly) (v : Var) : Decidable (ResultantFits f g v) :=
  inferInstanceAs (Decidable (_ ∧ _ ∧ _))

namespace Raw

/-- Shifted rows of coefficients, -/
theorem shiftedRows_raw (coeffs : List MvPoly) (count : ℕ) :
    shiftedRows (coeffs.map MvPoly.raw) count = rawRows (MvPoly.shiftedRows coeffs count) := by
  unfold shiftedRows MvPoly.shiftedRows rawRows
  rw [List.map_map]
  refine List.map_congr_left fun i _ => ?_
  rw [Function.comp_apply, List.map_append, List.map_append, List.map_replicate, List.map_replicate,
    List.map_reverse, zero_raw]

section

variable {f g : MvPoly} {v : Var}

/-- and so the whole matrix. -/
theorem sylvester_raw (hf : f.Fits) (hg : g.Fits) :
    shiftedRows (coefficients f.raw v) (g.degree v)
        ++ shiftedRows (coefficients g.raw v) (f.degree v)
      = rawRows (sylvester f g v) := by
  rw [coefficients_raw hf, coefficients_raw hg, shiftedRows_raw, shiftedRows_raw, rawRows, rawRows,
    ← List.map_append]
  rfl

/-- Its entries are coefficients and zeros. -/
theorem fits_of_mem_shiftedRows {coeffs : List MvPoly} (h : ∀ c ∈ coeffs, c.Fits) {count : ℕ}
    {row : List MvPoly} (hrow : row ∈ MvPoly.shiftedRows coeffs count) : ∀ c ∈ row, c.Fits := by
  obtain ⟨i, -, rfl⟩ := List.mem_map.1 hrow
  intro c hc
  rcases List.mem_append.1 hc with hc | hc
  · rcases List.mem_append.1 hc with hc | hc
    · rw [List.eq_of_mem_replicate hc]
      exact fits_zero
    · exact h c (List.mem_reverse.1 hc)
  · rw [List.eq_of_mem_replicate hc]
    exact fits_zero

theorem fits_of_mem_sylvester (hf : f.Fits) (hg : g.Fits) :
    ∀ row ∈ sylvester f g v, ∀ c ∈ row, c.Fits := by
  intro row hrow
  rcases List.mem_append.1 hrow with hrow | hrow
  · exact fits_of_mem_shiftedRows (fun _ => fits_of_mem_coefficients hf) hrow
  · exact fits_of_mem_shiftedRows (fun _ => fits_of_mem_coefficients hg) hrow

/-- Both eliminations give the same resultant. -/
theorem resultant_raw (reading : Reading) (h : ResultantFits f g v) :
    resultant reading f.raw g.raw v = some (f.resultant g v).raw ∧ (f.resultant g v).Fits := by
  obtain ⟨hf, hg, hfits⟩ := h
  unfold resultant MvPoly.resultant
  rw [isEmpty_raw, isEmpty_raw, degree_raw hf, degree_raw hg]
  split
  next => exact ⟨rfl, fits_zero⟩
  next =>
    split
    next hf0 =>
      rw [if_pos hf0] at hfits
      exact ⟨congrArg some (pow_raw reading hfits), fits_pow hfits⟩
    next hf0 =>
      rw [if_neg hf0] at hfits
      split
      next hg0 =>
        rw [if_pos hg0] at hfits
        exact ⟨congrArg some (pow_raw reading hfits), fits_pow hfits⟩
      next hg0 =>
        rw [if_neg hg0] at hfits
        -- only with both degrees positive is there a matrix
        have hsize : f.degree v + g.degree v - 1 + 1 = f.degree v + g.degree v := by
          omega
        rw [sylvester_raw hf hg]
        exact eliminate_one_raw reading (fits_of_mem_sylvester hf hg) hfits
          ((length_sylvester f g v).trans hsize.symm)
          fun row hrow => (length_of_mem_sylvester hrow).trans hsize.symm

/-- With the variable in both polynomials the resultant is a determinant. -/
theorem resultant_of_degree_pos (hf : 0 < f.degree v) (hg : 0 < g.degree v) :
    f.resultant g v = MvPoly.determinant (sylvester f g v) := by
  have hzero : ∀ {p : MvPoly}, 0 < p.degree v → ¬p.isZero = true := by
    intro p hp h
    rw [← toPolynomial_eq_zero_iff, ← toPolynomial_zero] at h
    rw [toPolynomial_injective h] at hp
    exact lt_irrefl 0 hp
  rw [MvPoly.resultant, if_neg (not_or.2 ⟨hzero hf, hzero hg⟩), if_neg hf.ne', if_neg hg.ne']

/-- The resultant of two polynomials that have the variable is the determinant. -/
theorem toPolynomial_resultant_of_degree_pos (hf : 0 < f.degree v) (hg : 0 < g.degree v) :
    (f.resultant g v).toPolynomial = (sylvesterMatrix f g v).det := by
  rw [resultant_of_degree_pos hf hg, ← matrixOf_sylvester_eq]
  exact toPolynomial_determinant (length_sylvester f g v) fun row => length_of_mem_sylvester

end

/-- The resultant of two polynomials that both have `v` is the Leibniz determinant of their
Sylvester matrix. The determinant of a square matrix is the Leibniz determinant too, and it still
is if the elimination is made to fail at the first division that leaves a remainder or has the
divisor zero: there is no such division. All this is so if what is multiplied fits into words. -/
theorem determinants_exact (reading : Reading) :
    (∀ (f g : MvPoly) (v : Var), 0 < f.degree v → 0 < g.degree v → ResultantFits f g v →
      ∃ det : MvPoly, det.toPolynomial = (sylvesterMatrix f g v).det ∧ det.Fits ∧
        resultant reading f.raw g.raw v = some det.raw ∧
        determinant reading (rawRows (sylvester f g v)) = some det.raw) ∧
    (∀ (n : ℕ) (rows : Rows), rows.length = n → (∀ row ∈ rows, row.length = n) →
      (∀ row ∈ rows, ∀ entry ∈ row, entry.Fits) → EliminationFits (n - 1) one rows →
      ∃ det : MvPoly, det.toPolynomial = (matrixOf n rows).det ∧ det.Fits ∧
        determinant reading (rawRows rows) = some det.raw ∧
        determinantBy divExact? reading (rawRows rows) = some det.raw) := by
  refine ⟨fun f g v hf hg h => ?_, fun n rows hlen hrows hentries hfits => ?_⟩
  · obtain ⟨hresultant, hfits⟩ := resultant_raw reading h
    obtain ⟨hffits, hgfits, helimination⟩ := h
    rw [if_neg hf.ne', if_neg hg.ne'] at helimination
    refine ⟨f.resultant g v, toPolynomial_resultant_of_degree_pos hf hg, hfits, hresultant, ?_⟩
    rw [resultant_of_degree_pos hf hg]
    exact (determinantBy_raw findsQuotients_quotientOrZero reading
      (fits_of_mem_sylvester hffits hgfits) helimination (length_sylvester f g v)
      fun row => length_of_mem_sylvester).1
  · obtain ⟨hcomputed, hdetfits⟩ :=
      determinantBy_raw findsQuotients_quotientOrZero reading hentries hfits hlen hrows
    exact ⟨_, toPolynomial_determinant hlen hrows, hdetfits, hcomputed,
      (determinantBy_raw findsQuotients_divExact? reading hentries hfits hlen hrows).1⟩

/-- The first step of the elimination has to exchange two rows. -/
theorem determinants_swapped :
    let x := ofVar 0
    let rows : Rows := [[zero, x, one], [x, zero, zero], [one, one, x]]
    let f := (x.mul x).sub (ofVar 1)
    let g := (ofVar 1).sub x
    (0 < f.degree 0 ∧ 0 < g.degree 0 ∧ ResultantFits f g 0 ∧ ∃ det : MvPoly,
        det.toPolynomial = (sylvesterMatrix f g 0).det ∧
          resultant .backward f.raw g.raw 0 = some det.raw) ∧
      EliminationFits 2 one rows ∧ ∃ det : MvPoly, det.toPolynomial = X 0 - X 0 ^ 3 ∧
        determinantBy divExact? .backward (rawRows rows) = some det.raw := by
  intro x rows f g
  obtain ⟨hresultant, hdeterminant⟩ := determinants_exact .backward
  have hf : 0 < f.degree 0 := by decide_cbv
  have hg : 0 < g.degree 0 := by decide_cbv
  have hfits : ResultantFits f g 0 := by decide +kernel
  have hrows : EliminationFits 2 one rows := by decide +kernel
  have hentries : ∀ row ∈ rows, ∀ entry ∈ row, entry.Fits := by decide +kernel
  have hlengths : ∀ row ∈ rows, row.length = 3 := by
    simp [rows]
  obtain ⟨resultant, hdet, -, hcomputed, -⟩ := hresultant f g 0 hf hg hfits
  obtain ⟨det, hdet', -, -, hexact⟩ := hdeterminant 3 rows rfl hlengths hentries hrows
  refine ⟨⟨hf, hg, hfits, resultant, hdet, hcomputed⟩, hrows, det, ?_, hexact⟩
  rw [hdet', Matrix.det_fin_three]
  simp only [matrixOf_apply, rows, x]
  simp [toPolynomial_ofVar, toPolynomial_one, toPolynomial_zero]
  ring

/-- The power of `x1` that the elimination meets has the exponent `2 ^ 32`, which wraps around to zero.
The determinant has only half of it. -/
theorem resultant_ne_determinant : ¬∀ (f g : MvPoly) (v : Var), f.Fits → g.Fits → 0 < f.degree v →
    0 < g.degree v → (f.resultant g v).Fits → ∃ det : MvPoly, det.Fits ∧
      det.toPolynomial = (sylvesterMatrix f g v).det ∧
        resultant .forward f.raw g.raw v = some det.raw := by
  intro h
  set f : MvPoly := ((MvPoly.varPower 1 2147483648).mul (MvPoly.varPower 0 2)).add one
  set g : MvPoly := (ofVar 0).sub one
  have hf : f.raw = [⟨1, ⟨[(0, 2), (1, 2147483648)], 2147483650⟩⟩, ⟨1, .unit⟩] := by decide +kernel
  have hg : g.raw = [⟨1, .power 0 1⟩, ⟨-1, .unit⟩] := by decide +kernel
  have hcomputed : resultant .forward
      [⟨1, ⟨[(0, 2), (1, 2147483648)], 2147483650⟩⟩, ⟨1, .unit⟩]
      [⟨1, .power 0 1⟩, ⟨-1, .unit⟩] 0 = some (constant 1) := by cbv
  have hfdegree : 0 < f.degree 0 := by decide_cbv
  have hgdegree : 0 < g.degree 0 := by decide_cbv
  obtain ⟨det, hdetfits, hdet, hresultant⟩ := h f g 0 (by decide_cbv) (by decide_cbv)
    hfdegree hgdegree (by decide +kernel)
  rw [← toPolynomial_resultant_of_degree_pos hfdegree hgdegree] at hdet
  rw [hf, hg, hcomputed, constant_eq, toPolynomial_injective hdet] at hresultant
  have hone := raw_inj (fits_constant 1) (by decide +kernel) (Option.some.inj hresultant)
  exact absurd hone (by decide +kernel)

end Raw

end AlgebraicReal.MvPoly
