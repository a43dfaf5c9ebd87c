import AlgebraicReal.Proofs.MvPoly.Determinant
import AlgebraicReal.Proofs.UniPoly.Sparse

/-!
# Resultants

The Sylvester matrix that is built row by row is the transpose of the usual one with rows and
columns in opposite order, so its determinant is the resultant (`toPolynomial_resultant`). With a
polynomial in the eliminated variable alone as the second argument, the resultant is the product of
what the first one is for the roots of the second (`aeval_resultant`), so it vanishes at a point
exactly if one of the factors does (`aeval_resultant_eq_zero_iff`).
-/

open MvPolynomial

namespace AlgebraicReal

namespace MvPoly

/-! ## The Sylvester matrix -/

/-- An entry of a shifted row. -/
theorem getD_shifted {coeffs : List MvPoly} {m : ℕ} (hlen : coeffs.length = m + 1) (i k c : ℕ) :
    (List.replicate i zero ++ coeffs.reverse ++ List.replicate k zero).getD c zero
      = if i ≤ c ∧ c ≤ i + m then coeffs.getD (m - (c - i)) zero else zero := by
  have hrev : coeffs.reverse.length = m + 1 := by rw [List.length_reverse, hlen]
  rw [List.append_assoc]
  rcases Nat.lt_or_ge c i with h | h
  · rw [if_neg (by omega), List.getD_append _ _ _ _ (by rwa [List.length_replicate]),
      List.getD_replicate _ h]
  · rw [List.getD_append_right _ _ _ _ (by rwa [List.length_replicate]), List.length_replicate]
    rcases Nat.lt_or_ge (c - i) (m + 1) with h' | h'
    · rw [if_pos (by omega), List.getD_append _ _ _ _ (by rwa [hrev]),
        List.getD_eq_getElem _ _ (by rwa [hrev]), List.getElem_reverse,
        List.getD_eq_getElem _ _ (by omega)]
      congr 1
      omega
    · rw [if_neg (by omega), List.getD_append_right _ _ _ _ (by rwa [hrev]), hrev]
      rcases Nat.lt_or_ge (c - i - (m + 1)) k with h'' | h''
      · rw [List.getD_replicate _ h'']
      · rw [List.getD_eq_default _ _ (by rwa [List.length_replicate])]

theorem length_coefficients (p : MvPoly) (v : Var) :
    (p.coefficients v).length = p.degree v + 1 := by
  rw [coefficients, List.length_map, List.length_range]

theorem toPolynomial_getD_coefficients {p : MvPoly} {v : Var} {k : ℕ} (hk : k ≤ p.degree v) :
    ((p.coefficients v).getD k zero).toPolynomial = (inVar v p.toPolynomial).coeff k := by
  rw [List.getD_eq_getElem _ _ (by rw [length_coefficients]; omega), ← toPolynomial_coeff]
  simp [coefficients]

theorem length_sylvester (f g : MvPoly) (v : Var) :
    (sylvester f g v).length = f.degree v + g.degree v := by
  unfold sylvester shiftedRows
  rw [List.length_append, List.length_map, List.length_map, List.length_range, List.length_range,
    Nat.add_comm]

theorem length_of_mem_sylvester {f g : MvPoly} {v : Var} {row : List MvPoly}
    (h : row ∈ sylvester f g v) : row.length = f.degree v + g.degree v := by
  unfold sylvester shiftedRows at h
  rcases List.mem_append.1 h with h | h <;> obtain ⟨i, hi, rfl⟩ := List.mem_map.1 h <;>
    rw [List.mem_range] at hi <;>
    rw [List.length_append, List.length_append, List.length_replicate, List.length_replicate,
      List.length_reverse, length_coefficients] <;> omega

/-- A row of the matrix. -/
theorem getD_sylvester (f g : MvPoly) (v : Var) (i c : ℕ) (hi : i < f.degree v + g.degree v) :
    (((sylvester f g v).getD i []).getD c zero).toPolynomial
      = if i < g.degree v then
          (if i ≤ c ∧ c ≤ i + f.degree v then (inVar v f.toPolynomial).coeff (f.degree v - (c - i))
            else 0)
        else if i - g.degree v ≤ c ∧ c ≤ i - g.degree v + g.degree v then
          (inVar v g.toPolynomial).coeff (g.degree v - (c - (i - g.degree v))) else 0 := by
  -- a row that is shifted by `i` starts with the leading coefficient in column `i`
  have hrow : ∀ (p : MvPoly) (count i : ℕ), i < count →
      (((shiftedRows (p.coefficients v) count).getD i []).getD c zero).toPolynomial
        = if i ≤ c ∧ c ≤ i + p.degree v then (inVar v p.toPolynomial).coeff (p.degree v - (c - i))
          else 0 := by
    intro p count i hi
    unfold shiftedRows
    have hi' : i < ((List.range count).map fun i => List.replicate i zero
        ++ (p.coefficients v).reverse ++ List.replicate (count - 1 - i) zero).length := by
      simpa using hi
    rw [List.getD_eq_getElem _ _ hi', List.getElem_map, List.getElem_range,
      getD_shifted (length_coefficients p v)]
    split
    next => exact toPolynomial_getD_coefficients (Nat.sub_le _ _)
    next => rfl
  unfold sylvester
  have hlen : (shiftedRows (f.coefficients v) (g.degree v)).length = g.degree v := by
    simp [shiftedRows]
  split
  next h => rw [List.getD_append _ _ _ _ (by rwa [hlen]), hrow f _ i h]
  next h =>
    rw [List.getD_append_right _ _ _ _ (by rw [hlen]; omega), hlen, hrow g _ _ (by omega)]

theorem matrixOf_sylvester (f g : MvPoly) (v : Var) :
    matrixOf (f.degree v + g.degree v) (sylvester f g v)
      = (Polynomial.sylvester (inVar v f.toPolynomial) (inVar v g.toPolynomial) (f.degree v)
          (g.degree v)).transpose.submatrix Fin.revPerm Fin.revPerm := by
  ext1 i j
  rw [matrixOf_apply, getD_sylvester f g v i j i.isLt, Matrix.submatrix_apply,
    Matrix.transpose_apply, Polynomial.sylvester, Matrix.of_apply, Fin.revPerm_apply,
    Fin.revPerm_apply]
  have hi := i.isLt
  have hj := j.isLt
  -- rows and columns are reversed; the upper block holds the coefficients of `f`, the lower those of `g`
  split
  next h =>
    have hrev : Fin.rev i = Fin.natAdd (f.degree v) ⟨g.degree v - 1 - i, by omega⟩ :=
      Fin.ext (by simp only [Fin.val_rev, Fin.val_natAdd]; omega)
    rw [hrev, Fin.addCases_right]
    simp only [Set.mem_Icc, Fin.val_rev]
    split
    next hc =>
      rw [if_pos (by constructor <;> omega)]
      congr 1
      omega
    next hc => rw [if_neg (by rintro ⟨h₁, h₂⟩; exact hc ⟨by omega, by omega⟩)]
  next h =>
    have hrev : Fin.rev i = Fin.castAdd (g.degree v) ⟨f.degree v + g.degree v - 1 - i, by omega⟩ :=
      Fin.ext (by simp only [Fin.val_rev, Fin.val_castAdd]; omega)
    rw [hrev, Fin.addCases_left]
    simp only [Set.mem_Icc, Fin.val_rev]
    split
    next hc =>
      rw [if_pos (by constructor <;> omega)]
      congr 1
      omega
    next hc => rw [if_neg (by rintro ⟨h₁, h₂⟩; exact hc ⟨by omega, by omega⟩)]

/-- The coefficients of a polynomial in `v`, the leading one first, from column `shift` on. -/
noncomputable def shiftedEntry (p : MvPoly) (v : Var) (shift column : ℕ) : MvPolynomial Var ℚ :=
  if shift ≤ column ∧ column ≤ shift + p.degree v then
    (p.coeff v (p.degree v - (column - shift))).toPolynomial
  else 0

/-- The Sylvester matrix in `v`: the coefficients of `f`, shifted one place further in each row, and
below them those of `g`. -/
noncomputable def sylvesterMatrix (f g : MvPoly) (v : Var) :
    Matrix (Fin (f.degree v + g.degree v)) (Fin (f.degree v + g.degree v)) (MvPolynomial Var ℚ) :=
  .of fun i c =>
    if (i : ℕ) < g.degree v then shiftedEntry f v i c else shiftedEntry g v (i - g.degree v) c

theorem matrixOf_sylvester_eq (f g : MvPoly) (v : Var) :
    matrixOf (f.degree v + g.degree v) (sylvester f g v) = sylvesterMatrix f g v := by
  ext1 i c
  rw [matrixOf_apply, getD_sylvester f g v i c i.isLt, sylvesterMatrix, Matrix.of_apply,
    shiftedEntry, shiftedEntry, toPolynomial_coeff, toPolynomial_coeff]

/-- What is computed is the resultant of the two polynomials in `v`. -/
theorem toPolynomial_resultant {f g : MvPoly} (hf : f.toPolynomial ≠ 0) (hg : g.toPolynomial ≠ 0)
    (v : Var) : (f.resultant g v).toPolynomial
      = Polynomial.resultant (inVar v f.toPolynomial) (inVar v g.toPolynomial) (f.degree v)
          (g.degree v) := by
  have hconst : ∀ {p : MvPoly}, p.degree v = 0 →
      (inVar v p.toPolynomial).coeff 0 = p.toPolynomial := by
    intro p hp
    have hC := Polynomial.eq_C_of_natDegree_eq_zero ((natDegree_inVar p v).trans hp)
    have heval := eval_X_inVar v p.toPolynomial
    rw [hC, Polynomial.eval_C] at heval
    exact heval
  unfold resultant
  rw [if_neg (not_or.2 ⟨toPolynomial_ne_zero_iff.1 hf, toPolynomial_ne_zero_iff.1 hg⟩)]
  split
  next h => rw [toPolynomial_pow, h, Polynomial.resultant_zero_left_deg, hconst h]
  next =>
    split
    next h => rw [toPolynomial_pow, h, Polynomial.resultant_zero_right_deg, hconst h]
    next =>
      rw [toPolynomial_determinant (length_sylvester f g v) fun row => length_of_mem_sylvester,
        matrixOf_sylvester, Matrix.det_submatrix_equiv_self, Matrix.det_transpose]
      rfl

/-! ## Variables of a resultant -/

/-- The eliminated variable is gone. -/
theorem resultant_mem_polynomialsIn {f g : MvPoly} {v : Var} {vs : List Var}
    (hf : f.toPolynomial ∈ polynomialsIn (v :: vs))
    (hg : g.toPolynomial ∈ polynomialsIn (v :: vs)) :
    (f.resultant g v).toPolynomial ∈ polynomialsIn vs := by
  by_cases h : f.toPolynomial = 0 ∨ g.toPolynomial = 0
  · unfold resultant
    rw [if_pos (h.imp toPolynomial_eq_zero_iff.1 toPolynomial_eq_zero_iff.1), toPolynomial_zero]
    exact zero_mem _
  · rw [not_or] at h
    rw [toPolynomial_resultant h.1 h.2, Polynomial.resultant, Matrix.det_apply]
    refine sum_mem fun σ _ => ?_
    rw [Units.smul_def]
    refine zsmul_mem (prod_mem fun i _ => ?_) _
    rw [Polynomial.sylvester, Matrix.of_apply]
    -- every entry of the matrix is a coefficient or zero
    induction i using Fin.addCases with
    | left i =>
      rw [Fin.addCases_left]
      split
      next => exact coeff_inVar_mem hg _
      next => exact zero_mem _
    | right i =>
      rw [Fin.addCases_right]
      split
      next => exact coeff_inVar_mem hf _
      next => exact zero_mem _

end MvPoly

/-! ## The product over the roots -/

/-- A polynomial has as many complex roots as its degree says. -/
theorem UniPoly.card_aroots (u : UniPoly) : (u.toPolynomial.aroots ℂ).card = u.degree := by
  rw [Polynomial.aroots_def, ← (IsAlgClosed.splits _).natDegree_eq_card_roots,
    Polynomial.natDegree_map, UniPoly.natDegree_toPolynomial]

/-- The factor before a product over roots. -/
theorem UniPoly.rootFactor_ne_zero {u : UniPoly} (hdeg : 0 < u.degree) (k m : ℕ) :
    (-1) ^ k * (u.leadingCoeff : ℂ) ^ m ≠ 0 := by
  have hlead : (u.leadingCoeff : ℂ) ≠ 0 := by
    rw [← UniPoly.leadingCoeff_toPolynomial, Rat.cast_ne_zero]
    exact Polynomial.leadingCoeff_ne_zero.2 (UniPoly.ne_zero_of_degree_pos hdeg)
  exact mul_ne_zero (pow_ne_zero _ (neg_ne_zero.2 one_ne_zero)) (pow_ne_zero _ hlead)

/-- The resultant with a polynomial in the eliminated variable alone is, up to sign and a power of
the leading coefficient, the product of what the first polynomial is for the roots of the second. -/
theorem MvPoly.aeval_resultant (f : MvPoly) {u : UniPoly} {v : Var} (hv : u.var = v)
    (hdeg : 0 < u.degree) (σ : Var → ℂ) :
    aeval σ (f.resultant u.toMvPoly v).toPolynomial
      = (-1) ^ (f.degree v * u.degree) * (u.leadingCoeff : ℂ) ^ f.degree v
        * ((u.toPolynomial.aroots ℂ).map fun β =>
            aeval (Function.update σ v β) f.toPolynomial).prod := by
  have hu := UniPoly.ne_zero_of_degree_pos hdeg
  by_cases hf : f.toPolynomial = 0
  · -- both sides are zero, since there is a root to multiply over
    have hres : (f.resultant u.toMvPoly v).toPolynomial = 0 := by
      unfold resultant
      rw [if_pos (Or.inl (toPolynomial_eq_zero_iff.1 hf)), toPolynomial_zero]
    obtain ⟨β, hβ⟩ := Multiset.card_pos_iff_exists_mem.1 (hdeg.trans_eq u.card_aroots.symm)
    have hprod : ((u.toPolynomial.aroots ℂ).map fun β =>
        aeval (Function.update σ v β) f.toPolynomial).prod = 0 :=
      Multiset.prod_eq_zero (Multiset.mem_map.2 ⟨β, hβ, by rw [hf, map_zero]⟩)
    rw [hres, map_zero, hprod, mul_zero]
  · set φ : MvPolynomial Var ℚ →+* ℂ := (aeval σ : MvPolynomial Var ℚ →ₐ[ℚ] ℂ).toRingHom with hφ
    set F := (inVar v f.toPolynomial).map φ with hF
    set G := u.toPolynomial.map (algebraMap ℚ ℂ) with hG
    have hGmap : (inVar v u.toMvPoly.toPolynomial).map φ = G := by
      rw [inVar_toMvPoly hv, Polynomial.map_map]
      congr 1
      exact RingHom.ext_rat _ _
    have hGdeg : G.natDegree = u.degree := by
      rw [hG, Polynomial.natDegree_map, UniPoly.natDegree_toPolynomial]
    have hGlead : G.leadingCoeff = (u.leadingCoeff : ℂ) := by
      rw [hG, Polynomial.leadingCoeff_map, UniPoly.leadingCoeff_toPolynomial, eq_ratCast]
    have hFdeg : F.natDegree ≤ f.degree v := by
      rw [← natDegree_inVar]
      exact Polynomial.natDegree_map_le
    have heval : F.eval = fun β => aeval (Function.update σ v β) f.toPolynomial :=
      funext fun β => eval_map_inVar v σ β f.toPolynomial
    -- the resultant over the field, with the second argument split into linear factors
    rw [toPolynomial_resultant hf (toMvPoly_ne_zero hu), degree_toMvPoly hv, ← hGdeg]
    show φ _ = _
    rw [← Polynomial.resultant_map_map, hGmap, Polynomial.resultant_comm,
      Polynomial.resultant_eq_prod_eval G F _ hFdeg (IsAlgClosed.splits G), heval, hGlead, hGdeg,
      mul_assoc, Polynomial.aroots_def]

/-- The resultant with a polynomial in the eliminated variable alone vanishes at a point exactly if
the first polynomial vanishes there for some root of the second. -/
theorem MvPoly.aeval_resultant_eq_zero_iff (f : MvPoly) {u : UniPoly} {v : Var} (hv : u.var = v)
    (hdeg : 0 < u.degree) (σ : Var → ℂ) :
    aeval σ (f.resultant u.toMvPoly v).toPolynomial = 0 ↔
      ∃ β : ℂ, Polynomial.aeval β u.toPolynomial = 0 ∧
        aeval (Function.update σ v β) f.toPolynomial = 0 := by
  rw [MvPoly.aeval_resultant f hv hdeg σ,
    mul_eq_zero_iff_left (UniPoly.rootFactor_ne_zero hdeg _ _), Multiset.prod_eq_zero_iff,
    Multiset.mem_map]
  refine exists_congr fun β => and_congr_left fun _ => ?_
  exact Polynomial.mem_aroots.trans (and_iff_right (UniPoly.ne_zero_of_degree_pos hdeg))

end AlgebraicReal
