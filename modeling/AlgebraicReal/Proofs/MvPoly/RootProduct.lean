import AlgebraicReal.Proofs.MvPoly.Raw.Obtainable

/-!
# Elimination as a product over roots

Putting a complex number in the place of a variable leaves a polynomial in the others
(`MvPoly.atValue`). The resultant of `f` with a polynomial in one variable is, up to a constant, the
product of what the roots of that polynomial leave of `f`. This holds for the values at every point,
hence for the polynomials themselves (`map_resultant`): the resultant is zero exactly if some root
leaves nothing. The elimination on term lists gives this resultant, as long as what it multiplies fits
into words (`resultant_root_product`); otherwise it may give something else (`value_resultant_ne`).
-/

open MvPolynomial

namespace AlgebraicReal

namespace MvPoly

/-- The polynomial in the other variables that a number in the place of `v` leaves. -/
noncomputable def atValue (f : MvPoly) (v : Var) (β : ℂ) : MvPolynomial Var ℂ :=
  aeval (Function.update X v (C β)) f.toPolynomial

theorem eval_atValue (f : MvPoly) (v : Var) (β : ℂ) (σ : Var → ℂ) :
    eval σ (f.atValue v β) = aeval (Function.update σ v β) f.toPolynomial := by
  have hpoint : (fun w => eval σ (Function.update X v (C β) w)) = Function.update σ v β := by
    funext w
    by_cases hw : w = v
    · rw [hw, Function.update_self, Function.update_self, eval_C]
    · rw [Function.update_of_ne hw, Function.update_of_ne hw, eval_X]
  rw [← hpoint]
  exact comp_aeval_apply _ ((aeval σ : MvPolynomial Var ℂ →ₐ[ℂ] ℂ).restrictScalars ℚ) f.toPolynomial

/-- As a polynomial over the complex numbers, the resultant is the product of what the roots leave. -/
theorem map_resultant (f : MvPoly) {u : UniPoly} {v : Var} (hv : u.var = v) (hdeg : 0 < u.degree) :
    map (algebraMap ℚ ℂ) (f.resultant u.toMvPoly v).toPolynomial
      = C ((-1) ^ (f.degree v * u.degree) * (u.leadingCoeff : ℂ) ^ f.degree v)
        * ((u.toPolynomial.aroots ℂ).map (f.atValue v)).prod := by
  refine MvPolynomial.funext fun σ => ?_
  have hvalues : eval σ ((u.toPolynomial.aroots ℂ).map (f.atValue v)).prod
      = ((u.toPolynomial.aroots ℂ).map fun β =>
          aeval (Function.update σ v β) f.toPolynomial).prod := by
    rw [map_multiset_prod, Multiset.map_map]
    exact congrArg _ (Multiset.map_congr rfl fun β _ => eval_atValue f v β σ)
  rw [map_mul, eval_C, hvalues, eval_map, ← aeval_resultant f hv hdeg σ, aeval_def]

/-- The eliminated variable does not occur in a resultant with a polynomial in it alone. -/
theorem not_mem_vars_resultant (f : MvPoly) {u : UniPoly} {v : Var} (hv : u.var = v) :
    v ∉ (f.resultant u.toMvPoly v).vars := by
  have hmem : (f.resultant u.toMvPoly v).toPolynomial ∈ polynomialsIn (f.vars.filter (· ≠ v)) := by
    refine resultant_mem_polynomialsIn (mem_polynomialsIn_iff.2 fun w hw => ?_)
      (toMvPoly_mem_polynomialsIn (by rw [hv]; exact List.mem_cons_self))
    by_cases hwv : w = v
    · exact List.mem_cons.2 (.inl hwv)
    · exact List.mem_cons_of_mem _ (List.mem_filter.2 ⟨hw, decide_eq_true hwv⟩)
  intro hr
  exact of_decide_eq_true (List.mem_filter.1 (mem_polynomialsIn_iff.1 hmem v hr)).2 rfl

/-- The resultant is the zero polynomial exactly if some root leaves nothing. -/
theorem resultant_isZero_iff (f : MvPoly) {u : UniPoly} {v : Var} (hv : u.var = v)
    (hdeg : 0 < u.degree) : (f.resultant u.toMvPoly v).isZero = true ↔
      ∃ β : ℂ, Polynomial.aeval β u.toPolynomial = 0 ∧ f.atValue v β = 0 := by
  have hfactor : (C ((-1) ^ (f.degree v * u.degree) * (u.leadingCoeff : ℂ) ^ f.degree v) :
      MvPolynomial Var ℂ) ≠ 0 := C_ne_zero.2 (UniPoly.rootFactor_ne_zero hdeg _ _)
  rw [← toPolynomial_eq_zero_iff, ← map_eq_zero_iff _ (map_injective _ (algebraMap ℚ ℂ).injective),
    map_resultant f hv hdeg, mul_eq_zero_iff_left hfactor, Multiset.prod_eq_zero_iff,
    Multiset.mem_map]
  refine exists_congr fun β => and_congr_left fun _ => ?_
  exact Polynomial.mem_aroots.trans (and_iff_right (UniPoly.ne_zero_of_degree_pos hdeg))

/-! ## The law of elimination -/

/-- What `r` is if it stands for `f` with every root of `u` in the place of `v`. -/
structure IsRootProduct (r f : MvPoly) (v : Var) (u : UniPoly) : Prop where
  value : ∀ σ : Var → ℂ, aeval σ r.toPolynomial
    = (-1) ^ (f.degree v * u.degree) * (u.leadingCoeff : ℂ) ^ f.degree v
      * ((u.toPolynomial.aroots ℂ).map fun β => aeval (Function.update σ v β) f.toPolynomial).prod
  not_mem_vars : v ∉ r.vars
  vanishes_iff : ∀ σ : Var → ℂ, aeval σ r.toPolynomial = 0 ↔
    ∃ β : ℂ, Polynomial.aeval β u.toPolynomial = 0 ∧
      aeval (Function.update σ v β) f.toPolynomial = 0
  isZero_iff : r.isZero = true ↔
    ∃ β : ℂ, Polynomial.aeval β u.toPolynomial = 0 ∧ f.atValue v β = 0

/-- Eliminating `v` from `f` with a polynomial `g` in `v` alone, of positive degree: what the
elimination on term lists gives is the product over all roots of `g`, each as often as its multiplicity
says. -/
theorem resultant_root_product (reading : Reading) (f g : MvPoly) (v : Var)
    (hg : ∀ w ∈ g.vars, w = v) (hdeg : 0 < g.degree v) (hfits : ResultantFits f g v) :
    ∃ (u : UniPoly) (r : MvPoly), g.toUniPoly v = .ok u ∧ g.toPolynomial = Polynomial.aeval (X v) u.toPolynomial ∧
      u.degree = g.degree v ∧ (u.toPolynomial.aroots ℂ).card = g.degree v ∧
      Raw.resultant reading f.raw g.raw v = some r.raw ∧ r.Fits ∧ r.IsRootProduct f v u := by
  obtain ⟨hcomputed, hr⟩ := Raw.resultant_raw reading hfits
  obtain ⟨u, hu, hpoly⟩ := exists_toUniPoly hg
  obtain ⟨hv, rfl⟩ := eq_toMvPoly_of_toUniPoly hu
  have hdegree := degree_toMvPoly hv
  rw [hdegree] at hdeg ⊢
  exact ⟨u, _, hu, hpoly, rfl, u.card_aroots, hcomputed, hr,
    { value := aeval_resultant f hv hdeg
      not_mem_vars := not_mem_vars_resultant f hv
      vanishes_iff := aeval_resultant_eq_zero_iff f hv hdeg
      isZero_iff := resultant_isZero_iff f hv hdeg }⟩

/-- Eliminating `x₁` from `x₀x₁ - 1` with `2x₁² - 1`. Where `x₀ = 0`, the variable drops out of the
first polynomial. -/
theorem resultant_root_product_quadratic :
    let f := ((ofVar 0).mul (ofVar 1)).sub one
    let g := (((ofVar 1).add (ofVar 1)).mul (ofVar 1)).sub one
    (∀ w ∈ g.vars, w = 1) ∧ 0 < g.degree 1 ∧ f.degree 1 = 1 ∧ ResultantFits f g 1 ∧
      ∃ (u : UniPoly) (r : MvPoly), g.toUniPoly 1 = .ok u ∧ (u.toPolynomial.aroots ℂ).card = 2 ∧
        Raw.resultant .backward f.raw g.raw 1 = some r.raw ∧ r.IsRootProduct f 1 u := by
  intro f g
  have hvars : g.vars = [1] := by decide +kernel
  have hg : ∀ w ∈ g.vars, w = 1 := fun w hw => List.mem_singleton.1 (hvars ▸ hw)
  have hdeg : 0 < g.degree 1 := by decide_cbv
  have htwo : g.degree 1 = 2 := by decide_cbv
  have hfits : ResultantFits f g 1 := by decide_cbv
  obtain ⟨u, r, hu, -, -, hcard, hcomputed, -, hproduct⟩ :=
    resultant_root_product .backward f g 1 hg hdeg hfits
  exact ⟨hg, hdeg, by decide_cbv, hfits, u, r, hu, hcard.trans htwo, hcomputed, hproduct⟩

/-- Eliminating `x₀` from `x₁ ^ 2 ^ 31 * x₀² + 1` with `x₀ - 1`, whose one root is `1`. On the way the
exponent `2 ^ 32` wraps around, and the value at `x₁ = 1` comes out as `1`. -/
theorem value_resultant_ne : ¬∀ (f : MvPoly) (u : UniPoly) (v : Var) (r : Raw), f.Fits →
    u.var = v → 0 < u.degree → Raw.resultant .forward f.raw u.toMvPoly.raw v = some r →
      ∀ x : Var → ℚ, (Raw.value x r : ℂ)
        = (-1) ^ (f.degree v * u.degree) * (u.leadingCoeff : ℂ) ^ f.degree v
          * ((u.toPolynomial.aroots ℂ).map fun β =>
            aeval (Function.update (fun w => (x w : ℂ)) v β) f.toPolynomial).prod := by
  intro h
  set f : MvPoly := ((varPower 1 2147483648).mul (varPower 0 2)).add one
  set u : UniPoly := .ofCoeffs 0 [-1, 1] with hu
  have hf : f.raw = [⟨1, ⟨[(0, 2), (1, 2147483648)], 2147483650⟩⟩, ⟨1, .unit⟩] := by decide_cbv
  have hraw : u.toMvPoly.raw = [⟨1, .power 0 1⟩, ⟨-1, .unit⟩] := by decide_cbv
  have hcomputed : Raw.resultant .forward
      [⟨1, ⟨[(0, 2), (1, 2147483648)], 2147483650⟩⟩, ⟨1, .unit⟩]
      [⟨1, .power 0 1⟩, ⟨-1, .unit⟩] 0 = some (Raw.constant 1) := by cbv
  have hdegree : 0 < u.degree := by decide_cbv
  have hvalue := h f u 0 (Raw.constant 1) (by decide_cbv) rfl hdegree
    (by rw [hf, hraw, hcomputed]) fun _ => 1
  -- the exact resultant has the value that is asked for, which is two
  rw [← aeval_resultant f (v := 0) rfl hdegree,
    show f.resultant u.toMvPoly 0 = (varPower 1 2147483648).add one by decide +kernel,
    toPolynomial_add, toPolynomial_varPower, toPolynomial_one, Raw.constant_eq,
    Raw.value_raw _ (fits_constant 1), toPolynomial_constant, eval_C, map_add, map_pow, aeval_X,
    map_one, Rat.cast_one, one_pow] at hvalue
  norm_num at hvalue

end MvPoly

end AlgebraicReal
