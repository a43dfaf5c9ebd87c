import AlgebraicReal.Proofs.MvPoly.Specialization

/-!
# Renaming all variables

A map of the variables is applied to all variables of a polynomial at once (`MvPoly.mapVars`). In the
polynomial ring this is `MvPolynomial.rename`. The terms come in another order afterwards, but if no
two variables get one name, the coefficients and values are those of before.
-/

open MvPolynomial

namespace AlgebraicReal

/-- The monomial with every variable renamed. -/
def Monomial.mapVars (f : Var → Var) (m : Monomial) : Monomial :=
  ofPowers (m.powers.map fun a => (f a.1, a.2))

/-- The polynomial with every variable renamed. -/
def MvPoly.mapVars (f : Var → Var) (p : MvPoly) : MvPoly :=
  ofTerms (p.terms.map fun t => ⟨t.coeff, t.monomial.mapVars f⟩)

/-- Exponents move along with the names. -/
theorem exponents_map (f : Var → Var) : ∀ l : List (Var × ℕ),
    exponents (l.map fun a => (f a.1, a.2)) = (exponents l).mapDomain f
  | [] => Finsupp.mapDomain_zero.symm
  | (v, k) :: rest => by
    show Finsupp.single (f v) k + exponents (rest.map fun a => (f a.1, a.2))
      = (Finsupp.single v k + exponents rest).mapDomain f
    rw [exponents_map f rest, Finsupp.mapDomain_add, Finsupp.mapDomain_single]

theorem Monomial.toExponents_mapVars (f : Var → Var) (m : Monomial) :
    (m.mapVars f).toExponents = m.toExponents.mapDomain f := by
  rw [mapVars, toExponents_ofPowers, exponents_map]
  rfl

/-- Renaming, in a polynomial whose coefficients are polynomials. -/
theorem inVar_rename {f : Var → Var} (hf : Function.Injective f) (v : Var)
    (P : MvPolynomial Var ℚ) :
    inVar (f v) (rename f P) = (inVar v P).map (rename f).toRingHom := by
  induction P using MvPolynomial.induction_on with
  | C c =>
    rw [rename_C, inVar_C, inVar_C, Polynomial.map_C]
    exact congrArg Polynomial.C (rename_C f c).symm
  | add P Q hP hQ => rw [map_add, map_add, hP, hQ, map_add, Polynomial.map_add]
  | mul_X P w hP =>
    rw [map_mul, map_mul, hP, map_mul, Polynomial.map_mul, rename_X]
    congr 1
    by_cases h : w = v
    · rw [h, inVar_X_self, inVar_X_self, Polynomial.map_X]
    · rw [inVar_X_of_ne v h, inVar_X_of_ne (f v) (hf.ne h), Polynomial.map_C]
      exact congrArg Polynomial.C (rename_X f w).symm

namespace MvPoly

variable {f : Var → Var} {p : MvPoly} {v w : Var}

/-- The polynomial is renamed as in the library. -/
@[simp] theorem toPolynomial_mapVars (f : Var → Var) (p : MvPoly) :
    (p.mapVars f).toPolynomial = MvPolynomial.rename f p.toPolynomial := by
  rw [mapVars, toPolynomial_ofTerms]
  refine termsPolynomial_map (MvPolynomial.rename f : _ →ₐ[ℚ] _).toRingHom.toAddMonoidHom (fun t => ?_) p.terms
  show monomial (t.monomial.mapVars f).toExponents t.coeff
    = MvPolynomial.rename f t.toPolynomial
  rw [Term.toPolynomial, rename_monomial, Monomial.toExponents_mapVars]

/-- The variables that occur afterwards are the new names. -/
theorem mem_vars_mapVars (hf : Function.Injective f) :
    w ∈ (p.mapVars f).vars ↔ ∃ v ∈ p.vars, f v = w := by
  simp only [mem_vars_iff, toPolynomial_mapVars]
  constructor
  · exact MvPolynomial.mem_vars_rename f p.toPolynomial
  · rintro ⟨v, hv, rfl⟩
    obtain ⟨e, he, hve⟩ := (MvPolynomial.mem_vars_iff_mem_support v).1 hv
    refine (MvPolynomial.mem_vars_iff_mem_support (f v)).2 ⟨e.mapDomain f, ?_, ?_⟩
    · rw [support_rename_of_injective hf]
      exact Finset.mem_image_of_mem _ he
    · rw [Finsupp.mem_support_iff, Finsupp.mapDomain_apply hf]
      exact Finsupp.mem_support_iff.1 hve

/-- A renamed variable occurs if the variable did. -/
theorem mem_vars_mapVars_self (hf : Function.Injective f) : f v ∈ (p.mapVars f).vars ↔ v ∈ p.vars :=
  (mem_vars_mapVars hf).trans
    ⟨fun ⟨_, hw, heq⟩ => hf heq ▸ hw, fun hv => ⟨v, hv, rfl⟩⟩

/-- Values are taken under the new names. -/
theorem aeval_mapVars {A : Type*} [CommRing A] [Algebra ℚ A] (σ : Var → A) :
    aeval σ (p.mapVars f).toPolynomial = aeval (σ ∘ f) p.toPolynomial := by
  rw [toPolynomial_mapVars, aeval_rename]

/-- Putting one variable in the place of another is a map of the variables, which need not be
injective. -/
theorem rename_eq_mapVars (p : MvPoly) (source target : Var) :
    p.rename source target = p.mapVars fun w => if w = source then target else w := rfl

/-- The value of `target` in the place of `source`, even if `target` occurs already. -/
theorem aeval_rename {A : Type*} [CommRing A] [Algebra ℚ A] (p : MvPoly) (source target : Var)
    (σ : Var → A) : aeval σ (p.rename source target).toPolynomial
      = aeval (Function.update σ source (σ target)) p.toPolynomial := by
  have hvalues : (σ ∘ fun w => if w = source then target else w)
      = Function.update σ source (σ target) := by
    funext w
    rw [Function.comp_apply, Function.update_apply]
    split
    next => rfl
    next => rfl
  rw [rename_eq_mapVars, aeval_mapVars, hvalues]

/-- Coefficients are renamed by themselves. -/
theorem coeff_mapVars (hf : Function.Injective f) (k : ℕ) :
    (p.mapVars f).coeff (f v) k = (p.coeff v k).mapVars f := by
  refine toPolynomial_injective ?_
  rw [toPolynomial_coeff, toPolynomial_mapVars, toPolynomial_mapVars, toPolynomial_coeff,
    inVar_rename hf, Polynomial.coeff_map]
  rfl

/-- The polynomial that is left in the root variable is the same. -/
theorem specialize_mapVars (hf : Function.Injective f) (a : Var → ℝ) :
    (p.mapVars f).specialize (f v) a = p.specialize v (a ∘ f) := by
  refine Polynomial.ext fun k => ?_
  rw [coeff_specialize, coeff_specialize, coeff_mapVars hf, aeval_mapVars]

end MvPoly

end AlgebraicReal
