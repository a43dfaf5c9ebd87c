import AlgebraicReal.Proofs.Point.Elimination
import AlgebraicReal.Proofs.Point.Radius

/-!
# The annihilator and its radius

The annihilator is a polynomial in the scratch variable alone, it is not zero, and it vanishes at
the value of the polynomial for which it is made (`exists_annihilator`). That it is not zero is a
matter of counting: it vanishes at the values for all conjugates and nowhere else, and there are
finitely many of those.

The radius separates zero from the other roots of the annihilator (`Separates`), so a value that is
a root and lies inside the radius is zero.
-/

open MvPolynomial

namespace AlgebraicReal

/-! ## The scratch variable -/

theorem Var.max_eq (v w : Var) : max v w = if v ≤ w then w else v := rfl

instance : Std.LawfulOrderMax Var := by
  refine Std.LawfulOrderMax.of_max_le_iff (fun u v w => ?_) fun v w => ?_
  · rw [Var.max_eq]
    split
    next h => exact ⟨fun hw => ⟨UInt32.le_trans h hw, hw⟩, fun hw => hw.2⟩
    next h =>
      have hvu := UInt32.le_of_lt (UInt32.not_le.1 h)
      exact ⟨fun hw => ⟨hw, UInt32.le_trans hvu hw⟩, fun hw => hw.1⟩
  · rw [Var.max_eq]
    split
    next => exact Or.inr rfl
    next => exact Or.inl rfl

namespace AlgebraicPoint

variable {s : Store} {point : AlgebraicPoint} {σ : Var → ℝ} {g : MvPoly}

/-- The scratch variable is a fresh one, unless the last of all variables is in use. -/
theorem scratchVar_notMem (hlast : ∀ v ∈ g.vars ++ point.vars, v ≠ 4294967295) :
    point.scratchVar g ∉ g.vars ++ point.vars := by
  unfold vars at hlast ⊢
  unfold scratchVar
  cases hmax : (g.vars ++ point.map (·.1)).max? with
  | none =>
    rw [List.max?_eq_none_iff.1 hmax]
    exact List.not_mem_nil
  | some m =>
    obtain ⟨hm, hle⟩ := List.max?_eq_some_iff.1 hmax
    simp only [if_neg (hlast m hm)]
    intro hmem
    have h₁ := UInt32.le_iff_toNat_le.1 (hle _ hmem)
    have h₂ : m.toNat ≠ 4294967295 := fun h => hlast m hm (UInt32.toNat_inj.1 h)
    have h₃ := m.toNat_lt
    rw [UInt32.toNat_add] at h₁
    have h₄ : (1 : Var).toNat = 1 := rfl
    omega

/-- The scratch variable is the last of all variables if that one is in use. -/
theorem scratchVar_eq_last (hlast : 4294967295 ∈ g.vars ++ point.vars) :
    point.scratchVar g = 4294967295 := by
  unfold vars at hlast
  unfold scratchVar
  cases hmax : (g.vars ++ point.map (·.1)).max? with
  | none =>
    rw [List.max?_eq_none_iff.1 hmax] at hlast
    cases hlast
  | some m =>
    have hle := UInt32.le_iff_toNat_le.1 ((List.max?_eq_some_iff.1 hmax).2 _ hlast)
    have hm := m.toNat_lt
    have hval : (4294967295 : Var).toNat = 4294967295 := rfl
    rw [hval] at hle
    have heq : m = 4294967295 := UInt32.toNat_inj.1 (by omega)
    simp only [if_pos heq]
    exact heq

/-! ## The annihilator -/

theorem aeval_ofReal (σ : Var → ℝ) (g : MvPoly) :
    aeval (fun v => (σ v : ℂ)) g.toPolynomial = ((aeval σ g.toPolynomial : ℝ) : ℂ) :=
  MvPolynomial.aeval_algebraMap_apply ℂ σ g.toPolynomial

/-- Where the annihilator vanishes: at the values for the conjugates. -/
theorem aeval_annihilator_eq_zero_iff (hp : point.Denotes s σ) (hg : ∀ v ∈ g.vars, v ∈ point.vars)
    (hlast : ∀ v ∈ point.vars, v ≠ 4294967295) (z : ℂ) :
    aeval (fun _ => z) (point.exactAnnihilator s g).toPolynomial = 0 ↔
      ∃ ρ ∈ point.Conjugates s fun _ => z, aeval ρ g.toPolynomial = z := by
  have hout : point.scratchVar g ∉ g.vars ++ point.vars := scratchVar_notMem fun v hv =>
    (List.mem_append.1 hv).elim (fun h => hlast v (hg v h)) (hlast v)
  rw [exactAnnihilator, aeval_iteratedResultant_eq_zero_iff hp.nodup hp.degree_pos]
  refine exists_congr fun ρ => and_congr_right fun hρ => ?_
  have hz : ρ (point.scratchVar g) = z := hρ.1 _ fun h => hout (List.mem_append_right _ h)
  rw [MvPoly.toPolynomial_sub, MvPoly.toPolynomial_ofVar, map_sub, aeval_X, hz, sub_eq_zero,
    eq_comm]

/-- The annihilator is a polynomial in the scratch variable, not zero, and vanishes at the value. -/
theorem exists_annihilator (hp : point.Denotes s σ) (hg : ∀ v ∈ g.vars, v ∈ point.vars)
    (hlast : ∀ v ∈ point.vars, v ≠ 4294967295) :
    ∃ h : UniPoly, (point.exactAnnihilator s g).toUniPoly (point.scratchVar g) = .ok h ∧
      ¬h.isZero = true ∧ h.overReal.IsRoot (aeval σ g.toPolynomial) := by
  have hmem : (point.exactAnnihilator s g).toPolynomial ∈ polynomialsIn [point.scratchVar g] := by
    refine iteratedResultant_mem ?_
    rw [MvPoly.toPolynomial_sub, MvPoly.toPolynomial_ofVar]
    refine sub_mem (X_mem_polynomialsIn (List.mem_append_right _ List.mem_cons_self)) ?_
    exact MvPoly.mem_polynomialsIn_iff.2 fun v hv => List.mem_append_left _ (hg v hv)
  obtain ⟨h, hok, hh⟩ := MvPoly.exists_toUniPoly (p := point.exactAnnihilator s g)
    (v := point.scratchVar g) fun w hw =>
      List.mem_singleton.1 (MvPoly.mem_polynomialsIn_iff.1 hmem w hw)
  -- a root of the annihilator is the value of `g` at some conjugates
  have hvalue : ∀ z : ℂ, Polynomial.aeval z h.toPolynomial = 0 ↔
      ∃ ρ ∈ point.Conjugates s fun _ => z, aeval ρ g.toPolynomial = z := fun z => by
    rw [← aeval_annihilator_eq_zero_iff hp hg hlast, MvPoly.aeval_of_toUniPoly hh]
  refine ⟨h, hok, fun hzero => ?_, ?_⟩
  · -- otherwise every complex number would be a value for some conjugates
    refine (Set.infinite_univ : (Set.univ : Set ℂ).Infinite) ?_
    refine (finite_conjugateValues hp.degree_pos hg).subset fun z _ => ?_
    obtain ⟨ρ, hρ, hz⟩ := (hvalue z).1 (by
      rw [UniPoly.toPolynomial_eq_zero_iff.2 hzero, map_zero])
    exact ⟨_, ρ, hρ, hz⟩
  · rw [UniPoly.isRoot_iff_aeval, hvalue]
    set y := aeval σ g.toPolynomial with hy
    refine ⟨_, hp.mem_conjugates fun _ => y, ?_⟩
    rw [hy, ← aeval_ofReal]
    exact MvPoly.aeval_congr fun v hv => if_pos (hg v hv)

end AlgebraicPoint

/-! ## The radius -/

namespace AlgebraicPoint

variable {s : Store} {point : AlgebraicPoint} {σ : Var → ℝ} {g : MvPoly}

/-- The radius for a value: it separates zero from the other roots of a polynomial that has the
value as a root. -/
def RadiusFor (y : ℝ) (r : Option ℚ) : Prop :=
  ∃ h : UniPoly, h.overReal.IsRoot y ∧ h.Separates r

/-- A radius within which the value can only be zero; no radius says nothing. -/
def CertifiesZero (y : ℝ) (r : Option ℚ) : Prop := ∀ e, r = some e → |y| < e → y = 0

/-- A radius that is right, and there if the value is zero. -/
structure TellsZero (y : ℝ) (r : Option ℚ) : Prop where
  certifies : CertifiesZero y r
  exists_pos : y = 0 → ∃ e, r = some e ∧ 0 < e

theorem RadiusFor.tellsZero {y : ℝ} {r : Option ℚ} (h : RadiusFor y r) : TellsZero y r := by
  obtain ⟨q, hroot, hsep⟩ := h
  refine ⟨fun e he hlt => ?_, fun hy => ?_⟩
  · subst he
    exact hsep.2 y hroot hlt
  · subst hy
    cases r with
    | none => exact absurd hroot hsep
    | some e => exact ⟨e, rfl, hsep.1⟩

theorem radius_of_toUniPoly {u : UniPoly}
    (hu : (point.exactAnnihilator s g).toUniPoly (point.scratchVar g) = .ok u) (rounds : ℕ) :
    point.radius rounds s g = if u.isZero then .ok none else zeroFreeRadius rounds u := by
  have hu' : Arithmetic.toUniPoly (point.exactAnnihilator s g) (point.scratchVar g) = .ok u := hu
  rw [radius_of_annihilator (annihilator_eq point g), hu']

/-- There is a radius for the value, if the point has all variables and the last of all variables is
free. It takes some number of rounds. -/
theorem exists_radius_of_free (hp : point.Denotes s σ) (hg : ∀ v ∈ g.vars, v ∈ point.vars)
    (hlast : ∀ v ∈ point.vars, v ≠ 4294967295) :
    ∃ r N, RadiusFor (aeval σ g.toPolynomial) r ∧ ∀ rounds, point.radius rounds s g
      = if rounds < N then .error .exhausted else .ok r := by
  obtain ⟨h, hok, hz, hroot⟩ := exists_annihilator hp hg hlast
  obtain ⟨r, N, hr, hrun⟩ := exists_zeroFreeRadius hz
  refine ⟨r, N, ⟨h, hroot, hr⟩, fun rounds => ?_⟩
  rw [radius_of_toUniPoly hok, if_neg hz]
  exact hrun rounds

/-- With the last of all variables in the point, nothing is left of the annihilator but a constant,
and there is no radius. -/
theorem radius_of_last (hg : ∀ v ∈ g.vars, v ∈ point.vars) (hlast : 4294967295 ∈ point.vars)
    (s : Store) (rounds : ℕ) : point.radius rounds s g = .ok none := by
  have hscratch : point.scratchVar g = 4294967295 :=
    scratchVar_eq_last (List.mem_append_right _ hlast)
  -- the scratch variable is itself a coordinate, so the elimination removes it as well
  have hmem : (point.exactAnnihilator s g).toPolynomial ∈ polynomialsIn [] := by
    refine iteratedResultant_mem ?_
    rw [List.append_nil, MvPoly.toPolynomial_sub, MvPoly.toPolynomial_ofVar, hscratch]
    exact sub_mem (X_mem_polynomialsIn hlast) (MvPoly.mem_polynomialsIn_iff.2 hg)
  have hvars : (point.exactAnnihilator s g).vars = [] :=
    List.eq_nil_iff_forall_not_mem.2 fun v hv =>
      List.not_mem_nil (MvPoly.mem_polynomialsIn_iff.1 hmem v hv)
  obtain ⟨h, hok, hh⟩ := MvPoly.exists_toUniPoly (p := point.exactAnnihilator s g)
    (v := point.scratchVar g) fun w hw => by
      rw [hvars] at hw
      cases hw
  rw [radius_of_toUniPoly hok]
  split
  next => rfl
  next hz =>
    refine if_pos fun hc => hz ?_
    have hpoly := MvPoly.aeval_of_toUniPoly hh fun _ => (Polynomial.X : Polynomial ℚ)
    rw [MvPoly.toPolynomial_of_isConstant (MvPoly.isConstant_iff.2 hvars), aeval_C,
      Polynomial.aeval_X_left_apply, Polynomial.algebraMap_eq] at hpoly
    rw [UniPoly.constantCoeff_eq, ← hpoly, Polynomial.coeff_C_zero] at hc
    rw [← UniPoly.toPolynomial_eq_zero_iff, ← hpoly, hc, map_zero]

/-- Any radius that is found is right, if the point has all variables. -/
theorem certifiesZero_of_radius (hp : point.Denotes s σ) (hg : ∀ v ∈ g.vars, v ∈ point.vars)
    {rounds : ℕ} {r : Option ℚ} (h : point.radius rounds s g = .ok r) :
    CertifiesZero (aeval σ g.toPolynomial) r := by
  by_cases hlast : 4294967295 ∈ point.vars
  · rw [radius_of_last hg hlast] at h
    cases h
    exact nofun
  · obtain ⟨r', N, hr', hrun⟩ := exists_radius_of_free hp hg fun v hv h => hlast (h ▸ hv)
    rw [hrun] at h
    split at h
    next => cases h
    next =>
      cases h
      exact hr'.tellsZero.certifies

theorem radius_eq (hp : point.Denotes s σ) (g : MvPoly) (rounds : ℕ) :
    point.radius rounds s g = .error .exhausted ∨
      ∃ r, point.radius rounds s g = .ok r ∧
        ((∀ v ∈ g.vars, v ∈ point.vars) → CertifiesZero (aeval σ g.toPolynomial) r) := by
  -- also when a variable of the polynomial has no coordinate, nothing else can come of it
  have hfound : point.radius rounds s g = .error .exhausted ∨
      ∃ r, point.radius rounds s g = .ok r := by
    rw [radius_of_annihilator (annihilator_eq point g)]
    split
    next =>
      split
      next => exact .inr ⟨none, rfl⟩
      next hz =>
        obtain ⟨r, N, -, hrun⟩ := exists_zeroFreeRadius hz
        rw [hrun]
        split
        next => exact .inl rfl
        next => exact .inr ⟨r, rfl⟩
    next => exact .inr ⟨none, rfl⟩
  exact hfound.imp_right fun ⟨r, hr⟩ => ⟨r, hr, fun hg => certifiesZero_of_radius hp hg hr⟩

/-- With enough rounds a radius that tells zero is found, always the same one, unless the last of all
variables is in use and the value is zero. -/
theorem exists_radius (hp : point.Denotes s σ) (hg : ∀ v ∈ g.vars, v ∈ point.vars)
    (hlast : 4294967295 ∈ point.vars → aeval σ g.toPolynomial ≠ 0) :
    ∃ r N, TellsZero (aeval σ g.toPolynomial) r ∧
      ∀ rounds ≥ N, point.radius rounds s g = .ok r := by
  by_cases hmem : 4294967295 ∈ point.vars
  · refine ⟨none, 0, ⟨nofun, fun h => absurd h (hlast hmem)⟩, fun rounds _ => ?_⟩
    exact radius_of_last hg hmem s rounds
  · obtain ⟨r, N, hr, hrun⟩ := exists_radius_of_free hp hg fun v hv h => hmem (h ▸ hv)
    refine ⟨r, N, hr.tellsZero, fun rounds hge => ?_⟩
    rw [hrun, if_neg (not_lt.2 hge)]

end AlgebraicPoint

end AlgebraicReal
