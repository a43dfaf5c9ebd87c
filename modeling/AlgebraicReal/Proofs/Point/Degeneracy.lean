import AlgebraicReal.Proofs.Point.Elimination
import AlgebraicReal.Proofs.MvPoly.Specialization

/-!
# When the eliminant is zero

The coordinates of a point are eliminated for all their conjugates at once. So it may happen that
the eliminant is zero although the polynomial is not zero at the point itself: it is enough that
nothing is left of the polynomial for some choice of conjugates (`AlgebraicPoint.Degenerate`), and
this is the only way (`eliminant_isZero_iff`).
-/

open MvPolynomial

namespace AlgebraicReal.AlgebraicPoint

variable {s t : Store} {point : AlgebraicPoint} {σ : Var → ℝ} {p : MvPoly} {v : Var}

/-- For each coordinate that occurs in `p`, independently of the others, some complex root of its
defining polynomial can be chosen such that `p` vanishes identically in `v`. -/
def Degenerate (s : Store) (point : AlgebraicPoint) (p : MvPoly) (v : Var) : Prop :=
  ∃ ρ : Var → ℂ,
    (∀ c ∈ point, p.hasVar c.1 = true →
      Polynomial.aeval (ρ c.1) (s.get c.2).poly.toPolynomial = 0) ∧
    ∀ z : ℂ, aeval (Function.update ρ v z) p.toPolynomial = 0

/-- Defining polynomials do not change, and with them what is degenerate. -/
theorem degenerate_narrowed_iff (hs : s.Valid) (hn : s.Narrowed t) (hp : point.Denotes s σ) :
    point.Degenerate t p v ↔ point.Degenerate s p v := by
  refine exists_congr fun ρ => and_congr_left fun _ => ?_
  refine forall_congr' fun c => forall_congr' fun hc => ?_
  rw [hn.poly_eq hs (hp.locates c hc).1]

/-- A coordinate that does not occur may have its true value, so a conjugate can be chosen for each.
-/
theorem degenerate_iff_exists_conjugates (hp : point.Denotes s σ) :
    point.Degenerate s p v ↔ ∃ ρ : Var → ℂ,
      (∀ c ∈ point, Polynomial.aeval (ρ c.1) (s.get c.2).poly.toPolynomial = 0) ∧
        ∀ z : ℂ, aeval (Function.update ρ v z) p.toPolynomial = 0 := by
  constructor
  · rintro ⟨ρ, hroot, hzero⟩
    refine ⟨fun w => if p.hasVar w = true then ρ w else σ w, fun c hc => ?_, fun z => ?_⟩
    · dsimp only
      split
      next hvar => exact hroot c hc hvar
      next => exact UniPoly.isRoot_iff_aeval.1 (hp.locates c hc).2.isRoot
    · rw [← hzero z]
      refine MvPoly.aeval_eq_aeval_update (Function.update_self ..) fun w hw hwv => ?_
      rw [Function.update_of_ne hwv, if_pos (MvPoly.hasVar_iff.2 hw)]
  · rintro ⟨ρ, hroot, hzero⟩
    exact ⟨ρ, fun c hc _ => hroot c hc, hzero⟩

/-! ## The variable that is left -/

/-- A polynomial in one variable is zero if all its values are. -/
theorem isZero_of_forall_aeval {e : MvPoly} (he : ∀ w ∈ e.vars, w = v)
    (h : ∀ z : ℂ, aeval (fun _ => z) e.toPolynomial = 0) : e.isZero = true := by
  obtain ⟨u, -, hu⟩ := MvPoly.exists_toUniPoly he
  have hmap : u.toPolynomial.map (algebraMap ℚ ℂ) = 0 := by
    refine Polynomial.funext fun z => ?_
    rw [Polynomial.eval_map_algebraMap, ← MvPoly.aeval_of_toUniPoly hu fun _ => z, h,
      Polynomial.eval_zero]
  rw [← MvPoly.toPolynomial_eq_zero_iff, hu,
    (Polynomial.map_eq_zero_iff (algebraMap ℚ ℂ).injective).1 hmap, map_zero]

/-- A polynomial that vanishes for infinitely many values of `v` vanishes for all. -/
theorem aeval_update_eq_zero_of_infinite {ρ : Var → ℂ}
    (h : {z : ℂ | aeval (Function.update ρ v z) p.toPolynomial = 0}.Infinite) (z : ℂ) :
    aeval (Function.update ρ v z) p.toPolynomial = 0 := by
  have hzero := Polynomial.eq_zero_of_infinite_isRoot _
    (h.mono fun y hy => (eval_map_inVar v ρ y p.toPolynomial).trans hy)
  rw [← eval_map_inVar, hzero, Polynomial.eval_zero]

/-! ## The eliminant -/

/-- The eliminant is zero exactly if the polynomial is degenerate. -/
theorem eliminant_isZero_iff (hp : point.Denotes s σ) (hv : v ∉ point.vars)
    (hvars : ∀ w ∈ p.vars, w = v ∨ w ∈ point.vars) :
    (exactEliminant s point p).1.isZero = true ↔ point.Degenerate s p v := by
  have hvalue : ∀ z : ℂ, aeval (fun _ => z) (exactEliminant s point p).1.toPolynomial = 0 ↔
      ∃ ρ ∈ point.Conjugates s fun _ => z, aeval ρ p.toPolynomial = 0 := fun z =>
    aeval_exactEliminant_eq_zero_iff hp.nodup hp.degree_pos
  rw [degenerate_iff_exists_conjugates hp]
  constructor
  · intro hzero
    rw [← MvPoly.toPolynomial_eq_zero_iff] at hzero
    -- every value of `v` is a zero for some of the finitely many choices of conjugates
    have hchoice : ∀ z : ℂ, ∃ ρ : point.Conjugates s 0,
        aeval (Function.update ρ.1 v z) p.toPolynomial = 0 := by
      intro z
      obtain ⟨ρ, hρ, hz⟩ := (hvalue z).1 (by rw [hzero, map_zero])
      refine ⟨⟨_, conjugates_piecewise hρ 0⟩, ?_⟩
      rw [← hz]
      refine (MvPoly.aeval_eq_aeval_update (hρ.1 v hv) fun w hw hwv => ?_).symm
      exact (if_pos ((hvars w hw).resolve_left hwv)).symm
    choose f hf using hchoice
    have : Finite (point.Conjugates s 0) := finite_conjugates hp.degree_pos 0
    -- so one choice serves infinitely many values of `v`, and hence all of them
    obtain ⟨ρ, hρ⟩ := Finite.exists_infinite_fiber f
    refine ⟨ρ.1, ρ.2.2, aeval_update_eq_zero_of_infinite ?_⟩
    refine (Set.infinite_coe_iff.1 hρ).mono fun z hz => ?_
    have hfz : f z = ρ := hz
    exact hfz ▸ hf z
  · rintro ⟨ρ, hroot, hzero⟩
    refine isZero_of_forall_aeval (vars_exactEliminant hvars) fun z => (hvalue z).2 ?_
    refine ⟨fun w => if w ∈ point.vars then ρ w else z, ⟨fun w hw => if_neg hw, fun c hc => ?_⟩, ?_⟩
    · simp only [if_pos (mem_vars_of_mem hc)]
      exact hroot c hc
    · rw [← hzero z]
      exact MvPoly.aeval_eq_aeval_update (if_neg hv) fun w hw hwv =>
        if_pos ((hvars w hw).resolve_left hwv)

end AlgebraicReal.AlgebraicPoint
