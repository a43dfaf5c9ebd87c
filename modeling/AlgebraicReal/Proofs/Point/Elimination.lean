import AlgebraicReal.Proofs.MvPoly.Resultant
import AlgebraicReal.Proofs.Store
import AlgebraicReal.Isolator

/-!
# Elimination at an algebraic point

A coordinate of an algebraic point is a root of its defining polynomial, and so are its conjugates.
The polynomial that is left when the coordinates have been eliminated vanishes at some values of the
other variables exactly if the given polynomial does so for some choice of conjugates
(`aeval_iteratedResultant_eq_zero_iff`). The true coordinates are one of the choices, and there are finitely
many (`finite_conjugateValues`).
-/

open MvPolynomial

namespace AlgebraicReal

theorem Locator.Locates.degree_pos {l : Locator} {x : ℝ} (h : l.Locates x) : 0 < l.poly.degree := by
  refine Nat.pos_of_ne_zero fun hdeg => ?_
  refine UniPoly.not_isRoot_of_isConstant h.nonzero ?_ x h.isRoot
  rw [UniPoly.isConstant_iff_natDegree, UniPoly.natDegree_toPolynomial, hdeg]

/-- A real root is a root among the complex numbers. -/
theorem UniPoly.isRoot_iff_aeval {u : UniPoly} {x : ℝ} :
    u.overReal.IsRoot x ↔ Polynomial.aeval (x : ℂ) u.toPolynomial = 0 := by
  have hcast := Polynomial.aeval_algebraMap_apply ℂ x u.toPolynomial
  rw [Complex.coe_algebraMap] at hcast
  rw [hcast, Complex.ofReal_eq_zero, Polynomial.aeval_def, ← Polynomial.eval_map]
  exact Iff.rfl

namespace AlgebraicPoint

/-- The variables that have a coordinate. -/
def vars (point : AlgebraicPoint) : List Var := point.map (·.1)

/-- A point stands for values of its variables: no variable comes twice, and each locator has the
value of its variable. -/
structure Denotes (s : Store) (point : AlgebraicPoint) (σ : Var → ℝ) : Prop where
  nodup : point.vars.Nodup
  locates : ∀ c ∈ point, c.2 < s.locators.size ∧ (s.get c.2).Locates (σ c.1)

/-- The values that the conjugates of a point give to all variables, if those of the other variables
are known. -/
def Conjugates (s : Store) (point : AlgebraicPoint) (τ : Var → ℂ) : Set (Var → ℂ) :=
  {ρ | (∀ v ∉ point.vars, ρ v = τ v) ∧
    ∀ c ∈ point, Polynomial.aeval (ρ c.1) (s.get c.2).poly.toPolynomial = 0}

variable {s t : Store} {point : AlgebraicPoint} {σ : Var → ℝ} {τ : Var → ℂ}

theorem Denotes.narrowed (h : point.Denotes s σ) (hn : s.Narrowed t) : point.Denotes t σ where
  nodup := h.nodup
  locates c hc :=
    have hcs := h.locates c hc
    ⟨hcs.1.trans_le hn.size_le, hn.locates hcs.1 hcs.2⟩

theorem Denotes.degree_pos (h : point.Denotes s σ) : ∀ c ∈ point, 0 < (s.get c.2).poly.degree :=
  fun c hc => (h.locates c hc).2.degree_pos

theorem Denotes.filter (h : point.Denotes s σ) (p : Var × LocatorId → Bool) :
    Denotes s (point.filter p) σ where
  nodup := h.nodup.sublist (List.filter_sublist.map _)
  locates c hc := h.locates c (List.mem_filter.1 hc).1

theorem mem_vars_of_mem {c : Var × LocatorId} (hc : c ∈ point) : c.1 ∈ point.vars :=
  List.mem_map_of_mem hc

section

variable {v w : Var} {id : LocatorId}

theorem vars_append : vars (point ++ [(v, id)]) = point.vars ++ [v] :=
  List.map_append

theorem mem_vars_append : w ∈ vars (point ++ [(v, id)]) ↔ w ∈ point.vars ∨ w = v := by
  rw [vars_append, List.mem_append, List.mem_singleton]

theorem Denotes.append (h : point.Denotes s σ) (hv : v ∉ point.vars) (hid : id < s.locators.size)
    (hx : (s.get id).Locates (σ v)) : Denotes s (point ++ [(v, id)]) σ where
  nodup := by
    rw [vars_append, ← List.concat_eq_append]
    exact h.nodup.concat hv
  locates c hc := by
    rcases List.mem_append.1 hc with hc | hc
    · exact h.locates c hc
    · rw [List.mem_singleton.1 hc]
      exact ⟨hid, hx⟩

/-- The value of a variable without a coordinate is of no account. -/
theorem Denotes.update (h : point.Denotes s σ) (hv : v ∉ point.vars) (x : ℝ) :
    point.Denotes s (Function.update σ v x) where
  nodup := h.nodup
  locates c hc := by
    rw [Function.update_of_ne fun hcv : c.1 = v => hv (hcv ▸ mem_vars_of_mem hc)]
    exact h.locates c hc

end

/-! ## Conjugates -/

/-- Without coordinates there is one choice. -/
theorem exists_conjugates_nil {P : (Var → ℂ) → Prop} :
    (∃ ρ ∈ Conjugates s [] τ, P ρ) ↔ P τ := by
  constructor
  · rintro ⟨ρ, h, hP⟩
    have hρ : ρ = τ := funext fun v => h.1 v List.not_mem_nil
    exact hρ ▸ hP
  · intro hP
    exact ⟨τ, ⟨fun _ _ => rfl, fun c hc => absurd hc List.not_mem_nil⟩, hP⟩

/-- A conjugate of one more coordinate. -/
theorem exists_conjugates_cons {c : Var × LocatorId} (hc : c.1 ∉ point.vars)
    {P : (Var → ℂ) → Prop} :
    (∃ ρ ∈ Conjugates s (c :: point) τ, P ρ) ↔
      ∃ ρ ∈ Conjugates s point τ, ∃ β : ℂ,
        Polynomial.aeval β (s.get c.2).poly.toPolynomial = 0 ∧ P (Function.update ρ c.1 β) := by
  have hne : ∀ d ∈ point, d.1 ≠ c.1 := by
    rintro d hd hdc
    exact hc (hdc ▸ mem_vars_of_mem hd)
  constructor
  · rintro ⟨ρ, ⟨hout, hroot⟩, hP⟩
    rw [List.forall_mem_cons] at hroot
    -- the new coordinate is taken back to what it was outside, and its value becomes `β`
    refine ⟨Function.update ρ c.1 (τ c.1), ⟨fun v hv => ?_, fun d hd => ?_⟩, ρ c.1, hroot.1, ?_⟩
    · by_cases hvc : v = c.1
      · rw [hvc, Function.update_self]
      · rw [Function.update_of_ne hvc]
        exact hout v fun hmem => (List.mem_cons.1 hmem).elim hvc hv
    · rw [Function.update_of_ne (hne d hd)]
      exact hroot.2 d hd
    · rwa [Function.update_idem, Function.update_eq_self]
  · rintro ⟨ρ, ⟨hout, hroot⟩, β, hβ, hP⟩
    refine ⟨Function.update ρ c.1 β, ⟨fun v hv => ?_, ?_⟩, hP⟩
    · have hvc : v ≠ c.1 := fun h => hv (h ▸ List.mem_cons_self)
      rw [Function.update_of_ne hvc]
      exact hout v fun hmem => hv (List.mem_cons_of_mem c.1 hmem)
    · rw [List.forall_mem_cons, Function.update_self]
      refine ⟨hβ, fun d hd => ?_⟩
      rw [Function.update_of_ne (hne d hd)]
      exact hroot d hd

/-- There are finitely many conjugates. -/
theorem finite_conjugates (hdeg : ∀ c ∈ point, 0 < (s.get c.2).poly.degree) (τ : Var → ℂ) :
    (point.Conjugates s τ).Finite := by
  set roots : Set ℂ := {β | ∃ c ∈ point, Polynomial.aeval β (s.get c.2).poly.toPolynomial = 0}
    with hroots
  have hfin : roots.Finite := by
    have hunion : roots = ⋃ c ∈ {c | c ∈ point},
        {β | Polynomial.aeval β (s.get c.2).poly.toPolynomial = 0} := by
      ext β
      simp [hroots]
    rw [hunion]
    refine Set.Finite.biUnion (List.finite_toSet point) fun c hc => ?_
    have hne := UniPoly.ne_zero_of_degree_pos (hdeg c hc)
    refine (Polynomial.rootSet_finite (s.get c.2).poly.toPolynomial ℂ).subset fun β hβ => ?_
    exact (Polynomial.mem_rootSet_of_ne hne).2 hβ
  refine (Set.Finite.pi' fun v : Var => hfin.insert (τ v)).subset ?_
  rintro ρ ⟨hout, hroot⟩ v
  by_cases hv : v ∈ point.vars
  · obtain ⟨c, hc, rfl⟩ := List.mem_map.1 hv
    exact Set.mem_insert_of_mem _ ⟨c, hc, hroot c hc⟩
  · rw [hout v hv]
    exact Set.mem_insert _ _

/-- The values of the other variables can be chosen anew. -/
theorem conjugates_piecewise {ρ : Var → ℂ} (hρ : ρ ∈ point.Conjugates s τ) (υ : Var → ℂ) :
    (fun v => if v ∈ point.vars then ρ v else υ v) ∈ point.Conjugates s υ := by
  refine ⟨fun v hv => if_neg hv, fun c hc => ?_⟩
  simp only [if_pos (mem_vars_of_mem hc)]
  exact hρ.2 c hc

/-- The coordinates are conjugates of themselves. -/
theorem Denotes.mem_conjugates (h : point.Denotes s σ) (τ : Var → ℂ) :
    (fun v => if v ∈ point.vars then (σ v : ℂ) else τ v) ∈ point.Conjugates s τ := by
  refine ⟨fun v hv => if_neg hv, fun c hc => ?_⟩
  simp only [if_pos (mem_vars_of_mem hc)]
  exact UniPoly.isRoot_iff_aeval.1 (h.locates c hc).2.isRoot

/-- The values of a polynomial at the conjugates of a point that has all its variables. -/
theorem finite_conjugateValues (hdeg : ∀ c ∈ point, 0 < (s.get c.2).poly.degree) {g : MvPoly}
    (hg : ∀ v ∈ g.vars, v ∈ point.vars) :
    {z : ℂ | ∃ τ, ∃ ρ ∈ point.Conjugates s τ, aeval ρ g.toPolynomial = z}.Finite := by
  refine ((finite_conjugates hdeg 0).image fun ρ => aeval ρ g.toPolynomial).subset ?_
  rintro z ⟨τ, ρ, hρ, rfl⟩
  -- only the values of the coordinates matter
  exact ⟨_, conjugates_piecewise hρ 0, MvPoly.aeval_congr fun v hv => if_pos (hg v hv)⟩

/-! ## Eliminating the coordinates

With exponents that have no bound there is always something left, and the elimination has a value. -/

/-- What is left of `e` when the coordinates have been eliminated. -/
def iteratedResultant (s : Store) : AlgebraicPoint → MvPoly → MvPoly
  | [], e => e
  | c :: cs, e => iteratedResultant s cs (e.resultant (definingPoly s c).toMvPoly c.1)

theorem eliminate_eq : ∀ (point : AlgebraicPoint) (e : MvPoly),
    eliminate s point e = .ok (iteratedResultant s point e)
  | [], _ => rfl
  | _ :: cs, _ => eliminate_eq cs _

/-- The annihilator of `g`. -/
def exactAnnihilator (s : Store) (point : AlgebraicPoint) (g : MvPoly) : MvPoly :=
  iteratedResultant s point ((MvPoly.ofVar (point.scratchVar g)).sub g)

theorem annihilator_eq (point : AlgebraicPoint) (g : MvPoly) :
    point.annihilator s g = .ok (point.exactAnnihilator s g) :=
  eliminate_eq point _

/-- The eliminant, with the number of resultants. -/
def exactEliminant (s : Store) : AlgebraicPoint → MvPoly → MvPoly × ℕ
  | [], e => (e, 0)
  | c :: cs, e =>
    if e.hasVar c.1 then
      let r := exactEliminant s cs (e.resultant (definingPoly s c).toMvPoly c.1)
      (r.1, r.2 + 1)
    else exactEliminant s cs e

theorem eliminant_eq : ∀ (point : AlgebraicPoint) (e : MvPoly),
    eliminant s point e = .ok (exactEliminant s point e)
  | [], _ => rfl
  | c :: cs, e => by
    rw [eliminant, exactEliminant]
    by_cases h : Arithmetic.hasVar e c.1 = true
    · rw [if_pos h, if_pos (show e.hasVar c.1 = true from h)]
      show (do
        let (e, n) ← eliminant s cs (e.resultant (definingPoly s c).toMvPoly c.1)
        return (e, n + 1)) = _
      rw [eliminant_eq cs]
      rfl
    · rw [if_neg h, if_neg (show ¬e.hasVar c.1 = true from h)]
      exact eliminant_eq cs e

theorem aeval_resultant_definingPoly {c : Var × LocatorId} (hdeg : 0 < (s.get c.2).poly.degree)
    (e : MvPoly) (ρ : Var → ℂ) : aeval ρ (e.resultant (definingPoly s c).toMvPoly c.1).toPolynomial = 0 ↔
      ∃ β : ℂ, Polynomial.aeval β (s.get c.2).poly.toPolynomial = 0 ∧
        aeval (Function.update ρ c.1 β) e.toPolynomial = 0 :=
  MvPoly.aeval_resultant_eq_zero_iff e (u := (s.get c.2).poly.withVar c.1) rfl hdeg ρ

/-- What is left after the elimination vanishes exactly if the polynomial vanishes for some
conjugates. -/
theorem aeval_iteratedResultant_eq_zero_iff : ∀ {point : AlgebraicPoint} {e : MvPoly}, point.vars.Nodup →
    (∀ c ∈ point, 0 < (s.get c.2).poly.degree) →
      (aeval τ (iteratedResultant s point e).toPolynomial = 0 ↔
        ∃ ρ ∈ point.Conjugates s τ, aeval ρ e.toPolynomial = 0)
  | [], e, _, _ => by
    rw [exists_conjugates_nil]
    exact Iff.rfl
  | c :: cs, e, hnodup, hdeg => by
    obtain ⟨hc, hcs⟩ := List.nodup_cons.1 hnodup
    rw [List.forall_mem_cons] at hdeg
    rw [iteratedResultant, aeval_iteratedResultant_eq_zero_iff hcs hdeg.2, exists_conjugates_cons hc]
    simp only [aeval_resultant_definingPoly hdeg.1]

/-- The same with resultants only for the coordinates that occur: the others take no part. -/
theorem aeval_exactEliminant_eq_zero_iff : ∀ {point : AlgebraicPoint} {e : MvPoly}, point.vars.Nodup →
    (∀ c ∈ point, 0 < (s.get c.2).poly.degree) →
      (aeval τ (exactEliminant s point e).1.toPolynomial = 0 ↔
        ∃ ρ ∈ point.Conjugates s τ, aeval ρ e.toPolynomial = 0)
  | [], e, _, _ => by
    rw [exists_conjugates_nil]
    exact Iff.rfl
  | c :: cs, e, hnodup, hdeg => by
    obtain ⟨hc, hcs⟩ := List.nodup_cons.1 hnodup
    rw [List.forall_mem_cons] at hdeg
    rw [exists_conjugates_cons hc, exactEliminant]
    split
    next =>
      show aeval τ (exactEliminant s cs
        (e.resultant (definingPoly s c).toMvPoly c.1)).1.toPolynomial = 0 ↔ _
      rw [aeval_exactEliminant_eq_zero_iff hcs hdeg.2]
      simp only [aeval_resultant_definingPoly hdeg.1]
    next hvar =>
      rw [aeval_exactEliminant_eq_zero_iff hcs hdeg.2]
      -- the coordinate does not occur, so any of its conjugates will do, and there is one
      have hout : ∀ (ρ : Var → ℂ) (β : ℂ),
          aeval (Function.update ρ c.1 β) e.toPolynomial = aeval ρ e.toPolynomial := fun ρ β =>
        MvPoly.aeval_congr fun v hv => by
          have hvc : v ≠ c.1 := by
            rintro rfl
            exact hvar (MvPoly.hasVar_iff.2 hv)
          exact Function.update_of_ne hvc β ρ
      have hdeg' : (s.get c.2).poly.toPolynomial.degree ≠ 0 := by
        intro h0
        have hpos := hdeg.1
        rw [← UniPoly.natDegree_toPolynomial, Polynomial.natDegree_eq_of_degree_eq_some h0] at hpos
        exact lt_irrefl 0 hpos
      obtain ⟨β, hβ⟩ := IsAlgClosed.exists_aeval_eq_zero ℂ _ hdeg'
      refine exists_congr fun ρ => and_congr_right fun _ => ?_
      constructor
      · intro h
        exact ⟨β, hβ, (hout ρ β).trans h⟩
      · rintro ⟨γ, -, h⟩
        exact (hout ρ γ).symm.trans h

theorem definingPoly_mem {c : Var × LocatorId} {vs : List Var} (h : c.1 ∈ vs) :
    (definingPoly s c).toMvPoly.toPolynomial ∈ polynomialsIn vs :=
  toMvPoly_mem_polynomialsIn (u := (s.get c.2).poly.withVar c.1) h

/-- The eliminated variables are gone. -/
theorem iteratedResultant_mem {vs : List Var} : ∀ {point : AlgebraicPoint} {e : MvPoly},
    e.toPolynomial ∈ polynomialsIn (point.vars ++ vs) →
      (iteratedResultant s point e).toPolynomial ∈ polynomialsIn vs
  | [], _, h => h
  | c :: _, _, h => by
    rw [iteratedResultant]
    exact iteratedResultant_mem (MvPoly.resultant_mem_polynomialsIn h (definingPoly_mem List.mem_cons_self))

theorem exactEliminant_mem {vs : List Var} : ∀ {point : AlgebraicPoint} {e : MvPoly},
    e.toPolynomial ∈ polynomialsIn (point.vars ++ vs) →
      (exactEliminant s point e).1.toPolynomial ∈ polynomialsIn vs
  | [], _, h => h
  | c :: cs, e, h => by
    rw [exactEliminant]
    split
    next =>
      exact exactEliminant_mem
        (MvPoly.resultant_mem_polynomialsIn h (definingPoly_mem List.mem_cons_self))
    next hvar =>
      refine exactEliminant_mem (MvPoly.mem_polynomialsIn_iff.2 fun v hv => ?_)
      refine (List.mem_cons.1 (MvPoly.mem_polynomialsIn_iff.1 h v hv)).resolve_left ?_
      rintro rfl
      exact hvar (MvPoly.hasVar_iff.2 hv)

/-- The eliminant is a polynomial in the variable that has no coordinate. -/
theorem vars_exactEliminant {p : MvPoly} {v : Var} (hvars : ∀ w ∈ p.vars, w = v ∨ w ∈ point.vars) :
    ∀ w ∈ (exactEliminant s point p).1.vars, w = v := by
  have hmem : p.toPolynomial ∈ polynomialsIn (point.vars ++ [v]) :=
    MvPoly.mem_polynomialsIn_iff.2 fun w hw => List.mem_append.2
      ((hvars w hw).symm.imp id List.mem_singleton.2)
  exact fun w hw => List.mem_singleton.1 (MvPoly.mem_polynomialsIn_iff.1 (exactEliminant_mem hmem) w hw)

end AlgebraicPoint

end AlgebraicReal
