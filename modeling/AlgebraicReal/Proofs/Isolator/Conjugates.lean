import AlgebraicReal.Proofs.Isolator
import AlgebraicReal.Proofs.Point.Degeneracy

/-!
# The conjugates of the values

Elimination treats a number alike with all other roots of its defining polynomial, unless the number
is held as a rational (`Number.Conjugate`). Whether an eliminant is zero is therefore a matter of
the conjugates of the values: it is zero if some choice of them leaves nothing of the polynomial up
to its degree at the true values (`Assignment.Degenerate`).
-/

open MvPolynomial

namespace AlgebraicReal

variable {s t : Store} {values : Assignment} {p : MvPoly} {v w : Var} {a : Var → ℝ}

/-- The complex numbers that elimination does not tell from a number: a rational is on its own, and
other numbers come with all roots of the defining polynomial. -/
def Form.Conjugate (s : Store) : Form → ℂ → Prop
  | .rational q, z => z = q
  | .root id, z => Polynomial.aeval z (s.get id).poly.toPolynomial = 0
  | .thom t, z => Polynomial.aeval z (s.get t.locator).poly.toPolynomial = 0

def Number.Conjugate (s : Store) (x : Number) (z : ℂ) : Prop := (x.form s).Conjugate s z

/-- A number has the same conjugates in a later store, unless it has become a rational. -/
theorem Number.conjugate_narrowed_iff {x : Number} {r : ℝ} {z : ℂ} (hs : s.Valid)
    (hn : s.Narrowed t) (hx : x.Denotes s r) (hform : x.form t = x.form s) :
    x.Conjugate t z ↔ x.Conjugate s z := by
  have hden := hx.form
  unfold Conjugate
  rw [hform]
  cases hf : x.form s with
  | rational q => exact Iff.rfl
  | root id =>
    rw [hf] at hden
    rw [Form.Conjugate, Form.Conjugate, hn.poly_eq hs hden.1]
  | thom e =>
    rw [hf] at hden
    rw [Form.Conjugate, Form.Conjugate, hn.poly_eq hs hden.id_lt]

/-- Some choice of conjugates of the values leaves nothing of the powers of `v` up to the degree of
the polynomial that is left at the true values. -/
def Assignment.Degenerate (s : Store) (values : Assignment) (p : MvPoly) (v : Var) (a : Var → ℝ) :
    Prop :=
  0 < (p.specialize v a).natDegree ∧ ∃ ρ : Var → ℂ,
    (∀ w ∈ p.vars, w ≠ v → ∃ x, values.lookup w = some x ∧ x.Conjugate s (ρ w)) ∧
      ∀ k ≤ (p.specialize v a).natDegree, aeval ρ (p.coeff v k).toPolynomial = 0

/-- Every number is a conjugate of its own. -/
theorem Number.Denotes.conjugate {x : Number} {r : ℝ} (h : x.Denotes s r) : x.Conjugate s r := by
  have hden := h.form
  unfold Conjugate
  cases hf : x.form s <;> rw [hf] at hden
  case rational q => rw [Form.Conjugate, show r = q from hden, Complex.ofReal_ratCast]
  case root id => exact UniPoly.isRoot_iff_aeval.1 hden.2.isRoot
  case thom e => exact UniPoly.isRoot_iff_aeval.1 hden.locates.isRoot

/-- Each of these variables has a value, and one of its conjugates is chosen. -/
def Assignment.Chooses (s : Store) (values : Assignment) (K : Set Var) (ρ : Var → ℂ) : Prop :=
  ∀ w ∈ K, ∃ x, values.lookup w = some x ∧ x.Conjugate s (ρ w)

/-- Only the variables of the polynomial matter: a choice of conjugates for them extends to all
variables that have a value. -/
theorem Assignment.degenerate_iff_of_subset {K : Set Var} (hK : ∀ w ∈ p.vars, w ≠ v → w ∈ K)
    (hvalues : ∀ w ∈ K, ∃ x, values.lookup w = some x ∧ x.Denotes s (a w)) :
    values.Degenerate s p v a ↔ 0 < (p.specialize v a).natDegree ∧ ∃ ρ : Var → ℂ,
      values.Chooses s K ρ ∧
        ∀ k ≤ (p.specialize v a).natDegree, aeval ρ (p.coeff v k).toPolynomial = 0 := by
  refine and_congr_right fun _ => ⟨?_, ?_⟩
  · rintro ⟨ρ, hconj, hzero⟩
    refine ⟨fun w => if w ∈ p.vars ∧ w ≠ v then ρ w else a w, fun w hw => ?_, fun k hk => ?_⟩
    · by_cases hin : w ∈ p.vars ∧ w ≠ v
      · simp only [if_pos hin]
        exact hconj w hin.1 hin.2
      · simp only [if_neg hin]
        obtain ⟨x, hx, hden⟩ := hvalues w hw
        exact ⟨x, hx, hden.conjugate⟩
    · rw [← hzero k hk]
      exact MvPoly.aeval_congr fun w hw => if_pos (MvPoly.mem_vars_of_mem_vars_coeff hw)
  · rintro ⟨ρ, hchooses, hzero⟩
    exact ⟨ρ, fun w hw hwv => hchooses w (hK w hw hwv), hzero⟩

/-! ## Coefficients at complex values -/

/-- A polynomial vanishes identically in `v` exactly if its coefficients do. -/
theorem aeval_update_eq_zero_iff {f : MvPolynomial Var ℚ} {ρ : Var → ℂ} :
    (∀ z : ℂ, aeval (Function.update ρ v z) f = 0) ↔ ∀ k, aeval ρ ((inVar v f).coeff k) = 0 := by
  set g := (inVar v f).map (aeval ρ : MvPolynomial Var ℚ →ₐ[ℚ] ℂ).toRingHom with hg
  have heval : ∀ z : ℂ, g.eval z = aeval (Function.update ρ v z) f := fun z =>
    eval_map_inVar v ρ z f
  have hcoeff : ∀ k, g.coeff k = aeval ρ ((inVar v f).coeff k) := fun k => Polynomial.coeff_map _ _
  simp only [← heval, ← hcoeff]
  constructor
  · intro h k
    rw [Polynomial.funext fun z => (h z).trans Polynomial.eval_zero.symm, Polynomial.coeff_zero]
  · intro h z
    rw [Polynomial.ext fun k => (h k).trans (Polynomial.coeff_zero k).symm, Polynomial.eval_zero]

/-- Polynomials with the same values have coefficients with the same values. -/
theorem MvPoly.aeval_coeff_congr {q : MvPoly} {ρ σ : Var → ℂ}
    (h : ∀ z : ℂ, aeval (Function.update ρ v z) p.toPolynomial
      = aeval (Function.update σ v z) q.toPolynomial) (k : ℕ) :
    aeval ρ (p.coeff v k).toPolynomial = aeval σ (q.coeff v k).toPolynomial := by
  have hmap : (inVar v p.toPolynomial).map (aeval ρ : MvPolynomial Var ℚ →ₐ[ℚ] ℂ).toRingHom
      = (inVar v q.toPolynomial).map (aeval σ : MvPolynomial Var ℚ →ₐ[ℚ] ℂ).toRingHom := by
    refine Polynomial.funext fun z => ?_
    rw [eval_map_inVar, eval_map_inVar]
    exact h z
  have hcoeff := congrArg (Polynomial.coeff · k) hmap
  simp only [Polynomial.coeff_map] at hcoeff
  rw [toPolynomial_coeff, toPolynomial_coeff]
  exact hcoeff

/-- A truncated polynomial vanishes identically if the coefficients that are kept do. -/
theorem MvPoly.aeval_truncate_eq_zero_iff {ρ : Var → ℂ} {d : ℕ} :
    (∀ z : ℂ, aeval (Function.update ρ v z) (p.truncate v d).toPolynomial = 0) ↔
      ∀ k ≤ d, aeval ρ (p.coeff v k).toPolynomial = 0 := by
  rw [aeval_update_eq_zero_iff]
  refine forall_congr' fun k => ?_
  rw [coeff_inVar_truncate, toPolynomial_coeff]
  split
  next hk => rw [forall_prop_of_true hk]
  next hk => exact iff_of_true (map_zero _) fun h => absurd h hk

/-! ## Taking in the values -/

/-- The values of the listed variables have been taken in: rational ones were put into the
polynomial, and the other ones are in the point, each with its defining polynomial. -/
structure PartialValue.Splits (s : Store) (values : Assignment) (p : MvPoly) (a : Var → ℝ)
    (vs : List Var) (value : PartialValue MvPoly) : Prop extends Represents s p a vs value where
  aeval_complex_eq : ∀ ρ : Var → ℂ, (∀ w ∈ vs, w ∉ value.point.vars → ρ w = a w) →
    aeval ρ value.poly.toPolynomial = aeval ρ p.toPolynomial
  rational : ∀ w ∈ vs, w ∉ value.point.vars →
    ∃ x, values.lookup w = some x ∧ ∀ z, x.Conjugate s z ↔ z = a w
  algebraic : ∀ c ∈ value.point, ∃ x, values.lookup c.1 = some x ∧
    ∀ z, x.Conjugate s z ↔ Polynomial.aeval z (s.get c.2).poly.toPolynomial = 0

namespace PartialValue

variable {vs : List Var} {value : PartialValue MvPoly}

theorem splits_self (s : Store) (values : Assignment) (p : MvPoly) (a : Var → ℝ) :
    Splits s values p a [] ⟨p, []⟩ where
  toRepresents := represents_self s p a
  aeval_complex_eq _ _ := rfl
  rational _ hw := absurd hw List.not_mem_nil
  algebraic _ hc := absurd hc List.not_mem_nil

/-- Putting in a rational value. -/
theorem Splits.evalAt (h : Splits s values p a vs value) (hv : v ∉ vs) {x : Number} {q : ℚ}
    (hx : values.lookup v = some x) (hform : x.form s = .rational q) (hq : a v = q) :
    Splits s values p a (vs ++ [v]) { value with poly := value.poly.evalAt v q } where
  toRepresents := h.toRepresents.evalAt hq
  aeval_complex_eq ρ hρ := by
    have hvq : ρ v = algebraMap ℚ ℂ q := by
      have hout : v ∉ value.point.vars := fun hmem => hv (h.mem_point v hmem)
      rw [hρ v (List.mem_append_right vs List.mem_cons_self) hout, hq]
      exact Complex.ofReal_ratCast q
    show aeval ρ (value.poly.evalAt v q).toPolynomial = _
    rw [MvPoly.aeval_evalAt, ← hvq, Function.update_eq_self]
    exact h.aeval_complex_eq ρ fun w hw => hρ w (List.mem_append_left _ hw)
  rational w hw hout := by
    rcases List.mem_append.1 hw with hw | hw
    · exact h.rational w hw hout
    · obtain rfl := List.mem_singleton.1 hw
      refine ⟨x, hx, fun z => ?_⟩
      rw [Number.Conjugate, hform, Form.Conjugate, hq, Complex.ofReal_ratCast]
  algebraic := h.algebraic

/-- Taking in a coordinate. -/
theorem Splits.coordinate (h : Splits s values p a vs value) (hv : v ∉ vs) {x : Number}
    {id : LocatorId} (hx : values.lookup v = some x) (hid : id < s.locators.size)
    (hloc : (s.get id).Locates (a v))
    (hconj : ∀ z, x.Conjugate s z ↔ Polynomial.aeval z (s.get id).poly.toPolynomial = 0) :
    Splits s values p a (vs ++ [v]) { value with point := value.point ++ [(v, id)] } := by
  refine ⟨h.toRepresents.coordinate hv hid hloc, fun ρ hρ => ?_, fun w hw hout => ?_,
    fun c hc => ?_⟩
  · refine h.aeval_complex_eq ρ fun w hw hout => hρ w (List.mem_append_left _ hw) ?_
    rw [AlgebraicPoint.mem_vars_append]
    rintro (hmem | rfl)
    · exact hout hmem
    · exact hv hw
  · rw [AlgebraicPoint.mem_vars_append, not_or] at hout
    refine h.rational w ((List.mem_append.1 hw).resolve_right fun hmem => ?_) hout.1
    exact hout.2 (List.mem_singleton.1 hmem)
  · rcases List.mem_append.1 hc with hc | hc
    · exact h.algebraic c hc
    · rw [List.mem_singleton.1 hc]
      exact ⟨x, hx, hconj⟩

/-- Values are taken in one after the other. -/
theorem exists_substitute_splits : ∀ {vs done : List Var} {value : PartialValue MvPoly},
    (done ++ vs).Nodup → (∀ w ∈ vs, ∃ x, values.lookup w = some x ∧ x.Denotes s (a w)) →
      Splits s values p a done value →
        ∃ value', substitute s values vs value = .ok value' ∧
          Splits s values p a (done ++ vs) value'
  | [], done, value, _, _, h => ⟨value, rfl, by rwa [List.append_nil]⟩
  | v :: vs, done, value, hnodup, hvalues, h => by
    have hv : v ∉ done := fun hmem =>
      List.disjoint_of_nodup_append hnodup hmem List.mem_cons_self
    rw [List.forall_mem_cons] at hvalues
    obtain ⟨⟨x, hx, hden⟩, hvalues⟩ := hvalues
    -- one variable moves from those to come to those that are done
    rw [List.append_cons] at hnodup ⊢
    rw [substitute, hx]
    have hform := hden.form
    cases hf : x.form s with
    | rational q =>
      rw [hf] at hform
      simp only [hf]
      exact exists_substitute_splits hnodup hvalues (h.evalAt hv hx hf hform)
    | root id =>
      rw [hf] at hform
      simp only [hf]
      refine exists_substitute_splits hnodup hvalues
        (h.coordinate hv hx hform.1 hform.2 fun z => ?_)
      rw [Number.Conjugate, hf, Form.Conjugate]
    | thom t =>
      rw [hf] at hform
      simp only [hf]
      refine exists_substitute_splits hnodup hvalues
        (h.coordinate hv hx hform.id_lt hform.locates fun z => ?_)
      rw [Number.Conjugate, hf, Form.Conjugate]

/-- If all variables but `v` have values, all of them can be taken in. -/
theorem exists_splits
    (hvalues : ∀ w ∈ p.vars, w ≠ v → ∃ x, values.lookup w = some x ∧ x.Denotes s (a w)) :
    ∃ g, PartialValue.of s values p [v] = .ok g ∧
      Splits s values p a (p.vars.filter (· ∉ [v])) g := by
  have hnodup : ([] ++ p.vars.filter (· ∉ [v])).Nodup := p.nodup_vars.filter _
  refine exists_substitute_splits hnodup (fun w hw => ?_) (splits_self s values p a)
  obtain ⟨hwp, hwv⟩ := MvPoly.mem_filter_notMem_singleton.1 hw
  exact hvalues w hwp hwv

/-! ## Conjugates of the point and of the values -/

section

variable {g : PartialValue MvPoly} {ρ : Var → ℂ} (h : Splits s values p a (p.vars.filter (· ∉ [v])) g)
include h

/-- Rational values do not tell the two polynomials apart. -/
theorem Splits.aeval_coeff_eq (hρ : ∀ w ∈ p.vars, w ≠ v → w ∉ g.point.vars → ρ w = a w) (k : ℕ) :
    aeval ρ (g.poly.coeff v k).toPolynomial = aeval ρ (p.coeff v k).toPolynomial := by
  refine MvPoly.aeval_coeff_congr (fun z => h.aeval_complex_eq _ fun w hw hout => ?_) k
  obtain ⟨hwp, hwv⟩ := MvPoly.mem_filter_notMem_singleton.1 hw
  rw [Function.update_of_ne hwv, hρ w hwp hwv hout]

/-- To choose conjugates of the values is to choose roots for the coordinates of the point, while
rational values are on their own. -/
theorem Splits.conjugates_iff :
    (∀ w ∈ p.vars, w ≠ v → ∃ x, values.lookup w = some x ∧ x.Conjugate s (ρ w)) ↔
      (∀ c ∈ g.point, Polynomial.aeval (ρ c.1) (s.get c.2).poly.toPolynomial = 0) ∧
        ∀ w ∈ p.vars, w ≠ v → w ∉ g.point.vars → ρ w = a w := by
  constructor
  · intro hconj
    refine ⟨fun c hc => ?_, fun w hwp hwv hout => ?_⟩
    · obtain ⟨x, hx, hiff⟩ := h.algebraic c hc
      have hmem := h.mem_point _ (AlgebraicPoint.mem_vars_of_mem hc)
      obtain ⟨hcp, hcv⟩ := MvPoly.mem_filter_notMem_singleton.1 hmem
      obtain ⟨x', hx', hxc⟩ := hconj _ hcp hcv
      cases hx.symm.trans hx'
      exact (hiff _).1 hxc
    · obtain ⟨x, hx, hiff⟩ := h.rational w (MvPoly.mem_filter_notMem_singleton.2 ⟨hwp, hwv⟩) hout
      obtain ⟨x', hx', hxc⟩ := hconj w hwp hwv
      cases hx.symm.trans hx'
      exact (hiff _).1 hxc
  · -- a variable is a coordinate of the point or was put in as a rational
    rintro ⟨hroot, hrational⟩ w hwp hwv
    by_cases hmem : w ∈ g.point.vars
    · obtain ⟨c, hc, rfl⟩ := List.mem_map.1 hmem
      obtain ⟨x, hx, hiff⟩ := h.algebraic c hc
      exact ⟨x, hx, (hiff _).2 (hroot c hc)⟩
    · obtain ⟨x, hx, hiff⟩ := h.rational w (MvPoly.mem_filter_notMem_singleton.2 ⟨hwp, hwv⟩) hmem
      exact ⟨x, hx, (hiff _).2 (hrational w hwp hwv hmem)⟩

/-- The coefficients vanish for conjugates of the point exactly if they do for conjugates of the
values. -/
theorem Splits.degenerate_iff {d : ℕ} :
    g.point.Degenerate s (g.poly.truncate v d) v ↔ ∃ ρ : Var → ℂ,
      (∀ w ∈ p.vars, w ≠ v → ∃ x, values.lookup w = some x ∧ x.Conjugate s (ρ w)) ∧
        ∀ k ≤ d, aeval ρ (p.coeff v k).toPolynomial = 0 := by
  rw [AlgebraicPoint.degenerate_iff_exists_conjugates h.denotes]
  constructor
  · rintro ⟨ρ, hroot, hzero⟩
    -- a choice for the point says nothing about the other variables, which get their true values
    have hrational : ∀ w ∈ p.vars, w ≠ v → w ∉ g.point.vars →
        (if w ∈ g.point.vars then ρ w else a w) = a w := fun w _ _ hout => if_neg hout
    refine ⟨fun w => if w ∈ g.point.vars then ρ w else a w,
      h.conjugates_iff.2 ⟨fun c hc => ?_, hrational⟩, fun k hk => ?_⟩
    · simp only [if_pos (AlgebraicPoint.mem_vars_of_mem hc)]
      exact hroot c hc
    · rw [← h.aeval_coeff_eq hrational]
      refine MvPoly.aeval_truncate_eq_zero_iff.1 (fun z => ?_) k hk
      rw [← hzero z]
      refine MvPoly.aeval_eq_aeval_update (Function.update_self ..) fun w hw hwv => ?_
      rw [Function.update_of_ne hwv]
      exact if_pos (h.mem_point_of_ne (MvPoly.mem_vars_of_mem_vars_truncate hw) hwv)
  · rintro ⟨ρ, hconj, hzero⟩
    obtain ⟨hroot, hrational⟩ := h.conjugates_iff.1 hconj
    refine ⟨ρ, hroot, MvPoly.aeval_truncate_eq_zero_iff.2 fun k hk => ?_⟩
    rw [h.aeval_coeff_eq hrational, hzero k hk]

end

end PartialValue

end AlgebraicReal
