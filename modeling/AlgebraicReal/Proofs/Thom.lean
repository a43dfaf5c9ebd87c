import AlgebraicReal.Proofs.Store
import AlgebraicReal.Thom

/-!
# Thom's lemma

Where a derivative keeps one sign between two points, the derivative below it is monotone there: if
it has the same sign at both points it keeps that sign between them, and if not, its signs show the
order of the points. Down from the highest derivative, which is constant, this compares two roots of
one polynomial by their signs (`compareSigns_eq_cmp`).

`Thom.Denotes` is what an encoding promises: the signs are those of the derivatives at the root of
its locator (`Thom.signsAt`). It is kept by every operation on an encoding, and what is asked of the
encoding is answered for that root.
-/

open Polynomial

namespace AlgebraicReal

/-! ## Signs between two points -/

/-- Between two numbers with the same sign all numbers have that sign. -/
theorem Sign.ofReal_eq_of_mem_uIcc {u v w : ℝ} (h : ofReal u = ofReal v) (hw : w ∈ Set.uIcc u v) :
    ofReal w = ofReal u := by
  rcases Set.mem_uIcc.1 hw with ⟨h₁, h₂⟩ | ⟨h₁, h₂⟩ <;> rcases lt_trichotomy u 0 with hu | rfl | hu
  · rw [ofReal_of_neg hu, eq_comm, ofReal_eq_negative_iff] at h
    rw [ofReal_of_neg hu, ofReal_of_neg (h₂.trans_lt h)]
  · rw [ofReal_eq_zero_iff.2 rfl, eq_comm, ofReal_eq_zero_iff] at h
    rw [le_antisymm (h₂.trans h.le) h₁]
  · rw [ofReal_of_pos hu, ofReal_of_pos (hu.trans_le h₁)]
  · rw [ofReal_of_neg hu, ofReal_of_neg (h₂.trans_lt hu)]
  · rw [ofReal_eq_zero_iff.2 rfl, eq_comm, ofReal_eq_zero_iff] at h
    rw [le_antisymm h₂ (h.ge.trans h₁)]
  · rw [ofReal_of_pos hu, eq_comm, ofReal_eq_positive_iff] at h
    rw [ofReal_of_pos hu, ofReal_of_pos (h.trans_le h₁)]

/-- The derivative has one sign between two points, these included. -/
def OneSign (f : ℝ[X]) (x y : ℝ) (s : Sign) : Prop :=
  ∀ z ∈ Set.uIcc x y, Sign.ofReal (f.eval z) = s

variable {f : ℝ[X]} {x y : ℝ} {above : Sign}

theorem strictMonoOn_of_oneSign (h : OneSign (derivative f) x y .positive) :
    StrictMonoOn (fun z => f.eval z) (Set.uIcc x y) := by
  refine strictMonoOn_of_deriv_pos (convex_uIcc x y) f.continuous.continuousOn fun z hz => ?_
  rw [Polynomial.deriv]
  exact Sign.ofReal_eq_positive_iff.1 (h z (interior_subset hz))

theorem strictAntiOn_of_oneSign (h : OneSign (derivative f) x y .negative) :
    StrictAntiOn (fun z => f.eval z) (Set.uIcc x y) := by
  refine strictAntiOn_of_deriv_neg (convex_uIcc x y) f.continuous.continuousOn fun z hz => ?_
  rw [Polynomial.deriv]
  exact Sign.ofReal_eq_negative_iff.1 (h z (interior_subset hz))

/-- Where the derivative keeps one sign, values between two points are between the values there. -/
theorem mapsTo_uIcc_of_oneSign (h : OneSign (derivative f) x y above) :
    Set.MapsTo (fun z => f.eval z) (Set.uIcc x y) (Set.uIcc (f.eval x) (f.eval y)) := by
  cases above with
  | positive => exact (strictMonoOn_of_oneSign h).monotoneOn.mapsTo_uIcc
  | negative => exact (strictAntiOn_of_oneSign h).antitoneOn.mapsTo_uIcc
  | zero =>
    refine (monotoneOn_of_deriv_nonneg (convex_uIcc x y) f.continuous.continuousOn
      f.differentiable.differentiableOn fun z hz => ?_).mapsTo_uIcc
    rw [Polynomial.deriv]
    exact (Sign.ofReal_eq_zero_iff.1 (h z (interior_subset hz))).ge

/-- One step down with equal signs. -/
theorem OneSign.of_derivative (h : OneSign (derivative f) x y above)
    (hs : Sign.ofReal (f.eval x) = Sign.ofReal (f.eval y)) :
    OneSign f x y (Sign.ofReal (f.eval x)) :=
  fun _ hz => Sign.ofReal_eq_of_mem_uIcc hs (mapsTo_uIcc_of_oneSign h hz)

/-- Where the signs differ, the derivative is not zero. -/
theorem OneSign.ne_zero (h : OneSign (derivative f) x y above)
    (hs : Sign.ofReal (f.eval x) ≠ Sign.ofReal (f.eval y)) : above ≠ .zero := by
  intro hz
  -- otherwise the polynomial is constant between the points
  apply hs
  have hzero : ∀ z ∈ interior (Set.uIcc x y), deriv (fun z => f.eval z) z = 0 := by
    intro z hz'
    rw [Polynomial.deriv]
    exact Sign.ofReal_eq_zero_iff.1 ((h z (interior_subset hz')).trans hz)
  have hmono : MonotoneOn (fun z => f.eval z) (Set.uIcc x y) :=
    monotoneOn_of_deriv_nonneg (convex_uIcc x y) f.continuous.continuousOn
      f.differentiable.differentiableOn fun z hz' => (hzero z hz').ge
  have hanti : AntitoneOn (fun z => f.eval z) (Set.uIcc x y) :=
    antitoneOn_of_deriv_nonpos (convex_uIcc x y) f.continuous.continuousOn
      f.differentiable.differentiableOn fun z hz' => (hzero z hz').le
  have hx : x ∈ Set.uIcc x y := Set.left_mem_uIcc
  have hy : y ∈ Set.uIcc x y := Set.right_mem_uIcc
  rcases le_total x y with hxy | hxy
  · exact congrArg Sign.ofReal (le_antisymm (hmono hx hy hxy) (hanti hx hy hxy))
  · exact congrArg Sign.ofReal (le_antisymm (hanti hy hx hxy) (hmono hy hx hxy))

/-- One step down with different signs. -/
theorem OneSign.compare_eq_cmp (h : OneSign (derivative f) x y above)
    (hs : Sign.ofReal (f.eval x) ≠ Sign.ofReal (f.eval y)) :
    (if above = .negative then ((Sign.ofReal (f.eval x)).compare (Sign.ofReal (f.eval y))).swap
      else (Sign.ofReal (f.eval x)).compare (Sign.ofReal (f.eval y))) = cmp x y := by
  rw [Sign.compare_ofReal hs]
  have hx : x ∈ Set.uIcc x y := Set.left_mem_uIcc
  have hy : y ∈ Set.uIcc x y := Set.right_mem_uIcc
  cases above with
  | positive =>
    rw [if_neg (by decide)]
    exact (strictMonoOn_of_oneSign h).cmp_map_eq hx hy
  | negative =>
    rw [if_pos rfl, cmp_swap]
    exact (strictAntiOn_of_oneSign h).cmp_map_eq hy hx
  | zero => exact absurd rfl (h.ne_zero hs)

/-- Two roots between which the derivative keeps one sign are the same. -/
theorem OneSign.eq_of_isRoot (h : OneSign (derivative f) x y above) (hf : f ≠ 0) (hx : f.IsRoot x)
    (hy : f.IsRoot y) : x = y := by
  by_contra hxy
  have hroots : Set.uIcc x y ⊆ {z | f.IsRoot z} := by
    intro z hz
    have hmem := mapsTo_uIcc_of_oneSign h hz
    rw [hx.eq_zero, hy.eq_zero, Set.uIcc_self] at hmem
    exact hmem
  have hinf : (Set.uIcc x y).Infinite := Set.Icc_infinite (min_lt_max.2 hxy)
  exact hf (eq_zero_of_infinite_isRoot f (hinf.mono hroots))

namespace Thom

/-- The signs of the derivatives from number `k` down to the first one. -/
noncomputable def descending (f : ℝ[X]) (x : ℝ) (k : ℕ) : List Sign :=
  (List.range k).reverse.map fun j => Sign.ofReal ((Polynomial.derivative^[j + 1] f).eval x)

theorem descending_succ (f : ℝ[X]) (x : ℝ) (k : ℕ) :
    descending f x (k + 1)
      = Sign.ofReal ((Polynomial.derivative^[k + 1] f).eval x) :: descending f x k := by
  unfold descending
  rw [List.range_succ, List.reverse_append, List.reverse_singleton, List.singleton_append,
    List.map_cons]

/-- Thom's lemma: the signs of the derivatives order the roots of a polynomial. -/
theorem compareSigns_eq_cmp (hf : f ≠ 0) (hx : f.IsRoot x) (hy : f.IsRoot y) :
    ∀ (k : ℕ) {above : Sign}, OneSign (Polynomial.derivative^[k + 1] f) x y above →
      compareSigns above (descending f x k) (descending f y k) = cmp x y
  | 0, above, h => by
    rw [h.eq_of_isRoot hf hx hy, cmp_self_eq_eq]
    rfl
  | k + 1, above, h => by
    rw [Function.iterate_succ_apply'] at h
    rw [descending_succ, descending_succ, compareSigns]
    split
    next hs =>
      rw [compareSigns_eq_cmp hf hx hy k (h.of_derivative hs)]
    next hs => exact h.compare_eq_cmp hs

/-! ## The signs at a point -/

/-- The signs of the derivatives at a point, up to the one before the constant. -/
noncomputable def signsAt (p : UniPoly) (x : ℝ) : List Sign :=
  (List.range (p.degree - 1)).map fun k =>
    Sign.ofReal ((Polynomial.derivative^[k + 1] p.overReal).eval x)

theorem reverse_signsAt (p : UniPoly) (x : ℝ) :
    (signsAt p x).reverse = descending p.overReal x (p.degree - 1) := by
  unfold signsAt descending
  rw [List.map_reverse]

theorem overReal_iteratedDerivative (k : ℕ) (p : UniPoly) :
    (p.iteratedDerivative k).overReal = Polynomial.derivative^[k] p.overReal := by
  unfold UniPoly.overReal
  rw [UniPoly.toPolynomial_iteratedDerivative, Polynomial.iterate_derivative_map]

theorem map_derivatives (p : UniPoly) (x : ℝ) :
    ((derivatives p).map fun q => Sign.ofReal (q.overReal.eval x)) = signsAt p x := by
  unfold derivatives signsAt
  rw [List.map_map]
  refine List.map_congr_left fun k _ => ?_
  show Sign.ofReal (((p.iteratedDerivative (k + 1)).overReal).eval x) = _
  rw [overReal_iteratedDerivative]

/-- The derivative of the order of the degree is a positive constant. -/
theorem oneSign_top {p : UniPoly} (hp : p.toPolynomial.Monic) (x y : ℝ) :
    OneSign (Polynomial.derivative^[p.degree] p.overReal) x y .positive := by
  intro z _
  have hmonic : p.overReal.Monic := hp.map (algebraMap ℚ ℝ)
  have hdeg : (Polynomial.derivative^[p.degree] p.overReal).natDegree = 0 := by
    have hle := Polynomial.natDegree_iterate_derivative p.overReal p.degree
    rw [UniPoly.natDegree_overReal, Nat.sub_self] at hle
    exact Nat.le_zero.1 hle
  rw [eq_C_of_natDegree_eq_zero hdeg, eval_C, coeff_iterate_derivative, zero_add,
    ← UniPoly.natDegree_overReal, hmonic.coeff_natDegree, Nat.descFactorial_self, nsmul_eq_mul,
    mul_one]
  exact Sign.ofReal_of_pos (Nat.cast_pos.2 (Nat.factorial_pos _))

/-- A polynomial with a root is not constant. -/
theorem degree_pos_of_isRoot {p : UniPoly} (hp : p.toPolynomial.Monic) (hx : p.overReal.IsRoot x) :
    0 < p.degree := by
  refine Nat.pos_of_ne_zero fun hdeg => ?_
  have hz : ¬p.isZero = true := UniPoly.toPolynomial_ne_zero_iff.1 hp.ne_zero
  refine UniPoly.not_isRoot_of_isConstant hz ?_ x hx
  rw [UniPoly.isConstant_iff_natDegree, UniPoly.natDegree_toPolynomial, hdeg]

/-- The comparison by signs is the order of the roots. -/
theorem compareSigns_signsAt {p : UniPoly} (hp : p.toPolynomial.Monic) (hx : p.overReal.IsRoot x)
    (hy : p.overReal.IsRoot y) :
    compareSigns .positive (signsAt p x).reverse (signsAt p y).reverse = cmp x y := by
  have hne : p.overReal ≠ 0 :=
    UniPoly.overReal_ne_zero_iff.2 (UniPoly.toPolynomial_ne_zero_iff.1 hp.ne_zero)
  rw [reverse_signsAt, reverse_signsAt]
  refine compareSigns_eq_cmp hne hx hy _ ?_
  rw [Nat.sub_add_cancel (degree_pos_of_isRoot hp hx)]
  exact oneSign_top hp x y

/-! ## What an encoding promises -/

/-- The encoding is that of a root of its polynomial, which has leading coefficient one and is the
polynomial of its locator. -/
structure Denotes (t : Thom) (s : Store) (x : ℝ) : Prop where
  id_lt : t.locator < s.locators.size
  locates : (s.get t.locator).Locates x
  poly_eq : (s.get t.locator).poly = t.poly
  monic : t.poly.toPolynomial.Monic
  signs : t.signs = (derivatives t.poly).map fun q => Sign.ofReal (q.overReal.eval x)

variable {s : Store} {t u : Thom}

theorem Denotes.isRoot (h : t.Denotes s x) : t.poly.overReal.IsRoot x := by
  rw [← h.poly_eq]
  exact h.locates.isRoot

theorem Denotes.signs_eq (h : t.Denotes s x) : t.signs = signsAt t.poly x :=
  h.signs.trans (map_derivatives t.poly x)

/-- What a polynomial is does not depend on its variable. -/
theorem overReal_eq_of_coeffs_eq {p q : UniPoly} (h : p.coeffs = q.coeffs) :
    p.overReal = q.overReal := by
  unfold UniPoly.overReal UniPoly.toPolynomial
  rw [h]

theorem signsAt_eq_of_coeffs_eq {p q : UniPoly} (h : p.coeffs = q.coeffs) (x : ℝ) :
    signsAt p x = signsAt q x := by
  unfold signsAt UniPoly.degree
  rw [overReal_eq_of_coeffs_eq h, h]

/-- The root and the signs are those of any polynomial with the same coefficients. -/
theorem Denotes.of_coeffs_eq (h : t.Denotes s x) {p : UniPoly} (hc : p.coeffs = t.poly.coeffs) :
    p.overReal.IsRoot x ∧ t.signs = signsAt p x := by
  rw [overReal_eq_of_coeffs_eq hc, signsAt_eq_of_coeffs_eq hc]
  exact ⟨h.isRoot, h.signs_eq⟩

/-- The comparison by signs is the order of the roots. -/
theorem Denotes.compareSigns_eq (ht : t.Denotes s x) (hu : u.Denotes s y)
    (hc : t.poly.coeffs = u.poly.coeffs) :
    compareSigns .positive t.signs.reverse u.signs.reverse = cmp x y := by
  obtain ⟨hy, hsigns⟩ := hu.of_coeffs_eq hc
  rw [ht.signs_eq, hsigns]
  exact compareSigns_signsAt ht.monic ht.isRoot hy

theorem Denotes.narrowed {s' : Store} (h : t.Denotes s x) (hs : s.Valid) (hn : s.Narrowed s') :
    t.Denotes s' x where
  id_lt := h.id_lt.trans_le hn.size_le
  locates := hn.locates h.id_lt h.locates
  poly_eq := by rw [hn.poly_eq hs h.id_lt, h.poly_eq]
  monic := h.monic
  signs := h.signs

/-- The encoding of the root of a new locator. -/
theorem denotes_allocated {l : Locator} {id : LocatorId} {p : UniPoly} {signs : List Sign}
    (hid : id < s.locators.size ∧ s.get id = l) (hl : l.Locates x) (hp : l.poly = p)
    (hmonic : p.toPolynomial.Monic)
    (hsigns : signs = (derivatives p).map fun q => Sign.ofReal (q.overReal.eval x)) :
    Denotes { poly := p, signs, locator := id } s x where
  id_lt := hid.1
  locates := hid.2.symm ▸ hl
  poly_eq := hid.2.symm ▸ hp
  monic := hmonic
  signs := hsigns

/-! ## Questions -/

open RefineM

theorem compareRational_exact (hs : s.Valid) (h : t.Denotes s x) (q : ℚ) :
    Exact (t.compareRational q) s fun o _ => o = cmp x q := by
  obtain ⟨l, n, he, hnar⟩ := h.locates.compareRational_eq q
  exact Exact.ask (P := fun o _ => o = _) hs h.id_lt ⟨_, l, n, he, hnar, rfl⟩

/-- Encodings of roots of one polynomial are compared by their signs, others by their locators. -/
theorem compare_exact (hs : s.Valid) (ht : t.Denotes s x) (hu : u.Denotes s y) :
    Exact (t.compare u) s fun o _ => o = cmp x y := by
  unfold Thom.compare
  split
  next hc => exact Exact.pure hs (ht.compareSigns_eq hu hc)
  next => exact Exact.compare hs ht.locates hu.locates

theorem sign_exact (hs : s.Valid) (h : t.Denotes s x) :
    Exact t.sign s fun o _ => o = Sign.ofReal x := by
  obtain ⟨l, n, he, hnar⟩ := h.locates.signOfRoot_eq
  exact Exact.ask (P := fun o _ => o = _) hs h.id_lt ⟨_, l, n, he, hnar, rfl⟩

theorem isZero_exact (hs : s.Valid) (h : t.Denotes s x) :
    Exact t.isZero s fun b _ => b = decide (x = 0) := by
  unfold isZero
  split
  next =>
    refine (sign_exact hs h).bind fun o t' _ hval ho => Exact.pure hval ?_
    rw [ho, decide_eq_decide, Sign.ofReal_eq_zero_iff]
  next hr =>
    refine Exact.pure hs (Eq.symm (decide_eq_false fun hx => hr ?_))
    rw [← UniPoly.isRoot_ratCast, Rat.cast_zero, ← hx]
    exact h.isRoot

theorem signOf_exact (hs : s.Valid) (h : t.Denotes s x) (q : UniPoly) :
    Exact (t.signOf q) s fun o _ => o = Sign.ofReal (q.overReal.eval x) :=
  Exact.sign hs h.id_lt h.locates q

/-- The same root under another variable. -/
theorem withVar_exact (hs : s.Valid) (h : t.Denotes s x) (v : Var) :
    Exact (t.withVar v) s fun u s' => u.Denotes s' x := by
  refine Exact.get_bind ?_
  have hl := h.locates.withVar v
  unfold Locator.withVar at hl
  rw [h.poly_eq] at hl
  refine (Exact.allocate hs hl).bind fun id s' _ hval hid => Exact.pure hval ?_
  refine denotes_allocated hid hl rfl h.monic ?_
  rw [map_derivatives, h.signs_eq]
  exact signsAt_eq_of_coeffs_eq rfl x

end Thom

end AlgebraicReal
