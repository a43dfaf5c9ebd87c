import AlgebraicReal.Proofs.Interval
import AlgebraicReal.Proofs.MvPoly.Variables
import AlgebraicReal.MvPoly.Enclosure

/-!
# Enclosures hold the value and converge to it

The enclosure of a polynomial on a box holds its value at every point of the box. If the boxes
shrink to a point, so do the enclosures: every end of a result is a continuous function of the ends
of the operands. For even powers this is not how they are computed, but for a range that is not
empty the cases agree with one continuous expression (`pow_even`).

The recursion over terms and powers is followed once, for any relation between ranges and a number
that the operations keep (`Range.Keeps`).
-/

open MvPolynomial Filter Topology

namespace AlgebraicReal

namespace Rational

theorem cast_smaller (a b : ℚ) : ((smaller a b : ℚ) : ℝ) = min (a : ℝ) b := by
  unfold smaller
  split
  next h => rw [min_eq_left (Rat.cast_le.2 h)]
  next h => rw [min_eq_right (Rat.cast_le.2 (le_of_not_ge h))]

theorem cast_larger (a b : ℚ) : ((larger a b : ℚ) : ℝ) = max (a : ℝ) b := by
  unfold larger
  split
  next h => rw [max_eq_right (Rat.cast_le.2 h)]
  next h => rw [max_eq_left (Rat.cast_le.2 (le_of_not_ge h))]

end Rational

namespace Range

/-- A real in a range. -/
def Has (r : Range) (x : ℝ) : Prop := (r.lo : ℝ) ≤ x ∧ x ≤ r.hi

/-! ## Results of the operations are in the resulting range -/

section

variable {r s : Range} {x y : ℝ} {k : ℕ}

theorem has_point (q : ℚ) : (point q).Has q := ⟨le_rfl, le_rfl⟩

/-- The sum of two reals is in the sum of their ranges. -/
theorem has_add (hr : r.Has x) (hs : s.Has y) : (r.add s).Has (x + y) := by
  unfold Has add
  simp only [Rat.cast_add]
  exact ⟨add_le_add hr.1 hs.1, add_le_add hr.2 hs.2⟩

/-- Multiples of a number between two others lie between their multiples. -/
theorem mul_mem_ends {a b : ℝ} (h : a ≤ x ∧ x ≤ b) (y : ℝ) :
    min (a * y) (b * y) ≤ x * y ∧ x * y ≤ max (a * y) (b * y) := by
  have hmem : x * y ∈ (fun z => z * y) '' Set.uIcc a b :=
    ⟨x, Set.Icc_subset_uIcc h, rfl⟩
  rw [Set.image_mul_const_uIcc] at hmem
  exact hmem

/-- A product lies between the products of the ends. -/
theorem has_mul (hr : r.Has x) (hs : s.Has y) : (r.mul s).Has (x * y) := by
  obtain ⟨hlo, hhi⟩ := mul_mem_ends hr y
  have hends : ∀ a : ℝ, min (a * s.lo) (a * s.hi) ≤ a * y ∧ a * y ≤ max (a * s.lo) (a * s.hi) := by
    intro a
    rw [mul_comm a, mul_comm a, mul_comm a]
    exact mul_mem_ends hs a
  unfold Has mul
  simp only [Rational.cast_smaller, Rational.cast_larger, Rat.cast_mul]
  exact ⟨(min_le_min (hends r.lo).1 (hends r.hi).1).trans hlo,
    hhi.trans (max_le_max (hends r.lo).2 (hends r.hi).2)⟩

/-- A multiple of a real is in the multiple of its range, with the ends exchanged if negative. -/
theorem has_scale (hr : r.Has x) (c : ℚ) : (r.scale c).Has (x * c) := by
  unfold Has scale
  split
  next hc =>
    have hc' : (c : ℝ) ≤ 0 := by exact_mod_cast hc.le
    simp only [Rat.cast_mul]
    exact ⟨mul_le_mul_of_nonpos_right hr.2 hc', mul_le_mul_of_nonpos_right hr.1 hc'⟩
  next hc =>
    have hc' : (0 : ℝ) ≤ c := by exact_mod_cast not_lt.1 hc
    simp only [Rat.cast_mul]
    exact ⟨mul_le_mul_of_nonneg_right hr.1 hc', mul_le_mul_of_nonneg_right hr.2 hc'⟩

/-- An odd power is monotone, so the ends are the powers of the ends. -/
theorem pow_odd (hk : k % 2 = 1) : r.pow k = ⟨r.lo ^ k, r.hi ^ k⟩ := if_pos (Or.inl hk)

/-- The ends of an even power, without cases. -/
theorem pow_even (h : (r.lo : ℝ) ≤ r.hi) (hk : ¬k % 2 = 1) (hpos : 0 < k) :
    ((r.pow k).lo : ℝ) = max 0 (max (r.lo : ℝ) (-r.hi)) ^ k ∧
      ((r.pow k).hi : ℝ) = max ((r.lo : ℝ) ^ k) ((r.hi : ℝ) ^ k) := by
  have heven : Even k := Nat.even_iff.2 (by omega)
  unfold pow
  by_cases h0 : 0 ≤ r.lo
  · have h0' : (0 : ℝ) ≤ r.lo := Rat.cast_nonneg.2 h0
    rw [if_pos (Or.inr h0)]
    simp only [Rat.cast_pow]
    rw [max_eq_left (by linarith : -(r.hi : ℝ) ≤ r.lo), max_eq_right h0',
      max_eq_right (pow_le_pow_left₀ h0' h k)]
    exact ⟨rfl, rfl⟩
  · have h0' : (r.lo : ℝ) ≤ 0 := by exact_mod_cast (not_le.1 h0).le
    rw [if_neg (not_or.2 ⟨hk, h0⟩)]
    by_cases h1 : r.hi ≤ 0
    · have h1' : (r.hi : ℝ) ≤ 0 := by exact_mod_cast h1
      rw [if_pos h1]
      simp only [Rat.cast_pow]
      rw [max_eq_right (by linarith : (r.lo : ℝ) ≤ -r.hi), max_eq_right (neg_nonneg.2 h1'),
        heven.neg_pow]
      refine ⟨rfl, (max_eq_left ?_).symm⟩
      rw [← heven.neg_pow (r.hi : ℝ), ← heven.neg_pow (r.lo : ℝ)]
      exact pow_le_pow_left₀ (neg_nonneg.2 h1') (neg_le_neg h) k
    · -- zero lies inside, and an even power is least there
      have h1' : (0 : ℝ) ≤ r.hi := by exact_mod_cast (not_le.1 h1).le
      rw [if_neg h1]
      simp only [Rational.cast_larger, Rat.cast_pow, Rat.cast_zero]
      rw [max_eq_left (max_le h0' (neg_nonpos.2 h1')), zero_pow hpos.ne']
      exact ⟨rfl, trivial⟩

/-- What the lower end of an even power is at a single number. -/
theorem even_pow_eq (heven : Even k) (x : ℝ) : max 0 (max x (-x)) ^ k = x ^ k := by
  show max 0 |x| ^ k = x ^ k
  rw [max_eq_right (abs_nonneg x), heven.pow_abs]

/-- A power of a real is in the power of its range. -/
theorem has_pow (hr : r.Has x) (hpos : 0 < k) : (r.pow k).Has (x ^ k) := by
  obtain ⟨h₁, h₂⟩ := hr
  by_cases hk : k % 2 = 1
  · have hodd : Odd k := Nat.odd_iff.2 hk
    rw [pow_odd hk]
    unfold Has
    simp only [Rat.cast_pow]
    exact ⟨hodd.strictMono_pow.monotone h₁, hodd.strictMono_pow.monotone h₂⟩
  · have heven : Even k := Nat.even_iff.2 (by omega)
    obtain ⟨hlo, hhi⟩ := pow_even (h₁.trans h₂) hk hpos
    unfold Has
    rw [hlo, hhi]
    constructor
    · rw [← even_pow_eq heven x]
      exact pow_le_pow_left₀ (le_max_left _ _)
        (max_le_max le_rfl (max_le_max h₁ (neg_le_neg h₂))) k
    · rw [← heven.pow_abs x, ← heven.pow_abs (r.lo : ℝ), ← heven.pow_abs (r.hi : ℝ), le_max_iff]
      rcases le_max_iff.1 (abs_le_max_abs_abs h₁ h₂) with h | h
      · exact Or.inl (pow_le_pow_left₀ (abs_nonneg x) h k)
      · exact Or.inr (pow_le_pow_left₀ (abs_nonneg x) h k)

end

/-! ## Shrinking ranges -/

/-- Ranges that hold a number and shrink to it. -/
structure ShrinksTo (r : ℕ → Range) (x : ℝ) : Prop where
  has : ∀ n, (r n).Has x
  lo : Tendsto (fun n => ((r n).lo : ℝ)) atTop (𝓝 x)
  hi : Tendsto (fun n => ((r n).hi : ℝ)) atTop (𝓝 x)

section

variable {r s : ℕ → Range} {x y : ℝ}

theorem shrinksTo_point (q : ℚ) : ShrinksTo (fun _ => point q) q where
  has _ := has_point q
  lo := tendsto_const_nhds
  hi := tendsto_const_nhds

/-- Ranges around a number shrink to it if their widths do. -/
theorem ShrinksTo.of_width (hhas : ∀ n, (r n).Has x)
    (hwidth : Tendsto (fun n => ((r n).hi - (r n).lo : ℝ)) atTop (𝓝 0)) : ShrinksTo r x where
  has := hhas
  lo := by
    have hbelow : Tendsto (fun n => x - ((r n).hi - (r n).lo : ℝ)) atTop (𝓝 x) := by
      simpa only [sub_zero] using tendsto_const_nhds.sub hwidth
    refine tendsto_of_tendsto_of_tendsto_of_le_of_le hbelow tendsto_const_nhds ?_
      fun n => (hhas n).1
    intro n
    have h := (hhas n).2
    show x - ((r n).hi - (r n).lo : ℝ) ≤ (r n).lo
    linarith
  hi := by
    have habove : Tendsto (fun n => x + ((r n).hi - (r n).lo : ℝ)) atTop (𝓝 x) := by
      simpa only [add_zero] using tendsto_const_nhds.add hwidth
    refine tendsto_of_tendsto_of_tendsto_of_le_of_le tendsto_const_nhds habove
      (fun n => (hhas n).2) ?_
    intro n
    have h := (hhas n).1
    show ((r n).hi : ℝ) ≤ x + ((r n).hi - (r n).lo)
    linarith

/-- The widths of shrinking ranges go to zero. -/
theorem ShrinksTo.width (h : ShrinksTo r x) :
    Tendsto (fun n => ((r n).hi - (r n).lo : ℝ)) atTop (𝓝 0) := by
  simpa only [sub_self] using h.hi.sub h.lo

/-- Sums of shrinking ranges shrink. -/
theorem ShrinksTo.add (hr : ShrinksTo r x) (hs : ShrinksTo s y) :
    ShrinksTo (fun n => (r n).add (s n)) (x + y) where
  has n := has_add (hr.has n) (hs.has n)
  lo := by
    simp only [Range.add, Rat.cast_add]
    exact hr.lo.add hs.lo
  hi := by
    simp only [Range.add, Rat.cast_add]
    exact hr.hi.add hs.hi

/-- So do products, whatever signs the ends have. -/
theorem ShrinksTo.mul (hr : ShrinksTo r x) (hs : ShrinksTo s y) :
    ShrinksTo (fun n => (r n).mul (s n)) (x * y) where
  has n := has_mul (hr.has n) (hs.has n)
  lo := by
    simp only [Range.mul, Rational.cast_smaller, Rat.cast_mul]
    have h := ((hr.lo.mul hs.lo).min (hr.lo.mul hs.hi)).min
      ((hr.hi.mul hs.lo).min (hr.hi.mul hs.hi))
    simpa only [min_self] using h
  hi := by
    simp only [Range.mul, Rational.cast_larger, Rat.cast_mul]
    have h := ((hr.lo.mul hs.lo).max (hr.lo.mul hs.hi)).max
      ((hr.hi.mul hs.lo).max (hr.hi.mul hs.hi))
    simpa only [max_self] using h

theorem ShrinksTo.scale (hr : ShrinksTo r x) (c : ℚ) :
    ShrinksTo (fun n => (r n).scale c) (x * c) := by
  have hhas := fun n => has_scale (hr.has n) c
  by_cases hc : c < 0
  · simp only [Range.scale, if_pos hc] at hhas ⊢
    refine ⟨hhas, ?_, ?_⟩
    · simp only [Rat.cast_mul]
      exact hr.hi.mul_const _
    · simp only [Rat.cast_mul]
      exact hr.lo.mul_const _
  · simp only [Range.scale, if_neg hc] at hhas ⊢
    refine ⟨hhas, ?_, ?_⟩
    · simp only [Rat.cast_mul]
      exact hr.lo.mul_const _
    · simp only [Rat.cast_mul]
      exact hr.hi.mul_const _

/-- And so do powers. -/
theorem ShrinksTo.pow (hr : ShrinksTo r x) {k : ℕ} (hpos : 0 < k) :
    ShrinksTo (fun n => (r n).pow k) (x ^ k) := by
  have hhas := fun n => has_pow (hr.has n) hpos
  by_cases hk : k % 2 = 1
  · simp only [pow_odd hk] at hhas ⊢
    refine ⟨hhas, ?_, ?_⟩
    · simp only [Rat.cast_pow]
      exact hr.lo.pow k
    · simp only [Rat.cast_pow]
      exact hr.hi.pow k
  · have hends := fun n => pow_even ((hr.has n).1.trans (hr.has n).2) hk hpos
    refine ⟨hhas, ?_, ?_⟩
    · simp only [(hends _).1]
      rw [← even_pow_eq (Nat.even_iff.2 (by omega)) x]
      exact (tendsto_const_nhds.max (hr.lo.max hr.hi.neg)).pow k
    · simp only [(hends _).2]
      have h := (hr.lo.pow k).max (hr.hi.pow k)
      rwa [max_self] at h

end

/-! ## Polynomials -/

/-- A relation between a family of ranges and a number that every operation keeps. -/
structure Keeps {ι : Type} (P : (ι → Range) → ℝ → Prop) : Prop where
  point : ∀ q : ℚ, P (fun _ => .point q) q
  add : ∀ {r s x y}, P r x → P s y → P (fun i => (r i).add (s i)) (x + y)
  mul : ∀ {r s x y}, P r x → P s y → P (fun i => (r i).mul (s i)) (x * y)
  scale : ∀ {r x}, P r x → ∀ c : ℚ, P (fun i => (r i).scale c) (x * c)
  pow : ∀ {r x}, P r x → ∀ {k : ℕ}, 0 < k → P (fun i => (r i).pow k) (x ^ k)

/-- Shrinking is kept by all that an enclosure is computed with. -/
theorem keeps_shrinksTo : Keeps ShrinksTo where
  point := shrinksTo_point
  add := ShrinksTo.add
  mul := ShrinksTo.mul
  scale := ShrinksTo.scale
  pow := ShrinksTo.pow

end Range

/-- The value of a product of powers. -/
theorem aeval_monomial_cons (σ : Var → ℝ) (v : Var) (k : ℕ) (l : List (Var × ℕ)) :
    aeval σ (monomial (exponents ((v, k) :: l)) (1 : ℚ))
      = σ v ^ k * aeval σ (monomial (exponents l) (1 : ℚ)) := by
  show aeval σ (monomial (Finsupp.single v k + exponents l) (1 : ℚ)) = _
  rw [← mul_one (1 : ℚ), ← monomial_mul, map_mul, mul_one, ← X_pow_eq_monomial, map_pow, aeval_X]

/-- A family of boxes with ranges for a variable that are related to its value. -/
def Box.Gives {ι : Type} (box : ι → Box) (P : (ι → Range) → ℝ → Prop) (v : Var) (x : ℝ) : Prop :=
  ∃ r, (∀ i, (box i).lookup v = some (r i)) ∧ P r x

section

variable {ι : Type} {P : (ι → Range) → ℝ → Prop} {box : ι → Box} {σ : Var → ℝ}

/-- What the operations keep holds of the enclosure of a monomial. -/
theorem Range.Keeps.enclosePowers (hP : Range.Keeps P) {l : List (Var × ℕ)}
    (hpos : ∀ a ∈ l, 0 < a.2) (hbox : ∀ a ∈ l, Box.Gives box P a.1 (σ a.1)) :
    ∃ R, (∀ i, (box i).enclosePowers l = some (R i)) ∧
      P R (aeval σ (monomial (exponents l) (1 : ℚ))) := by
  induction l with
  | nil =>
    refine ⟨fun _ => .point 1, fun _ => rfl, ?_⟩
    have h := hP.point 1
    rwa [Rat.cast_one, ← map_one (aeval σ : MvPolynomial Var ℚ →ₐ[ℚ] ℝ)] at h
  | cons a l ih =>
    obtain ⟨v, k⟩ := a
    rw [List.forall_mem_cons] at hpos hbox
    obtain ⟨r, hr, hv⟩ := hbox.1
    obtain ⟨R, hR, hl⟩ := ih hpos.2 hbox.2
    refine ⟨fun i => ((r i).pow k).mul (R i), fun i => ?_, ?_⟩
    · rw [Box.enclosePowers, hr, hR]
      rfl
    · rw [aeval_monomial_cons]
      exact hP.mul (hP.pow hv hpos.1) hl

/-- It holds of that of a sum of terms. -/
theorem Range.Keeps.encloseTerms (hP : Range.Keeps P) {ts : List Term}
    (hbox : ∀ t ∈ ts, ∀ v, 0 < t.monomial.degree v → Box.Gives box P v (σ v)) :
    ∃ R, (∀ i, (box i).encloseTerms (ts.map fun t => (t.coeff, t.monomial.powers)) = some (R i)) ∧
      P R (aeval σ (MvPoly.termsPolynomial ts)) := by
  induction ts with
  | nil =>
    refine ⟨fun _ => .point 0, fun _ => rfl, ?_⟩
    have h := hP.point 0
    rwa [Rat.cast_zero, ← map_zero (aeval σ : MvPolynomial Var ℚ →ₐ[ℚ] ℝ)] at h
  | cons t ts ih =>
    rw [List.forall_mem_cons] at hbox
    have hvars : ∀ a ∈ t.monomial.powers, Box.Gives box P a.1 (σ a.1) := by
      intro a ha
      exact hbox.1 a.1 (Monomial.mem_vars_iff.1 (List.mem_map_of_mem ha))
    obtain ⟨r, hr, ht⟩ := hP.enclosePowers t.monomial.positive hvars
    obtain ⟨R, hR, hts⟩ := ih hbox.2
    refine ⟨fun i => ((r i).scale t.coeff).add (R i), fun i => ?_, ?_⟩
    · rw [List.map_cons, Box.encloseTerms, hr, hR]
      rfl
    · have hterm : aeval σ t.toPolynomial
          = aeval σ (monomial (exponents t.monomial.powers) (1 : ℚ)) * ((t.coeff : ℚ) : ℝ) := by
        rw [Term.toPolynomial, ← mul_one t.coeff, ← C_mul_monomial, map_mul, aeval_C, mul_comm,
          mul_one]
        rfl
      show P _ (aeval σ (t.toPolynomial + MvPoly.termsPolynomial ts))
      rw [map_add, hterm]
      exact hP.add (hP.scale ht t.coeff) hts

/-- What the operations keep passes from the ranges of the variables to the enclosures. -/
theorem Range.Keeps.enclose (hP : Range.Keeps P) {p : MvPoly}
    (hbox : ∀ v ∈ p.vars, Box.Gives box P v (σ v)) :
    ∃ R, (∀ i, p.enclose (box i) = some (R i)) ∧ P R (aeval σ p.toPolynomial) :=
  hP.encloseTerms fun t ht v hv => hbox v (MvPoly.mem_vars_iff_exists.2 ⟨t, ht, hv⟩)

end

/-- A sequence of boxes with ranges for a variable that shrink to a value. -/
def Box.ShrinksTo (box : ℕ → Box) (v : Var) (x : ℝ) : Prop :=
  ∃ r, (∀ n, (box n).lookup v = some (r n)) ∧ Range.ShrinksTo r x

/-- On boxes that shrink to a point the enclosures shrink to the value. -/
theorem MvPoly.exists_enclose {box : ℕ → Box} {σ : Var → ℝ} {p : MvPoly}
    (h : ∀ v ∈ p.vars, Box.ShrinksTo box v (σ v)) :
    ∃ R, (∀ n, p.enclose (box n) = some (R n)) ∧ Range.ShrinksTo R (aeval σ p.toPolynomial) :=
  Range.keeps_shrinksTo.enclose h

end AlgebraicReal
