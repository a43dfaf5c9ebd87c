import AlgebraicReal.Proofs.MvPoly.Enclosure
import AlgebraicReal.Proofs.MvPoly.Evaluation

/-!
# Enclosures grow with the box

On ranges that are not empty the operations are exact: the ends of a result are attained
(`Range.Spans`). So a result on smaller ranges lies in the result on larger ones, and the same holds
of an enclosure, which is built from such operations. It need not be exact itself, because a variable
that occurs twice may take two values; at a point it is.
-/

open MvPolynomial Filter Topology

namespace AlgebraicReal

namespace Range

/-- The reals in a range. -/
def reals (r : Range) : Set ℝ := {x | r.Has x}

/-- The ends are the least and the greatest number of a set. -/
structure Spans (r : Range) (S : Set ℝ) : Prop where
  least : IsLeast S r.lo
  greatest : IsGreatest S r.hi

/-- A range that is not empty and lies in another one. -/
structure Inside (r s : Range) : Prop where
  lo : s.lo ≤ r.lo
  ordered : r.lo ≤ r.hi
  hi : r.hi ≤ s.hi

variable {r s : Range} {S T : Set ℝ}

theorem inside_self (h : r.lo ≤ r.hi) : r.Inside r := ⟨le_rfl, h, le_rfl⟩

theorem Inside.ordered_outer (h : r.Inside s) : s.lo ≤ s.hi := h.lo.trans (h.ordered.trans h.hi)

/-- A range inside another one has fewer elements. -/
theorem Inside.reals_subset (h : r.Inside s) : r.reals ⊆ s.reals := by
  intro x hx
  exact ⟨(Rat.cast_le.2 h.lo).trans hx.1, hx.2.trans (Rat.cast_le.2 h.hi)⟩

theorem lo_mem_reals (h : r.lo ≤ r.hi) : (r.lo : ℝ) ∈ r.reals := ⟨le_rfl, Rat.cast_le.2 h⟩

theorem hi_mem_reals (h : r.lo ≤ r.hi) : (r.hi : ℝ) ∈ r.reals := ⟨Rat.cast_le.2 h, le_rfl⟩

/-! ## The operations are exact -/

/-- A range is the smallest one around a set if its ends are elements. -/
theorem spans_of_attained (hlo : (r.lo : ℝ) ∈ S) (hhi : (r.hi : ℝ) ∈ S) (h : S ⊆ r.reals) :
    r.Spans S where
  least := ⟨hlo, fun _ hx => (h hx).1⟩
  greatest := ⟨hhi, fun _ hx => (h hx).2⟩

/-- The ends of a sum are sums of ends. -/
theorem spans_add (hr : r.lo ≤ r.hi) (hs : s.lo ≤ s.hi) :
    (r.add s).Spans (Set.image2 (· + ·) r.reals s.reals) := by
  apply spans_of_attained
  · exact ⟨_, lo_mem_reals hr, _, lo_mem_reals hs, (Rat.cast_add _ _).symm⟩
  · exact ⟨_, hi_mem_reals hr, _, hi_mem_reals hs, (Rat.cast_add _ _).symm⟩
  · intro z hz
    obtain ⟨x, hx, y, hy, rfl⟩ := hz
    exact has_add hx hy

/-- The ends of a product are among the four products of ends. -/
theorem spans_mul (hr : r.lo ≤ r.hi) (hs : s.lo ≤ s.hi) :
    (r.mul s).Spans (Set.image2 (· * ·) r.reals s.reals) := by
  have hll := Set.mem_image2_of_mem (f := (· * ·)) (lo_mem_reals hr) (lo_mem_reals hs)
  have hlh := Set.mem_image2_of_mem (f := (· * ·)) (lo_mem_reals hr) (hi_mem_reals hs)
  have hhl := Set.mem_image2_of_mem (f := (· * ·)) (hi_mem_reals hr) (lo_mem_reals hs)
  have hhh := Set.mem_image2_of_mem (f := (· * ·)) (hi_mem_reals hr) (hi_mem_reals hs)
  apply spans_of_attained
  · simp only [Range.mul, Rational.cast_smaller, Rat.cast_mul]
    exact min_rec' (· ∈ _) (min_rec' (· ∈ _) hll hlh) (min_rec' (· ∈ _) hhl hhh)
  · simp only [Range.mul, Rational.cast_larger, Rat.cast_mul]
    exact max_rec' (· ∈ _) (max_rec' (· ∈ _) hll hlh) (max_rec' (· ∈ _) hhl hhh)
  · intro z hz
    obtain ⟨x, hx, y, hy, rfl⟩ := hz
    exact has_mul hx hy

/-- A negative factor exchanges the ends. -/
theorem spans_scale (hr : r.lo ≤ r.hi) (c : ℚ) :
    (r.scale c).Spans ((· * (c : ℝ)) '' r.reals) := by
  have hlo := Set.mem_image_of_mem (· * (c : ℝ)) (lo_mem_reals hr)
  have hhi := Set.mem_image_of_mem (· * (c : ℝ)) (hi_mem_reals hr)
  have hends : ((r.scale c).lo : ℝ) ∈ (· * (c : ℝ)) '' r.reals ∧
      ((r.scale c).hi : ℝ) ∈ (· * (c : ℝ)) '' r.reals := by
    unfold scale
    split
    · simp only [Rat.cast_mul]
      exact ⟨hhi, hlo⟩
    · simp only [Rat.cast_mul]
      exact ⟨hlo, hhi⟩
  apply spans_of_attained hends.1 hends.2
  intro z hz
  obtain ⟨x, hx, rfl⟩ := hz
  exact has_scale hx c

/-- The least even power is that of zero if the range straddles it. -/
theorem spans_pow (hr : r.lo ≤ r.hi) {k : ℕ} (hpos : 0 < k) :
    (r.pow k).Spans ((· ^ k) '' r.reals) := by
  have hlo := Set.mem_image_of_mem (· ^ k) (lo_mem_reals hr)
  have hhi := Set.mem_image_of_mem (· ^ k) (hi_mem_reals hr)
  -- both ends are attained, by an end of the range or at zero
  have hends : ((r.pow k).lo : ℝ) ∈ (· ^ k) '' r.reals ∧
      ((r.pow k).hi : ℝ) ∈ (· ^ k) '' r.reals := by
    unfold pow
    split
    · simp only [Rat.cast_pow]
      exact ⟨hlo, hhi⟩
    next hneg =>
      split
      · simp only [Rat.cast_pow]
        exact ⟨hhi, hlo⟩
      next hstraddle =>
        have hzero : (0 : ℝ) ∈ r.reals := by
          constructor
          · exact_mod_cast (not_le.1 fun h => hneg (Or.inr h)).le
          · exact_mod_cast (not_le.1 hstraddle).le
        simp only [Rational.cast_larger, Rat.cast_pow, Rat.cast_zero]
        exact ⟨⟨0, hzero, zero_pow hpos.ne'⟩, max_rec' (· ∈ _) hlo hhi⟩
  apply spans_of_attained hends.1 hends.2
  intro z hz
  obtain ⟨x, hx, rfl⟩ := hz
  exact has_pow hx hpos

/-! ## Smaller ranges, smaller results -/

/-- Smallest ranges grow with the set. -/
theorem Spans.inside (hr : r.Spans S) (hs : s.Spans T) (h : S ⊆ T) : r.Inside s where
  lo := Rat.cast_le.1 (hs.least.2 (h hr.least.1))
  ordered := Rat.cast_le.1 (hr.least.2 hr.greatest.1)
  hi := Rat.cast_le.1 (hs.greatest.2 (h hr.greatest.1))

/-- Of two families, one range inside the other. -/
theorem keeps_inside : Keeps fun r _ => (r false).Inside (r true) where
  point _ := inside_self le_rfl
  add hr hs := (spans_add hr.ordered hs.ordered).inside
    (spans_add hr.ordered_outer hs.ordered_outer)
    (Set.image2_subset hr.reals_subset hs.reals_subset)
  mul hr hs := (spans_mul hr.ordered hs.ordered).inside
    (spans_mul hr.ordered_outer hs.ordered_outer)
    (Set.image2_subset hr.reals_subset hs.reals_subset)
  scale hr c := (spans_scale hr.ordered c).inside (spans_scale hr.ordered_outer c)
    (Set.image_mono hr.reals_subset)
  pow hr _ hpos := (spans_pow hr.ordered hpos).inside (spans_pow hr.ordered_outer hpos)
    (Set.image_mono hr.reals_subset)

theorem keeps_has : Keeps fun (r : Unit → Range) x => (r ()).Has x where
  point := has_point
  add := has_add
  mul := has_mul
  scale := has_scale
  pow hr _ hpos := has_pow hr hpos

/-- Points stay points. -/
theorem keeps_point : Keeps fun (r : Unit → Range) x => ∃ q : ℚ, (r = fun _ => .point q) ∧ x = q where
  point q := ⟨q, rfl, rfl⟩
  add hr hs := by
    obtain ⟨a, rfl, rfl⟩ := hr
    obtain ⟨b, rfl, rfl⟩ := hs
    exact ⟨a + b, funext fun _ => point_add_point a b, (Rat.cast_add a b).symm⟩
  mul hr hs := by
    obtain ⟨a, rfl, rfl⟩ := hr
    obtain ⟨b, rfl, rfl⟩ := hs
    exact ⟨a * b, funext fun _ => point_mul_point a b, (Rat.cast_mul a b).symm⟩
  scale hr c := by
    obtain ⟨a, rfl, rfl⟩ := hr
    exact ⟨a * c, funext fun _ => point_scale a c, (Rat.cast_mul a c).symm⟩
  pow hr k _ := by
    obtain ⟨a, rfl, rfl⟩ := hr
    exact ⟨a ^ k, funext fun _ => point_pow a k, (Rat.cast_pow a k).symm⟩

end Range

/-! ## Enclosures -/

namespace Box

variable (box : Box)

/-- There is no enclosure exactly if some variable has no range. -/
theorem enclosePowers_eq_none_iff (l : List (Var × ℕ)) :
    box.enclosePowers l = none ↔ ∃ a ∈ l, box.lookup a.1 = none := by
  induction l with
  | nil => simp [enclosePowers]
  | cons a l ih =>
    rw [List.exists_mem_cons_iff, ← ih, enclosePowers]
    cases box.lookup a.1 <;> cases box.enclosePowers l <;> simp

theorem encloseTerms_eq_none_iff (ts : List Term) :
    box.encloseTerms (ts.map fun t => (t.coeff, t.monomial.powers)) = none ↔
      ∃ t ∈ ts, ∃ a ∈ t.monomial.powers, box.lookup a.1 = none := by
  induction ts with
  | nil => simp [encloseTerms]
  | cons t ts ih =>
    rw [List.exists_mem_cons_iff, ← ih, ← enclosePowers_eq_none_iff, List.map_cons, encloseTerms]
    cases box.enclosePowers t.monomial.powers <;>
      cases box.encloseTerms (ts.map fun t => (t.coeff, t.monomial.powers)) <;> simp

/-- An enclosure is missing if and only if some variable has no range. -/
theorem enclose_eq_none_iff (p : MvPoly) :
    p.enclose box = none ↔ ∃ v ∈ p.vars, box.lookup v = none := by
  rw [MvPoly.enclose, MvPoly.summands, encloseTerms_eq_none_iff]
  constructor
  · intro h
    obtain ⟨t, ht, a, ha, hnone⟩ := h
    have hdegree := Monomial.mem_vars_iff.1 (List.mem_map_of_mem (f := Prod.fst) ha)
    exact ⟨a.1, MvPoly.mem_vars_iff_exists.2 ⟨t, ht, hdegree⟩, hnone⟩
  · intro h
    obtain ⟨v, hv, hnone⟩ := h
    obtain ⟨t, ht, hdegree⟩ := MvPoly.mem_vars_iff_exists.1 hv
    obtain ⟨a, ha, rfl⟩ := List.mem_map.1 (Monomial.mem_vars_iff.2 hdegree)
    exact ⟨t, ht, a, ha, hnone⟩

end Box

namespace MvPoly

variable {p : MvPoly} {box inner outer : Box}

/-- What is enclosed lies in the enclosure. -/
theorem has_enclose {σ : Var → ℝ}
    (h : ∀ v ∈ p.vars, ∃ r, box.lookup v = some r ∧ r.Has (σ v)) :
    ∃ R, p.enclose box = some R ∧ R.Has (aeval σ p.toPolynomial) := by
  have hgives : ∀ v ∈ p.vars, Box.Gives (fun _ => box) (fun r x => (r ()).Has x) v (σ v) := by
    intro v hv
    obtain ⟨r, hr, hhas⟩ := h v hv
    exact ⟨fun _ => r, fun _ => hr, hhas⟩
  obtain ⟨R, hR, hhas⟩ := Range.keeps_has.enclose hgives
  exact ⟨R (), hR (), hhas⟩

/-- By induction on the terms, with the lemma of each operation. -/
theorem enclose_inside (h : ∀ v ∈ p.vars, ∃ r s, inner.lookup v = some r ∧
      outer.lookup v = some s ∧ r.Inside s) :
    ∃ R S, p.enclose inner = some R ∧ p.enclose outer = some S ∧ R.Inside S := by
  have hgives : ∀ v ∈ p.vars, Box.Gives (fun b => if b then outer else inner)
      (fun r _ => (r false).Inside (r true)) v ((0 : Var → ℝ) v) := by
    intro v hv
    obtain ⟨r, s, hr, hs, hinside⟩ := h v hv
    refine ⟨fun b => if b then s else r, fun b => ?_, hinside⟩
    cases b with
    | false => exact hr
    | true => exact hs
  obtain ⟨R, hR, hinside⟩ := Range.keeps_inside.enclose hgives
  exact ⟨R false, R true, hR false, hR true, hinside⟩

/-- At a point the enclosure is the value. -/
theorem enclose_point {x : Var → ℚ} (h : ∀ v ∈ p.vars, box.lookup v = some (.point (x v))) :
    p.enclose box = some (.point (p.value x)) := by
  have hgives : ∀ v ∈ p.vars, Box.Gives (fun _ => box)
      (fun (r : Unit → Range) y => ∃ q : ℚ, (r = fun _ => .point q) ∧ y = q) v (x v : ℝ) := by
    intro v hv
    exact ⟨fun _ => .point (x v), fun _ => h v hv, x v, rfl, rfl⟩
  obtain ⟨R, hR, q, rfl, hq⟩ := Range.keeps_point.enclose hgives
  have hvalue : aeval (fun v => (x v : ℝ)) p.toPolynomial = (p.value x : ℝ) := by
    rw [value_eq_aeval]
    exact aeval_algebraMap_apply ℝ x p.toPolynomial
  rw [← Rat.cast_injective (hq.symm.trans hvalue)]
  exact hR ()

end MvPoly

end AlgebraicReal
