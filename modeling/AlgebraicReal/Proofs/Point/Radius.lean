import AlgebraicReal.Point.Radius
import AlgebraicReal.Proofs.Locator.Sign

/-!
# The radius around zero

The cofactor of a polynomial is what is left of it without the factors of the variable. It has the
same roots but for zero, which is none of its roots (`isRoot_cofactor_iff`). So they stay away from
zero, and halving a radius some number of times leaves them all outside (`ClearsAfter`). The search
stops after that number of halvings, whether its rounds are limited or not, and what it finds
separates zero from the other roots (`zeroFreeRadius_exact`, `Separates`).
-/

namespace AlgebraicReal

namespace UniPoly

/-! ## The cofactor -/

/-- A polynomial without the zeros at the start of its coefficients. -/
theorem coeffsPolynomial_dropWhile : ∀ cs : List ℚ, ∃ k,
    coeffsPolynomial cs = coeffsPolynomial (cs.dropWhile (· = 0)) * Polynomial.X ^ k
  | [] => ⟨0, by rw [pow_zero, mul_one]; rfl⟩
  | c :: cs => by
    by_cases hc : c = 0
    · obtain ⟨k, hk⟩ := coeffsPolynomial_dropWhile cs
      refine ⟨k + 1, ?_⟩
      rw [List.dropWhile_cons_of_pos (by simpa using hc), coeffsPolynomial_cons, hk, hc, map_zero,
        add_zero, pow_succ, mul_assoc]
    · exact ⟨0, by rw [List.dropWhile_cons_of_neg (by simpa using hc), pow_zero, mul_one]⟩

theorem coeff_zero_dropWhile : ∀ {cs : List ℚ}, coeffsPolynomial cs ≠ 0 →
    (coeffsPolynomial (cs.dropWhile (· = 0))).coeff 0 ≠ 0
  | [], h => absurd rfl h
  | c :: cs, h => by
    by_cases hc : c = 0
    · rw [List.dropWhile_cons_of_pos (by simpa using hc)]
      refine coeff_zero_dropWhile fun h0 => h ?_
      rw [coeffsPolynomial_cons, h0, hc, zero_mul, map_zero, add_zero]
    · rw [List.dropWhile_cons_of_neg (by simpa using hc), coeff_coeffsPolynomial]
      exact hc

theorem drop_length_takeWhile (cs : List ℚ) :
    cs.drop (cs.takeWhile (· = 0)).length = cs.dropWhile (· = 0) :=
  calc cs.drop (cs.takeWhile (· = 0)).length
      = (cs.takeWhile (· = 0) ++ cs.dropWhile (· = 0)).drop
          (cs.takeWhile (· = 0)).length := by rw [List.takeWhile_append_dropWhile]
    _ = cs.dropWhile (· = 0) := List.drop_left

/-- The polynomial without its factors of the variable. -/
def cofactor (h : UniPoly) : UniPoly := ofCoeffs h.var (h.coeffs.dropWhile (· = 0))

theorem exists_eq_cofactor_mul (h : UniPoly) :
    ∃ k, h.toPolynomial = h.cofactor.toPolynomial * Polynomial.X ^ k := by
  obtain ⟨k, hk⟩ := coeffsPolynomial_dropWhile h.coeffs
  refine ⟨k, ?_⟩
  rw [cofactor, toPolynomial_ofCoeffs]
  exact hk

variable {h q : UniPoly} {r : ℚ} {k : ℕ}

/-- Zero is a root exactly if the constant coefficient is zero. -/
theorem isRoot_zero_iff : h.overReal.IsRoot 0 ↔ h.constantCoeff = 0 := by
  rw [Polynomial.IsRoot.def, ← Polynomial.coeff_zero_eq_eval_zero, overReal, Polynomial.coeff_map,
    constantCoeff_eq]
  exact map_eq_zero_iff _ (algebraMap ℚ ℝ).injective

theorem constantCoeff_cofactor (hz : ¬h.isZero = true) : h.cofactor.constantCoeff ≠ 0 := by
  rw [constantCoeff_eq, cofactor, toPolynomial_ofCoeffs]
  exact coeff_zero_dropWhile (toPolynomial_ne_zero_iff.2 hz)

theorem cofactor_not_isZero (hz : ¬h.isZero = true) : ¬h.cofactor.isZero = true := by
  intro h0
  apply constantCoeff_cofactor hz
  rw [constantCoeff, isZero_iff.1 h0]
  rfl

/-- The cofactor has the same roots but zero. -/
theorem isRoot_cofactor_iff (hz : ¬h.isZero = true) {y : ℝ} :
    h.cofactor.overReal.IsRoot y ↔ h.overReal.IsRoot y ∧ y ≠ 0 := by
  obtain ⟨k, hk⟩ := exists_eq_cofactor_mul h
  have hmul : h.overReal = h.cofactor.overReal * Polynomial.X ^ k := by
    unfold overReal
    rw [hk, Polynomial.map_mul, Polynomial.map_pow, Polynomial.map_X]
  rw [hmul, Polynomial.IsRoot.def, Polynomial.IsRoot.def, Polynomial.eval_mul, Polynomial.eval_pow,
    Polynomial.eval_X, mul_eq_zero]
  constructor
  · intro hy
    refine ⟨.inl hy, ?_⟩
    rintro rfl
    exact constantCoeff_cofactor hz (isRoot_zero_iff.1 hy)
  · rintro ⟨hy, hne⟩
    exact hy.resolve_right (pow_ne_zero k hne)

/-! ## Halving -/

/-- No root lies from `-r` to `r`, the ends included. -/
def Clears (q : UniPoly) (r : ℚ) : Prop := ∀ y, q.overReal.IsRoot y → ¬|y| ≤ r

/-- How often a radius is halved until no root lies inside. -/
inductive ClearsAfter (q : UniPoly) : ℚ → ℕ → Prop
  | now {r : ℚ} (h : q.Clears r) : ClearsAfter q r 0
  | later {r : ℚ} {k : ℕ} (h : ¬q.Clears r) (hk : ClearsAfter q (r / 2) k) :
      ClearsAfter q r (k + 1)

theorem ClearsAfter.clears (h : q.ClearsAfter r k) : q.Clears (r / 2 ^ k) := by
  induction h with
  | now h => rwa [pow_zero, div_one]
  | later _ _ ih => rwa [pow_succ', ← div_div]

theorem ClearsAfter.not_clears (h : q.ClearsAfter r k) : ∀ j < k, ¬q.Clears (r / 2 ^ j) := by
  induction h with
  | now _ => exact nofun
  | later h _ ih =>
    intro j hj
    cases j with
    | zero => rwa [pow_zero, div_one]
    | succ j =>
      rw [pow_succ', ← div_div]
      exact ih j (Nat.lt_of_succ_lt_succ hj)

theorem exists_clearsAfter_of_clears : ∀ {n : ℕ} {r : ℚ}, q.Clears (r / 2 ^ n) →
    ∃ k, q.ClearsAfter r k
  | n, r, h => by
    by_cases hr : q.Clears r
    · exact ⟨0, .now hr⟩
    · cases n with
      | zero =>
        rw [pow_zero, div_one] at h
        exact absurd h hr
      | succ n =>
        rw [pow_succ', ← div_div] at h
        obtain ⟨k, hk⟩ := exists_clearsAfter_of_clears h
        exact ⟨k + 1, .later hr hk⟩

/-- The count between the two ends, neither of which escapes it. -/
theorem exists_closed? (hq : ¬q.isZero = true) (hr : 0 < r) :
    ∃ i, Interval.closed? (-r) r = some i ∧ (q.countRoots i = 0 ↔ q.Clears r) := by
  have hle : -r ≤ r := by linarith
  refine ⟨⟨.weak (-r), .weak r, decide_eq_true hle⟩, dif_pos _, ?_⟩
  rw [countRoots_eq_ncard hq, Set.ncard_eq_zero ((finite_realRoots hq).inter_of_left _),
    Set.eq_empty_iff_forall_notMem]
  have hmem : ∀ y : ℝ,
      y ∈ (⟨.weak (-r), .weak r, decide_eq_true hle⟩ : Interval).reals ↔ |y| ≤ r := by
    intro y
    show ((-r : ℚ) : ℝ) ≤ y ∧ y ≤ (r : ℝ) ↔ _
    rw [Rat.cast_neg, abs_le]
  constructor
  · intro h y hy hyr
    exact h y ⟨hy, (hmem y).2 hyr⟩
  · intro h y hy
    exact h y hy.1 ((hmem y).1 hy.2)

/-- If zero is no root, the roots stay away from it, so that halving leaves them outside. -/
theorem exists_clearsAfter (h0 : ¬q.overReal.IsRoot 0) (r : ℚ) : ∃ k, q.ClearsAfter r k := by
  obtain ⟨δ, hpos, hδ⟩ := exists_no_root_near h0
  obtain ⟨n, hn⟩ := exists_le_mul_two_pow r hpos
  refine exists_clearsAfter_of_clears (n := n + 1) fun y hy hle => hδ y ?_ hy
  -- one halving more than needed, since the ends belong to the interval
  have hlt : (r : ℝ) < δ * 2 ^ (n + 1) := by
    rw [pow_succ]
    have : 0 < δ * 2 ^ n := by positivity
    linarith
  rw [sub_zero]
  refine hle.trans_lt ?_
  push_cast
  rwa [div_lt_iff₀ (by positivity)]

/-- What separates zero from the other roots: nothing if zero is no root, else a radius. -/
def Separates (h : UniPoly) : Option ℚ → Prop
  | none => ¬h.overReal.IsRoot 0
  | some e => 0 < e ∧ ∀ y, h.overReal.IsRoot y → |y| < e → y = 0

end UniPoly

namespace AlgebraicPoint

open UniPoly

variable {h q : UniPoly} {r : ℚ} {k : ℕ}

/-- With a limit, the rounds have to be more than the halvings. -/
theorem shrinkRadius_eq (hq : ¬q.isZero = true) (hr : 0 < r) (hk : q.ClearsAfter r k) (rounds : ℕ) :
    shrinkRadius q.sturmChain rounds r
      = if rounds < k + 1 then .error .exhausted else .ok (r / 2 ^ k) := by
  induction hk generalizing rounds with
  | @now r hclears =>
    cases rounds with
    | zero => rfl
    | succ rounds =>
      obtain ⟨i, hi, hcount⟩ := exists_closed? hq hr
      rw [countRoots] at hcount
      rw [shrinkRadius, hi, if_neg (by omega), pow_zero, div_one]
      exact if_pos (hcount.2 hclears)
  | @later r k hclears _ ih =>
    cases rounds with
    | zero => exact (if_pos (Nat.succ_pos _)).symm
    | succ rounds =>
      obtain ⟨i, hi, hcount⟩ := exists_closed? hq hr
      rw [countRoots] at hcount
      rw [shrinkRadius, hi, pow_succ', ← div_div]
      dsimp only
      rw [if_neg (hcount.not.2 hclears), ih (half_pos hr)]
      simp only [Nat.succ_lt_succ_iff]

/-- Without a limit, the radius is the same. -/
theorem halveRadius_eq (hq : ¬q.isZero = true) (hr : 0 < r) (hk : q.ClearsAfter r k) :
    halveRadius q r = some (r / 2 ^ k) := by
  induction hk with
  | @now r hclears =>
    obtain ⟨i, hi, hcount⟩ := exists_closed? hq hr
    rw [halveRadius, hi, Option.bind_eq_bind, Option.bind_some, hcount.2 hclears,
      if_neg (lt_irrefl 0), pow_zero, div_one]
  | @later r k hclears _ ih =>
    obtain ⟨i, hi, hcount⟩ := exists_closed? hq hr
    rw [halveRadius, hi, Option.bind_eq_bind, Option.bind_some,
      if_pos (Nat.pos_of_ne_zero (hcount.not.2 hclears)), ih (half_pos hr), pow_succ', ← div_div]

/-- If zero is a root, the radius is a power of one half, the first to clear the cofactor. -/
theorem exists_radius_of_isRoot (hz : ¬h.isZero = true) (h0 : h.constantCoeff = 0) :
    ∃ k, h.cofactor.ClearsAfter 1 k ∧ searchRadius? h = some (some (1 / 2 ^ k)) ∧
      ∀ rounds, zeroFreeRadius rounds h
        = if rounds < k + 1 then .error .exhausted else .ok (some (1 / 2 ^ k)) := by
  have hq := cofactor_not_isZero hz
  obtain ⟨k, hk⟩ := exists_clearsAfter (fun hroot => ((isRoot_cofactor_iff hz).1 hroot).2 rfl) 1
  refine ⟨k, hk, ?_, fun rounds => ?_⟩
  · have hhalve := halveRadius_eq hq one_pos hk
    unfold cofactor at hhalve
    unfold searchRadius?
    rw [if_neg (not_not.2 h0)]
    dsimp only
    rw [drop_length_takeWhile, hhalve]
    rfl
  · have hshrink := shrinkRadius_eq hq one_pos hk rounds
    unfold cofactor at hshrink
    unfold zeroFreeRadius
    rw [if_neg (not_not.2 h0)]
    dsimp only
    rw [hshrink]
    split <;> rfl

/-- If zero is no root, there is nothing to search. -/
theorem radius_of_not_isRoot (h0 : h.constantCoeff ≠ 0) :
    searchRadius? h = some none ∧ ∀ rounds, zeroFreeRadius rounds h = .ok none :=
  ⟨if_pos h0, fun _ => if_pos h0⟩

/-- The radius that is found with enough rounds separates zero from the other roots. -/
theorem exists_zeroFreeRadius (hz : ¬h.isZero = true) :
    ∃ r N, h.Separates r ∧ ∀ rounds, zeroFreeRadius rounds h
      = if rounds < N then .error .exhausted else .ok r := by
  by_cases h0 : h.constantCoeff = 0
  · obtain ⟨k, hk, -, hrun⟩ := exists_radius_of_isRoot hz h0
    refine ⟨some (1 / 2 ^ k), k + 1, ?_, hrun⟩
    refine ⟨by positivity, fun y hy hlt => ?_⟩
    by_contra hne
    exact hk.clears y ((isRoot_cofactor_iff hz).2 ⟨hy, hne⟩) hlt.le
  · refine ⟨none, 0, isRoot_zero_iff.not.2 h0, fun rounds => ?_⟩
    rw [if_neg (Nat.not_lt_zero rounds)]
    exact (radius_of_not_isRoot h0).2 rounds

/-- The search for a radius ends, for every polynomial that is not zero, and a limit on the rounds
cuts it off or changes nothing. There is no radius exactly if zero is no root. Otherwise zero is the
only root from one end to the other, both included, however often it is one; and the radius is the
first of one, one half and so on of which this is true. -/
theorem zeroFreeRadius_exact (hz : ¬h.isZero = true) :
    ∃ r, searchRadius? h = some r ∧
      (∃ N, ∀ rounds, zeroFreeRadius rounds h
        = if rounds < N then .error .exhausted else .ok r) ∧
      (r = none ↔ h.eval 0 ≠ 0) ∧
      ∀ e, r = some e → 0 < e ∧ h.realRoots ∩ Set.Icc (-(e : ℝ)) e = {0} ∧
        ∃ k, e = 1 / 2 ^ k ∧ ∀ j < k, ∃ x ∈ h.realRoots, x ≠ 0 ∧ |x| ≤ 1 / 2 ^ j := by
  have heval : h.eval 0 = h.constantCoeff := by
    rw [← eval_toPolynomial, constantCoeff_eq, Polynomial.coeff_zero_eq_eval_zero]
  rw [heval]
  -- only a zero constant coefficient makes the search halve at all
  by_cases h0 : h.constantCoeff = 0
  · obtain ⟨k, hk, hsearch, hrun⟩ := exists_radius_of_isRoot hz h0
    refine ⟨_, hsearch, ⟨k + 1, hrun⟩, iff_of_false nofun (not_not.2 h0), ?_⟩
    intro e he
    cases he
    refine ⟨by positivity, ?_, k, rfl, fun j hj => ?_⟩
    · refine Set.eq_singleton_iff_unique_mem.2 ⟨⟨isRoot_zero_iff.2 h0, ?_⟩, fun x hx => ?_⟩
      · rw [Set.mem_Icc, ← abs_le, abs_zero]
        positivity
      · by_contra hne
        exact hk.clears x ((isRoot_cofactor_iff hz).2 ⟨hx.1, hne⟩) (abs_le.2 hx.2)
    · have hfirst := hk.not_clears j hj
      unfold Clears at hfirst
      push Not at hfirst
      obtain ⟨x, hx, hle⟩ := hfirst
      obtain ⟨hroot, hne⟩ := (isRoot_cofactor_iff hz).1 hx
      push_cast at hle
      exact ⟨x, hroot, hne, hle⟩
  · obtain ⟨hsearch, hrun⟩ := radius_of_not_isRoot h0
    refine ⟨none, hsearch, ⟨0, fun rounds => ?_⟩, iff_of_true rfl h0, nofun⟩
    rw [if_neg (Nat.not_lt_zero rounds)]
    exact hrun rounds

/-- `4x⁴ - x²` has zero as a double root and two roots exactly at the ends of the second interval
that is tried. -/
theorem zeroFreeRadius_exact_half :
    let h := ofCoeffs 0 [0, 0, -1, 0, 4]
    ¬h.isZero = true ∧ h.isRoot (1 / 2) = true ∧ searchRadius? h = some (some (1 / 4)) ∧
      zeroFreeRadius 2 h = .error .exhausted ∧ zeroFreeRadius 3 h = .ok (some (1 / 4)) ∧
      h.realRoots ∩ Set.Icc (-((1 / 4 : ℚ) : ℝ)) (1 / 4 : ℚ) = {0} := by
  intro h
  have hz : ¬h.isZero = true := by decide +kernel
  have hhalf : h.isRoot (1 / 2) = true := by decide +kernel
  have htwo : zeroFreeRadius 2 h = .error .exhausted := by decide +kernel
  have hthree : zeroFreeRadius 3 h = .ok (some (1 / 4)) := by decide +kernel
  obtain ⟨r, hsearch, ⟨N, hrun⟩, -, hspec⟩ := zeroFreeRadius_exact hz
  have hr : r = some (1 / 4) := by
    have hfound := hrun 3
    rw [hthree] at hfound
    split at hfound
    next => cases hfound
    next => exact (Except.ok.inj hfound).symm
  rw [hr] at hsearch
  exact ⟨hz, hhalf, hsearch, htwo, hthree, (hspec _ hr).2.1⟩

end AlgebraicPoint

end AlgebraicReal
