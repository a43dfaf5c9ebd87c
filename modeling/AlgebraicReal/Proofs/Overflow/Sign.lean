import AlgebraicReal.Proofs.Isolator.Conjugates
import AlgebraicReal.Proofs.Isolator.Safety
import AlgebraicReal.Proofs.Overflow.Checked
import AlgebraicReal.Proofs.Point.Sign

/-!
# Signs in machine words

A sign that is found in machine words is the sign of the value, as long as no resultant on the way
overflows (`Isolator.signUnder_exact`). A resultant that does overflow may lose its terms, and the
annihilator that comes of it claims too large a radius around zero without a root: then a value that
is not zero is taken for zero (`Isolator.signUnder_ne_of_wrap`).
-/

open MvPolynomial

namespace AlgebraicReal

open RefineM

/-- A search does not overflow. -/
theorem Error.not_ofSearch_overflow : ¬Error.OfSearch .overflow := fun h => by
  rcases h with h | h | h <;> cases h

/-! ## At a point -/

namespace AlgebraicPoint

section

variable {P : Type} [Arithmetic P] {s t : Store} {point : AlgebraicPoint} {g : P}

/-- The coordinates are eliminated one after the other. -/
theorem eliminate_cons {c : Var × LocatorId} {cs : AlgebraicPoint} {p r : P}
    (h : Arithmetic.eliminate p (definingPoly s c) = .ok r) :
    eliminate s (c :: cs) p = eliminate s cs r := by
  rw [eliminate, h]
  rfl

/-- The tally is no part of what is eliminated. -/
theorem eliminate_congr (h : t.locators = s.locators) : ∀ (point : AlgebraicPoint) (p : P),
    eliminate t point p = eliminate s point p
  | [], _ => rfl
  | c :: cs, p => by
    have hpoly : definingPoly t c = definingPoly s c := by
      rw [definingPoly, definingPoly, Store.get, Store.get, h]
    rw [eliminate, eliminate, hpoly]
    exact congrArg _ (funext fun r => eliminate_congr h cs r)

/-- The annihilator is made of polynomials, which no tally changes. -/
theorem annihilator_congr (h : t.locators = s.locators) :
    point.annihilator t g = point.annihilator s g :=
  eliminate_congr h _ _

/-- Nor does it change the radius. -/
theorem radius_congr (h : t.locators = s.locators) (rounds : ℕ) :
    point.radius rounds t g = point.radius rounds s g := by
  rw [radius, radius, annihilator_congr h]

/-- A sign test by enclosures counts, finds a radius, and then looks at enclosures. -/
theorem exec_signByEnclosure (point : AlgebraicPoint) (g : P) (s : Store) (rounds : ℕ) :
    ∃ tally, exec (point.signByEnclosure g) rounds s = match point.radius rounds s g with
      | .ok r => exec (point.signLoop g r rounds) rounds { s with tally }
      | .error e => (.error e, { s with tally }) := by
  set tally : Tally := { s.tally with eliminations := s.tally.eliminations + point.length }
  refine ⟨tally, ?_⟩
  have hradius : point.radius rounds { s with tally } g = point.radius rounds s g :=
    radius_congr (s := s) (t := { s with tally }) rfl rounds
  unfold signByEnclosure
  rw [exec_bind, exec_count]
  simp only
  rw [exec_read_bind, exec_get_bind, hradius, exec_bind, exec_ofExcept]
  cases point.radius rounds s g <;> rfl

/-- The first enclosure can show the sign. -/
theorem exec_signByEnclosure_of_readSign {rounds : ℕ} {r : Option Rat} {R : Range} {o : Sign}
    (hradius : point.radius (rounds + 1) s g = .ok r)
    (hR : Arithmetic.enclose g (point.box s) = some R) (ho : readSign r R = some o) :
    ∃ tally, exec (point.signByEnclosure g) (rounds + 1) s = (.ok o, { s with tally }) := by
  obtain ⟨tally, hexec⟩ := exec_signByEnclosure point g s (rounds + 1)
  have hbox : point.box { s with tally } = point.box s := rfl
  refine ⟨tally, ?_⟩
  rw [hexec, hradius]
  simp only
  rw [signLoop, exec_get_bind, hbox, hR]
  simp only
  rw [ho]
  rfl

/-- The test is refused nothing if the annihilator is not. -/
theorem noOverflow_signByEnclosure (h : point.annihilator s g ≠ .error .overflow) :
    NoOverflow (point.signByEnclosure g) s := by
  have hnot := Error.not_ofSearch_overflow
  intro rounds he
  obtain ⟨tally, hexec⟩ := exec_signByEnclosure point g s rounds
  rw [hexec] at he
  cases hr : point.radius rounds s g with
  | error e =>
    rw [hr] at he
    cases he
    rcases radius_error_cases hr with hsearch | hannihilator
    · exact hnot hsearch
    · exact h hannihilator
  | ok r =>
    rw [hr] at he
    exact hnot (reports_signLoop g r rounds rounds _ _ he)

/-- Neither is a sign test at a point with more variables. -/
theorem noOverflow_sign (h : (point.involved g).annihilator s g ≠ .error .overflow) :
    NoOverflow (point.sign g) s := by
  unfold sign
  split
  next => exact fun _ he => nomatch he
  next =>
    intro rounds he
    rw [exec_bind, exec_count] at he
    simp only at he
    set t : Store := { s with tally := { s.tally with zeroTests := s.tally.zeroTests + 1 } }
    have henclosure : NoOverflow ((point.involved g).signByEnclosure g) t :=
      noOverflow_signByEnclosure (by rwa [annihilator_congr (s := s) (t := t) rfl])
    split at he
    next v id heq =>
      rw [heq] at henclosure
      split at he
      next u _ =>
        have hreports : Reports Error.OfSearch (do RefineM.ask id (·.sign (← read) u)) :=
          .read_bind fun n => .ask fun l e hl => Locator.sign_error hl
        exact Error.not_ofSearch_overflow (hreports rounds t _ he)
      next => exact henclosure rounds he
    next => exact henclosure rounds he

end

/-- Where no resultant overflows, the sign is decided in both arithmetics or in neither. -/
theorem decides_iff {P Q : Type} [Arithmetic P] [Arithmetic Q] {R : P → Q → Prop}
    (hR : Arithmetic.Simulates R) {p : P} {q : Q} (h : R p q) {s : Store} {point : AlgebraicPoint}
    (hno : point.annihilator s q ≠ .error .overflow) {y : ℝ} :
    point.Decides s p y ↔ point.Decides s q y := by
  have hscratch : point.scratchVar p = point.scratchVar q := scratchVar_eq hR h
  -- the annihilators correspond, since the checked one does not overflow
  have hannihilator : (∃ a u, point.annihilator s p = .ok a ∧
        Arithmetic.toUniPoly a (point.scratchVar p) = .ok u ∧ ¬u.isZero = true ∧
          u.overReal.IsRoot y) ↔
      ∃ a u, point.annihilator s q = .ok a ∧
        Arithmetic.toUniPoly a (point.scratchVar q) = .ok u ∧ ¬u.isZero = true ∧
          u.overReal.IsRoot y := by
    have houtcome : Outcome R (point.annihilator s p) (point.annihilator s q) :=
      outcome_annihilator hR h
    rw [hscratch]
    generalize point.annihilator s p = x at houtcome
    generalize point.annihilator s q = x' at houtcome hno
    cases houtcome with
    | overflow => exact absurd rfl hno
    | error e => exact iff_of_false (fun ⟨_, _, h, _⟩ => nomatch h) fun ⟨_, _, h, _⟩ => nomatch h
    | ok hab => simp only [Except.ok.injEq, exists_and_left, exists_eq_left', hR.toUniPoly_eq _ hab]
  have hruns := (follows_signByEnclosure hR h).sameRuns (noOverflow_signByEnclosure hno)
  have henclosure : Arithmetic.enclose p (point.box s) = Arithmetic.enclose q (point.box s) :=
    hR.enclose_eq _ h
  constructor
  · intro hp
    refine ⟨hannihilator.1 hp.annihilator, henclosure ▸ hp.enclosure,
      hruns.exact_iff.1 hp.byEnclosure, fun v id heq => ?_⟩
    rw [← hR.toUniPoly_eq v h]
    exact hp.byLocator v id heq
  · intro hq
    refine ⟨hannihilator.2 hq.annihilator, henclosure ▸ hq.enclosure,
      hruns.exact_iff.2 hq.byEnclosure, fun v id heq => ?_⟩
    rw [hR.toUniPoly_eq v h]
    exact hq.byLocator v id heq

end AlgebraicPoint

/-! ## Under an assignment -/

/-- Taking in values gives the same polynomial and the same point. -/
theorem PartialValue.of_machine (reading : MvPoly.Reading) {s : Store} {p : MvPoly}
    {values : Assignment} {except : List Var} {value : PartialValue MvPoly} (hp : p.Fits)
    (h : PartialValue.of s values p except = .ok value) :
    PartialValue.of s values (p.machine reading) except
        = .ok ⟨value.poly.machine reading, value.point⟩ ∧ value.poly.Fits := by
  -- both arithmetics are compared with the one that checks
  have hexact : Outcome _ (PartialValue.of s values p except)
      (PartialValue.of s values p.checked except) := outcome_of MvPoly.simulates_exact rfl except
  have hmachine : Outcome _ (PartialValue.of s values (p.machine reading) except)
      (PartialValue.of s values p.checked except) :=
    outcome_of (MvPoly.simulates_machine reading) ⟨rfl, hp⟩ except
  rw [h] at hexact
  cases hchecked : PartialValue.of s values p.checked except with
  | error e =>
    obtain ⟨w, rfl⟩ := substitute_error hchecked
    rw [hchecked] at hexact
    cases hexact
  | ok value' =>
    rw [hchecked] at hexact hmachine
    obtain ⟨hpoly, hpoint⟩ : Alike _ value value' := by
      cases hexact with
      | ok h => exact h
    generalize PartialValue.of s values (p.machine reading) except = r at hmachine ⊢
    cases hmachine with
    | ok hab =>
      obtain ⟨⟨hm, hfits⟩, hpoint'⟩ := hab
      rw [hpoly, hpoint, ← hm, ← hpoint']
      exact ⟨rfl, hfits⟩

/-- In machine words the sign of a polynomial under an assignment of all its variables is found with
enough rounds, and any answer is the sign of the value, if what is multiplied on the way fits into
words. On the way nothing is left to chance: in every store that the search can reach, as long as the
resultants fit there, the annihilator is not zero and has the value as a root, every variable has a
range, and both ways give the sign. -/
theorem Isolator.signUnder_exact (reading : MvPoly.Reading) (iso : Isolator) {s : Store}
    (hs : s.Valid) {g : MvPoly} {values : Assignment} {a : Var → ℝ}
    (hvalues : ∀ v ∈ g.vars, ∃ x, values.lookup v = some x ∧ x.Denotes s (a v))
    (hlast : ∀ v ∈ g.vars, v ≠ 4294967295) (hfits : iso.SignFits s g values) :
    Settles (iso.signUnder (g.machine reading) values) s
        (fun r _ => r.1 = .ok (Sign.ofReal (aeval a g.toPolynomial))) ∧
      Safe (iso.signUnder (g.machine reading) values) s
        (fun r _ => ∀ o, r.1 = .ok o → o = Sign.ofReal (aeval a g.toPolynomial)) ∧
      ∃ value : PartialValue MvPoly,
        PartialValue.of s values (g.machine reading) []
          = .ok ⟨value.poly.machine reading, value.point⟩ ∧
        ∀ t, s.Narrowed t → t.Valid →
          (value.point.involved value.poly).annihilator t value.poly.checked ≠ .error .overflow →
            (value.point.involved value.poly).Decides t (value.poly.machine reading)
              (aeval a g.toPolynomial) := by
  have hruns := sameRuns_signUnder reading hfits
  have hback := narrowed_tally s iso.tally
  have hmetered : ∀ v ∈ g.vars, ∃ x, values.lookup v = some x ∧
      x.Denotes { s with tally := iso.tally } (a v) := fun v hv => by
    obtain ⟨x, hx, hden⟩ := hvalues v hv
    exact ⟨x, hx, hden.narrowed hs hback⟩
  have hexact := MvPoly.signUnder_exact_of_values (s := { s with tally := iso.tally }) hmetered hlast
    hs
  refine ⟨hruns.settles_iff.2 ?_, hruns.safe_iff.2 ?_, ?_⟩
  · refine (hexact.settles.metered fun o t u _ _ ho => ho).bind fun r t _ hval hr => ?_
    obtain ⟨o, hro, ho⟩ := hr
    exact Settles.pure hval (by rw [hro, ho])
  · refine (hexact.safe.metered fun o t u _ _ ho => ho).bind fun r t _ hval hr => ?_
    exact Safe.pure hval fun o ho => hr.1 o ho
  · obtain ⟨value, hof, hdecides⟩ := PartialValue.exists_decides hvalues hlast
    obtain ⟨hmachine, hfitsValue⟩ := PartialValue.of_machine reading hfits.fits hof
    refine ⟨value, hmachine, fun t hnar hval hno => ?_⟩
    -- from exact exponents to checked ones, and from those to machine words
    have hchecked := (AlgebraicPoint.decides_iff MvPoly.simulates_exact rfl hno).1
      (hdecides t hnar hval)
    exact (AlgebraicPoint.decides_iff (MvPoly.simulates_machine reading) ⟨rfl, hfitsValue⟩ hno).2
      hchecked

/-! ## The square of the square root of two -/

/-- The product of the two variables, less two. -/
def MvPoly.squareMinusTwo : MvPoly := ((ofVar 1).mul (ofVar 2)).sub (constant 2)

theorem MvPoly.vars_squareMinusTwo : squareMinusTwo.vars = [1, 2] := by
  decide_cbv

/-- The value is zero. -/
theorem MvPoly.aeval_squareMinusTwo : aeval (fun _ => √2) squareMinusTwo.toPolynomial = 0 := by
  rw [squareMinusTwo, toPolynomial_sub, toPolynomial_mul, toPolynomial_ofVar, toPolynomial_ofVar,
    toPolynomial_constant, map_sub, map_mul, aeval_X, aeval_X, aeval_C,
    Real.mul_self_sqrt zero_le_two, map_ofNat, sub_self]

/-- The product of the square root of two with itself is two. -/
theorem Isolator.signUnder_sqrtTwos :
    (∀ v ∈ MvPoly.squareMinusTwo.vars, v ≠ 4294967295) ∧
      SignFits {} .sqrtTwo .squareMinusTwo .sqrtTwos ∧
        Settles (signUnder {} (MvPoly.squareMinusTwo.machine .backward) .sqrtTwos) .sqrtTwo
          fun r _ => r.1 = .ok .zero := by
  have hlast := MvPoly.ne_last_of_vars_eq MvPoly.vars_squareMinusTwo
  have hfits : SignFits {} .sqrtTwo .squareMinusTwo .sqrtTwos :=
    .of_isOk (n := 8) (by decide_cbv) (by decide +kernel)
  refine ⟨hlast, hfits, ((signUnder_exact .backward {} Store.valid_sqrtTwo
    (Assignment.exists_value_sqrtTwos MvPoly.vars_squareMinusTwo) hlast hfits).1).mono
      fun r _ _ _ hr => ?_⟩
  rw [hr, MvPoly.aeval_squareMinusTwo, Sign.ofReal_eq_zero_iff.2 rfl]

/-! ## A product that wraps around -/

/-- One half, as a root of `x³ - 1/8`. -/
def Locator.half : Locator :=
  .fresh (.ofCoeffs 1 [-1/8, 0, 0, 1]) (.between (1/4) (3/4) (by decide +kernel))

/-- One, with a point for an interval. -/
def Locator.unit : Locator := .fresh (.ofCoeffs 2 [-1, 1]) (.point 1)

namespace Locator

/-- The three conjugates of one half here are the cube roots of `1 / 8`. -/
theorem aeval_half (z : ℂ) : Polynomial.aeval z half.poly.toPolynomial = z ^ 3 - 1 / 8 := by
  have hpoly : half.poly = .ofCoeffs 1 [-1/8, 0, 0, 1] := rfl
  rw [hpoly, UniPoly.toPolynomial_ofCoeffs]
  simp only [UniPoly.coeffsPolynomial, map_add, map_mul, map_neg, map_one, map_zero, neg_div,
    Polynomial.aeval_X, Polynomial.aeval_C, map_div₀, map_ofNat]
  ring

/-- Only one of them is real. -/
theorem locates_half : half.Locates (1 / 2) := by
  have hroot : ∀ y : ℝ, half.poly.overReal.IsRoot y ↔ y ^ 3 = 1 / 8 := fun y => by
    rw [UniPoly.isRoot_iff_aeval, aeval_half, sub_eq_zero, ← Complex.ofReal_inj]
    push_cast
    exact Iff.rfl
  refine locates_fresh (by decide_cbv) ⟨.between _ _ (by decide_cbv), ?_⟩
  rw [Interval.reals_between]
  refine Set.eq_singleton_iff_unique_mem.2
    ⟨⟨(hroot _).2 (by norm_num), by norm_num, by norm_num⟩, ?_⟩
  rintro y ⟨hy, hlo, -⟩
  have hcube : y ^ 3 = 1 / 8 := (hroot y).1 hy
  exact (pow_left_inj₀ (by linarith) (by norm_num) three_ne_zero).1 (hcube.trans (by norm_num))

theorem toPolynomial_unit : unit.poly.toPolynomial = Polynomial.X - Polynomial.C 1 := by
  have hpoly : unit.poly = .ofCoeffs 2 [-1, 1] := rfl
  rw [hpoly, UniPoly.toPolynomial_ofCoeffs]
  simp only [UniPoly.coeffsPolynomial, map_neg, map_one]
  ring

theorem aeval_unit (z : ℂ) : Polynomial.aeval z unit.poly.toPolynomial = z - 1 := by
  rw [toPolynomial_unit, map_sub, Polynomial.aeval_X, Polynomial.aeval_C, map_one]

theorem locates_unit : unit.Locates 1 := by
  have hroot : ∀ y : ℝ, unit.poly.overReal.IsRoot y ↔ y = 1 := fun y => by
    rw [UniPoly.isRoot_iff_aeval, aeval_unit, sub_eq_zero]
    norm_cast
  refine locates_fresh (by decide) ⟨.point 1, ?_⟩
  refine Set.eq_singleton_iff_unique_mem.2
    ⟨⟨(hroot 1).2 rfl, ?_⟩, fun y hy => (hroot y).1 hy.1⟩
  rw [Interval.reals_point]
  exact Rat.cast_one.symm

end Locator

def Store.halfUnit : Store := { locators := #[.half, .unit] }

theorem Store.valid_halfUnit : halfUnit.Valid := by
  intro id hid
  match id, hid with
  | 0, _ => exact ⟨_, Locator.locates_half⟩
  | 1, _ => exact ⟨_, Locator.locates_unit⟩

def Number.half : Number := { stored := .root 0 }

/-- An encoding stays one, even with a point for an interval. -/
def Number.unit : Number := .ofThom { poly := .ofCoeffs 2 [-1, 1], signs := [], locator := 1 }

/-- The first value is the root one half. -/
theorem Number.denotes_half : half.Denotes .halfUnit (1 / 2) :=
  ⟨by decide, Locator.locates_half⟩

/-- The second one is an encoding of the root one. -/
theorem Number.denotes_unit : unit.Denotes .halfUnit 1 where
  id_lt := by decide
  locates := Locator.locates_unit
  poly_eq := rfl
  monic := Locator.toPolynomial_unit ▸ Polynomial.monic_X_sub_C 1
  signs := rfl

/-- None of its conjugates is zero. -/
theorem Number.conjugate_half {z : ℂ} : half.Conjugate .halfUnit z ↔ z ^ 3 = 1 / 8 := by
  show Polynomial.aeval z Locator.half.poly.toPolynomial = 0 ↔ _
  rw [Locator.aeval_half, sub_eq_zero]

theorem Number.conjugate_unit {z : ℂ} : unit.Conjugate .halfUnit z ↔ z = 1 := by
  show Polynomial.aeval z Locator.unit.poly.toPolynomial = 0 ↔ _
  rw [Locator.aeval_unit, sub_eq_zero]

def Assignment.halfUnit : Assignment := [(1, .half), (2, .unit)]

/-- What the values are. -/
noncomputable def Assignment.halfUnitReals (v : Var) : ℝ := if v = 1 then 1 / 2 else 1

theorem Assignment.exists_value_halfUnit {v : Var} (hv : v = 1 ∨ v = 2) :
    ∃ x, halfUnit.lookup v = some x ∧ x.Denotes .halfUnit (halfUnitReals v) := by
  rcases hv with rfl | rfl
  · exact ⟨_, rfl, Number.denotes_half⟩
  · exact ⟨_, rfl, Number.denotes_unit⟩

theorem AlgebraicPoint.definingPoly_halfUnit :
    definingPoly .halfUnit (1, 0) = .ofCoeffs 1 [-1/8, 0, 0, 1] := rfl

/-- The first variable, times a high power of the second. -/
def MvPoly.steep : MvPoly := (ofVar 1).mul (varPower 2 1073741824)

namespace MvPoly

theorem raw_steep : steep.raw = [⟨1, ⟨[(1, 1), (2, 1073741824)], 1073741825⟩⟩] := by
  decide_cbv

theorem machine_steep :
    steep.machine .forward = [⟨1, ⟨[(1, 1), (2, 1073741824)], 1073741825⟩⟩] := raw_steep

/-- Where the high power is one, the product is its first factor. -/
theorem aeval_steep {A : Type*} [CommRing A] [Algebra ℚ A] {a : Var → A} (ha : a 2 = 1) :
    aeval a steep.toPolynomial = a 1 := by
  rw [steep, toPolynomial_mul, toPolynomial_ofVar, toPolynomial_varPower, map_mul, map_pow, aeval_X,
    aeval_X, ha, one_pow, mul_one]

/-- What comes out as an annihilator of `steep`. The true one has the terms of the high power. -/
def steepAnnihilator : Machine .forward := ([⟨-1, ⟨[(3, 3)], 3⟩⟩] : Raw)

/-- On the way the exponent `2 ^ 32` wraps around to zero, and a division loses what is left. -/
theorem eliminate_steep :
    Arithmetic.eliminate (Arithmetic.subFrom 3 (steep.machine .forward))
      (AlgebraicPoint.definingPoly .halfUnit (1, 0)) = .ok steepAnnihilator := by
  have hsub : Raw.sub (.varPower 3 1) steep.raw
      = [⟨-1, ⟨[(1, 1), (2, 1073741824)], 1073741825⟩⟩, ⟨1, ⟨[(3, 1)], 1⟩⟩] := by
    rw [raw_steep]
    cbv
  refine eliminate_of_resultant (p := Raw.sub (.varPower 3 1) steep.raw) ?_
  rw [AlgebraicPoint.definingPoly_halfUnit, hsub]
  cbv

/-- The variable for the value is the one after both. -/
theorem scratchVar_steep :
    AlgebraicPoint.scratchVar [(1, 0), (2, 1)] (steep.machine .forward) = 3 := by
  rw [machine_steep]
  cbv

/-- The second elimination changes nothing, since its variable is gone. -/
theorem annihilator_steep : AlgebraicPoint.annihilator .halfUnit [(1, 0), (2, 1)]
    (steep.machine .forward) = .ok steepAnnihilator := by
  have hdefining : AlgebraicPoint.definingPoly .halfUnit (2, 1) = .ofCoeffs 2 [-1, 1] := by
    decide
  have hrest : Arithmetic.eliminate steepAnnihilator (AlgebraicPoint.definingPoly .halfUnit (2, 1))
      = .ok steepAnnihilator := by
    rw [hdefining]
    exact eliminate_of_resultant (by cbv)
  rw [AlgebraicPoint.annihilator, scratchVar_steep, AlgebraicPoint.eliminate_cons eliminate_steep,
    AlgebraicPoint.eliminate_cons hrest]
  rfl

/-- The annihilator has no other root than zero, so the first radius is taken. -/
theorem radius_steep : AlgebraicPoint.radius 1 .halfUnit [(1, 0), (2, 1)]
    (steep.machine .forward) = .ok (some 1) := by
  have hdense : Arithmetic.toUniPoly steepAnnihilator 3 = .ok (.ofCoeffs 3 [0, 0, 0, -1]) :=
    show Raw.toUniPoly [⟨-1, ⟨[(3, 3)], 3⟩⟩] 3 = _ by cbv
  rw [AlgebraicPoint.radius_of_annihilator annihilator_steep, scratchVar_steep, hdense]
  decide_cbv

theorem enclose_steep : Arithmetic.enclose (steep.machine .forward)
    (AlgebraicPoint.box .halfUnit [(1, 0), (2, 1)]) = some ⟨1 / 4, 3 / 4⟩ := by
  -- a power of one is not computed but known
  have hpow : ∀ k : ℕ, Box.encloseTerms [(1, ⟨1 / 4, 3 / 4⟩), (2, .point 1)] [(1, [(1, 1), (2, k)])]
      = some ⟨1 / 4, 3 / 4⟩ := by
    intro k
    have hone : (Range.point 1).pow k = .point 1 := by
      rw [Range.point_pow, one_pow]
    show some ((((Range.pow ⟨1 / 4, 3 / 4⟩ 1).mul (((Range.point 1).pow k).mul (.point 1))).scale
      1).add (.point 0)) = _
    rw [hone]
    decide_cbv
  rw [machine_steep]
  exact hpow 1073741824

end MvPoly


namespace AlgebraicPoint

/-- The sign test takes one half for zero. -/
theorem exec_sign_steep (rounds : ℕ) (tally : Tally) : ∃ tally',
    exec (sign [(1, 0), (2, 1)] (MvPoly.steep.machine .forward)) (rounds + 1)
      { Store.halfUnit with tally } = (.ok .zero, { Store.halfUnit with tally := tally' }) := by
  have hconstant : Arithmetic.isConstant (MvPoly.steep.machine .forward) = false := by
    rw [MvPoly.machine_steep]
    rfl
  have hinvolved : involved [(1, 0), (2, 1)] (MvPoly.steep.machine .forward)
      = [(1, 0), (2, 1)] := by
    rw [MvPoly.machine_steep]
    rfl
  have hradius : ∀ tally, radius (rounds + 1) { Store.halfUnit with tally } [(1, 0), (2, 1)]
      (MvPoly.steep.machine .forward) = .ok (some 1) := fun tally => by
    rw [radius_congr (s := .halfUnit) (t := { Store.halfUnit with tally }) rfl,
      radius_of_le (Nat.le_add_left 1 rounds)]
    · exact MvPoly.radius_steep
    · rw [MvPoly.radius_steep]
      exact nofun
  unfold sign
  rw [hconstant, hinvolved]
  simp only [Bool.false_eq_true, if_false]
  rw [exec_bind, exec_count]
  exact exec_signByEnclosure_of_readSign (hradius _) MvPoly.enclose_steep (by decide_cbv)

end AlgebraicPoint

theorem MvPoly.vars_steep : steep.vars = [1, 2] := by
  decide_cbv

/-- No value is rational, so both are coordinates. -/
theorem PartialValue.of_halfUnit {p : MvPoly} {except : List Var}
    (h : p.vars.filter (· ∉ except) = [1, 2]) (tally : Tally) :
    PartialValue.of { Store.halfUnit with tally } .halfUnit (p.machine .forward) except
      = .ok ⟨p.machine .forward, [(1, 0), (2, 1)]⟩ := by
  rw [PartialValue.of, MvPoly.vars_machine, h]
  rfl

/-- In words of 32 bits the value one half is taken for zero: the exponents of `steep` fit, but those
that the resultants meet on the way do not. -/
theorem Isolator.signUnder_ne_of_wrap : ¬∀ (g : MvPoly) (values : Assignment) (a : Var → ℝ)
    (s : Store), s.Valid → g.Fits → (∀ v ∈ g.vars, v ≠ 4294967295) →
      (∀ v ∈ g.vars, ∃ x, values.lookup v = some x ∧ x.Denotes s (a v)) →
        Settles (signUnder {} (g.machine .forward) values) s
          fun r _ => r.1 = .ok (Sign.ofReal (aeval a g.toPolynomial)) := by
  intro h
  obtain ⟨r, t, N, -, -, hr, hN⟩ := h .steep .halfUnit Assignment.halfUnitReals .halfUnit
    Store.valid_halfUnit (by decide_cbv) (MvPoly.ne_last_of_vars_eq MvPoly.vars_steep)
    fun v hv => by
      rw [MvPoly.vars_steep] at hv
      exact Assignment.exists_value_halfUnit (by simpa using hv)
  have hzero : r.1 = .ok .zero := by
    obtain ⟨tally, hsign⟩ := AlgebraicPoint.exec_sign_steep N {}
    obtain ⟨u, hu, -⟩ := exec_signUnder (hN (N + 1) (Nat.le_succ N))
    rw [Arithmetic.signUnder, exec_get_bind, PartialValue.of_halfUnit (by rw [MvPoly.vars_steep]; rfl),
      ofExcept_ok_bind] at hu
    exact congrArg Prod.fst (hu.symm.trans hsign)
  have hvalue : aeval Assignment.halfUnitReals MvPoly.steep.toPolynomial = 1 / 2 :=
    (MvPoly.aeval_steep rfl).trans rfl
  rw [hr, hvalue] at hzero
  have hhalf : (1 / 2 : ℝ) = 0 := Sign.ofReal_eq_zero_iff.1 (Except.ok.inj hzero)
  norm_num at hhalf

-- where sums of exponents are checked, the test stops instead
example : (exec (Isolator.signUnder {} MvPoly.steep.checked .halfUnit) 1 .halfUnit).1.map Prod.fst
    = .ok (.error .overflow) := by
  decide +kernel

end AlgebraicReal
