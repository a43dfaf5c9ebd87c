import AlgebraicReal.Proofs.Isolator.Transparency
import AlgebraicReal.Proofs.MvPoly.Evaluation

/-!
# Substitution in root expressions

A polynomial whose variables have rational values can be put in the place of a variable before the
roots are isolated, or its value can be given to the variable when they are. The two ways meet
different polynomials in different variables. But what is left at the values is the same polynomial
in the root variable (`MvPoly.specialize_substitute`), and a choice of conjugates is a choice on both
sides, since a rational is its only conjugate (`Assignment.degenerate_substitute_iff`). So a root
expression has the same root both ways, or none both ways, if nothing overflows
(`RootExpr.evaluate_substitute`). A power that overflows while it is put in leaves a variable behind
that has no power (`RootExpr.substitute_ne_of_wrap`).
-/

open MvPolynomial

namespace AlgebraicReal

open RefineM

variable {s t t' : Store} {values : Assignment} {p r : MvPoly} {v x : Var} {a : Var → ℝ}
  {ρ : Var → ℚ}

/-! ## Values of the polynomial that is put in -/

namespace MvPoly

section

variable {A : Type*} [CommRing A] [Algebra ℚ A] {σ : Var → A}

/-- The value of a polynomial where its variables have rational values. -/
theorem aeval_eq_value (h : ∀ w ∈ r.vars, σ w = algebraMap ℚ A (ρ w)) :
    aeval σ r.toPolynomial = algebraMap ℚ A (r.value ρ) := by
  rw [aeval_congr h, value_eq_aeval]
  exact MvPolynomial.aeval_algebraMap_apply A ρ r.toPolynomial

/-- To put a polynomial in and then give values is to give its value. -/
theorem aeval_update_substitute (hxv : x ≠ v) (hv : v ∉ r.vars)
    (h : ∀ w ∈ r.vars, σ w = algebraMap ℚ A (ρ w)) (z : A) :
    aeval (Function.update σ v z) (p.substitute x r).toPolynomial
      = aeval (Function.update (Function.update σ x (algebraMap ℚ A (r.value ρ))) v z)
          p.toPolynomial := by
  have hr : aeval (Function.update σ v z) r.toPolynomial = algebraMap ℚ A (r.value ρ) :=
    aeval_eq_value fun w hw => by
      have hwv : w ≠ v := fun hwv => hv (hwv ▸ hw)
      rw [Function.update_of_ne hwv, h w hw]
  rw [aeval_substitute, hr, Function.update_comm hxv]

end

/-- The same polynomial in the root variable is left both ways. -/
theorem specialize_substitute (hxv : x ≠ v) (hv : v ∉ r.vars) (h : ∀ w ∈ r.vars, a w = ρ w) :
    (p.substitute x r).specialize v a = p.specialize v (Function.update a x (r.value ρ)) := by
  refine Polynomial.funext fun y => ?_
  rw [eval_specialize, eval_specialize]
  exact aeval_update_substitute hxv hv h y

/-- The variables besides `v` that may be left when `r` has been put in the place of `x`. -/
def substituteVars (p r : MvPoly) (v x : Var) : Set Var :=
  {w | (w ∈ p.vars ∧ w ≠ v ∧ w ≠ x) ∨ w ∈ r.vars}

/-- A variable that is left over came from one of the two polynomials. -/
theorem mem_substituteVars {w : Var} (hw : w ∈ (p.substitute x r).vars) (hwv : w ≠ v) :
    w ∈ p.substituteVars r v x :=
  (mem_vars_of_mem_vars_substitute hw).imp_left fun h => ⟨h.1, hwv, h.2⟩

theorem mem_insert_substituteVars {w : Var} (hw : w ∈ p.vars) (hwv : w ≠ v) :
    w ∈ insert x (p.substituteVars r v x) :=
  or_iff_not_imp_left.2 fun hwx => .inl ⟨hw, hwv, hwx⟩

end MvPoly

/-! ## The two assignments -/

/-- A number in rational form denotes that rational. -/
theorem Number.Denotes.eq_of_form {n : Number} {y : ℝ} {q : ℚ} (h : n.Denotes s y)
    (hform : n.form s = .rational q) : y = q := by
  have hden := h.form
  rw [hform] at hden
  exact hden

namespace Assignment

/-- The other variables keep their values. -/
theorem lookup_set_of_ne {w : Var} {n : Number} (h : w ≠ x) :
    List.lookup w ((x, n) :: values) = values.lookup w := by
  rw [List.lookup_cons, beq_false_of_ne h]

/-- The value that is set is a rational, and so denotes itself. -/
theorem exists_value_set (q : ℚ) {w : Var}
    (h : w ≠ x → ∃ n, values.lookup w = some n ∧ n.Denotes s (a w)) :
    ∃ n, List.lookup w ((x, Number.ofRational q) :: values) = some n ∧
      n.Denotes s (Function.update a x q w) := by
  by_cases hwx : w = x
  · subst hwx
    rw [List.lookup_cons_self, Function.update_self]
    exact ⟨_, rfl, Number.denotes_ofRational s q⟩
  · rw [lookup_set_of_ne hwx, Function.update_of_ne hwx]
    exact h hwx

section

variable {K : Set Var} {q : ℚ} {σ : Var → ℂ}

/-- Setting a variable to a rational leaves no choice there. -/
theorem Chooses.set (h : values.Chooses s K σ) (x : Var) (q : ℚ) :
    Chooses s ((x, Number.ofRational q) :: values) (insert x K) (Function.update σ x q) := by
  intro w hw
  by_cases hwx : w = x
  · subst hwx
    rw [List.lookup_cons_self, Function.update_self]
    exact ⟨_, rfl, rfl⟩
  · rw [lookup_set_of_ne hwx, Function.update_of_ne hwx]
    exact h w (Set.mem_of_mem_insert_of_ne hw hwx)

/-- A rational has no other conjugate. -/
theorem Chooses.eq_of_set
    (h : Chooses s ((x, Number.ofRational q) :: values) (insert x K) σ) : σ x = q := by
  obtain ⟨n, hn, hconj⟩ := h x (Set.mem_insert x K)
  rw [List.lookup_cons_self] at hn
  cases hn
  exact hconj

/-- Without the setting a variable has its own value again, which is a conjugate of itself. -/
theorem Chooses.reset (h : Chooses s ((x, Number.ofRational q) :: values) (insert x K) σ)
    (hK : ∀ w ∈ K, ∃ n, values.lookup w = some n ∧ n.Denotes s (a w)) :
    values.Chooses s K (Function.update σ x (a x)) := by
  intro w hw
  by_cases hwx : w = x
  · subst hwx
    obtain ⟨n, hn, hden⟩ := hK w hw
    rw [Function.update_self]
    exact ⟨n, hn, hden.conjugate⟩
  · have hw' := h w (Set.mem_insert_of_mem x hw)
    rw [lookup_set_of_ne hwx] at hw'
    rwa [Function.update_of_ne hwx]

end

section

variable (hp : ∀ w ∈ p.vars, w ≠ v → w ≠ x →
    ∃ n, values.lookup w = some n ∧ n.Denotes s (a w))
  (hr : ∀ w ∈ r.vars,
    ∃ n, values.lookup w = some n ∧ n.Denotes s (a w) ∧ n.form s = .rational (ρ w))
include hr

/-- The reals of the variables that are put in are these rationals. -/
theorem eq_of_rational : ∀ w ∈ r.vars, a w = ρ w := by
  intro w hw
  obtain ⟨n, -, hden, hform⟩ := hr w hw
  exact hden.eq_of_form hform

/-- A rational has no other conjugates. -/
theorem Chooses.eq_of_rational {K : Set Var} {σ : Var → ℂ} (h : values.Chooses s K σ)
    (hK : ∀ w ∈ r.vars, w ∈ K) : ∀ w ∈ r.vars, σ w = ρ w := by
  intro w hw
  obtain ⟨n, hn, -, hform⟩ := hr w hw
  obtain ⟨n', hn', hconj⟩ := h w (hK w hw)
  obtain rfl := Option.some.inj (hn.symm.trans hn')
  rwa [Number.Conjugate, hform] at hconj

include hp

/-- All variables that are left over have values. -/
theorem exists_value_substituteVars : ∀ w ∈ p.substituteVars r v x,
    ∃ n, values.lookup w = some n ∧ n.Denotes s (a w) := by
  rintro w (⟨hwp, hwv, hwx⟩ | hwr)
  · exact hp w hwp hwv hwx
  · obtain ⟨n, hn, hden, -⟩ := hr w hwr
    exact ⟨n, hn, hden⟩

/-- Nothing is left for some conjugates one way exactly if nothing is left for some conjugates the
other way. -/
theorem degenerate_substitute_iff (hxv : x ≠ v) (hv : v ∉ r.vars) :
    values.Degenerate s (p.substitute x r) v a ↔
      Degenerate s ((x, Number.ofRational (r.value ρ)) :: values) p v
        (Function.update a x (r.value ρ)) := by
  have hvalues := exists_value_substituteVars hp hr
  have hset : ∀ w ∈ insert x (p.substituteVars r v x),
      ∃ n, List.lookup w ((x, Number.ofRational (r.value ρ)) :: values) = some n ∧
        n.Denotes s (Function.update a x (r.value ρ) w) := fun w hw =>
    exists_value_set (r.value ρ) fun hwx => hvalues w (Set.mem_of_mem_insert_of_ne hw hwx)
  have hcoeff : ∀ σ : Var → ℂ, values.Chooses s (p.substituteVars r v x) σ → ∀ k,
      aeval σ ((p.substitute x r).coeff v k).toPolynomial
        = aeval (Function.update σ x (r.value ρ)) (p.coeff v k).toPolynomial := fun σ hσ =>
    MvPoly.aeval_coeff_congr (MvPoly.aeval_update_substitute hxv hv
      (hσ.eq_of_rational hr fun _ hw => .inr hw))
  rw [degenerate_iff_of_subset (fun _ => MvPoly.mem_substituteVars) hvalues,
    degenerate_iff_of_subset (fun _ => MvPoly.mem_insert_substituteVars) hset,
    MvPoly.specialize_substitute hxv hv (eq_of_rational hr)]
  refine and_congr_right fun _ => ⟨?_, ?_⟩
  · rintro ⟨σ, hchooses, hzero⟩
    refine ⟨Function.update σ x (r.value ρ), hchooses.set x (r.value ρ), fun k hk => ?_⟩
    rw [← hcoeff σ hchooses, hzero k hk]
  · rintro ⟨σ, hchooses, hzero⟩
    -- the replaced variable has its own value again, which is all that matters if `r` has it
    have hreset := hchooses.reset hvalues
    refine ⟨_, hreset, fun k hk => ?_⟩
    rw [hcoeff _ hreset, Function.update_idem, ← hchooses.eq_of_set, Function.update_eq_self,
      hzero k hk]

end

end Assignment

/-! ## The two evaluations -/

section

variable {rounds rounds' : ℕ} {roots roots' : Option (List Number)}

/-- The numbers in one place of the same lists are equal, or there are none. -/
theorem SameRoots.pick (h : SameRoots t t' roots roots') (k : ℕ) :
    Option.Rel (fun n n' => ∃ y, n.Denotes t y ∧ n'.Denotes t' y)
      (roots.bind (·[k]?)) (roots'.bind (·[k]?)) := by
  cases h with
  | none => exact .none
  | some h => exact forall₂_getElem h k

end

namespace RootExpr

variable {e : RootExpr MvPoly} {rounds : ℕ}

/-- An answer is picked from the list of roots. -/
theorem exists_roots_of_exec {o : Option Number}
    (h : exec (e.evaluate values) rounds s = (.ok o, t)) :
    ∃ roots, exec (Arithmetic.realRoots e.poly e.root values) rounds s = (.ok roots, t) ∧
      o = roots.bind (·[e.index - 1]?) := by
  unfold evaluate at h
  obtain ⟨roots, u, hroots, h⟩ := exec_bind_eq_ok h
  cases roots <;> cases h
  case none => exact ⟨none, hroots, rfl⟩
  case some ns => exact ⟨some ns, hroots, rfl⟩

/-- The roots are found, and one of them is picked or none. -/
theorem evaluate_settles (hs : s.Valid)
    (hvalues : ∀ w ∈ e.poly.vars, w ≠ e.root → ∃ n, values.lookup w = some n ∧ n.Denotes s (a w))
    (hlast : ∀ w ∈ e.poly.vars, w ≠ 4294967295) :
    Settles (e.evaluate values) s fun _ _ => True := by
  have hexact := MvPoly.rootsUnder_exactIf (C := True) (D := True) {} hs
    (Assignment.denotes_of_forall hvalues) (fun _ => Assignment.lookup_ne_none hvalues) id
    fun _ => hlast
  refine (hexact.settles trivial).bind fun roots t _ hval _ => ?_
  cases roots <;> exact Settles.pure hval trivial

/-- The root expression with the polynomial `r` in the place of `v`. -/
def put (e : RootExpr MvPoly) (v : Var) (r : MvPoly) : RootExpr MvPoly :=
  { e with poly := e.poly.substitute v r }

/-- Putting the polynomial in the place of a variable and giving its value to the variable lead to the
same answer with exponents without a bound: both evaluations come to an end, and there is the same
root on both sides, or there is none. -/
theorem evaluate_put (hs : s.Valid) (hx : x ≠ e.root) (hroot : e.root ∉ r.vars)
    (hvalues : ∀ w ∈ e.vars, w ≠ x → ∃ n, values.lookup w = some n ∧ n.Denotes s (a w))
    (hrational : ∀ w ∈ r.vars,
      ∃ n, values.lookup w = some n ∧ n.Denotes s (a w) ∧ n.form s = .rational (ρ w))
    (hlast : ∀ w ∈ e.poly.vars, w ≠ 4294967295) (hlast' : ∀ w ∈ r.vars, w ≠ 4294967295) :
    Settles ((e.put x r).evaluate values) s (fun _ _ => True) ∧
      Settles (e.evaluate ((x, .ofRational (r.value ρ)) :: values)) s (fun _ _ => True) ∧
      ∀ {rounds rounds' o o' t t'},
        exec ((e.put x r).evaluate values) rounds s = (.ok o, t) →
        exec (e.evaluate ((x, .ofRational (r.value ρ)) :: values)) rounds' s = (.ok o', t') →
          Option.Rel (fun n n' => ∃ y, n.Denotes t y ∧ n'.Denotes t' y) o o' := by
  have hp : ∀ w ∈ e.poly.vars, w ≠ e.root → w ≠ x →
      ∃ n, values.lookup w = some n ∧ n.Denotes s (a w) := fun w hw hwv hwx =>
    hvalues w (List.mem_filter.2 ⟨hw, decide_eq_true hwv⟩) hwx
  have hput : ∀ w ∈ (e.poly.substitute x r).vars, w ≠ e.root →
      ∃ n, values.lookup w = some n ∧ n.Denotes s (a w) := fun w hw hwv =>
    Assignment.exists_value_substituteVars hp hrational w (MvPoly.mem_substituteVars hw hwv)
  have hset : ∀ w ∈ e.poly.vars, w ≠ e.root →
      ∃ n, List.lookup w ((x, Number.ofRational (r.value ρ)) :: values) = some n ∧
        n.Denotes s (Function.update a x (r.value ρ) w) := fun w hw hwv =>
    Assignment.exists_value_set (r.value ρ) (hp w hw hwv)
  -- both sides evaluate a polynomial that has its values, at `a` and at `a` with `x` changed
  refine ⟨evaluate_settles hs hput fun w hw => ?_, evaluate_settles hs hset hlast,
    fun {_ _ _ _ t t'} h h' => ?_⟩
  · rcases MvPoly.mem_vars_of_mem_vars_substitute hw with ⟨hwp, -⟩ | hwr
    · exact hlast w hwp
    · exact hlast' w hwr
  · obtain ⟨roots, hroots, rfl⟩ := exists_roots_of_exec h
    obtain ⟨roots', hroots', rfl⟩ := exists_roots_of_exec h'
    obtain ⟨-, hanswers⟩ := MvPoly.answers_of_exec hput hs hroots
    obtain ⟨-, hanswers'⟩ := MvPoly.answers_of_exec hset hs hroots'
    -- the two specializations are one, and degenerate together, so both lists have the same roots
    rw [MvPoly.specialize_substitute hx hroot (Assignment.eq_of_rational hrational),
      Assignment.degenerate_substitute_iff hp hrational hx hroot] at hanswers
    exact ((hanswers.sameRoots_iff hanswers').2 Iff.rfl).pick (e.index - 1)

/-! ## In machine words -/

/-- In words the substitution is the one without a bound, if each product in it fits. -/
theorem substitute_machine (reading : MvPoly.Reading) (h : MvPoly.Raw.SubstitutionFits e.poly x r) :
    (e.machine reading).substitute x r.raw = (e.put x r).machine reading :=
  RootExpr.ext (MvPoly.Raw.substitute_raw reading h).1 rfl rfl

/-- Where the variables of a polynomial have rational values, putting the polynomial in the place of
a variable and giving its value to the variable lead to the same answer in machine words, if what is
multiplied fits into words: both evaluations come to an end, and there is the same root on both
sides, or there is none. -/
theorem evaluate_substitute (reading reading' : MvPoly.Reading) (hs : s.Valid) (hx : x ≠ e.root)
    (hroot : e.root ∉ r.vars)
    (hvalues : ∀ w ∈ e.vars, w ≠ x → ∃ n, values.lookup w = some n ∧ n.Denotes s (a w))
    (hrational : ∀ w ∈ r.vars,
      ∃ n, values.lookup w = some n ∧ n.Denotes s (a w) ∧ n.form s = .rational (ρ w))
    (hlast : ∀ w ∈ e.poly.vars, w ≠ 4294967295) (hlast' : ∀ w ∈ r.vars, w ≠ 4294967295)
    (hsubstitution : MvPoly.Raw.SubstitutionFits e.poly x r)
    (hput : EvaluationFits s (e.put x r) values)
    (hset : EvaluationFits s e ((x, .ofRational (r.value ρ)) :: values)) :
    Settles (((e.machine reading).substitute x r.raw).evaluate values) s (fun _ _ => True) ∧
      Settles ((e.machine reading').evaluate ((x, .ofRational (r.value ρ)) :: values)) s
        (fun _ _ => True) ∧
      ∀ {rounds rounds' o o' t t'},
        exec (((e.machine reading).substitute x r.raw).evaluate values) rounds s = (.ok o, t) →
        exec ((e.machine reading').evaluate ((x, .ofRational (r.value ρ)) :: values)) rounds' s
          = (.ok o', t') →
          Option.Rel (fun n n' => ∃ y, n.Denotes t y ∧ n'.Denotes t' y) o o' := by
  rw [substitute_machine reading hsubstitution]
  have hruns := sameRuns_evaluate reading hput
  have hruns' := sameRuns_evaluate reading' hset
  obtain ⟨hsettles, hsettles', hrel⟩ := evaluate_put hs hx hroot hvalues hrational hlast hlast'
  exact ⟨hruns.settles_iff.2 hsettles, hruns'.settles_iff.2 hsettles',
    fun {rounds rounds' _ _ _ _} h h' =>
      hrel ((hruns rounds).symm.trans h) ((hruns' rounds').symm.trans h')⟩

/-! ## A sum -/

/-- The sum of the first two variables, as the root of `z - x - y` in `z`. -/
def sum : RootExpr MvPoly :=
  ⟨((MvPoly.ofVar 0).sub (.ofVar 1)).sub (.ofVar 2), 1, 0, Nat.one_pos⟩

example : (exec (sum.evaluate [(1, .ofInt 2), (2, .ofInt 3)]) 1 {}).1 = .ok (some (.ofInt 5)) := by
  decide +kernel

/-- One root, the sum. -/
theorem specialize_sum (b : Var → ℝ) :
    sum.poly.specialize 0 b = Polynomial.X - Polynomial.C (b 1 + b 2) := by
  refine Polynomial.funext fun y => ?_
  rw [MvPoly.eval_specialize, sum, MvPoly.toPolynomial_sub, MvPoly.toPolynomial_sub,
    MvPoly.toPolynomial_ofVar, MvPoly.toPolynomial_ofVar, MvPoly.toPolynomial_ofVar, map_sub,
    map_sub, aeval_X, aeval_X, aeval_X, Function.update_self, Function.update_of_ne (by decide),
    Function.update_of_ne (by decide), Polynomial.eval_sub, Polynomial.eval_X, Polynomial.eval_C,
    sub_sub]

/-- The evaluation gives the sum of the values. -/
theorem eq_sum_of_exec {b : Var → ℝ} (hs : s.Valid)
    (hvalues : ∀ w ∈ sum.poly.vars, w ≠ 0 → ∃ n, values.lookup w = some n ∧ n.Denotes s (b w))
    {o : Option Number} (h : exec (sum.evaluate values) rounds s = (.ok o, t)) :
    ∃ n, o = some n ∧ n.Denotes t (b 1 + b 2) := by
  obtain ⟨roots, hroots, rfl⟩ := exists_roots_of_exec h
  obtain ⟨-, hanswers⟩ := MvPoly.answers_of_exec hvalues hs hroots
  have hset : {x | (sum.poly.specialize 0 b).IsRoot x} = {b 1 + b 2} := by
    ext x
    rw [specialize_sum, Set.mem_ofPred_eq, Polynomial.root_X_sub_C, eq_comm,
      Set.mem_singleton_iff]
  rw [hset] at hanswers
  obtain ⟨n, rfl, hn⟩ := hanswers.exists_singleton <|
    Assignment.not_undefined_of_coeff (d := 1) one_ne_zero (by decide_cbv)
      (by rw [specialize_sum, Polynomial.natDegree_X_sub_C])
  exact ⟨n, rfl, hn⟩

/-- The sum of five and the square root of two, with five as the value of a variable that is put in
the place of another one. -/
theorem evaluate_substitute_sqrtTwo :
    Settles (((sum.machine .backward).substitute 1 (MvPoly.ofVar 3).raw).evaluate
        [(2, .sqrtTwo), (3, .ofRational 5)]) .sqrtTwo
        (fun o t => ∃ n, o = some n ∧ n.Denotes t (5 + √2)) ∧
      Settles ((sum.machine .backward).evaluate
        [(1, .ofRational 5), (2, .sqrtTwo), (3, .ofRational 5)]) .sqrtTwo
        (fun o t => ∃ n, o = some n ∧ n.Denotes t (5 + √2)) := by
  have hvars : sum.vars = [1, 2] := by decide_cbv
  have hpoly : sum.poly.vars = [0, 1, 2] := by decide_cbv
  have hvar : (MvPoly.ofVar 3).vars = [3] := by rfl
  have hfive : (MvPoly.ofVar 3).value (fun _ => 5) = 5 := by
    rw [MvPoly.value_eq_aeval, MvPoly.toPolynomial_ofVar, aeval_X]
  have hvalues : ∀ w ∈ sum.vars, w ≠ 1 →
      ∃ n, List.lookup w [(2, Number.sqrtTwo), (3, .ofRational 5)] = some n ∧
        n.Denotes .sqrtTwo (if w = 2 then √2 else 5) := by
    rw [hvars, List.forall_mem_cons, List.forall_mem_singleton]
    exact ⟨fun h => absurd rfl h, fun _ => ⟨_, rfl, Number.denotes_sqrtTwo⟩⟩
  have hfiveDenotes : (Number.ofRational 5).Denotes .sqrtTwo 5 := by
    exact_mod_cast Number.denotes_ofRational .sqrtTwo 5
  have hrational : ∀ w ∈ (MvPoly.ofVar 3).vars,
      ∃ n, List.lookup w [(2, Number.sqrtTwo), (3, .ofRational 5)] = some n ∧
        n.Denotes .sqrtTwo (if w = 2 then √2 else 5) ∧ n.form .sqrtTwo = .rational 5 := by
    rw [hvar, List.forall_mem_singleton]
    exact ⟨_, rfl, hfiveDenotes, rfl⟩
  have hset : EvaluationFits .sqrtTwo sum [(1, .ofRational 5), (2, .sqrtTwo), (3, .ofRational 5)] :=
    .of_isOk (n := 8) (by decide_cbv) (by decide +kernel)
  have hput : EvaluationFits .sqrtTwo (sum.put 1 (.ofVar 3))
      [(2, .sqrtTwo), (3, .ofRational 5)] :=
    hset.congr (by decide_cbv) rfl (by decide +kernel)
  have hboth := evaluate_substitute (ρ := fun _ => 5) .backward .backward Store.valid_sqrtTwo
    (by decide) (by rw [hvar]; decide) hvalues hrational (by rw [hpoly]; simp)
    (by rw [hvar]; simp) (by decide_cbv) hput (by rw [hfive]; exact hset)
  rw [hfive] at hboth
  obtain ⟨⟨o, t, N, hnar, hval, -, hexec⟩, ⟨o', t', N', hnar', hval', -, hexec'⟩, hrel⟩ := hboth
  obtain ⟨n', rfl, hn'⟩ := eq_sum_of_exec (b := fun w => if w = 2 then √2 else 5)
    Store.valid_sqrtTwo (fun w hw hw0 => by
      rw [hpoly] at hw
      obtain rfl | rfl : w = 1 ∨ w = 2 := by simpa [hw0] using hw
      · exact ⟨_, rfl, hfiveDenotes⟩
      · exact ⟨_, rfl, Number.denotes_sqrtTwo⟩)
    ((sameRuns_evaluate .backward hset N').symm.trans (hexec' N' le_rfl))
  refine ⟨⟨o, t, N, hnar, hval, ?_, hexec⟩, ⟨_, t', N', hnar', hval', ⟨n', rfl, hn'⟩, hexec'⟩⟩
  cases hrel (hexec N le_rfl) (hexec' N' le_rfl) with
  | some h =>
    obtain ⟨y, hn, hy⟩ := h
    obtain rfl : y = 5 + √2 := hy.eq hn'
    exact ⟨_, rfl, hn⟩

/-! ## A power that is lost -/

/-- The square of the first variable, as the root of `z - x²` in `z`. -/
def square : RootExpr MvPoly := ⟨(MvPoly.ofVar 0).sub (.varPower 1 2), 1, 0, Nat.one_pos⟩

theorem machine_square : (square.machine .forward).poly
    = ([⟨1, ⟨[(0, 1)], 1⟩⟩, ⟨-1, ⟨[(1, 2)], 2⟩⟩] : MvPoly.Raw) :=
  show square.poly.raw = _ by decide_cbv

/-- The power that is put in is squared, and its exponent wraps around to zero. -/
theorem substitute_square :
    ((square.machine .forward).substitute 1 (MvPoly.varPower 2 2147483648).raw).poly
      = ([⟨1, ⟨[(0, 1)], 1⟩⟩, ⟨-1, ⟨[(2, 0)], 0⟩⟩] : MvPoly.Raw) := by
  have hpower : (MvPoly.varPower 2 2147483648).raw = [⟨1, ⟨[(2, 2147483648)], 2147483648⟩⟩] := by
    rfl
  show MvPoly.Raw.substitute .forward (square.machine .forward).poly 1 _ = _
  rw [machine_square, hpower]
  cbv

/-- A value is put in where a variable has an exponent, so the power without one stays. -/
theorem exec_evaluate_square :
    (exec (((square.machine .forward).substitute 1 (MvPoly.varPower 2 2147483648).raw).evaluate
      [(2, .ofInt 1)]) 1 {}).1 = .error (.notUnivariate 0 2) := by
  unfold evaluate
  rw [substitute_square]
  cbv

/-- In words of 32 bits a power may lose its variable while it is put in. The variable without a
power is in the way when the root is sought, although the polynomials fit and everything has a
value. -/
theorem substitute_ne_of_wrap : ¬∀ (e : RootExpr MvPoly) (x : Var) (r : MvPoly)
    (values : Assignment) (a : Var → ℝ) (ρ : Var → ℚ) (s : Store), s.Valid → e.poly.Fits →
      r.Fits → x ≠ e.root → e.root ∉ r.vars →
      (∀ w ∈ e.vars, w ≠ x → ∃ n, values.lookup w = some n ∧ n.Denotes s (a w)) →
      (∀ w ∈ r.vars,
        ∃ n, values.lookup w = some n ∧ n.Denotes s (a w) ∧ n.form s = .rational (ρ w)) →
      (∀ w ∈ e.poly.vars, w ≠ 4294967295) → (∀ w ∈ r.vars, w ≠ 4294967295) →
        Settles (((e.machine .forward).substitute x r.raw).evaluate values) s
          fun _ _ => True := by
  intro h
  have hvars : square.vars = [1] := by decide_cbv
  have hpoly : square.poly.vars = [0, 1] := by decide_cbv
  have hvar : (MvPoly.varPower 2 2147483648).vars = [2] := by rfl
  obtain ⟨o, t, N, -, -, -, hexec⟩ := h square 1 (.varPower 2 2147483648) [(2, .ofInt 1)]
    (fun _ => 1) (fun _ => 1) {} Store.valid_empty (by decide_cbv) (by decide) (by decide)
    (by rw [hvar]; decide) (by rw [hvars]; simp)
    (by
      rw [hvar, List.forall_mem_singleton]
      exact ⟨_, rfl, by exact_mod_cast Number.denotes_ofRational {} 1, rfl⟩)
    (by rw [hpoly]; simp) (by rw [hvar]; simp)
  -- the error stays with more rounds
  have hsame := steady_evaluate ((square.machine .forward).substitute 1
    (MvPoly.varPower 2 2147483648).raw) [(2, .ofInt 1)] (Nat.le_max_left 1 N) {}
      (by rw [exec_evaluate_square]; simp)
  rw [hexec _ (Nat.le_max_right 1 N)] at hsame
  cases (congrArg Prod.fst hsame).trans exec_evaluate_square

end RootExpr

end AlgebraicReal
