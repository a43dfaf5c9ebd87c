import AlgebraicReal.Proofs.MvPoly.Renaming
import AlgebraicReal.Proofs.MvPoly.Raw.Obtainable

/-!
# Operations and values

Taking the value at a rational point turns every operation on polynomials into the operation on
rationals of the same name; a substitution becomes a change of the point. The operations come in two
implementations, on polynomials and on term lists, which collect, merge and reorder terms in
different ways. `MvPoly.Computes` ties the two results together and says what their value is, and
`MvPoly.evaluation_homomorphic` says it for all operations, as long as the exponents that they add up
make words. A product whose exponents wrap around has another value (`MvPoly.value_mul_ne`).
-/

open MvPolynomial

namespace AlgebraicReal

/-- The value of a term at a rational point. -/
def Term.value (t : Term) (x : Var → ℚ) : ℚ :=
  t.coeff * (t.monomial.powers.map fun a => x a.1 ^ a.2).prod

theorem Term.value_eq_aeval (t : Term) (x : Var → ℚ) : t.value x = aeval x t.toPolynomial := by
  rw [value, toPolynomial, aeval_eq_eval, eval_monomial, Monomial.toExponents,
    MvPoly.Raw.prod_exponents]

namespace MvPoly

/-- The value of a polynomial at a rational point, term by term. -/
def value (p : MvPoly) (x : Var → ℚ) : ℚ := (p.terms.map fun t => t.value x).sum

/-- The computed value is the value of the polynomial. -/
theorem value_eq_aeval (p : MvPoly) (x : Var → ℚ) : p.value x = aeval x p.toPolynomial := by
  unfold value toPolynomial
  induction p.terms with
  | nil => exact (map_zero _).symm
  | cons t ts ih =>
    rw [List.map_cons, List.sum_cons, ih, t.value_eq_aeval, termsPolynomial, map_add]

/-- Where the exponents fit, words for them give the same value. -/
theorem value_eq_raw {p : MvPoly} (h : p.Fits) (x : Var → ℚ) : Raw.value x p.raw = p.value x := by
  rw [value_eq_aeval, Raw.value_raw x h, aeval_eq_eval]

/-! ## One operation at a time -/

section

variable (p q r : MvPoly) (x : Var → ℚ) (v w : Var)

@[simp] theorem value_add : (p.add q).value x = p.value x + q.value x := by
  rw [value_eq_aeval, value_eq_aeval, value_eq_aeval, toPolynomial_add, map_add]

@[simp] theorem value_sub : (p.sub q).value x = p.value x - q.value x := by
  rw [value_eq_aeval, value_eq_aeval, value_eq_aeval, toPolynomial_sub, map_sub]

@[simp] theorem value_neg : p.neg.value x = -p.value x := by
  rw [value_eq_aeval, value_eq_aeval, toPolynomial_neg, map_neg]

/-- Evaluation is a homomorphism. -/
@[simp] theorem value_mul : (p.mul q).value x = p.value x * q.value x := by
  rw [value_eq_aeval, value_eq_aeval, value_eq_aeval, toPolynomial_mul, map_mul]

@[simp] theorem value_scale (c : ℚ) : (p.scale c).value x = c * p.value x := by
  rw [value_eq_aeval, value_eq_aeval, toPolynomial_scale, map_mul, aeval_C]
  rfl

@[simp] theorem value_mulTerm (t : Term) : (p.mulTerm t).value x = p.value x * t.value x := by
  rw [value_eq_aeval, value_eq_aeval, t.value_eq_aeval, toPolynomial_mulTerm, map_mul]

@[simp] theorem value_pow (k : ℕ) : (p.pow k).value x = p.value x ^ k := by
  rw [value_eq_aeval, value_eq_aeval, toPolynomial_pow, map_pow]

/-- To put a polynomial in is to evaluate it first. -/
@[simp] theorem value_substitute :
    (p.substitute v r).value x = p.value (Function.update x v (r.value x)) := by
  rw [value_eq_aeval, value_eq_aeval, value_eq_aeval, aeval_substitute]

/-- To rename a variable is to read the value of another one. -/
@[simp] theorem value_rename : (p.rename v w).value x = p.value (Function.update x v (x w)) := by
  rw [value_eq_aeval, value_eq_aeval, aeval_rename]

@[simp] theorem value_evalAt (c : ℚ) :
    (p.evalAt v c).value x = p.value (Function.update x v c) := by
  rw [value_eq_aeval, value_eq_aeval, aeval_evalAt]
  rfl

end

/-! ## All operations, in both implementations -/

/-- A term list and a polynomial that are the same, and the value that they have at every point. -/
structure Computes (list : Raw) (p : MvPoly) (value : (Var → ℚ) → ℚ) : Prop where
  list_eq : list = p.raw
  fits : p.Fits
  value_eq : ∀ x, Raw.value x list = value x

/-- A list that stands for a polynomial with the right values. -/
theorem Computes.of_value {list : Raw} {p : MvPoly} {value : (Var → ℚ) → ℚ} (hlist : list = p.raw)
    (hfits : p.Fits) (hvalue : ∀ x, p.value x = value x) : Computes list p value where
  list_eq := hlist
  fits := hfits
  value_eq x := by rw [hlist, value_eq_raw hfits, hvalue]

/-- At every rational point the results of the operations have the sum, the difference, the opposite,
the product, the multiple, the product with the term and the power of the values of the operands. A
substitution, a renaming and a partial evaluation have the value at the point with the coordinate of
the variable replaced, whether or not the variable occurs in what is put in its place and whether or
not the new name occurs already; and a variable that has been given a value is gone. Where exponents
are added up, what comes out has to fit. -/
theorem evaluation_homomorphic (reading : Reading) {p q r : MvPoly} (hp : p.Fits) (hq : q.Fits)
    (t : Term) (c : ℚ) (k : ℕ) (v w : Var) :
    Computes (Raw.add p.raw q.raw) (p.add q) (fun x => p.value x + q.value x) ∧
    Computes (Raw.sub p.raw q.raw) (p.sub q) (fun x => p.value x - q.value x) ∧
    Computes (Raw.neg p.raw) p.neg (fun x => -p.value x) ∧
    (p.totalDegree + q.totalDegree < 2 ^ 32 →
      Computes (Raw.mul reading p.raw q.raw) (p.mul q) (fun x => p.value x * q.value x)) ∧
    Computes (Raw.scale p.raw c) (p.scale c) (fun x => c * p.value x) ∧
    (p.totalDegree + t.monomial.totalDegree < 2 ^ 32 →
      Computes (Raw.mulTerm p.raw t.raw) (p.mulTerm t) (fun x => p.value x * t.value x)) ∧
    (k * p.totalDegree < 2 ^ 32 →
      Computes (Raw.pow reading p.raw k) (p.pow k) (fun x => p.value x ^ k)) ∧
    (Raw.SubstitutionFits p v r →
      Computes (Raw.substitute reading p.raw v r.raw) (p.substitute v r)
        (fun x => p.value (Function.update x v (r.value x)))) ∧
    Computes (Raw.rename p.raw v w) (p.rename v w) (fun x => p.value (Function.update x v (x w))) ∧
    Computes (Raw.evalAt p.raw v c) (p.evalAt v c) (fun x => p.value (Function.update x v c)) ∧
    v ∉ (p.evalAt v c).vars :=
  ⟨.of_value (Raw.add_raw hp hq) (hp.add hq) (p.value_add q),
    .of_value (Raw.sub_raw hp hq) (hp.sub hq) (p.value_sub q),
    .of_value (Raw.neg_raw hp) hp.neg p.value_neg,
    fun h => .of_value (Raw.mul_raw reading h) (Raw.fits_mul h) (p.value_mul q),
    .of_value (Raw.scale_raw hp c) (hp.scale c) (p.value_scale · c),
    fun h => .of_value (Raw.mulTerm_raw hp h) ((totalDegree_mulTerm_le p t).trans_lt h)
      (p.value_mulTerm · t),
    fun h => .of_value (Raw.pow_raw reading h) (Raw.fits_pow h) (p.value_pow · k),
    fun h => .of_value (Raw.substitute_raw reading h).1 (Raw.substitute_raw reading h).2
      (p.value_substitute r · v),
    .of_value (Raw.rename_raw hp w) (hp.rename v w) (p.value_rename · v w),
    .of_value (Raw.evalAt_raw hp c) (hp.evalAt v c) (p.value_evalAt · v c),
    fun h => (mem_vars_of_mem_vars_evalAt h).2 rfl⟩

/-- `p = x0 x1 + 1`, `q = x1²` and the term `3 x0`: their products, the cube of `p`, and `p` with `q` in
the place of `x0`. -/
theorem evaluation_homomorphic_cubic :
    let p := ((ofVar 0).mul (ofVar 1)).add one
    let q := (ofVar 1).mul (ofVar 1)
    let t : Term := ⟨3, .ofVar 0⟩
    p.Fits ∧ q.Fits ∧
      (∀ x, Raw.value x (Raw.mul .backward p.raw q.raw) = p.value x * q.value x) ∧
      (∀ x, Raw.value x (Raw.mulTerm p.raw t.raw) = p.value x * t.value x) ∧
      (∀ x, Raw.value x (Raw.pow .backward p.raw 3) = p.value x ^ 3) ∧
      ∀ x, Raw.value x (Raw.substitute .backward p.raw 0 q.raw)
        = p.value (Function.update x 0 (q.value x)) := by
  intro p q t
  have hp : p.Fits := by decide_cbv
  have hq : q.Fits := by decide_cbv
  obtain ⟨-, -, -, hmul, -, hterm, hpow, hsubstitute, -⟩ :=
    evaluation_homomorphic .backward (r := q) hp hq t 0 3 0 0
  exact ⟨hp, hq, (hmul (by decide_cbv)).value_eq, (hterm (by decide_cbv)).value_eq,
    (hpow (by decide_cbv)).value_eq, (hsubstitute (by decide_cbv)).value_eq⟩

/-- The exponents `2 ^ 31` and `2 ^ 31 + 1` make `1`. -/
theorem value_mul_ne : ¬∀ p q : MvPoly, p.Fits → q.Fits →
    ∀ x, Raw.value x (Raw.mul .forward p.raw q.raw) = p.value x * q.value x := by
  intro h
  have hcomputed : Raw.mul .forward (Raw.varPower 1 2147483648) (Raw.varPower 1 2147483649)
      = Raw.varPower 1 1 := by cbv
  have hvalue := h (varPower 1 2147483648) (varPower 1 2147483649) (by decide_cbv)
    (by decide_cbv) fun _ => 2
  have hp : (varPower 1 2147483648).raw = Raw.varPower 1 2147483648 := by decide_cbv
  have hq : (varPower 1 2147483649).raw = Raw.varPower 1 2147483649 := by decide_cbv
  have hone : Raw.varPower 1 1 = (varPower 1 1).raw := by decide_cbv
  rw [hp, hq, hcomputed, hone, value_eq_raw (by decide_cbv), value_eq_aeval, value_eq_aeval,
    value_eq_aeval, toPolynomial_varPower, toPolynomial_varPower, toPolynomial_varPower, map_pow,
    map_pow, map_pow, aeval_X, pow_one, pow_succ _ 2147483648] at hvalue
  have hlarge : (1 : ℚ) < 2 ^ 2147483648 := one_lt_pow₀ one_lt_two (by decide)
  generalize (2 : ℚ) ^ 2147483648 = z at hvalue hlarge
  nlinarith

end MvPoly

end AlgebraicReal
