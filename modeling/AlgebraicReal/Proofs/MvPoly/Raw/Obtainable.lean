import AlgebraicReal.Proofs.MvPoly.Raw.MonomialOrder
import AlgebraicReal.Proofs.MvPoly.Raw.Resultant
import Mathlib.Algebra.MvPolynomial.Funext

/-!
# What the operations can build

`MvPoly.Raw.Obtainable` is everything that can be built with the constructors and the operations on
term lists, one constructor for each of them, as long as the exponents that are added up make words,
also across the variables of a monomial: the total degree is a word too. Every step gives the term
list of a polynomial that fits (`Obtainable.exists_raw`), so the lists that can be built are the
canonical ones. Canonical lists are told apart by the polynomials they stand for, and those by their
values at rational points: equal values mean equal lists (`equality_of_obtainable`).

Exponents that are words do not suffice: in the product of powers of two variables the total degree
may wrap around all the same (`not_canonical_of_totalDegree_wrap`).
-/

open MvPolynomial

namespace AlgebraicReal

namespace Monomial.Raw

/-- The monomials that can be built. -/
inductive Obtainable : Raw → Prop
  | unit : Obtainable unit
  | power (v : Var) (k : UInt32) : Obtainable (power v k)
  | ofPowers {l : List (Var × UInt32)} (h : MvPoly.Raw.PowersFit l) : Obtainable (ofPowers l)
  | without {m : Raw} (hm : Obtainable m) (v : Var) : Obtainable (m.without v)
  | rename {m : Raw} (hm : Obtainable m) (v w : Var) : Obtainable (m.rename v w)
  | mul {m n : Raw} (hm : Obtainable m) (hn : Obtainable n) (h : m.ProductFits n) :
      Obtainable (m.mul n)
  | div {m n c : Raw} (hm : Obtainable m) (hn : Obtainable n) (h : m.div? n = some c) : Obtainable c

theorem Obtainable.canonical {m : Raw} (h : Obtainable m) : m.Canonical := by
  induction h with
  | unit => exact canonical_raw fits_unit
  | power v k => exact canonical_power v k
  | ofPowers h => exact ofPowers_eq _ ▸ canonical_raw h.fits
  | without _ v ihm =>
    obtain ⟨m, hm, rfl⟩ := canonical_iff.1 ihm
    exact without_raw hm ▸ canonical_raw (hm.without v)
  | rename _ v w ihm =>
    obtain ⟨m, hm, rfl⟩ := canonical_iff.1 ihm
    exact rename_raw hm ▸ canonical_raw (hm.rename v w)
  | mul _ _ h ihm ihn =>
    obtain ⟨m, hm, rfl⟩ := canonical_iff.1 ihm
    obtain ⟨n, hn, rfl⟩ := canonical_iff.1 ihn
    exact mul_raw hm hn ▸ canonical_raw ((productFits_raw hm hn).1 h)
  | div _ _ h ihm ihn => exact ((div?_eq_some_iff ihm ihn).1 h).1

end Monomial.Raw

namespace MvPoly.Raw

/-- The polynomials that can be built without an overflow. Products may be collected in tables that are
read in different orders. What a substitution, a division or a resultant multiplies on the way is said
of the polynomials whose term lists go in. -/
inductive Obtainable : Raw → Prop
  | zero : Obtainable []
  | constant (c : ℚ) : Obtainable (constant c)
  | varPower (v : Var) (k : UInt32) : Obtainable (varPower v k)
  | ofTerms {ts : List Term.Raw} (h : ∀ t ∈ ts, t.monomial.Obtainable) : Obtainable (ofTerms ts)
  | ofIntTerms {ts : List (ℤ × List (Var × UInt32))} (h : ∀ a ∈ ts, PowersFit a.2) :
      Obtainable (ofIntTerms ts)
  | ofCoeffs (v : Var) {cs : List ℚ} (h : cs.length ≤ 2 ^ 32) : Obtainable (ofCoeffs v cs)
  | coeff {p : Raw} (hp : Obtainable p) (v : Var) (k : ℕ) : Obtainable (coeff p v k)
  | coefficients {p c : Raw} (hp : Obtainable p) (v : Var) (hc : c ∈ coefficients p v) :
      Obtainable c
  | neg {p : Raw} (hp : Obtainable p) : Obtainable (neg p)
  | add {p q : Raw} (hp : Obtainable p) (hq : Obtainable q) : Obtainable (add p q)
  | sub {p q : Raw} (hp : Obtainable p) (hq : Obtainable q) : Obtainable (sub p q)
  | scale {p : Raw} (hp : Obtainable p) (c : ℚ) : Obtainable (scale p c)
  | mulTerm {p : Raw} {t : Term.Raw} (hp : Obtainable p) (ht : t.monomial.Obtainable)
      (h : p.totalDegree + t.monomial.totalDegree.toNat < 2 ^ 32) : Obtainable (mulTerm p t)
  | mul (reading : Reading) {p q : Raw} (hp : Obtainable p) (hq : Obtainable q)
      (h : p.totalDegree + q.totalDegree < 2 ^ 32) : Obtainable (mul reading p q)
  | pow (reading : Reading) {p : Raw} (hp : Obtainable p) {k : ℕ} (h : k * p.totalDegree < 2 ^ 32) :
      Obtainable (pow reading p k)
  | derivative {p : Raw} (hp : Obtainable p) (v : Var) : Obtainable (derivative p v)
  | substitute (reading : Reading) {f g : MvPoly} (hf : Obtainable f.raw) {v : Var}
      (hg : Obtainable g.raw) (h : SubstitutionFits f v g) :
      Obtainable (substitute reading f.raw v g.raw)
  | rename {p : Raw} (hp : Obtainable p) (v w : Var) : Obtainable (rename p v w)
  | evalAt {p : Raw} (hp : Obtainable p) (v : Var) (c : ℚ) : Obtainable (evalAt p v c)
  | quotient {f g : MvPoly} {q r : Raw} (hf : Obtainable f.raw) (hg : Obtainable g.raw)
      (hfits : f.DivisionFits g) (h : divRem? f.raw g.raw = some (q, r)) : Obtainable q
  | remainder {f g : MvPoly} {q r : Raw} (hf : Obtainable f.raw) (hg : Obtainable g.raw)
      (hfits : f.DivisionFits g) (h : divRem? f.raw g.raw = some (q, r)) : Obtainable r
  | resultant (reading : Reading) {f g : MvPoly} {r : Raw} (hf : Obtainable f.raw)
      (hg : Obtainable g.raw) {v : Var} (hfits : ResultantFits f g v)
      (h : resultant reading f.raw g.raw v = some r) : Obtainable r

/-- A quotient and its remainder are term lists of polynomials that fit. -/
theorem exists_raw_of_divRem? {f g : MvPoly} {q r : Raw} (hfits : f.DivisionFits g)
    (h : divRem? f.raw g.raw = some (q, r)) :
    (∃ q' : MvPoly, q'.Fits ∧ q'.raw = q) ∧ ∃ r' : MvPoly, r'.Fits ∧ r'.raw = r := by
  rw [divRem?_raw hfits] at h
  obtain ⟨⟨q', r'⟩, hdivision, hqr⟩ := Option.map_eq_some_iff.1 h
  obtain ⟨hq, hr⟩ := hfits.fits hdivision
  cases hqr
  exact ⟨⟨q', hq, rfl⟩, r', hr, rfl⟩

/-- Whatever is built is the term list of a polynomial that fits. -/
theorem Obtainable.exists_raw {p : Raw} (h : Obtainable p) :
    ∃ f : MvPoly, f.Fits ∧ f.raw = p := by
  induction h with
  | zero => exact ⟨.zero, fits_zero, rfl⟩
  | constant c => exact ⟨_, fits_constant c, (constant_eq c).symm⟩
  | varPower v k =>
    exact ⟨_, (totalDegree_varPower v k.toNat).trans_lt k.toNat_lt, (varPower_eq v k).symm⟩
  | ofTerms h => exact canonical_iff.1 (represents_ofTerms fun t ht => (h t ht).canonical).canonical
  | ofIntTerms h =>
    obtain ⟨f, -, hf, hfits⟩ := ofIntTerms_eq h
    exact ⟨f, hfits, hf.symm⟩
  | ofCoeffs v h => exact ⟨_, (ofCoeffs_eq v h).2, (ofCoeffs_eq v h).1.symm⟩
  | coeff _ v k ihp =>
    obtain ⟨f, hf, rfl⟩ := ihp
    exact ⟨_, hf.coeff v k, (coeff_raw hf k).symm⟩
  | coefficients _ v hc ihp =>
    obtain ⟨f, hf, rfl⟩ := ihp
    rw [coefficients_raw hf] at hc
    obtain ⟨c, hmem, rfl⟩ := List.mem_map.1 hc
    exact ⟨c, fits_of_mem_coefficients hf hmem, rfl⟩
  | neg _ ihp =>
    obtain ⟨f, hf, rfl⟩ := ihp
    exact ⟨_, hf.neg, (neg_raw hf).symm⟩
  | add _ _ ihp ihq =>
    obtain ⟨f, hf, rfl⟩ := ihp
    obtain ⟨g, hg, rfl⟩ := ihq
    exact ⟨_, hf.add hg, (add_raw hf hg).symm⟩
  | sub _ _ ihp ihq =>
    obtain ⟨f, hf, rfl⟩ := ihp
    obtain ⟨g, hg, rfl⟩ := ihq
    exact ⟨_, hf.sub hg, (sub_raw hf hg).symm⟩
  | scale _ c ihp =>
    obtain ⟨f, hf, rfl⟩ := ihp
    exact ⟨_, hf.scale c, (scale_raw hf c).symm⟩
  | @mulTerm _ t _ ht h ihp =>
    obtain ⟨f, hf, rfl⟩ := ihp
    -- the term that is multiplied in stands for one with exponents without a bound
    obtain ⟨m, hmfits, hm⟩ := Monomial.Raw.canonical_iff.1 ht.canonical
    rw [totalDegree_raw hf, ← hm, Monomial.raw, toNat_toUInt32 hmfits] at h
    refine ⟨f.mulTerm ⟨t.coeff, m⟩, (totalDegree_mulTerm_le _ _).trans_lt h, ?_⟩
    rw [← mulTerm_raw hf h, Term.raw, hm]
  | mul reading _ _ h ihp ihq =>
    obtain ⟨f, hf, rfl⟩ := ihp
    obtain ⟨g, hg, rfl⟩ := ihq
    rw [totalDegree_raw hf, totalDegree_raw hg] at h
    exact ⟨_, fits_mul h, (mul_raw reading h).symm⟩
  | pow reading _ h ihp =>
    obtain ⟨f, hf, rfl⟩ := ihp
    rw [totalDegree_raw hf] at h
    exact ⟨_, fits_pow h, (pow_raw reading h).symm⟩
  | derivative _ v ihp =>
    obtain ⟨f, hf, rfl⟩ := ihp
    exact ⟨_, hf.derivative v, (derivative_raw hf).symm⟩
  | substitute reading _ _ h =>
    obtain ⟨hcomputed, hfits⟩ := substitute_raw reading h
    exact ⟨_, hfits, hcomputed.symm⟩
  | rename _ v w ihp =>
    obtain ⟨f, hf, rfl⟩ := ihp
    exact ⟨_, hf.rename v w, (rename_raw hf w).symm⟩
  | evalAt _ v c ihp =>
    obtain ⟨f, hf, rfl⟩ := ihp
    exact ⟨_, hf.evalAt v c, (evalAt_raw hf c).symm⟩
  | quotient _ _ hfits h => exact (exists_raw_of_divRem? hfits h).1
  | remainder _ _ hfits h => exact (exists_raw_of_divRem? hfits h).2
  | resultant reading _ _ hfits h =>
    obtain ⟨hcomputed, hr⟩ := resultant_raw reading hfits
    rw [hcomputed] at h
    exact ⟨_, hr, Option.some.inj h⟩

/-- A division by anything but zero gives a result. -/
theorem divRem?_isSome_iff {f g : MvPoly} (h : f.DivisionFits g) :
    (divRem? f.raw g.raw).isSome = true ↔ g.raw ≠ [] := by
  rw [divRem?_raw h, Option.isSome_map, ne_eq, raw_eq_nil_iff, MvPoly.divRem?]
  split
  next h => exact iff_of_false Bool.false_ne_true (not_not.2 h)
  next h => exact iff_of_true rfl h

/-! ## Values -/

/-- The value at a rational point. -/
def value (x : Var → ℚ) (p : Raw) : ℚ :=
  (p.map fun t => t.coeff * (t.monomial.powers.map fun a => x a.1 ^ a.2.toNat).prod).sum

theorem prod_exponents (x : Var → ℚ) : ∀ l : List (Var × ℕ),
    (exponents l).prod (fun v k => x v ^ k) = (l.map fun a => x a.1 ^ a.2).prod
  | [] => Finsupp.prod_zero_index
  | (v, k) :: rest => by
    have hsingle : (Finsupp.single v k).prod (fun v k => x v ^ k) = x v ^ k :=
      Finsupp.prod_single_index (pow_zero _)
    show (Finsupp.single v k + exponents rest).prod _ = _
    rw [Finsupp.prod_add_index' (fun _ => pow_zero _) (fun _ _ _ => pow_add _ _ _), hsingle,
      prod_exponents x rest, List.map_cons, List.prod_cons]

theorem value_eq_eval (x : Var → ℚ) : ∀ p : Raw, value x p = eval x p.toPolynomial
  | [] => (map_zero (eval x)).symm
  | t :: p => by
    show _ + value x p = eval x (t.toPolynomial + toPolynomial p)
    rw [map_add, ← value_eq_eval x p, Term.Raw.toPolynomial, eval_monomial, prod_exponents,
      natPowers, List.map_map]
    rfl

theorem value_raw (x : Var → ℚ) {f : MvPoly} (h : f.Fits) :
    value x f.raw = eval x f.toPolynomial := by
  rw [value_eq_eval, toPolynomial_raw h]

/-! ## Equality -/

/-- Whatever is built without an overflow is canonical; two lists are equal exactly if their values
are; and products that fit do not depend on the order in which the table is read. Divisions by anything
but zero and resultants give a result. -/
theorem equality_of_obtainable :
    (∀ p : Raw, Obtainable p → p.Canonical) ∧
    (∀ p q : Raw, Obtainable p → Obtainable q → (p = q ↔ ∀ x : Var → ℚ, value x p = value x q)) ∧
    (∀ (reading reading' : Reading) (p q : Raw), Obtainable p → Obtainable q →
      p.totalDegree + q.totalDegree < 2 ^ 32 → mul reading p q = mul reading' p q) ∧
    (∀ f g : MvPoly, Obtainable f.raw → Obtainable g.raw → f.DivisionFits g →
      ((divRem? f.raw g.raw).isSome = true ↔ g.raw ≠ [])) ∧
    (∀ (reading : Reading) (f g : MvPoly) (v : Var), Obtainable f.raw → Obtainable g.raw →
      ResultantFits f g v → (resultant reading f.raw g.raw v).isSome = true) := by
  refine ⟨fun p hp => canonical_iff.2 hp.exists_raw, fun p q hp hq => ⟨?_, fun h => ?_⟩, ?_,
    fun f g _ _ => divRem?_isSome_iff, fun reading f g v _ _ hfits => ?_⟩
  · rintro rfl x
    rfl
  · -- polynomials of equal values are equal over an infinite field
    obtain ⟨f, hf, rfl⟩ := hp.exists_raw
    obtain ⟨g, hg, rfl⟩ := hq.exists_raw
    refine congrArg MvPoly.raw (toPolynomial_injective (MvPolynomial.funext fun x => ?_))
    rw [← value_raw x hf, ← value_raw x hg, h x]
  · rintro reading reading' p q hp hq h
    obtain ⟨f, hf, rfl⟩ := hp.exists_raw
    obtain ⟨g, hg, rfl⟩ := hq.exists_raw
    rw [totalDegree_raw hf, totalDegree_raw hg] at h
    rw [mul_raw reading h, mul_raw reading' h]
  · rw [(resultant_raw reading hfits).1]
    rfl

/-- `(x0 + x1) * (x0 - x1)` and `x0 ^ 2 - x1 ^ 2`. -/
theorem equality_of_squares :
    let x : MvPoly := ofVar 0
    let s : MvPoly := x.add (ofVar 1)
    let d : MvPoly := x.sub (ofVar 1)
    let product : Raw := mul .forward s.raw d.raw
    let difference : Raw := sub (pow .backward x.raw 2) (varPower 1 2)
    Obtainable product ∧ Obtainable difference ∧ product.Canonical ∧ product = difference ∧
      product ≠ x.raw ∧ mul .backward s.raw d.raw = product ∧
      (s.mul d).DivisionFits s ∧ (divRem? (s.mul d).raw s.raw).isSome = true ∧
      ResultantFits s d 0 ∧ (resultant .forward s.raw d.raw 0).isSome = true := by
  intro x s d product difference
  have hone : UInt32.toNat 1 = 1 := rfl
  have hx : Obtainable x.raw := by
    have h := Obtainable.varPower 0 1
    rwa [varPower_eq, hone] at h
  have hy : Obtainable (ofVar 1).raw := by
    have h := Obtainable.varPower 1 1
    rwa [varPower_eq, hone] at h
  have hxfits : x.Fits := by decide +kernel
  have hyfits : (ofVar 1).Fits := by decide +kernel
  have hs : Obtainable s.raw := add_raw hxfits hyfits ▸ .add hx hy
  have hd : Obtainable d.raw := sub_raw hxfits hyfits ▸ .sub hx hy
  have hdegrees : s.raw.totalDegree + d.raw.totalDegree < 2 ^ 32 := by decide_cbv
  have hproduct : Obtainable product := .mul _ hs hd hdegrees
  have hdifference : Obtainable difference := .sub (.pow _ hx (by decide_cbv)) (.varPower 1 2)
  obtain ⟨hcanonical, heq, hreading, hdiv, hresultant⟩ := equality_of_obtainable
  have hmul : product = (s.mul d).raw := mul_raw _ (by decide_cbv)
  have hmulfits : (s.mul d).Fits := fits_mul (by decide_cbv)
  have hvalue : ∀ z : Var → ℚ, value z product = (z 0 + z 1) * (z 0 - z 1) := fun z => by
    rw [hmul, value_raw z hmulfits]
    simp [s, d, x]
  have hvalue' : ∀ z : Var → ℚ, value z difference = z 0 ^ 2 - z 1 ^ 2 := fun z => by
    have hpow : pow .backward x.raw 2 = (x.pow 2).raw := pow_raw _ (by decide_cbv)
    rw [show difference = sub (pow .backward x.raw 2) (varPower 1 2) from rfl, hpow, varPower_eq,
      sub_raw (by decide +kernel) (by decide_cbv), value_raw z (by decide_cbv)]
    simp [x]
  have hfits : (s.mul d).DivisionFits s := by
    rw [show s.mul d = d.mul s by decide_cbv]
    exact divisionFits_mul (by decide_cbv) (by decide_cbv)
  refine ⟨hproduct, hdifference, hcanonical _ hproduct, ?_, fun h => ?_, ?_, hfits, ?_,
    by decide_cbv, ?_⟩
  · refine (heq _ _ hproduct hdifference).2 fun z => ?_
    rw [hvalue, hvalue']
    ring
  · have h2 := (heq _ _ hproduct hx).1 h fun _ => 2
    rw [hvalue, value_raw _ hxfits] at h2
    norm_num [x] at h2
  · exact hreading _ _ _ _ hs hd hdegrees
  · exact (hdiv _ _ (hmul ▸ hproduct) hs hfits).2 (by decide +kernel)
  · exact hresultant _ _ _ 0 hs hd (by decide_cbv)

/-- The exponents of `x0 ^ (2 ^ 32 - 1) * x1` are words, but the total degree is `2 ^ 32`, and zero is
kept for it. -/
theorem not_canonical_of_totalDegree_wrap : ¬∀ ts : List (ℤ × List (Var × UInt32)),
    (∀ a ∈ ts, ∀ v, exponents (natPowers a.2) v < 2 ^ 32) → (ofIntTerms ts).Canonical := by
  intro h
  have hcomputed : ofIntTerms [(1, [(0, 4294967295), (1, 1)])]
      = [⟨1, ⟨[(0, 4294967295), (1, 1)], 0⟩⟩] := by cbv
  have hcanonical := h [(1, [(0, 4294967295), (1, 1)])] fun a ha v => ?_
  · rw [hcomputed] at hcanonical
    exact absurd (hcanonical.proper _ List.mem_cons_self).totalDegree_eq (by decide)
  · rw [List.mem_singleton.1 ha]
    show (Finsupp.single 0 4294967295 + (Finsupp.single 1 1 + 0) : Var →₀ ℕ) v < 2 ^ 32
    rw [add_zero, Finsupp.add_apply, Finsupp.single_apply, Finsupp.single_apply]
    split
    next h0 =>
      rw [if_neg (by rw [← h0]; decide)]
      norm_num
    next => split <;> norm_num

end MvPoly.Raw

end AlgebraicReal
