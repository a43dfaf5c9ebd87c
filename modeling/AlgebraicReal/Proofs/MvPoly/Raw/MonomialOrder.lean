import AlgebraicReal.Proofs.MvPoly.Order
import AlgebraicReal.Proofs.MvPoly.Raw.Monomial
import AlgebraicReal.MvPoly.Raw.Order

/-!
# The order of monomials

Comparing two lists in step is the lexicographic comparison of lists (`compareInStep_eq`), so it is
a total order whenever the comparison of the entries is one. Of two sorted lists of powers the first
difference is met at the most significant variable in which the exponents differ, also where only
one of the two has that variable: then it comes before what the other list has in this place. So
monomials are compared as their exponents, which makes the order compatible with products that fit
into words, and leaves no infinite descents (`Monomial.Raw.monomialOrder_exact`). A product that wraps
around may change places (`Monomial.Raw.mul_not_monotone`).

`TotallyOrders` says of any comparison, also of one that is a relation, that it is a total order. It
is proved by comparing keys (`TotallyOrders.of_key`).
-/

open Std

namespace AlgebraicReal

/-! ## Total orders -/

section

variable {α β : Type} {P : α → Prop} {outcome : α → α → Ordering → Prop} {same : α → α → Prop}

/-- The outcomes of a comparison make a total order on what has the property `P`, in which only the
same elements are equal. A comparison may be a relation, so that it has one outcome is a part of
this. -/
structure TotallyOrders (P : α → Prop) (outcome : α → α → Ordering → Prop)
    (same : α → α → Prop) : Prop where
  exists_unique : ∀ a b, P a → P b → ∃! o, outcome a b o
  swap : ∀ a b o, P a → P b → (outcome a b o ↔ outcome b a o.swap)
  total : ∀ a b, P a → P b → ¬outcome a b .gt ∨ ¬outcome b a .gt
  antisymm : ∀ a b, P a → P b → ¬outcome a b .gt → ¬outcome b a .gt → same a b
  trans : ∀ a b c, P a → P b → P c → ¬outcome a b .gt → ¬outcome b c .gt → ¬outcome a c .gt
  eq_iff : ∀ a b, P a → P b → (outcome a b .eq ↔ same a b)

/-- A comparison by a key is a total order if that of the keys is. -/
theorem TotallyOrders.of_key (cmp : β → β → Ordering) [TransCmp cmp] [LawfulEqCmp cmp]
    (key : α → β → Prop) (hkey : ∀ a, P a → ∃ k, key a k)
    (houtcome : ∀ {a b j k}, key a j → key b k → ∀ o, outcome a b o ↔ cmp j k = o)
    (hsame : ∀ {a b j k}, key a j → key b k → (same a b ↔ j = k)) :
    TotallyOrders P outcome same := by
  have hswap : ∀ j k, cmp k j = (cmp j k).swap := fun _ _ => OrientedCmp.eq_swap
  have hle : ∀ {a b j k}, key a j → key b k → (¬outcome a b .gt ↔ (cmp j k).isLE = true) := by
    intro a b j k hj hk
    rw [houtcome hj hk, Ordering.ne_gt_iff_isLE]
  -- each law is that of the comparison of keys
  constructor
  case exists_unique =>
    intro a b ha hb
    obtain ⟨j, hj⟩ := hkey a ha
    obtain ⟨k, hk⟩ := hkey b hb
    simp only [houtcome hj hk]
    exact existsUnique_eq'
  case swap =>
    intro a b o ha hb
    obtain ⟨j, hj⟩ := hkey a ha
    obtain ⟨k, hk⟩ := hkey b hb
    rw [houtcome hj hk, houtcome hk hj, hswap j k, Ordering.swap_inj]
  case total =>
    intro a b ha hb
    obtain ⟨j, hj⟩ := hkey a ha
    obtain ⟨k, hk⟩ := hkey b hb
    rw [houtcome hj hk, houtcome hk hj, hswap j k]
    cases cmp j k <;> decide
  case antisymm =>
    intro a b ha hb hab hba
    obtain ⟨j, hj⟩ := hkey a ha
    obtain ⟨k, hk⟩ := hkey b hb
    have heq := OrientedCmp.isLE_antisymm ((hle hj hk).1 hab) ((hle hk hj).1 hba)
    exact (hsame hj hk).2 (LawfulEqCmp.eq_of_compare heq)
  case trans =>
    intro a b c ha hb hc hab hbc
    obtain ⟨i, hi⟩ := hkey a ha
    obtain ⟨j, hj⟩ := hkey b hb
    obtain ⟨k, hk⟩ := hkey c hc
    exact (hle hi hk).2 (TransCmp.isLE_trans ((hle hi hj).1 hab) ((hle hj hk).1 hbc))
  case eq_iff =>
    intro a b ha hb
    obtain ⟨j, hj⟩ := hkey a ha
    obtain ⟨k, hk⟩ := hkey b hb
    rw [houtcome hj hk, hsame hj hk, LawfulEqCmp.compare_eq_iff_eq]

end

/-! ## Monomials -/

namespace Monomial

theorem compare_eq_compareLex (m n : Monomial) :
    m.compare n = List.compareLex comparePowers m.powers n.powers := compareLex_eq _ _

instance : TransCmp Monomial.compare where
  eq_swap {m n} := (compare_swap n m).symm
  isLE_trans {l m n} := by
    rw [compare_eq_compareLex, compare_eq_compareLex, compare_eq_compareLex]
    exact TransCmp.isLE_trans

instance : LawfulEqCmp Monomial.compare where
  compare_self := compare_self _
  eq_of_compare := eq_of_compare_eq

/-! ### The exponents decide -/

attribute [local instance] Var.linearOrder

variable {m n c : Monomial}

/-- The most significant variable with different exponents decides, whether or not it occurs in
both. -/
theorem compare_lt_iff_degree : m.compare n = .lt ↔
    ∃ v, (∀ u, u < v → m.degree u = n.degree u) ∧ m.degree v < n.degree v := by
  rw [compare_lt_iff, MonomialOrder.lex_lt_iff, Finsupp.Lex.lt_iff]
  simp only [← toExponents_apply]
  rfl

/-- A product with a common factor keeps the order. -/
theorem compare_mul_right (h : m.compare n = .lt) : (m.mul c).compare (n.mul c) = .lt := by
  rw [compare_lt_iff] at h ⊢
  rw [toExponents_mul, toExponents_mul, map_add, map_add]
  exact add_lt_add_left h _

theorem unit_compare_ne_gt (m : Monomial) : unit.compare m ≠ .gt := by
  rw [ne_eq, compare_gt_iff, toExponents_unit, map_zero]
  exact (lexOrder.zero_le _).not_gt

/-- There are no infinite descents. -/
theorem wellFounded_compare : WellFounded fun m n : Monomial => m.compare n = .lt := by
  simp only [compare_lt_iff]
  exact InvImage.wf (fun m : Monomial => lexOrder.toSyn m.toExponents) wellFounded_lt

/-! ### Monomials without proofs -/

namespace Raw

/-- The total degree of the product is a word. -/
def ProductFits (m n : Raw) : Prop := m.totalDegree.toNat + n.totalDegree.toNat < 2 ^ 32

theorem productFits_raw (hm : m.Fits) (hn : n.Fits) :
    m.raw.ProductFits n.raw ↔ (m.mul n).Fits := by
  unfold ProductFits Monomial.Fits
  rw [totalDegree_mul, raw, raw, toNat_toUInt32 hm, toNat_toUInt32 hn]

theorem totallyOrders_compare :
    TotallyOrders Canonical (fun m n o => m.compare n = o) (· = ·) := by
  refine .of_key Monomial.compare (fun m n => n.Fits ∧ n.raw = m) ?_ ?_ ?_
  · exact fun m hm => canonical_iff.1 hm
  · intro m n j k hm hn o
    rw [← hm.2, ← hn.2, compare_raw hm.1 hn.1]
  · intro m n j k hm hn
    rw [← hm.2, ← hn.2]
    exact ⟨hm.1.raw_inj hn.1, congrArg raw⟩

/-- No sequence of canonical monomials descends for ever. -/
theorem exists_compare_ne_lt {f : ℕ → Raw} (hf : ∀ i, (f i).Canonical) :
    ∃ i, (f (i + 1)).compare (f i) ≠ .lt := by
  choose g hfits hg using fun i => canonical_iff.1 (hf i)
  by_contra! hdescends
  have hchain : ∀ i, (g (i + 1)).compare (g i) = .lt := by
    intro i
    rw [← compare_raw (hfits _) (hfits _), hg, hg]
    exact hdescends i
  exact (wellFounded_iff_isEmpty_descending_chain.1 wellFounded_compare).false ⟨g, hchain⟩

/-- The quotient is the canonical monomial whose product with the divisor is the dividend. -/
theorem div?_eq_some_iff {m n c : Raw} (hm : m.Canonical) (hn : n.Canonical) :
    m.div? n = some c ↔ c.Canonical ∧ n.ProductFits c ∧ n.mul c = m := by
  obtain ⟨m, hmfits, rfl⟩ := canonical_iff.1 hm
  obtain ⟨n, hnfits, rfl⟩ := canonical_iff.1 hn
  rw [div?_raw hmfits hnfits, Option.map_eq_some_iff]
  constructor
  · intro h
    obtain ⟨d, hd, rfl⟩ := h
    have hmul := Monomial.div?_eq_some_iff.1 hd
    have hdfits : d.Fits := by
      refine Nat.lt_of_le_of_lt ?_ hmfits
      rw [← hmul, totalDegree_mul]
      exact Nat.le_add_left _ _
    rw [productFits_raw hnfits hdfits, mul_raw hnfits hdfits, hmul]
    exact ⟨canonical_raw hdfits, hmfits, rfl⟩
  · rintro ⟨hc, hfits, hmul⟩
    obtain ⟨d, hdfits, rfl⟩ := canonical_iff.1 hc
    rw [productFits_raw hnfits hdfits] at hfits
    rw [mul_raw hnfits hdfits] at hmul
    exact ⟨d, Monomial.div?_eq_some_iff.2 (hfits.raw_inj hmfits hmul), rfl⟩

/-- Canonical monomials are compared as their exponents, lexicographically from the smallest
variable on. That is a total order in which only identical monomials are equal. The unit is least,
products with one factor keep the order as long as they fit into words, and nothing descends for ever,
in whatever variables. A quotient is found exactly if there is one, and it is the monomial whose
product with the divisor fits and is the dividend. -/
theorem monomialOrder_exact :
    TotallyOrders Canonical (fun m n o => m.compare n = o) (· = ·) ∧
    (∀ m n : Raw, m.Canonical → n.Canonical → (m.compare n = .lt ↔
      ∃ v, (∀ u, u < v → m.degree u = n.degree u) ∧ m.degree v < n.degree v)) ∧
    (∀ m : Raw, m.Canonical → unit.compare m ≠ .gt) ∧
    (∀ m n c : Raw, m.Canonical → n.Canonical → c.Canonical → m.ProductFits c → n.ProductFits c →
      m.compare n = .lt → (m.mul c).compare (n.mul c) = .lt) ∧
    (∀ f : ℕ → Raw, (∀ i, (f i).Canonical) → ∃ i, (f (i + 1)).compare (f i) ≠ .lt) ∧
    ∀ m n : Raw, m.Canonical → n.Canonical →
      (∀ c, m.div? n = some c ↔ c.Canonical ∧ n.ProductFits c ∧ n.mul c = m) ∧
      (m.div? n = none ↔ ¬∃ c : Raw, c.Canonical ∧ n.ProductFits c ∧ n.mul c = m) := by
  refine ⟨totallyOrders_compare, ?_, ?_, ?_, fun f hf => exists_compare_ne_lt hf, ?_⟩
  · intro m n hm hn
    obtain ⟨m, hmfits, rfl⟩ := canonical_iff.1 hm
    obtain ⟨n, hnfits, rfl⟩ := canonical_iff.1 hn
    simp only [degree_raw hmfits, degree_raw hnfits]
    rw [compare_raw hmfits hnfits, compare_lt_iff_degree]
  · intro m hm
    obtain ⟨m, hmfits, rfl⟩ := canonical_iff.1 hm
    exact compare_raw fits_unit hmfits ▸ unit_compare_ne_gt m
  · -- a product that fits is the product of the exact monomials, where the order is compatible
    intro m n c hm hn hc hmc hnc h
    obtain ⟨m, hmfits, rfl⟩ := canonical_iff.1 hm
    obtain ⟨n, hnfits, rfl⟩ := canonical_iff.1 hn
    obtain ⟨c, hcfits, rfl⟩ := canonical_iff.1 hc
    rw [productFits_raw hmfits hcfits] at hmc
    rw [productFits_raw hnfits hcfits] at hnc
    rw [compare_raw hmfits hnfits] at h
    rw [mul_raw hmfits hcfits, mul_raw hnfits hcfits, compare_raw hmc hnc]
    exact compare_mul_right h
  · intro m n hm hn
    refine ⟨fun c => div?_eq_some_iff hm hn, ?_⟩
    rw [Option.eq_none_iff_forall_ne_some, not_exists]
    exact forall_congr' fun c => not_congr (div?_eq_some_iff hm hn)

theorem canonical_power (v : Var) (k : UInt32) : (power v k).Canonical := by
  rw [power_eq]
  exact canonical_raw ((totalDegree_power v k.toNat).trans_lt k.toNat_lt)

/-- The cube of `x1` is less than `x0`, and stays so when both are multiplied; it is a factor of the
product, but `x0` is no factor of the cube. -/
theorem monomialOrder_powers :
    (power 0 1).Canonical ∧ (power 1 3).Canonical ∧ (power 0 1).ProductFits (power 1 3) ∧
    (power 1 3).ProductFits (power 1 3) ∧ (power 1 3).compare (power 0 1) = .lt ∧
    ((power 1 3).mul (power 1 3)).compare ((power 0 1).mul (power 1 3)) = .lt ∧
    ((power 0 1).mul (power 1 3)).Canonical ∧
    ((power 0 1).mul (power 1 3)).div? (power 0 1) = some (power 1 3) ∧
    (¬∃ c : Raw, c.Canonical ∧ (power 0 1).ProductFits c ∧ (power 0 1).mul c = power 1 3) ∧
    ¬(power 1 3).compare unit = .lt := by
  have hx := canonical_power 0 1
  have hy := canonical_power 1 3
  have hxy : (power 0 1).ProductFits (power 1 3) := by unfold ProductFits; decide
  have hyy : (power 1 3).ProductFits (power 1 3) := by unfold ProductFits; decide
  have hproduct : ((power 0 1).mul (power 1 3)).Canonical :=
    canonical_iff.2 ⟨(Monomial.power 0 1).mul (.power 1 3), by decide, by cbv⟩
  obtain ⟨horder, hlt, hunit, hmul, -, hdiv⟩ := monomialOrder_exact
  have hless : (power 1 3).compare (power 0 1) = .lt :=
    (hlt _ _ hy hx).2 ⟨0, fun u hu => absurd hu UInt32.not_lt_zero, by decide⟩
  refine ⟨hx, hy, hxy, hyy, hless, hmul _ _ _ hy hx hy hyy hxy hless, hproduct, ?_, ?_, ?_⟩
  · exact ((hdiv _ _ hproduct hx).1 _).2 ⟨hy, hxy, rfl⟩
  · exact (hdiv _ _ hy hx).2.1 rfl
  · intro h
    exact hunit _ hy ((horder.swap _ _ _ hy (canonical_raw fits_unit)).1 h)

/-- Where the exponent wraps around, the greater factor gives the smaller product: `x1 ^ 2 ^ 32` is
kept with the exponent zero. -/
theorem mul_not_monotone : ¬∀ m n c : Raw, m.Canonical → n.Canonical → c.Canonical →
    m.compare n = .lt → (m.mul c).compare (n.mul c) = .lt := by
  intro h
  have hgt := h unit (power 1 1) (power 1 4294967295) (canonical_raw fits_unit) (canonical_power 1 1)
    (canonical_power 1 4294967295) (by decide)
  have hwrapped : (unit.mul (power 1 4294967295)).compare ((power 1 1).mul (power 1 4294967295))
      = .gt := by cbv
  rw [hwrapped] at hgt
  cases hgt

end Raw

end Monomial

end AlgebraicReal
