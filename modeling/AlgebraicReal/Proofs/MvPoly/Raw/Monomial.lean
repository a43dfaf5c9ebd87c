import AlgebraicReal.Proofs.MvPoly.Degree
import AlgebraicReal.Proofs.MvPoly.Order
import AlgebraicReal.MvPoly.Raw

/-!
# Monomials in machine words

A monomial is kept as a list of powers and a total degree (`Monomial.raw`), with words of 32 bits for
the numbers. Nothing is lost of a monomial that fits (`Monomial.Fits`), and what is kept of those is
canonical (`Monomial.Raw.canonical_iff`). Any list of powers gives the words of the monomial with its
exponents added up without bound (`ofPowers_eq`), so the operations on monomials that fit are right as
long as the result fits too. Sorting brings equal variables together, and merging adds them up.
-/

open MvPolynomial Std

namespace AlgebraicReal

/-! ## Merging neighbours -/

section

variable {α κ : Type} {same : α → α → Bool} {merge : α → α → α} {r : κ → κ → Prop}

/-- To merge neighbours brings no new key. -/
theorem key_mem_mergeAdjacent (key : α → κ) (hmerge : ∀ a b, key (merge a b) = key a) :
    ∀ (l : List α), ∀ x ∈ mergeAdjacent same merge l, ∃ y ∈ l, key y = key x := by
  intro l
  fun_induction mergeAdjacent same merge l with
  | case1 a b rest _ ih =>
    intro x hx
    obtain ⟨y, hy, hkey⟩ := ih x hx
    rcases List.mem_cons.1 hy with rfl | hy
    · exact ⟨a, List.mem_cons_self, by rw [← hkey, hmerge]⟩
    · exact ⟨y, List.mem_cons_of_mem _ (List.mem_cons_of_mem _ hy), hkey⟩
  | case2 a b rest _ ih =>
    intro x hx
    rcases List.mem_cons.1 hx with rfl | hx
    · exact ⟨x, List.mem_cons_self, rfl⟩
    · obtain ⟨y, hy, hkey⟩ := ih x hx
      exact ⟨y, List.mem_cons_of_mem _ hy, hkey⟩
  | case3 l _ => exact fun x hx => ⟨x, hx, rfl⟩

/-- If elements with one key are neighbours, afterwards each key comes once, in the same order. -/
theorem pairwise_mergeAdjacent (key : α → κ)
    (hsame : ∀ a b, same a b = true ↔ key a = key b)
    (hmerge : ∀ a b, key (merge a b) = key a) (htrans : ∀ {i j k}, r i j → r j k → r i k) :
    ∀ (l : List α), l.Pairwise (fun a b => key a = key b ∨ r (key a) (key b)) →
      (mergeAdjacent same merge l).Pairwise fun a b => r (key a) (key b) := by
  intro l
  fun_induction mergeAdjacent same merge l with
  | case1 a b rest _ ih =>
    intro h
    obtain ⟨ha, h⟩ := List.pairwise_cons.1 h
    refine ih (List.pairwise_cons.2 ⟨fun x hx => ?_, (List.pairwise_cons.1 h).2⟩)
    rw [hmerge]
    exact ha x (List.mem_cons_of_mem b hx)
  | case2 a b rest hab ih =>
    intro h
    obtain ⟨ha, hrest⟩ := List.pairwise_cons.1 h
    refine List.pairwise_cons.2 ⟨fun x hx => ?_, ih hrest⟩
    obtain ⟨y, hy, hkey⟩ := key_mem_mergeAdjacent key hmerge _ x hx
    have hab' : r (key a) (key b) := (ha b List.mem_cons_self).resolve_left fun he =>
      hab ((hsame a b).2 he)
    rw [← hkey]
    rcases List.mem_cons.1 hy with rfl | hy
    · exact hab'
    · rcases (List.pairwise_cons.1 hrest).1 y hy with he | hr
      · -- in the rest the keys may still be alike, and then `b` stands for them
        exact he ▸ hab'
      · exact htrans hab' hr
  | case3 l hl =>
    intro _
    match l with
    | [] => exact .nil
    | [a] => exact List.pairwise_singleton _ a
    | a :: b :: rest => exact absurd rfl (hl a b rest)

/-- Nothing is lost of a quantity that adds up. -/
theorem sum_mergeAdjacent {M : Type} [AddCommMonoid M] {f : α → M}
    (hsum : ∀ a b, same a b = true → f (merge a b) = f a + f b) (l : List α) :
    ((mergeAdjacent same merge l).map f).sum = (l.map f).sum := by
  fun_induction mergeAdjacent same merge l with
  | case1 a b rest hab ih =>
    rw [ih, List.map_cons, List.sum_cons, hsum a b hab, List.map_cons, List.map_cons,
      List.sum_cons, List.sum_cons, add_assoc]
  | case2 a b rest _ ih =>
    rw [List.map_cons, List.sum_cons, ih, List.map_cons (a := a), List.sum_cons (a := f a)]
  | case3 l _ => rfl

/-- What merging keeps is true of the merged list. -/
theorem forall_mergeAdjacent {P : α → Prop} (hmerge : ∀ a b, P a → P b → P (merge a b)) :
    ∀ (l : List α), (∀ a ∈ l, P a) → ∀ a ∈ mergeAdjacent same merge l, P a := by
  intro l
  fun_induction mergeAdjacent same merge l with
  | case1 a b rest _ ih =>
    intro h
    rw [List.forall_mem_cons, List.forall_mem_cons] at h
    exact ih (List.forall_mem_cons.2 ⟨hmerge a b h.1 h.2.1, h.2.2⟩)
  | case2 a b rest _ ih =>
    intro h
    rw [List.forall_mem_cons] at h
    exact List.forall_mem_cons.2 ⟨h.1, ih h.2⟩
  | case3 l _ => exact id

/-- Merging goes along with a map that keeps what is merged. -/
theorem mergeAdjacent_map {β : Type} {same' : β → β → Bool} {merge' : β → β → β} {f : β → α}
    (hsame : ∀ a b, same (f a) (f b) = same' a b) (hmerge : ∀ a b, merge (f a) (f b) = f (merge' a b))
    (l : List β) : mergeAdjacent same merge (l.map f) = (mergeAdjacent same' merge' l).map f := by
  fun_induction mergeAdjacent same' merge' l with
  | case1 a b rest hab ih =>
    rw [List.map_cons, List.map_cons, mergeAdjacent, if_pos ((hsame a b).trans hab), hmerge, ← ih,
      List.map_cons]
  | case2 a b rest hab ih =>
    rw [List.map_cons, List.map_cons, mergeAdjacent, if_neg (hsame a b ▸ hab), ← List.map_cons, ih,
      List.map_cons]
  | case3 l hl =>
    match l with
    | [] => simp only [List.map_nil, mergeAdjacent]
    | [a] => simp only [List.map_cons, List.map_nil, mergeAdjacent]
    | a :: b :: rest => exact absurd rfl (hl a b rest)

end

/-- Sorting by a variable brings equal variables together. -/
theorem pairwise_mergeSort_key {α : Type} (key : α → Var) (l : List α) :
    (l.mergeSort fun a b => key a ≤ key b).Pairwise fun a b => key a = key b ∨ key a < key b := by
  refine (List.pairwise_mergeSort (fun a b c => ?_) (fun a b => ?_) l).imp fun {a b} h => ?_
  · simpa using UInt32.le_trans
  · simpa using UInt32.le_total (key a) (key b)
  · exact (UInt32.le_iff_lt_or_eq.1 (of_decide_eq_true h)).symm

/-! ## Lists in step -/

/-- The comparison that goes through two lists in step is the lexicographic one. -/
theorem compareInStep_eq {α : Type} (cmp : α → α → Ordering) : ∀ l r : List α,
    compareInStep cmp l r = List.compareLex cmp l r
  | [], [] => rfl
  | [], _ :: _ => by
    rw [List.compareLex_nil_cons, compareInStep, List.zip_nil_left]
    exact Nat.compare_eq_lt.2 (Nat.succ_pos _)
  | _ :: _, [] => by
    rw [List.compareLex_cons_nil, compareInStep, List.zip_nil_right]
    exact Nat.compare_eq_gt.2 (Nat.succ_pos _)
  | a :: l, b :: r => by
    have ih := compareInStep_eq cmp l r
    have hlength : Ord.compare (a :: l).length (b :: r).length = Ord.compare l.length r.length := by
      simp only [List.length_cons, Nat.compare_eq_ite_lt, Nat.succ_lt_succ_iff]
    rw [List.compareLex_cons_cons, ← ih, compareInStep, List.zip_cons_cons, List.map_cons,
      List.find?_cons, hlength, compareInStep]
    cases cmp a b <;> rfl

section

variable {E : Type} [Ord E]

instance [TransOrd E] : TransCmp (comparePowers (E := E)) :=
  inferInstanceAs (TransCmp (compareLex (fun a b : Var × E => compareOn Prod.fst b a)
    (compareOn Prod.snd)))

instance [LawfulEqOrd E] : LawfulEqCmp (comparePowers (E := E)) where
  compare_self {a} := by
    rw [comparePowers, ReflOrd.compare_self, ReflOrd.compare_self]
    rfl
  eq_of_compare {a b} h := by
    rw [comparePowers, Ordering.then_eq_eq, LawfulEqOrd.compare_eq_iff_eq,
      LawfulEqOrd.compare_eq_iff_eq] at h
    exact Prod.ext h.1.symm h.2

end

theorem Monomial.compareLex_eq : ∀ l r : List (Var × ℕ),
    Monomial.compareLex l r = List.compareLex comparePowers l r
  | [], [] => rfl
  | [], _ :: _ => rfl
  | _ :: _, [] => rfl
  | (v, j) :: l, (w, k) :: r => by
    rw [List.compareLex_cons_cons, ← Monomial.compareLex_eq l r, Monomial.compareLex]
    show _ = ((Ord.compare w v).then (Ord.compare j k)).then (Monomial.compareLex l r)
    cases hvar : Ord.compare w v with
    | lt =>
      rw [if_pos (Std.compare_eq_lt.1 hvar)]
      rfl
    | gt =>
      have hlt := Std.compare_eq_gt.1 hvar
      rw [if_neg (UInt32.lt_asymm hlt), if_pos hlt]
      rfl
    | eq =>
      obtain rfl := LawfulEqOrd.eq_of_compare hvar
      rw [if_neg (UInt32.lt_irrefl w), if_neg (UInt32.lt_irrefl w)]
      cases hpower : Ord.compare j k with
      | lt =>
        rw [if_pos (Nat.compare_eq_lt.1 hpower)]
        rfl
      | gt =>
        have hlt := Nat.compare_eq_gt.1 hpower
        rw [if_neg (Nat.lt_asymm hlt), if_pos hlt]
        rfl
      | eq =>
        obtain rfl := Nat.compare_eq_eq.1 hpower
        rw [if_neg (Nat.lt_irrefl j), if_neg (Nat.lt_irrefl j)]
        rfl

/-! ## Words for exponents -/

/-- The exponents as words; what a word does not hold is cut off. -/
def wordPowers (l : List (Var × ℕ)) : List (Var × UInt32) := l.map fun a => (a.1, a.2.toUInt32)

/-- A number below `2 ^ 32` is a word. -/
theorem toNat_toUInt32 {n : ℕ} (h : n < 2 ^ 32) : n.toUInt32.toNat = n :=
  UInt32.toNat_ofNat_of_lt' h

theorem toUInt32_toNat (k : UInt32) : k.toNat.toUInt32 = k := UInt32.ofNat_toNat

/-- Sums wrap. -/
theorem toUInt32_add (j k : ℕ) : (j + k).toUInt32 = j.toUInt32 + k.toUInt32 := UInt32.ofNat_add j k

theorem compare_toNat (j k : UInt32) : Ord.compare j.toNat k.toNat = Ord.compare j k := by
  show compareOfLessAndEq _ _ = compareOfLessAndEq _ _
  unfold compareOfLessAndEq
  simp only [UInt32.lt_iff_toNat_lt, ← UInt32.toNat_inj]

/-- Words are recovered from their values, -/
theorem wordPowers_natPowers (l : List (Var × UInt32)) : wordPowers (natPowers l) = l := by
  rw [wordPowers, natPowers, List.map_map]
  refine (List.map_congr_left fun a _ => ?_).trans (List.map_id l)
  exact Prod.ext rfl (toUInt32_toNat a.2)

/-- and the values from the words if they fit. -/
theorem natPowers_wordPowers {l : List (Var × ℕ)} (h : ∀ a ∈ l, a.2 < 2 ^ 32) :
    natPowers (wordPowers l) = l := by
  rw [natPowers, wordPowers, List.map_map]
  refine (List.map_congr_left fun a ha => ?_).trans (List.map_id l)
  exact Prod.ext rfl (toNat_toUInt32 (h a ha))

theorem natPowers_append (l l' : List (Var × UInt32)) :
    natPowers (l ++ l') = natPowers l ++ natPowers l' := List.map_append

theorem lookup_natPowers (v : Var) : ∀ l : List (Var × UInt32),
    (natPowers l).lookup v = (l.lookup v).map UInt32.toNat
  | [] => rfl
  | a :: l => by
    show ((a.1, a.2.toNat) :: natPowers l).lookup v = _
    rw [List.lookup_cons, List.lookup_cons, lookup_natPowers v l]
    cases v == a.1 <;> rfl

/-- The sum of words holds what a word holds of the sum. -/
theorem sum_words (l : List (Var × ℕ)) :
    (wordPowers l).foldr (fun a n => a.2 + n) (0 : UInt32) = Nat.toUInt32 (l.map (·.2)).sum := by
  induction l with
  | nil => rfl
  | cons a l ih =>
    rw [wordPowers, List.map_cons, List.foldr_cons, ← wordPowers, ih, List.map_cons, List.sum_cons,
      toUInt32_add]

/-! ## Exponents -/

/-- The exponents as a sum of single ones. -/
theorem exponents_eq_sum : ∀ l : List (Var × ℕ),
    exponents l = (l.map fun a => Finsupp.single a.1 a.2).sum
  | [] => rfl
  | (v, k) :: rest => by
    rw [List.map_cons, List.sum_cons, ← exponents_eq_sum rest]
    rfl

/-- The exponents do not depend on the order. -/
theorem exponents_perm {l l' : List (Var × ℕ)} (h : l.Perm l') : exponents l = exponents l' := by
  rw [exponents_eq_sum, exponents_eq_sum, (h.map _).sum_eq]

theorem exponents_append (l l' : List (Var × ℕ)) :
    exponents (l ++ l') = exponents l + exponents l' := by
  rw [exponents_eq_sum, List.map_append, List.sum_append, ← exponents_eq_sum, ← exponents_eq_sum]

/-- Exponents that are zero do not count. -/
theorem exponents_filter_pos : ∀ l : List (Var × ℕ),
    exponents (l.filter fun a => 0 < a.2) = exponents l
  | [] => rfl
  | (v, k) :: rest => by
    show _ = Finsupp.single v k + exponents rest
    rw [← exponents_filter_pos rest, List.filter_cons]
    split
    next => rfl
    next hk =>
      obtain rfl : k = 0 := by simpa using hk
      rw [Finsupp.single_zero, zero_add]

namespace Monomial

/-- What is kept of a monomial. -/
def raw (m : Monomial) : Raw := ⟨wordPowers m.powers, m.totalDegree.toUInt32⟩

theorem map_fst_powers_raw (m : Monomial) : m.raw.powers.map (·.1) = m.vars := List.map_map

theorem isEmpty_powers_raw (m : Monomial) : m.raw.powers.isEmpty = m.isUnit := List.isEmpty_map

/-- A monomial that fits keeps its exponents in words. -/
theorem Fits.natPowers_raw {m : Monomial} (h : m.Fits) : natPowers m.raw.powers = m.powers :=
  natPowers_wordPowers fun _ ha => h.exponent_lt ha

/-- So it is known from them. -/
theorem Fits.raw_inj {m n : Monomial} (hm : m.Fits) (hn : n.Fits) (h : m.raw = n.raw) : m = n := by
  refine ext ?_
  rw [← hm.natPowers_raw, h, hn.natPowers_raw]

namespace Raw

/-- Increasing variables, positive exponents, and the right total degree. -/
structure Canonical (m : Raw) : Prop where
  sorted : m.powers.Pairwise fun a b => a.1 < b.1
  positive : ∀ a ∈ m.powers, 0 < a.2
  totalDegree_eq : m.totalDegree.toNat = (m.powers.map fun a => a.2.toNat).sum

/-- The canonical monomials are those of monomials that fit. -/
theorem canonical_iff {m : Raw} : m.Canonical ↔ ∃ n : Monomial, n.Fits ∧ n.raw = m := by
  constructor
  · intro h
    set n : Monomial := ⟨natPowers m.powers, List.pairwise_map.2 h.sorted,
      List.forall_mem_map.2 fun a ha => UInt32.lt_iff_toNat_lt.1 (h.positive a ha)⟩ with hn
    have hdegree : n.totalDegree = m.totalDegree.toNat := by
      rw [totalDegree_eq_sum, h.totalDegree_eq]
      exact congrArg List.sum List.map_map
    refine ⟨n, ?_, ?_⟩
    · exact hdegree.trans_lt (UInt32.toNat_lt _)
    · rw [raw, hdegree, toUInt32_toNat, hn, wordPowers_natPowers]
  · rintro ⟨n, hfits, rfl⟩
    refine ⟨List.pairwise_map.2 n.sorted, List.forall_mem_map.2 fun a ha => ?_, ?_⟩
    · rw [UInt32.lt_iff_toNat_lt, toNat_toUInt32 (hfits.exponent_lt ha)]
      exact n.positive a ha
    · have hsum := congrArg List.sum (congrArg (List.map Prod.snd) hfits.natPowers_raw)
      rw [natPowers, List.map_map] at hsum
      exact (toNat_toUInt32 hfits).trans (n.totalDegree_eq_sum.trans hsum.symm)

theorem canonical_raw {m : Monomial} (h : m.Fits) : m.raw.Canonical := canonical_iff.2 ⟨m, h, rfl⟩

/-- Any list of powers gives the words of the monomial with its exponents. -/
theorem ofPowers_eq (l : List (Var × UInt32)) :
    ofPowers l = (Monomial.ofPowers (natPowers l)).raw := by
  set words := (l.filter fun a => 0 < a.2).mergeSort fun a b => a.1 ≤ b.1 with hwords
  set sorted := ((natPowers l).filter fun a => 0 < a.2).mergeSort fun a b => a.1 ≤ b.1 with hsorted
  have hperm : sorted.Perm ((natPowers l).filter fun a => 0 < a.2) := List.mergeSort_perm _ _
  have hle : sorted.Pairwise fun a b => a.1 = b.1 ∨ a.1 < b.1 := pairwise_mergeSort_key Prod.fst _
  set merged := mergeAdjacent (fun a b => a.1 = b.1) (fun a b => (a.1, a.2 + b.2)) sorted
    with hmerged
  have hpairwise : merged.Pairwise fun a b => a.1 < b.1 := by
    refine pairwise_mergeAdjacent (r := (· < ·)) Prod.fst ?_ ?_ UInt32.lt_trans sorted hle
    · exact fun _ _ => decide_eq_true_iff
    · exact fun _ _ => rfl
  have hpositive : ∀ a ∈ merged, 0 < a.2 := by
    refine forall_mergeAdjacent (fun a b ha _ => Nat.add_pos_left ha _) sorted fun a ha => ?_
    exact of_decide_eq_true (List.mem_filter.1 (hperm.mem_iff.1 ha)).2
  have hexponents : exponents merged = exponents (natPowers l) := by
    rw [← exponents_filter_pos (natPowers l), ← exponents_perm hperm, exponents_eq_sum,
      exponents_eq_sum]
    refine sum_mergeAdjacent (fun a b hab => ?_) sorted
    rw [← of_decide_eq_true hab, Finsupp.single_add]
  have hm : (⟨merged, hpairwise, hpositive⟩ : Monomial) = Monomial.ofPowers (natPowers l) :=
    toExponents_injective (hexponents.trans (toExponents_ofPowers _).symm)
  -- the words are sorted as the numbers are, and merged as the numbers are
  have hsorted' : natPowers words = sorted := by
    have hfilter : (natPowers l).filter (fun a => 0 < a.2)
        = natPowers (l.filter fun a => 0 < a.2) := List.filter_map
    rw [hsorted, hfilter]
    exact List.map_mergeSort fun a _ b _ => rfl
  have hmerged' : mergeAdjacent (fun a b => a.1 = b.1) (fun a b => (a.1, a.2 + b.2)) words
      = wordPowers merged := by
    rw [← wordPowers_natPowers words, hsorted', hmerged]
    refine mergeAdjacent_map (fun _ _ => rfl) (fun a b => ?_) sorted
    exact Prod.ext rfl (toUInt32_add a.2 b.2).symm
  rw [← hm, raw, totalDegree_eq_sum, ← sum_words, ← hmerged', ofPowers]

/-! ### The operations on monomials that fit -/

variable {m n : Monomial} {v : Var}

/-- A power of exponent zero is the unit in both. -/
theorem power_eq (v : Var) (k : UInt32) : power v k = (Monomial.power v k.toNat).raw := by
  rw [power]
  split
  next h => rw [h]; rfl
  next h =>
    have hk : k.toNat ≠ 0 := fun h0 => h (UInt32.toNat_inj.1 h0)
    rw [Monomial.power, timesPower, dif_neg hk]
    show _ = (⟨[(v, k.toNat.toUInt32)], k.toNat.toUInt32⟩ : Raw)
    rw [toUInt32_toNat]

/-- The exponent that is looked up. -/
theorem exponent_raw (h : m.Fits) : (m.raw.exponent v).toNat = m.degree v := by
  have hlookup := lookup_natPowers v m.raw.powers
  rw [h.natPowers_raw] at hlookup
  rw [exponent, Monomial.degree, hlookup]
  cases m.raw.powers.lookup v <;> rfl

theorem degree_raw (h : m.Fits) : m.raw.degree v = m.degree v := exponent_raw h

/-- The exponents of a product are added up, and cut off if they do not fit. -/
theorem mul_raw (hm : m.Fits) (hn : n.Fits) : m.raw.mul n.raw = (m.mul n).raw := by
  have hmul : Monomial.ofPowers (m.powers ++ n.powers) = m.mul n := toExponents_injective (by
    rw [toExponents_ofPowers, exponents_append, toExponents_mul]
    rfl)
  rw [mul, ofPowers_eq, natPowers_append, hm.natPowers_raw, hn.natPowers_raw, hmul]

/-- To remove a variable lowers the kept total degree by its exponent. -/
theorem without_raw (h : m.Fits) : m.raw.without v = (m.without v).raw := by
  have hwithout : Monomial.ofPowers (m.powers.filter fun a => a.1 ≠ v) = m.without v :=
    toExponents_injective (toExponents_ofPowers _)
  have hpowers : natPowers (m.raw.powers.filter fun a => a.1 ≠ v)
      = m.powers.filter fun a => a.1 ≠ v := by
    rw [← h.natPowers_raw, natPowers, natPowers, List.filter_map]
    rfl
  rw [without, ofPowers_eq, hpowers, hwithout]

/-- To rename a variable keeps the total degree. -/
theorem rename_raw {w : Var} (h : m.Fits) : m.raw.rename v w = (m.rename v w).raw := by
  rw [rename, ofPowers_eq, Monomial.rename]
  congr 2
  rw [← h.natPowers_raw, natPowers, natPowers, List.map_map, List.map_map]
  rfl

/-- Exponents are subtracted where they are large enough, so nothing wraps. -/
theorem div?_raw (hm : m.Fits) (hn : n.Fits) : m.raw.div? n.raw = (m.div? n).map raw := by
  have hlt : ∀ a : Var × UInt32, (m.raw.exponent a.1 < a.2) ↔ ¬a.2.toNat ≤ m.degree a.1 :=
    fun a => by rw [UInt32.lt_iff_toNat_lt, exponent_raw hm, Nat.not_le]
  have hany : (n.raw.powers.any fun a => m.raw.exponent a.1 < a.2)
      = !n.powers.all fun a => a.2 ≤ m.degree a.1 := by
    simp only [hlt]
    rw [List.not_all_eq_any_not, ← hn.natPowers_raw, natPowers, List.any_map]
    exact congrArg n.raw.powers.any (funext fun a => decide_not)
  unfold div? Monomial.div?
  rw [hany]
  cases hall : n.powers.all fun a => a.2 ≤ m.degree a.1 with
  | false => rfl
  | true =>
    -- no power of the divisor is above that of the dividend, so no subtraction wraps around
    have hsub : ∀ a ∈ m.raw.powers,
        (a.2 - n.raw.exponent a.1).toNat = a.2.toNat - n.degree a.1 := by
      intro a ha
      have hmem : (a.1, a.2.toNat) ∈ m.powers := by
        rw [← hm.natPowers_raw]
        exact List.mem_map_of_mem ha
      have hle := all_powers_le_iff.1 hall a.1
      rw [(mem_powers_iff.1 hmem).2, toExponents_apply] at hle
      rw [UInt32.toNat_sub_of_le, exponent_raw hn]
      rwa [UInt32.le_iff_toNat_le, exponent_raw hn]
    have hpowers : natPowers (m.raw.powers.map fun a => (a.1, a.2 - n.raw.exponent a.1))
        = m.powers.map fun a => (a.1, a.2 - n.degree a.1) := by
      rw [← hm.natPowers_raw, natPowers, natPowers, List.map_map, List.map_map]
      exact List.map_congr_left fun a ha => Prod.ext rfl (hsub a ha)
    show some (ofPowers _) = some _
    rw [ofPowers_eq, hpowers]

/-- Lowering the power of `v` in a list where it comes at most once. -/
theorem exponents_lower : ∀ {l : List (Var × ℕ)}, l.Pairwise (fun a b => a.1 < b.1) →
    exponents (l.map fun a => if a.1 = v then (a.1, a.2 - 1) else a)
      = Finsupp.single v ((l.lookup v).getD 0 - 1) + exponents (l.filter fun a => a.1 ≠ v)
  | [], _ => by
    rw [List.map_nil, List.filter_nil, List.lookup_nil, Option.getD_none, Nat.zero_sub,
      Finsupp.single_zero, zero_add]
  | (w, j) :: rest, h => by
    obtain ⟨hw, hrest⟩ := List.pairwise_cons.1 h
    rw [List.map_cons, List.filter_cons, List.lookup_cons]
    by_cases hvw : w = v
    · subst hvw
      have hne : ∀ a ∈ rest, a.1 ≠ w := fun a ha => (UInt32.ne_of_lt (hw a ha)).symm
      rw [if_pos rfl, if_neg (by simp), beq_self_eq_true,
        List.filter_eq_self.2 fun a ha => decide_eq_true (hne a ha),
        List.map_congr_left fun a ha => if_neg (hne a ha), List.map_id']
      rfl
    · rw [if_neg hvw, if_pos (decide_eq_true hvw), beq_false_of_ne (Ne.symm hvw)]
      show Finsupp.single w j + _ = _ + (Finsupp.single w j + _)
      rw [exponents_lower hrest, add_left_comm]

/-- The derivative of a power. -/
theorem lower_raw (h : m.Fits) :
    m.raw.lower v = ((m.without v).timesPower v (m.degree v - 1)).raw := by
  have hlower : Monomial.ofPowers (m.powers.map fun a => if a.1 = v then (a.1, a.2 - 1) else a)
      = (m.without v).timesPower v (m.degree v - 1) := toExponents_injective (by
    rw [toExponents_ofPowers, exponents_lower m.sorted, toExponents_timesPower]
    rfl)
  have hpowers : natPowers (m.raw.powers.map fun a => if a.1 = v then (a.1, a.2 - 1) else a)
      = m.powers.map fun a => if a.1 = v then (a.1, a.2 - 1) else a := by
    rw [← h.natPowers_raw, natPowers, natPowers, List.map_map, List.map_map]
    refine List.map_congr_left fun a ha => ?_
    have hone : 1 ≤ a.2 := by
      have hpos := (canonical_raw h).positive a ha
      rw [UInt32.lt_iff_toNat_lt] at hpos
      exact UInt32.le_iff_toNat_le.2 hpos
    show ((if a.1 = v then (a.1, a.2 - 1) else a).1, (if a.1 = v then (a.1, a.2 - 1) else a).2.toNat)
      = if a.1 = v then (a.1, a.2.toNat - 1) else (a.1, a.2.toNat)
    split
    · exact Prod.ext rfl (UInt32.toNat_sub_of_le _ _ hone)
    · rfl
  rw [lower, ofPowers_eq, hpowers, hlower]

/-! ### The order on monomials that fit -/

instance : TransCmp Raw.compare where
  eq_swap {m n} := by
    rw [compare, compare, compareInStep_eq, compareInStep_eq]
    exact OrientedCmp.eq_swap
  isLE_trans {l m n} := by
    rw [compare, compare, compare, compareInStep_eq, compareInStep_eq, compareInStep_eq]
    exact TransCmp.isLE_trans

/-- Words are compared as the numbers that they hold. -/
theorem compareLex_wordPowers : ∀ {l r : List (Var × ℕ)}, (∀ a ∈ l, a.2 < 2 ^ 32) →
    (∀ a ∈ r, a.2 < 2 ^ 32) →
    List.compareLex comparePowers (wordPowers l) (wordPowers r) = List.compareLex comparePowers l r
  | [], [], _, _ => rfl
  | [], _ :: _, _, _ => rfl
  | _ :: _, [], _, _ => rfl
  | a :: l, b :: r, hl, hr => by
    rw [List.forall_mem_cons] at hl hr
    have hword : Ord.compare a.2.toUInt32 b.2.toUInt32 = Ord.compare a.2 b.2 := by
      rw [← compare_toNat, toNat_toUInt32 hl.1, toNat_toUInt32 hr.1]
    show List.compareLex comparePowers ((a.1, a.2.toUInt32) :: wordPowers l)
      ((b.1, b.2.toUInt32) :: wordPowers r) = _
    rw [List.compareLex_cons_cons, List.compareLex_cons_cons, compareLex_wordPowers hl.2 hr.2,
      comparePowers, comparePowers, hword]

/-- Words are compared as their values are. -/
theorem compare_raw (hm : m.Fits) (hn : n.Fits) : m.raw.compare n.raw = m.compare n := by
  rw [Raw.compare, compareInStep_eq, Monomial.compare, compareLex_eq]
  exact compareLex_wordPowers (fun _ => hm.exponent_lt) fun _ => hn.exponent_lt

end Raw

end Monomial


end AlgebraicReal
