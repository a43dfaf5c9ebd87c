import AlgebraicReal.Variable

/-!
# Monomials

A monomial is a product of powers of variables, kept as the list of its variables in increasing
order, each with a positive exponent. The product of no variables is the unit.

Monomials are ordered lexicographically, and a variable with a smaller number is more significant:
`x0 > x1^3`. On exponent vectors that is the usual lexicographic order; on sparse lists it is a walk
over both lists in step, where the list that runs out first is the smaller one.
-/

namespace AlgebraicReal

/-- The variables of a product with their exponents, which have no bound here. -/
structure Monomial where
  powers : List (Var × Nat)
  sorted : powers.Pairwise fun a b => a.1 < b.1
  positive : ∀ a ∈ powers, 0 < a.2
  deriving DecidableEq

namespace Monomial

@[ext] theorem ext {m n : Monomial} (h : m.powers = n.powers) : m = n := by
  cases m; cases n; cases h; rfl

def unit : Monomial := ⟨[], .nil, by simp⟩

instance : Inhabited Monomial := ⟨unit⟩

/-- Multiplies a sorted list of powers by `v ^ k`. -/
def insertPower (v : Var) (k : Nat) : List (Var × Nat) → List (Var × Nat)
  | [] => [(v, k)]
  | (w, j) :: rest =>
    if v < w then (v, k) :: (w, j) :: rest
    else if v = w then (w, j + k) :: rest
    else (w, j) :: insertPower v k rest

theorem mem_insertPower {v : Var} {k : Nat} {l : List (Var × Nat)} {a : Var × Nat}
    (h : a ∈ insertPower v k l) : a.1 = v ∨ ∃ b ∈ l, b.1 = a.1 := by
  induction l with
  | nil => simp_all [insertPower]
  | cons b rest ih =>
    obtain ⟨w, j⟩ := b
    simp only [insertPower] at h
    split at h
    · simp only [List.mem_cons] at h
      rcases h with rfl | rfl | h
      · exact .inl rfl
      · exact .inr ⟨_, List.mem_cons_self, rfl⟩
      · exact .inr ⟨_, List.mem_cons_of_mem _ h, rfl⟩
    · split at h
      · rcases List.mem_cons.1 h with rfl | h
        · exact .inr ⟨_, List.mem_cons_self, rfl⟩
        · exact .inr ⟨_, List.mem_cons_of_mem _ h, rfl⟩
      · rcases List.mem_cons.1 h with rfl | h
        · exact .inr ⟨_, List.mem_cons_self, rfl⟩
        · rcases ih h with h | ⟨b, hb, h⟩
          · exact .inl h
          · exact .inr ⟨b, List.mem_cons_of_mem _ hb, h⟩

theorem sorted_insertPower {v : Var} {k : Nat} {l : List (Var × Nat)}
    (h : l.Pairwise fun a b => a.1 < b.1) :
    (insertPower v k l).Pairwise fun a b => a.1 < b.1 := by
  induction l with
  | nil => simp [insertPower]
  | cons b rest ih =>
    obtain ⟨w, j⟩ := b
    obtain ⟨hw, hrest⟩ := List.pairwise_cons.1 h
    simp only [insertPower]
    split
    · -- the new variable comes first, so it lies below the head and everything after it
      refine List.pairwise_cons.2 ⟨fun a ha => ?_, h⟩
      rcases List.mem_cons.1 ha with rfl | ha
      · assumption
      · exact UInt32.lt_trans (by assumption) (hw a ha)
    · split
      · exact List.pairwise_cons.2 ⟨hw, hrest⟩
      · -- the head stays: what follows it is either an old variable or the new one
        refine List.pairwise_cons.2 ⟨fun a ha => ?_, ih hrest⟩
        rcases mem_insertPower ha with ha | ⟨b, hb, hba⟩
        · simp only [ha]
          exact UInt32.lt_of_le_of_ne (UInt32.not_lt.1 (by assumption)) (Ne.symm (by assumption))
        · exact hba ▸ hw b hb

theorem positive_insertPower {v : Var} {k : Nat} {l : List (Var × Nat)} (hk : 0 < k)
    (h : ∀ a ∈ l, 0 < a.2) : ∀ a ∈ insertPower v k l, 0 < a.2 := by
  induction l with
  | nil => simpa [insertPower] using hk
  | cons b rest ih =>
    obtain ⟨w, j⟩ := b
    simp only [List.mem_cons, forall_eq_or_imp] at h
    simp only [insertPower]
    split
    · simp only [List.mem_cons, forall_eq_or_imp]
      exact ⟨hk, h⟩
    · split
      · simp only [List.mem_cons, forall_eq_or_imp]
        exact ⟨by omega, h.2⟩
      · simp only [List.mem_cons, forall_eq_or_imp]
        exact ⟨h.1, ih h.2⟩

/-- The product with `v ^ k`. -/
def timesPower (m : Monomial) (v : Var) (k : Nat) : Monomial :=
  if hk : k = 0 then m
  else ⟨insertPower v k m.powers, sorted_insertPower m.sorted,
    positive_insertPower (Nat.pos_of_ne_zero hk) m.positive⟩

/-- The product of the listed powers. They may come in any order, with repeated variables and with
exponent zero. -/
def ofPowers (powers : List (Var × Nat)) : Monomial :=
  powers.foldr (fun a m => m.timesPower a.1 a.2) unit

def power (v : Var) (k : Nat) : Monomial := unit.timesPower v k

def ofVar (v : Var) : Monomial := power v 1

def isUnit (m : Monomial) : Bool := m.powers.isEmpty

def totalDegree (m : Monomial) : Nat := m.powers.foldr (fun a n => a.2 + n) 0

/-- The exponent of `v`, zero if `v` does not occur. -/
def degree (m : Monomial) (v : Var) : Nat := (m.powers.lookup v).getD 0

/-- The variables, in increasing order. -/
def vars (m : Monomial) : List Var := m.powers.map (·.1)

def without (m : Monomial) (v : Var) : Monomial where
  powers := m.powers.filter fun a => a.1 ≠ v
  sorted := m.sorted.filter _
  positive a ha := m.positive a (List.mem_filter.1 ha).1

/-- The monomial with `source` replaced by `target`, which may occur in it already. -/
def rename (m : Monomial) (source target : Var) : Monomial :=
  ofPowers (m.powers.map fun a => (if a.1 = source then target else a.1, a.2))

def mul (m n : Monomial) : Monomial := m.powers.foldr (fun a k => k.timesPower a.1 a.2) n

/-- The monomial whose product with `n` is `m`, if there is one. -/
def div? (m n : Monomial) : Option Monomial :=
  if n.powers.all fun a => a.2 ≤ m.degree a.1 then
    some (ofPowers (m.powers.map fun a => (a.1, a.2 - n.degree a.1)))
  else none

/-- Lexicographic order of two sorted lists of powers. -/
def compareLex : List (Var × Nat) → List (Var × Nat) → Ordering
  | [], [] => .eq
  | [], _ :: _ => .lt
  | _ :: _, [] => .gt
  | (v, j) :: l, (w, k) :: r =>
    if w < v then .lt else if v < w then .gt
    else if j < k then .lt else if k < j then .gt
    else compareLex l r

/-- Lexicographic order; a variable with a smaller number is more significant. -/
def compare (m n : Monomial) : Ordering := compareLex m.powers n.powers

/-- A factor `x3^2` of a monomial; the exponent one is not written. -/
def powerText (v : Var) (k : Nat) : String :=
  if k = 1 then v.text else v.text ++ "^" ++ toString k

/-- The factors joined by `*`; a product of no factors is `1`. -/
def powersText (powers : List (Var × Nat)) : String :=
  if powers.isEmpty then "1" else "*".intercalate (powers.map fun a => powerText a.1 a.2)

def text (m : Monomial) : String := powersText m.powers

/-! ## The order is total -/

theorem eq_of_compareLex_eq : ∀ {l r : List (Var × Nat)}, compareLex l r = .eq → l = r
  | [], [], _ => rfl
  | (v, j) :: l, (w, k) :: r, h => by
    simp only [compareLex] at h
    split at h
    · cases h
    split at h
    · cases h
    split at h
    · cases h
    split at h
    · cases h
    -- all four strict comparisons of the heads have failed
    have hv : v = w := UInt32.le_antisymm (UInt32.not_lt.1 (by assumption))
      (UInt32.not_lt.1 (by assumption))
    have hj : j = k := by omega
    rw [hv, hj, eq_of_compareLex_eq h]

theorem compareLex_refl : ∀ l : List (Var × Nat), compareLex l l = .eq
  | [] => rfl
  | a :: l => by simp [compareLex, UInt32.lt_irrefl, compareLex_refl l]

theorem compareLex_swap : ∀ l r : List (Var × Nat), (compareLex l r).swap = compareLex r l
  | [], [] => rfl
  | [], _ :: _ => rfl
  | _ :: _, [] => rfl
  | (v, j) :: l, (w, k) :: r => by
    have ih := compareLex_swap l r
    by_cases hvw : v < w
    · simp [compareLex, hvw, UInt32.lt_asymm hvw]
    · by_cases hwv : w < v
      · simp [compareLex, hvw, hwv]
      · rcases Nat.lt_trichotomy j k with h | h | h
        · simp [compareLex, hvw, hwv, h, Nat.lt_asymm h]
        · simp [compareLex, hvw, hwv, h, ih]
        · simp [compareLex, hvw, hwv, h, Nat.lt_asymm h]

theorem compareLex_trans : ∀ {l r s : List (Var × Nat)},
    compareLex l r = .gt → compareLex r s = .gt → compareLex l s = .gt
  | [], [], _, h, _ | [], _ :: _, _, h, _ => by simp [compareLex] at h
  | _ :: _, _, [], _, _ => by simp [compareLex]
  | _ :: _, [], _ :: _, _, h => by simp [compareLex] at h
  | (v, i) :: l, (w, j) :: r, (x, k) :: s, h₁, h₂ => by
    have ih := @compareLex_trans l r s
    simp only [compareLex] at h₁ h₂ ⊢
    grind [UInt32.lt_iff_toNat_lt, UInt32.toNat_inj]

theorem compare_swap (m n : Monomial) : (m.compare n).swap = n.compare m :=
  compareLex_swap _ _

theorem eq_of_compare_eq {m n : Monomial} (h : m.compare n = .eq) : m = n :=
  ext (eq_of_compareLex_eq h)

theorem compare_self (m : Monomial) : m.compare m = .eq := compareLex_refl _

theorem compare_gt_of_lt {m n : Monomial} (h : m.compare n = .lt) : n.compare m = .gt := by
  rw [← compare_swap, h]; rfl

theorem compare_trans {l m n : Monomial} (h₁ : l.compare m = .gt) (h₂ : m.compare n = .gt) :
    l.compare n = .gt :=
  compareLex_trans h₁ h₂

end Monomial

end AlgebraicReal
