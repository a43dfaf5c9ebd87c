import AlgebraicReal.RootExpr
import AlgebraicReal.Proofs.Literal
import AlgebraicReal.Proofs.MvPoly.Raw.Canonical
import AlgebraicReal.Proofs.MvPoly.Raw.MonomialOrder

/-!
# The orders of polynomials, root expressions and literals

Polynomials are compared term by term, and terms by their monomials and coefficients; root
expressions are compared by index, polynomial and root variable, and literals by variable, value and
negation. Each of these is the lexicographic order of orders that are total already, so it is total,
and equal is only what has the same parts. A literal takes part with the real that its value
denotes: the form of the number, and what has been narrowed before, do not show
(`comparisons_lawful`).
-/

open Std

namespace AlgebraicReal

open RefineM

/-! ## Polynomials -/

/-- The comparison of fractions is that of the rationals. -/
theorem Rational.compare_eq_compare : Rational.compare = Ord.compare := by
  funext a b
  exact (LinearOrder.compare_eq_compareOfLessAndEq a b).symm

instance : TransCmp Rational.compare := Rational.compare_eq_compare ▸ inferInstance

instance : LawfulEqCmp Rational.compare := Rational.compare_eq_compare ▸ inferInstance

/-- A comparison of parts, as one of the wholes. -/
theorem transCmp_compareBy {α β : Type} (f : α → β) (cmp : β → β → Ordering) [TransCmp cmp] :
    TransCmp fun a b => cmp (f a) (f b) where
  eq_swap {a b} := by
    show cmp (f a) (f b) = (cmp (f b) (f a)).swap
    exact OrientedCmp.eq_swap
  isLE_trans {a b c} := by
    show (cmp (f a) (f b)).isLE → (cmp (f b) (f c)).isLE → (cmp (f a) (f c)).isLE
    exact TransCmp.isLE_trans

namespace Term

/-- The monomials before the coefficients. -/
def compare (s t : Term) : Ordering :=
  (s.monomial.compare t.monomial).then (Rational.compare s.coeff t.coeff)

instance : TransCmp Term.compare :=
  have := transCmp_compareBy Term.monomial Monomial.compare
  have := transCmp_compareBy Term.coeff Rational.compare
  inferInstanceAs (TransCmp (compareLex (fun s t : Term => s.monomial.compare t.monomial)
    (fun s t : Term => Rational.compare s.coeff t.coeff)))

instance : LawfulEqCmp Term.compare where
  eq_of_compare {s t} h := by
    rw [compare, Ordering.then_eq_eq] at h
    have hmonomial := LawfulEqCmp.eq_of_compare h.1
    have hcoeff := LawfulEqCmp.eq_of_compare h.2
    exact congrArg₂ Term.mk hcoeff hmonomial

/-- In 32 bits terms are compared as without a bound: no sum is taken. -/
theorem compare_raw {s t : Term} (hs : s.monomial.Fits) (ht : t.monomial.Fits) :
    s.raw.compare t.raw = s.compare t := by
  rw [Raw.compare, compare, ← Monomial.Raw.compare_raw hs ht]
  rfl

end Term

namespace MvPoly

/-- The comparison of two lists of terms is the lexicographic one. -/
theorem compareTerms_eq : ∀ p q : List Term,
    compareTerms p q = List.compareLex Term.compare p q
  | [], [] => rfl
  | [], _ :: _ => rfl
  | _ :: _, [] => rfl
  | s :: p, t :: q => by
    rw [List.compareLex_cons_cons, ← compareTerms_eq p q, compareTerms, Term.compare]
    cases s.monomial.compare t.monomial <;> cases Rational.compare s.coeff t.coeff <;> rfl

theorem compare_eq_compareLex (p q : MvPoly) :
    p.compare q = List.compareLex Term.compare p.terms q.terms := compareTerms_eq _ _

instance : TransCmp MvPoly.compare where
  eq_swap {p q} := by
    rw [compare_eq_compareLex, compare_eq_compareLex]
    exact OrientedCmp.eq_swap
  isLE_trans {p q r} := by
    rw [compare_eq_compareLex, compare_eq_compareLex, compare_eq_compareLex]
    exact TransCmp.isLE_trans

instance : LawfulEqCmp MvPoly.compare where
  compare_self {p} := by
    rw [compare_eq_compareLex]
    exact ReflCmp.compare_self
  eq_of_compare {p q} h := by
    rw [compare_eq_compareLex] at h
    exact ext (LawfulEqCmp.eq_of_compare h)

namespace Raw

/-- Nor is one taken for polynomials. -/
theorem compare_raw {p q : MvPoly} (hp : p.Fits) (hq : q.Fits) :
    Raw.compare p.raw q.raw = p.compare q := by
  have hterms : ∀ ps qs : List Term, (∀ t ∈ ps, t.monomial.Fits) → (∀ t ∈ qs, t.monomial.Fits) →
      List.compareLex Term.Raw.compare (ps.map Term.raw) (qs.map Term.raw)
        = List.compareLex Term.compare ps qs := by
    intro ps
    induction ps with
    | nil => intro qs _ _; cases qs <;> rfl
    | cons s ps ih =>
      intro qs hps hqs
      cases qs with
      | nil => rfl
      | cons t qs =>
        rw [List.forall_mem_cons] at hps hqs
        rw [List.map_cons, List.map_cons, List.compareLex_cons_cons, List.compareLex_cons_cons,
          Term.compare_raw hps.1 hqs.1, ih qs hps.2 hqs.2]
  rw [Raw.compare, compareInStep_eq, MvPoly.compare_eq_compareLex, MvPoly.raw, MvPoly.raw]
  exact hterms _ _ (fun _ => hp.monomial) fun _ => hq.monomial

/-- On canonical term lists the comparison is a total order, whose equality is that of the lists. -/
theorem totallyOrders_compare :
    TotallyOrders Canonical (fun p q o => Raw.compare p q = o) (· = ·) := by
  refine .of_key MvPoly.compare (fun p f => f.Fits ∧ f.raw = p) ?_ ?_ ?_
  · exact fun p hp => canonical_iff.1 hp
  · rintro p q f g ⟨hf, rfl⟩ ⟨hg, rfl⟩ o
    rw [compare_raw hf hg]
  · rintro p q f g ⟨hf, rfl⟩ ⟨hg, rfl⟩
    exact ⟨raw_inj hf hg, congrArg MvPoly.raw⟩

end Raw

end MvPoly

/-! ## Root expressions -/

namespace RootExpr

/-- Compares indices, polynomials and root variables, one after the other. -/
def compareKeys (j k : ℕ × MvPoly × Var) : Ordering :=
  ((Ord.compare j.1 k.1).then (j.2.1.compare k.2.1)).then (Ord.compare j.2.2 k.2.2)

instance : TransCmp compareKeys :=
  have := transCmp_compareBy (fun k : ℕ × MvPoly × Var => k.2.1) MvPoly.compare
  inferInstanceAs (TransCmp (compareLex (compareLex (compareOn Prod.fst)
    (fun j k : ℕ × MvPoly × Var => j.2.1.compare k.2.1)) (compareOn fun k => k.2.2)))

instance : LawfulEqCmp compareKeys where
  eq_of_compare {j k} h := by
    rw [compareKeys, Ordering.then_eq_eq, Ordering.then_eq_eq] at h
    have hindex := LawfulEqCmp.eq_of_compare h.1.1
    have hpoly := LawfulEqCmp.eq_of_compare h.1.2
    have hroot := LawfulEqCmp.eq_of_compare h.2
    exact Prod.ext hindex (Prod.ext hpoly hroot)

variable {reading : MvPoly.Reading} {e f : RootExpr (MvPoly.Machine reading)}

/-- What a root expression is compared by. -/
structure HasKey (e : RootExpr (MvPoly.Machine reading)) (k : ℕ × MvPoly × Var) : Prop where
  index_eq : e.index = k.1
  fits : k.2.1.Fits
  poly_eq : k.2.1.raw = e.poly
  root_eq : e.root = k.2.2

/-- A root expression is compared through its index, its polynomial and its root variable. -/
theorem exists_hasKey (h : MvPoly.Raw.Canonical e.poly) : ∃ k, e.HasKey k := by
  obtain ⟨p, hfits, hp⟩ := MvPoly.Raw.canonical_iff.1 h
  exact ⟨(e.index, p, e.root), rfl, hfits, hp, rfl⟩

variable {j k : ℕ × MvPoly × Var} (hj : e.HasKey j) (hk : f.HasKey k)
include hj hk

/-- The comparison of the expressions is that of the keys. -/
theorem compare_eq_compareKeys : e.compare f = compareKeys j k := by
  rw [compare, compareKeys, hj.index_eq, hk.index_eq, hj.root_eq, hk.root_eq, ← hj.poly_eq,
    ← hk.poly_eq, MvPoly.Raw.compare_raw hj.fits hk.fits]

/-- The key says everything about the expression. -/
theorem eq_iff_keys_eq : e = f ↔ j = k := by
  have hpoly : e.poly = f.poly ↔ j.2.1 = k.2.1 := by
    rw [← hj.poly_eq, ← hk.poly_eq]
    exact ⟨MvPoly.Raw.raw_inj hj.fits hk.fits, congrArg MvPoly.raw⟩
  rw [RootExpr.ext_iff, hpoly, hj.index_eq, hk.index_eq, hj.root_eq, hk.root_eq, Prod.ext_iff,
    Prod.ext_iff]
  exact and_left_comm

omit hj hk

/-- So root expressions are totally ordered. -/
theorem totallyOrders_compare :
    TotallyOrders (fun e : RootExpr (MvPoly.Machine reading) => MvPoly.Raw.Canonical e.poly)
      (fun e f o => e.compare f = o) (· = ·) := by
  refine .of_key compareKeys HasKey ?_ ?_ ?_
  · exact fun e he => exists_hasKey he
  · intro e f j k hj hk o
    rw [compare_eq_compareKeys hj hk]
  · exact fun hj hk => eq_iff_keys_eq hj hk

/-- The order is lexicographic: index, polynomial, root variable. -/
theorem compare_eq_lt_iff (he : MvPoly.Raw.Canonical e.poly) (hf : MvPoly.Raw.Canonical f.poly) :
    e.compare f = .lt ↔ e.index < f.index ∨ e.index = f.index ∧
      (MvPoly.Raw.compare e.poly f.poly = .lt ∨ e.poly = f.poly ∧ e.root < f.root) := by
  have hpoly := MvPoly.Raw.totallyOrders_compare.eq_iff _ _ he hf
  rw [compare, Ordering.then_eq_lt, Ordering.then_eq_lt, Ordering.then_eq_eq, Nat.compare_eq_lt,
    Nat.compare_eq_eq, hpoly, Std.compare_eq_lt]
  tauto

end RootExpr

/-! ## Literals -/

namespace Literal

variable {s : Store} {a b : Literal} {x y : ℝ}

/-- What the order of literals sees of a literal whose value denotes `x`. -/
def orderKey (a : Literal) (x : ℝ) : Var × ℝ × Bool := (a.var, x, a.negated)

/-- Compares variables, reals and negations, one after the other. -/
noncomputable def compareKeys (j k : Var × ℝ × Bool) : Ordering :=
  (Ord.compare j.1 k.1).then ((Ord.compare j.2.1 k.2.1).then (Ord.compare j.2.2 k.2.2))

instance : TransCmp compareKeys :=
  inferInstanceAs (TransCmp (compareLex (compareOn Prod.fst)
    (compareLex (compareOn fun k : Var × ℝ × Bool => k.2.1) (compareOn fun k => k.2.2))))

instance : LawfulEqCmp compareKeys where
  eq_of_compare {j k} h := by
    rw [compareKeys, Ordering.then_eq_eq, Ordering.then_eq_eq] at h
    have hvar := LawfulEqCmp.eq_of_compare h.1
    have hval := LawfulEqCmp.eq_of_compare h.2.1
    have hneg := LawfulEqCmp.eq_of_compare h.2.2
    exact Prod.ext hvar (Prod.ext hval hneg)

/-- The comparison of literals is that of their variables, reals and negations. -/
theorem compare_exact_orderKey (hs : s.Valid) (ha : a.value.Denotes s x)
    (hb : b.value.Denotes s y) :
    Exact (a.compare b) s fun o _ => o = compareKeys (a.orderKey x) (b.orderKey y) :=
  (compare_exact hs ha hb).mono fun o _ _ _ ho => by
    rw [ho, cmp_eq_compare]
    rfl

/-- Literals with the same key are those that say the same. -/
theorem orderKey_eq_iff :
    a.orderKey x = b.orderKey y ↔ a.var = b.var ∧ x = y ∧ a.negated = b.negated := by
  rw [orderKey, orderKey, Prod.mk_inj, Prod.mk_inj]

/-- The order that some later state answers is that of the keys. -/
theorem answers_compare_iff (hs : s.Valid) (ha : a.value.Denotes s x) (hb : b.value.Denotes s y)
    {o : Ordering} :
    Answers s (a.compare b) o ↔ compareKeys (a.orderKey x) (b.orderKey y) = o := by
  rw [eq_comm]
  exact answers_iff hs fun _ hnar hval =>
    compare_exact_orderKey hval (ha.narrowed hs hnar) (hb.narrowed hs hnar)

/-- The answers to comparisons, in a state of the store or later, make a total order. -/
theorem totallyOrders_compare (hs : s.Valid) :
    TotallyOrders (fun l : Literal => ∃ x, l.value.Denotes s x)
      (fun a b => Answers s (a.compare b)) fun a b => Answers s (a.equal b) true := by
  refine .of_key compareKeys
    (fun l k => l.value.Denotes s k.2.1 ∧ k = l.orderKey k.2.1) ?_ ?_ ?_
  · intro l hl
    obtain ⟨x, hx⟩ := hl
    exact ⟨l.orderKey x, hx, rfl⟩
  · intro a b j k hj hk o
    rw [answers_compare_iff hs hj.1 hk.1, ← hj.2, ← hk.2]
  · intro a b j k hj hk
    rw [answers_equal_iff hs hj.1 hk.1, ← orderKey_eq_iff, ← hj.2, ← hk.2]

end Literal

/-! ## All comparisons -/

/-- The comparisons of canonical polynomials, of root expressions for them and of literals are total
orders. Polynomials and root expressions are equal if they are the same, and root expressions are
ordered by index, polynomial and root variable. Literals of a valid store are ordered by variable,
value and negation, with the values compared as the reals that they denote; a comparison ends, with
one answer in all states of the store, and the answer is equal exactly if the test for equality
holds. -/
theorem comparisons_lawful (reading : MvPoly.Reading) :
    TotallyOrders MvPoly.Raw.Canonical (fun p q o => MvPoly.Raw.compare p q = o) (· = ·) ∧
    TotallyOrders (fun e : RootExpr (MvPoly.Machine reading) => MvPoly.Raw.Canonical e.poly)
      (fun e f o => e.compare f = o) (· = ·) ∧
    (∀ e f : RootExpr (MvPoly.Machine reading), MvPoly.Raw.Canonical e.poly →
      MvPoly.Raw.Canonical f.poly → (e.compare f = .lt ↔
        e.index < f.index ∨ e.index = f.index ∧
          (MvPoly.Raw.compare e.poly f.poly = .lt ∨ e.poly = f.poly ∧ e.root < f.root))) ∧
    ∀ s : Store, s.Valid →
      TotallyOrders (fun l : Literal => ∃ x, l.value.Denotes s x)
        (fun a b => Answers s (a.compare b))
        (fun a b => Answers s (a.equal b) true) ∧
      ∀ (a b : Literal) x y, a.value.Denotes s x → b.value.Denotes s y →
        ∀ t, s.Narrowed t → t.Valid →
        Exact (a.compare b) t (fun o _ => o = (Ord.compare a.var b.var).then
          ((cmp x y).then (Ord.compare a.negated b.negated))) ∧
        Exact (a.equal b) t fun r _ => r = true ↔
          a.var = b.var ∧ x = y ∧ a.negated = b.negated := by
  refine ⟨MvPoly.Raw.totallyOrders_compare, RootExpr.totallyOrders_compare, ?_, ?_⟩
  · exact fun e f => RootExpr.compare_eq_lt_iff
  · intro s hs
    refine ⟨Literal.totallyOrders_compare hs, ?_⟩
    intro a b x y ha hb t hnar hval
    have hat := ha.narrowed hs hnar
    have hbt := hb.narrowed hs hnar
    exact ⟨Literal.compare_exact hval hat hbt, Literal.equal_exact hval hat hbt⟩

/-- A polynomial is greater than one that is a prefix of it. The literal of the square root of two
is found equal to that of a copy without the root flag, and the literal of one is less. -/
theorem comparisons_sqrtTwo :
    let square : MvPoly.Raw := [⟨1, .power 0 2⟩]
    let shifted : MvPoly.Raw := [⟨1, .power 0 2⟩, ⟨-2, .unit⟩]
    let one : Literal := ⟨3, .ofRational 1, true⟩
    let sqrtTwo : Literal := ⟨3, .sqrtTwo, true⟩
    let copy : Literal := ⟨3, Number.sqrtTwo.withRootFlag false, true⟩
    square.Canonical ∧ shifted.Canonical ∧ MvPoly.Raw.compare shifted square = .gt ∧
    Store.sqrtTwo.Valid ∧ Exact (one.compare sqrtTwo) .sqrtTwo (fun o _ => o = .lt) ∧
    Answers .sqrtTwo (sqrtTwo.compare copy) .eq := by
  intro square shifted one sqrtTwo copy
  obtain ⟨hpolys, -, -, hliterals⟩ := comparisons_lawful .forward
  obtain ⟨horder, hexact⟩ := hliterals .sqrtTwo Store.valid_sqrtTwo
  have hsquare : square.Canonical := MvPoly.Raw.canonical_iff.2
    ⟨⟨[⟨1, .power 0 2⟩], by decide, by decide⟩, by decide, rfl⟩
  have hshifted : shifted.Canonical := MvPoly.Raw.canonical_iff.2
    ⟨⟨[⟨1, .power 0 2⟩, ⟨-2, .unit⟩], by decide, by decide⟩, by decide, rfl⟩
  have hone : one.value.Denotes .sqrtTwo (1 : ℚ) := Number.denotes_ofRational _ _
  have hroot : sqrtTwo.value.Denotes .sqrtTwo √2 := Number.denotes_sqrtTwo
  have hcopy : copy.value.Denotes .sqrtTwo √2 := Number.denotes_sqrtTwo
  have hless : ((1 : ℚ) : ℝ) < √2 := by
    rw [Rat.cast_one]
    exact Real.one_lt_sqrt_two
  refine ⟨hsquare, hshifted, ?_, Store.valid_sqrtTwo, ?_, ?_⟩
  · exact (hpolys.swap _ _ .gt hshifted hsquare).2 rfl
  · refine (hexact one sqrtTwo _ _ hone hroot _ (.refl _) Store.valid_sqrtTwo).1.mono ?_
    intro o _ _ _ ho
    rw [ho, (cmp_eq_lt_iff _ _).2 hless]
    rfl
  · have hequal := (Literal.answers_equal_iff (a := sqrtTwo) (b := copy) Store.valid_sqrtTwo hroot
      hcopy).2 ⟨rfl, rfl, rfl⟩
    exact (horder.eq_iff _ _ ⟨_, hroot⟩ ⟨_, hcopy⟩).2 hequal

end AlgebraicReal
