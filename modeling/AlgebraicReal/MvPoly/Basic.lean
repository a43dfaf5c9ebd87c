import AlgebraicReal.Monomial
import AlgebraicReal.Rational

/-!
# Sparse polynomials in several variables

The exact arithmetic of polynomials: exponents are numbers without a bound, and nothing overflows. A
polynomial is the list of its terms in descending order of their monomials, each monomial once and
no coefficient zero. The type holds only such lists, so a polynomial has one representation and
equality of polynomials is equality of lists.

Everything is built from one operation, the merge of two ordered term lists (`addTerms`), which adds
the coefficients of a monomial that both lists have and drops it where they cancel.
-/

namespace AlgebraicReal

/-- A coefficient and the monomial it multiplies. -/
structure Term where
  coeff : Rat
  monomial : Monomial
  deriving DecidableEq, Inhabited

/-- The terms of a polynomial, the greatest monomial first. -/
structure MvPoly where
  terms : List Term
  sorted : terms.Pairwise fun s t => s.monomial.compare t.monomial = .gt
  nonzero : ∀ t ∈ terms, t.coeff ≠ 0
  deriving DecidableEq

namespace MvPoly

@[ext] theorem ext {p q : MvPoly} (h : p.terms = q.terms) : p = q := by
  cases p; cases q; cases h; rfl

def addTerms : List Term → List Term → List Term
  | [], q => q
  | a :: p, [] => a :: p
  | a :: p, b :: q =>
    match a.monomial.compare b.monomial with
    | .gt => a :: addTerms p (b :: q)
    | .lt => b :: addTerms (a :: p) q
    | .eq =>
      if a.coeff + b.coeff = 0 then addTerms p q
      else ⟨a.coeff + b.coeff, a.monomial⟩ :: addTerms p q
termination_by p q => p.length + q.length

/-- A monomial of a sum occurs in a summand. -/
theorem mem_addTerms {p q : List Term} {t : Term} (h : t ∈ addTerms p q) :
    ∃ s ∈ p ++ q, s.monomial = t.monomial := by
  fun_induction addTerms p q with
  | case1 q => exact ⟨t, by simpa using h, rfl⟩
  | case2 a p => exact ⟨t, by simpa using h, rfl⟩
  | case3 a p b q _ ih =>
    rcases List.mem_cons.1 h with rfl | h
    · exact ⟨t, by simp, rfl⟩
    · obtain ⟨s, hs, e⟩ := ih h
      exact ⟨s, by simp_all, e⟩
  | case4 a p b q _ ih =>
    rcases List.mem_cons.1 h with rfl | h
    · exact ⟨t, by simp, rfl⟩
    · obtain ⟨s, hs, e⟩ := ih h
      exact ⟨s, by simp only [List.mem_append, List.mem_cons] at hs ⊢; grind, e⟩
  | case5 a p b q _ _ ih =>
    obtain ⟨s, hs, e⟩ := ih h
    exact ⟨s, by simp only [List.mem_append, List.mem_cons] at hs ⊢; grind, e⟩
  | case6 a p b q _ _ ih =>
    rcases List.mem_cons.1 h with rfl | h
    · exact ⟨a, by simp, rfl⟩
    · obtain ⟨s, hs, e⟩ := ih h
      exact ⟨s, by simp only [List.mem_append, List.mem_cons] at hs ⊢; grind, e⟩

theorem sorted_addTerms {p q : List Term}
    (hp : p.Pairwise fun s t => s.monomial.compare t.monomial = .gt)
    (hq : q.Pairwise fun s t => s.monomial.compare t.monomial = .gt) :
    (addTerms p q).Pairwise fun s t => s.monomial.compare t.monomial = .gt := by
  fun_induction addTerms p q with
  | case1 q => exact hq
  | case2 a p => exact hp
  | case3 a p b q hab ih =>
    -- the head of `p` leads: it is above the rest of `p` and above `b`, hence above all of `q`
    obtain ⟨ha, hp'⟩ := List.pairwise_cons.1 hp
    obtain ⟨hb, _⟩ := List.pairwise_cons.1 hq
    refine List.pairwise_cons.2 ⟨fun t ht => ?_, ih hp' hq⟩
    obtain ⟨s, hs, e⟩ := mem_addTerms ht
    rw [← e]
    rcases List.mem_append.1 hs with hs | hs
    · exact ha s hs
    · rcases List.mem_cons.1 hs with rfl | hs
      · exact hab
      · exact Monomial.compare_trans hab (hb s hs)
  | case4 a p b q hab ih =>
    -- the head of `q` leads
    obtain ⟨ha, _⟩ := List.pairwise_cons.1 hp
    obtain ⟨hb, hq'⟩ := List.pairwise_cons.1 hq
    have hba := Monomial.compare_gt_of_lt hab
    refine List.pairwise_cons.2 ⟨fun t ht => ?_, ih hp hq'⟩
    obtain ⟨s, hs, e⟩ := mem_addTerms ht
    rw [← e]
    rcases List.mem_append.1 hs with hs | hs
    · rcases List.mem_cons.1 hs with rfl | hs
      · exact hba
      · exact Monomial.compare_trans hba (ha s hs)
    · exact hb s hs
  | case5 a p b q _ _ ih =>
    exact ih (List.pairwise_cons.1 hp).2 (List.pairwise_cons.1 hq).2
  | case6 a p b q hab _ ih =>
    -- both heads have one monomial, which is above the rest of either list
    obtain ⟨ha, hp'⟩ := List.pairwise_cons.1 hp
    obtain ⟨hb, hq'⟩ := List.pairwise_cons.1 hq
    have hm := Monomial.eq_of_compare_eq hab
    refine List.pairwise_cons.2 ⟨fun t ht => ?_, ih hp' hq'⟩
    obtain ⟨s, hs, e⟩ := mem_addTerms ht
    rw [← e]
    rcases List.mem_append.1 hs with hs | hs
    · exact ha s hs
    · exact hm ▸ hb s hs

theorem nonzero_addTerms {p q : List Term} (hp : ∀ t ∈ p, t.coeff ≠ 0)
    (hq : ∀ t ∈ q, t.coeff ≠ 0) : ∀ t ∈ addTerms p q, t.coeff ≠ 0 := by
  fun_induction addTerms p q with
  | case1 q => exact hq
  | case2 a p => exact hp
  | case3 a p b q _ ih | case4 a p b q _ ih | case5 a p b q _ _ ih | case6 a p b q _ _ ih =>
    simp_all

/-! ## Building polynomials -/

def zero : MvPoly := ⟨[], .nil, by simp⟩

instance : Inhabited MvPoly := ⟨zero⟩

def ofTerm (t : Term) : MvPoly :=
  if h : t.coeff = 0 then zero else ⟨[t], List.pairwise_singleton .., by simpa using h⟩

def add (p q : MvPoly) : MvPoly :=
  ⟨addTerms p.terms q.terms, sorted_addTerms p.sorted q.sorted,
    nonzero_addTerms p.nonzero q.nonzero⟩

/-- The sum of the listed terms, which may come in any order and may repeat a monomial. -/
def ofTerms (terms : List Term) : MvPoly :=
  terms.foldr (fun t p => (ofTerm t).add p) zero

def constant (c : Rat) : MvPoly := ofTerm ⟨c, .unit⟩

def one : MvPoly := constant 1

def varPower (v : Var) (k : Nat) : MvPoly := ofTerm ⟨1, .power v k⟩

def ofVar (v : Var) : MvPoly := varPower v 1

/-- The polynomial in `v` with the given coefficients, the constant one first. -/
def ofCoeffs (v : Var) (coeffs : List Rat) : MvPoly :=
  ofTerms (coeffs.zipIdx.map fun c => ⟨c.1, .power v c.2⟩)

/-! ## Reading polynomials -/

/-- The coefficients with the powers that they multiply. -/
def summands (p : MvPoly) : List (Rat × List (Var × Nat)) :=
  p.terms.map fun t => (t.coeff, t.monomial.powers)

def isZero (p : MvPoly) : Bool := p.terms.isEmpty

def isConstant (p : MvPoly) : Bool := p.terms.all fun t => t.monomial.isUnit

def constantValue (p : MvPoly) : Rat :=
  match p.terms.find? fun t => t.monomial.isUnit with
  | some t => t.coeff
  | none => 0

/-- The exponent of the highest power of `v` that occurs. -/
def degree (p : MvPoly) (v : Var) : Nat :=
  p.terms.foldr (fun t d => max (t.monomial.degree v) d) 0

def totalDegree (p : MvPoly) : Nat :=
  p.terms.foldr (fun t d => max t.monomial.totalDegree d) 0

/-- Adds a variable to an increasing list of variables, unless it is there. -/
def insertVar (v : Var) : List Var → List Var
  | [] => [v]
  | w :: rest => if v < w then v :: w :: rest else if v = w then w :: rest else w :: insertVar v rest

/-- The variables that occur, in increasing order. -/
def vars (p : MvPoly) : List Var :=
  p.terms.foldr (fun t vs => t.monomial.vars.foldr insertVar vs) []

/-- Whether at most one variable occurs. -/
def isUnivariate (p : MvPoly) : Bool := p.vars.length ≤ 1

def hasVar (p : MvPoly) (v : Var) : Bool := p.terms.any fun t => 0 < t.monomial.degree v

/-- The coefficient of `v ^ k`, a polynomial in the other variables. -/
def coeff (p : MvPoly) (v : Var) (k : Nat) : MvPoly :=
  ofTerms ((p.terms.filter fun t => t.monomial.degree v = k).map fun t =>
    ⟨t.coeff, t.monomial.without v⟩)

/-- The coefficients of the powers of `v`, from the power zero to the degree in `v`. -/
def coefficients (p : MvPoly) (v : Var) : List MvPoly :=
  (List.range (p.degree v + 1)).map (p.coeff v)

/-- The terms up to the power `degree` of `v`. -/
def truncate (p : MvPoly) (v : Var) (degree : Nat) : MvPoly :=
  ofTerms (p.terms.filter fun t => t.monomial.degree v ≤ degree)

/-- The coefficient of the highest power of `v` that occurs. -/
def leadingCoeff (p : MvPoly) (v : Var) : MvPoly := p.coeff v (p.degree v)

/-! ## Arithmetic -/

def scale (p : MvPoly) (c : Rat) : MvPoly :=
  ofTerms (p.terms.map fun t => ⟨t.coeff * c, t.monomial⟩)

def neg (p : MvPoly) : MvPoly := ofTerms (p.terms.map fun t => ⟨-t.coeff, t.monomial⟩)

def sub (p q : MvPoly) : MvPoly := p.add q.neg

def mulTerm (p : MvPoly) (s : Term) : MvPoly :=
  ofTerms (p.terms.map fun t => ⟨t.coeff * s.coeff, t.monomial.mul s.monomial⟩)

def mul (p q : MvPoly) : MvPoly := p.terms.foldr (fun t r => (q.mulTerm t).add r) zero

/-- The `k`-th power, by repeated squaring. -/
def pow (p : MvPoly) (k : Nat) : MvPoly :=
  if k = 0 then one
  else
    let half := p.pow (k / 2)
    if k % 2 = 1 then p.mul (half.mul half) else half.mul half
termination_by k

def derivative (p : MvPoly) (v : Var) : MvPoly :=
  ofTerms (p.terms.map fun t =>
    ⟨t.coeff * (t.monomial.degree v : Nat),
      (t.monomial.without v).timesPower v (t.monomial.degree v - 1)⟩)

/-! ## Substitution -/

/-- Puts the polynomial `r` in the place of `v`. -/
def substitute (p : MvPoly) (v : Var) (r : MvPoly) : MvPoly :=
  (p.coefficients v).foldr (fun c acc => (acc.mul r).add c) zero

/-- Puts the variable `target` in the place of `source`. -/
def rename (p : MvPoly) (source target : Var) : MvPoly :=
  ofTerms (p.terms.map fun t => ⟨t.coeff, t.monomial.rename source target⟩)

/-- Puts the rational `q` in the place of `v`. -/
def evalAt (p : MvPoly) (v : Var) (q : Rat) : MvPoly :=
  ofTerms (p.terms.map fun t => ⟨t.coeff * q ^ t.monomial.degree v, t.monomial.without v⟩)

/-! ## Order and text -/

/-- Compares term by term, the monomials before the coefficients; a list that runs out is less. -/
def compareTerms : List Term → List Term → Ordering
  | [], [] => .eq
  | [], _ :: _ => .lt
  | _ :: _, [] => .gt
  | s :: p, t :: q =>
    match s.monomial.compare t.monomial with
    | .eq =>
      match Rational.compare s.coeff t.coeff with
      | .eq => compareTerms p q
      | o => o
    | o => o

/-- A total order on polynomials. -/
def compare (p q : MvPoly) : Ordering := compareTerms p.terms q.terms

/-- A term without its sign. The coefficient one is written only before the unit monomial. -/
def termText (c : Rat) (powers : List (Var × Nat)) : String :=
  if powers.isEmpty then Rational.text c.abs
  else if c.abs = 1 then Monomial.powersText powers
  else Rational.text c.abs ++ "*" ++ Monomial.powersText powers

/-- The terms in order, joined by ` + ` and ` - `; a sum of no terms is `0`. -/
def termsText : List (Rat × List (Var × Nat)) → String
  | [] => "0"
  | (c, powers) :: rest =>
    rest.foldl (fun s t => s ++ (if t.1 < 0 then " - " else " + ") ++ termText t.1 t.2)
      ((if c < 0 then "-" else "") ++ termText c powers)

def text (p : MvPoly) : String := termsText p.summands

theorem isZero_iff {p : MvPoly} : p.isZero = true ↔ p = zero := by
  constructor
  · intro h
    exact ext (List.isEmpty_iff.1 h)
  · rintro rfl
    rfl

end MvPoly

end AlgebraicReal
