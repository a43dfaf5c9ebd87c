import AlgebraicReal.MvPoly.Basic

/-!
# Polynomials without proofs

`MvPoly.Raw` is the list of the terms alone, and `Monomial.Raw` is a list of powers with the total
degree kept beside it. Exponents and total degrees are machine words of 32 bits, and a sum of
exponents that does not fit wraps around; a power whose exponent has wrapped to zero stays in its
list. Nothing in these types says that a list is in order.

The operations build their lists in several ways. Most collect terms in any order and then
normalize: sort, add up neighbours with one monomial, drop zeros. Negation, scaling and the removal
of a leading term rely on the order that is there. Products are added up in a table, and the order in
which a table is read is not fixed (`MvPoly.Reading`).

As long as no sum of exponents wraps around, what is built in these ways is in order, and is the term
list of an `MvPoly`, where exponents are numbers without a bound.
-/

namespace AlgebraicReal

/-- Merges an element with the one before it as long as the two are the same. -/
def mergeAdjacent {α : Type} (same : α → α → Bool) (merge : α → α → α) : List α → List α
  | a :: b :: rest =>
    if same a b then mergeAdjacent same merge (merge a b :: rest)
    else a :: mergeAdjacent same merge (b :: rest)
  | l => l
termination_by l => l.length

/-- Compares two lists in step, and their lengths if no difference is met. -/
def compareInStep {α : Type} (cmp : α → α → Ordering) (l r : List α) : Ordering :=
  (((l.zip r).map fun a => cmp a.1 a.2).find? (· ≠ .eq)).getD (Ord.compare l.length r.length)

/-! ## Monomials -/

/-- A list of powers, and what is taken for the sum of its exponents. -/
structure Monomial.Raw where
  powers : List (Var × UInt32)
  totalDegree : UInt32
  deriving DecidableEq

/-- Of powers of two variables the one with the smaller number is greater; of powers of one variable
the higher one is. -/
def comparePowers {E : Type} [Ord E] (a b : Var × E) : Ordering :=
  (Ord.compare b.1 a.1).then (Ord.compare a.2 b.2)

/-- The exponents as numbers. -/
def natPowers (powers : List (Var × UInt32)) : List (Var × Nat) :=
  powers.map fun a => (a.1, a.2.toNat)

namespace Monomial.Raw

def unit : Raw := ⟨[], 0⟩

def power (v : Var) (k : UInt32) : Raw := if k = 0 then unit else ⟨[(v, k)], k⟩

def isUnit (m : Raw) : Bool := m.powers.isEmpty

def text (m : Raw) : String := Monomial.powersText (natPowers m.powers)

/-- Monomials differ first in their variables, where the smaller number counts for more, and then in
their exponents. -/
def compare (m n : Raw) : Ordering := compareInStep comparePowers m.powers n.powers

/-- The product of the listed powers. They may come in any order, with repeated variables and with
exponent zero. Powers of one variable are put into one, so it does not matter how the sort orders
them among themselves. -/
def ofPowers (powers : List (Var × UInt32)) : Raw :=
  let sorted := (powers.filter fun a => 0 < a.2).mergeSort fun a b => a.1 ≤ b.1
  let merged := mergeAdjacent (fun a b => a.1 = b.1) (fun a b => (a.1, a.2 + b.2)) sorted
  ⟨merged, merged.foldr (fun a n => a.2 + n) 0⟩

/-- The exponent of `v`, zero if `v` does not occur. -/
def exponent (m : Raw) (v : Var) : UInt32 := (m.powers.lookup v).getD 0

def degree (m : Raw) (v : Var) : Nat := (m.exponent v).toNat

def without (m : Raw) (v : Var) : Raw := ofPowers (m.powers.filter fun a => a.1 ≠ v)

def rename (m : Raw) (source target : Var) : Raw :=
  ofPowers (m.powers.map fun a => (if a.1 = source then target else a.1, a.2))

def mul (m n : Raw) : Raw := ofPowers (m.powers ++ n.powers)

def div? (m n : Raw) : Option Raw :=
  if n.powers.any fun a => m.exponent a.1 < a.2 then none
  else some (ofPowers (m.powers.map fun a => (a.1, a.2 - n.exponent a.1)))

/-- The monomial with one power of `v` less. -/
def lower (m : Raw) (v : Var) : Raw :=
  ofPowers (m.powers.map fun a => if a.1 = v then (a.1, a.2 - 1) else a)

end Monomial.Raw

structure Term.Raw where
  coeff : Rat
  monomial : Monomial.Raw
  deriving DecidableEq

/-! ## Polynomials -/

/-- A list of terms. -/
abbrev MvPoly.Raw := List Term.Raw

/-- The order in which the entries of a table are read: any, but each entry once. -/
structure MvPoly.Reading where
  read : List Term.Raw → List Term.Raw
  perm : ∀ table, (read table).Perm table

namespace MvPoly.Reading

/-- The entries as they were made, the first one first. -/
def forward : Reading := ⟨id, fun _ => .refl _⟩

/-- The entries as they were made, the first one last. -/
def backward : Reading := ⟨List.reverse, List.reverse_perm⟩

end MvPoly.Reading

namespace MvPoly.Raw

/-- The greater monomial first, and neighbours with one monomial in one term. -/
def normalize (terms : List Term.Raw) : Raw :=
  let sorted := terms.mergeSort fun a b => b.monomial.compare a.monomial ≠ .gt
  let merged := mergeAdjacent (fun a b => a.monomial = b.monomial)
    (fun a b => ⟨a.coeff + b.coeff, a.monomial⟩) sorted
  merged.filter fun t => t.coeff ≠ 0

/-- The sum of the listed terms. -/
def ofTerms (terms : List Term.Raw) : Raw := normalize (terms.filter fun t => t.coeff ≠ 0)

def constant (c : Rat) : Raw := if c = 0 then [] else [⟨c, .unit⟩]

def varPower (v : Var) (k : UInt32) : Raw := [⟨1, .power v k⟩]

/-- The sum of integers times products of powers. -/
def ofIntTerms (terms : List (Int × List (Var × UInt32))) : Raw :=
  ofTerms (terms.map fun a => ⟨a.1, .ofPowers a.2⟩)

/-- The polynomial in `v` with the given coefficients, the constant one first. A place in the list
becomes an exponent, cut to 32 bits. -/
def ofCoeffs (v : Var) (coeffs : List Rat) : Raw :=
  ofTerms (coeffs.zipIdx.map fun c => ⟨c.1, .power v c.2.toUInt32⟩)

/-- The coefficients with the powers that they multiply. -/
def summands (p : Raw) : List (Rat × List (Var × Nat)) :=
  p.map fun t => (t.coeff, natPowers t.monomial.powers)

def text (p : Raw) : String := termsText p.summands

def degree (p : Raw) (v : Var) : Nat := p.foldr (fun t d => max (t.monomial.degree v) d) 0

def totalDegree (p : Raw) : Nat := p.foldr (fun t d => max t.monomial.totalDegree.toNat d) 0

def coeff (p : Raw) (v : Var) (k : Nat) : Raw :=
  ofTerms ((p.filter fun t => t.monomial.degree v = k).map fun t =>
    ⟨t.coeff, t.monomial.without v⟩)

def truncate (p : Raw) (v : Var) (degree : Nat) : Raw :=
  ofTerms (p.filter fun t => t.monomial.degree v ≤ degree)

def leadingCoeff (p : Raw) (v : Var) : Raw := p.coeff v (p.degree v)

def coefficients (p : Raw) (v : Var) : List Raw := (List.range (p.degree v + 1)).map (coeff p v)

def neg (p : Raw) : Raw := p.map fun t => ⟨-t.coeff, t.monomial⟩

def add (p q : Raw) : Raw := ofTerms (p ++ q)

def sub (p q : Raw) : Raw := add p (neg q)

def scale (p : Raw) (c : Rat) : Raw :=
  if c = 0 then [] else p.map fun t => ⟨t.coeff * c, t.monomial⟩

def mulTerm (p : Raw) (s : Term.Raw) : Raw :=
  if s.coeff = 0 then []
  else ofTerms (p.map fun t => ⟨t.coeff * s.coeff, t.monomial.mul s.monomial⟩)

/-- Adds a term to the entry of its monomial, or as a new entry. -/
def enter (t : Term.Raw) : List Term.Raw → List Term.Raw
  | [] => [t]
  | e :: table =>
    if e.monomial = t.monomial then ⟨e.coeff + t.coeff, e.monomial⟩ :: table
    else e :: enter t table

/-- The products of the terms of `p` and `q`, with one entry for each monomial. -/
def products (p q : Raw) : List Term.Raw :=
  p.foldl (fun table a => q.foldl (fun table b =>
    enter ⟨a.coeff * b.coeff, a.monomial.mul b.monomial⟩ table) table) []

def mul (reading : Reading) (p q : Raw) : Raw :=
  if p.isEmpty ∨ q.isEmpty then [] else ofTerms (reading.read (products p q))

/-- Multiplies `result` by `base ^ k`, with a squaring for each binary digit of `k` but the last. -/
def powLoop (reading : Reading) (result base : Raw) (k : Nat) : Raw :=
  if k = 0 then result
  else
    let result := if k % 2 = 1 then mul reading result base else result
    if k / 2 = 0 then result else powLoop reading result (mul reading base base) (k / 2)
termination_by k

def pow (reading : Reading) (p : Raw) (k : Nat) : Raw := powLoop reading (constant 1) p k

def derivative (p : Raw) (v : Var) : Raw :=
  ofTerms ((p.filter fun t => t.monomial.degree v ≠ 0).map fun t =>
    ⟨t.coeff * (t.monomial.degree v : Nat), t.monomial.lower v⟩)

def substitute (reading : Reading) (p : Raw) (v : Var) (r : Raw) : Raw :=
  (coefficients p v).foldr (fun c acc => add (mul reading acc r) c) []

def rename (p : Raw) (source target : Var) : Raw :=
  if source = target then p
  else ofTerms (p.map fun t => ⟨t.coeff, t.monomial.rename source target⟩)

def evalAt (p : Raw) (v : Var) (q : Rat) : Raw :=
  ofTerms (p.map fun t =>
    if t.monomial.degree v = 0 then t
    else ⟨t.coeff * q ^ t.monomial.degree v, t.monomial.without v⟩)

/-! ## Division -/

/-- Takes off leading terms until none is left: a multiple of the divisor `d` clears a leading term
that the leading term of `d` divides, and any other goes to the remainder. -/
def reduce (d : Raw) (lead : Term.Raw) (p quotient remainder : Raw) : Option (Raw × Raw) :=
  match p with
  | [] => some (quotient, remainder)
  | top :: rest =>
    match top.monomial.div? lead.monomial with
    | some m =>
      let t : Term.Raw := ⟨top.coeff / lead.coeff, m⟩
      d |>.reduce lead (sub (top :: rest) (mulTerm d t)) (quotient ++ [t]) remainder
    | none => d |>.reduce lead rest quotient (remainder ++ [top])
partial_fixpoint

/-- Quotient and remainder, unless the divisor is zero. -/
def divRem? (p d : Raw) : Option (Raw × Raw) :=
  match d with
  | [] => none
  | lead :: _ => (reduce d lead p [] []).map fun r => (ofTerms r.1, ofTerms r.2)

/-! ## Resultants -/

/-- The first row that may be a pivot row, and the others with the row that is on top put in its
place. Also tells whether the two were different rows. -/
def exchange {α : Type} (eligible : List α → Bool) :
    List (List α) → Option (Bool × List α × List (List α))
  | [] => none
  | row :: rest =>
    if eligible row then some (false, row, rest)
    else match rest.findIdx? eligible with
      | none => none
      | some i => some (true, rest.getD i [], rest.set i row)

/-- A pivot row does not start with zero. -/
def pivot : List (List Raw) → Option (Bool × List Raw × List (List Raw)) :=
  exchange fun row => row.headD [] ≠ []

/-- Clears the first entry of a row with the help of the pivot row. -/
def clearRow (reading : Reading) (prev : Raw) (pivotRow row : List Raw) : Option (List Raw) :=
  (pivotRow.tail.zip row.tail).mapM fun (top, entry) =>
    let num := sub (mul reading (pivotRow.headD []) entry) (mul reading (row.headD []) top)
    if prev.isEmpty then some [] else (divRem? num prev).map (·.1)

/-- The determinant of a matrix with `n + 1` rows, by fraction-free elimination. -/
def eliminate (reading : Reading) : Nat → Bool → Raw → List (List Raw) → Option Raw
  | 0, negate, _, rows =>
    let det := (rows.headD []).headD []
    some (if negate then neg det else det)
  | n + 1, negate, prev, rows =>
    match pivot rows with
    | none => some []
    | some (swapped, pivotRow, others) => do
      let cleared ← others.mapM (clearRow reading prev pivotRow)
      eliminate reading n (negate ^^ swapped) (pivotRow.headD []) cleared

/-- The rows of the Sylvester matrix that come from one polynomial. -/
def shiftedRows (coeffs : List Raw) (count : Nat) : List (List Raw) :=
  (List.range count).map fun i =>
    List.replicate i [] ++ coeffs.reverse ++ List.replicate (count - 1 - i) []

/-- The resultant in `v`. -/
def resultant (reading : Reading) (f g : Raw) (v : Var) : Option Raw :=
  if f.isEmpty ∨ g.isEmpty then some []
  else if degree f v = 0 then some (pow reading f (degree g v))
  else if degree g v = 0 then some (pow reading g (degree f v))
  else
    eliminate reading (degree f v + degree g v - 1) false (constant 1)
      (shiftedRows (coefficients f v) (degree g v) ++ shiftedRows (coefficients g v) (degree f v))

end MvPoly.Raw

end AlgebraicReal
