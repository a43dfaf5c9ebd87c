import AlgebraicReal.UniPoly.Sparse
import AlgebraicReal.MvPoly.Enclosure
import AlgebraicReal.MvPoly.Raw

/-!
# Term lists read in one variable

The coefficients of all powers of a variable are collected in one pass: each term goes to the bucket
of its exponent, without the power of the variable, and the buckets are normalized one by one. If no
other variable occurs, the constants among them make up a dense polynomial.
-/

namespace AlgebraicReal.MvPoly.Raw

/-- The variables that occur, in increasing order: all that are listed are sorted, and neighbours
that are the same are left only once. -/
def vars (p : Raw) : List Var :=
  mergeAdjacent (fun v w => v = w) (fun v _ => v)
    ((p.flatMap fun t => t.monomial.powers.map (·.1)).mergeSort fun v w => v ≤ w)

def isUnivariate (p : Raw) : Bool := p.vars.length ≤ 1

def hasVar (p : Raw) (v : Var) : Bool := p.any fun t => 0 < t.monomial.degree v

def isConstant (p : Raw) : Bool := p.all fun t => t.monomial.powers.isEmpty

def constantValue (p : Raw) : Rat :=
  match p.find? fun t => t.monomial.powers.isEmpty with
  | some t => t.coeff
  | none => 0

/-- Puts a term, without its power of `v`, at the end of the bucket of its exponent. -/
def enterBucket (v : Var) (buckets : List (List Term.Raw)) (t : Term.Raw) : List (List Term.Raw) :=
  buckets.modify (t.monomial.degree v) (· ++ [⟨t.coeff, t.monomial.without v⟩])

/-- The coefficients of the powers of `v`, from the power zero to the degree in `v`, in one pass. -/
def collectCoefficients (p : Raw) (v : Var) : List Raw :=
  (p.foldl (enterBucket v) (List.replicate (degree p v + 1) [])).map ofTerms

/-- The list as a dense polynomial in `v`, or else the smallest other variable that occurs. -/
def toUniPoly (p : Raw) (v : Var) : Except Error UniPoly :=
  match (vars p).find? (· ≠ v) with
  | some w => .error (.notUnivariate v w)
  | none => .ok (.ofCoeffs v ((collectCoefficients p v).map constantValue))

def ofUniPoly (u : UniPoly) : Raw := ofCoeffs u.var u.coeffs

/-- A range for the values on a box, if the box has a range for each variable. -/
def enclose (p : Raw) (box : Box) : Option Range := box.encloseTerms p.summands

end AlgebraicReal.MvPoly.Raw
