import AlgebraicReal.Isolator
import AlgebraicReal.MvPoly.Raw.Order

/-!
# Root expressions

A root expression denotes the `k`-th real root of a polynomial in one of its variables, as a function
of the others. It has a value where the polynomial has that many distinct real roots.
-/

namespace AlgebraicReal

/-- The `index`-th real root of `poly` in `root`, counted from one in ascending order. -/
@[ext] structure RootExpr (P : Type) where
  poly : P
  index : Nat
  root : Var
  index_pos : 0 < index
  deriving DecidableEq

namespace RootExpr

variable {P : Type}

/-- The root expression for the `index`-th root, if the index is at least one. -/
def kth (poly : P) (index : Nat) (root : Var) : Except Error (RootExpr P) :=
  if h : 0 < index then .ok ⟨poly, index, root, h⟩ else .error .invalidRootIndex

section

variable [Arithmetic P]

/-- The variables that need a value, in increasing order. -/
def vars (e : RootExpr P) : List Var := (Arithmetic.vars e.poly).filter (· ≠ e.root)

def isUnivariate (e : RootExpr P) : Bool := e.vars.isEmpty

def evaluate (e : RootExpr P) (values : Assignment) : RefineM (Option Number) := do
  match ← Arithmetic.realRoots e.poly e.root values with
  | none => return none
  | some roots => return roots[e.index - 1]?

end

section

variable {reading : MvPoly.Reading}

/-- The polynomial with another variable in the place of the root variable. -/
def polyIn (e : RootExpr (MvPoly.Machine reading)) (v : Var) : MvPoly.Raw :=
  MvPoly.Raw.rename e.poly e.root v

/-- Puts the polynomial `r` in the place of `v`. -/
def substitute (e : RootExpr (MvPoly.Machine reading)) (v : Var) (r : MvPoly.Raw) :
    RootExpr (MvPoly.Machine reading) :=
  { e with poly := MvPoly.Raw.substitute reading e.poly v r }

/-- Compares the indices, then the polynomials, then the root variables. -/
def compare (a b : RootExpr (MvPoly.Machine reading)) : Ordering :=
  ((Ord.compare a.index b.index).then (MvPoly.Raw.compare a.poly b.poly)).then
    (Ord.compare a.root b.root)

/-- The polynomial, the index and the root variable. -/
def text (e : RootExpr (MvPoly.Machine reading)) : String :=
  "rootExpr(" ++ MvPoly.Raw.text e.poly ++ ", " ++ toString e.index ++ ", " ++ e.root.text ++ ")"

end

theorem kth_eq_error_iff {p : P} {k : Nat} {v : Var} {e : Error} :
    kth p k v = .error e ↔ k = 0 ∧ e = .invalidRootIndex := by
  unfold kth
  split
  · simp; omega
  · simp only [Except.error.injEq]
    constructor
    · intro h; exact ⟨by omega, h.symm⟩
    · intro h; exact h.2.symm

end RootExpr

end AlgebraicReal
