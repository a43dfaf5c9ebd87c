import AlgebraicReal.Number.Order

/-!
# Literals

A literal says that a variable has a value, or, negated, that it has not. Literals are ordered by
variable, value and negation; values are compared, as reals, only if the variables agree.
-/

namespace AlgebraicReal

/-- The literal `var = value`, or `var ≠ value` if it is negated. -/
structure Literal where
  var : Var
  value : Number
  negated : Bool := false
  deriving DecidableEq, Inhabited

namespace Literal

def negation (l : Literal) : Literal := { l with negated := !l.negated }

def compare (a b : Literal) : RefineM Ordering := do
  match Ord.compare a.var b.var with
  | .eq => return (← a.value.compare b.value).then (Ord.compare a.negated b.negated)
  | order => return order

/-- Whether two literals have the same variable, equal values and the same negation. -/
def equal (a b : Literal) : RefineM Bool := do
  if a.var = b.var then return (← a.value.equal b.value) && a.negated = b.negated
  else return false

/-- What a hash of the literal is made of. -/
def key (l : Literal) : RefineM (Var × Rat × Bool) :=
  return (l.var, ← l.value.floor, l.negated)

/-- The variables of the listed literals, in increasing order. -/
def vars (literals : List Literal) : List Var :=
  literals.foldr (fun l vs => MvPoly.insertVar l.var vs) []

/-- The variable, an arrow that is crossed out if the literal is negated, and the value. -/
def text (s : Store) (l : Literal) : String :=
  "(" ++ l.var.text ++ (if l.negated then " -!> " else " -> ") ++ l.value.text s ++ ")"

theorem negation_negation (l : Literal) : l.negation.negation = l := by
  simp [negation]

end Literal

end AlgebraicReal
