import AlgebraicReal.UniPoly.Basic
import AlgebraicReal.MvPoly.Basic
import AlgebraicReal.Error

/-!
# Between dense and sparse polynomials

A polynomial in one variable can be read as one in several variables, and back if no other variable
occurs. The text of a dense polynomial is that of the sparse one.
-/

namespace AlgebraicReal

namespace UniPoly

/-- The polynomial as one in several variables. -/
def toMvPoly (p : UniPoly) : MvPoly := .ofCoeffs p.var p.coeffs

/-- The terms in descending order of degree. -/
def text (p : UniPoly) : String := p.toMvPoly.text

end UniPoly

/-- The polynomial as one in `v`, or else the smallest other variable that occurs. -/
def MvPoly.toUniPoly (p : MvPoly) (v : Var) : Except Error UniPoly :=
  match p.vars.find? (· ≠ v) with
  | some w => .error (.notUnivariate v w)
  | none => .ok (.ofCoeffs v ((p.coefficients v).map (·.constantValue)))

end AlgebraicReal
