import AlgebraicReal.MvPoly.Resultant
import AlgebraicReal.MvPoly.Raw.Dense

/-!
# Arithmetics of polynomials

Signs at algebraic points and roots under an assignment are found with a few operations on polynomials
in several variables. The search is written for any kind of polynomials that has them. Two kinds are
at hand: `MvPoly.Machine`, whose exponents are words of 32 bits that wrap around, and `MvPoly`, whose
exponents are numbers without a bound. The first is what runs, and the second is what it is meant to
compute.
-/

namespace AlgebraicReal

/-- The operations on polynomials in several variables by which signs and roots are found. -/
class Arithmetic (P : Type) where
  /-- The variables that occur, in increasing order. -/
  vars : P → List Var
  hasVar : P → Var → Bool
  isZero : P → Bool
  isConstant : P → Bool
  constantValue : P → Rat
  /-- The coefficients of the powers of a variable, from the power zero to the degree. -/
  coefficients : P → Var → List P
  /-- The terms up to a power of a variable. -/
  truncate : P → Var → Nat → P
  /-- Puts a rational in the place of a variable. -/
  evalAt : P → Var → Rat → P
  /-- A variable minus a polynomial. -/
  subFrom : Var → P → P
  /-- Eliminates the variable of a dense polynomial, by the resultant of the two. -/
  eliminate : P → UniPoly → Except Error P
  /-- The polynomial as one in a single variable, or else the smallest other variable that occurs. -/
  toUniPoly : P → Var → Except Error UniPoly
  /-- A range for the values on a box, if the box has a range for each variable. -/
  enclose : P → Box → Option Range

instance : Arithmetic MvPoly where
  vars := MvPoly.vars
  hasVar := MvPoly.hasVar
  isZero := MvPoly.isZero
  isConstant := MvPoly.isConstant
  constantValue := MvPoly.constantValue
  coefficients := MvPoly.coefficients
  truncate := MvPoly.truncate
  evalAt := MvPoly.evalAt
  subFrom v p := (MvPoly.ofVar v).sub p
  eliminate p u := .ok (p.resultant u.toMvPoly u.var)
  toUniPoly := MvPoly.toUniPoly
  enclose := MvPoly.enclose

namespace Arithmetic

section

variable (p : MvPoly) (v : Var)

@[simp] theorem vars_mvPoly : vars p = p.vars := rfl

@[simp] theorem hasVar_mvPoly : hasVar p v = p.hasVar v := rfl

@[simp] theorem isZero_mvPoly : isZero p = p.isZero := rfl

@[simp] theorem isConstant_mvPoly : isConstant p = p.isConstant := rfl

@[simp] theorem constantValue_mvPoly : constantValue p = p.constantValue := rfl

@[simp] theorem coefficients_mvPoly : coefficients p v = p.coefficients v := rfl

@[simp] theorem truncate_mvPoly : truncate p v = p.truncate v := rfl

@[simp] theorem evalAt_mvPoly : evalAt p v = p.evalAt v := rfl

@[simp] theorem toUniPoly_mvPoly : toUniPoly p v = p.toUniPoly v := rfl

@[simp] theorem enclose_mvPoly : enclose p = p.enclose := rfl

end

end Arithmetic

/-- Term lists as polynomials, with exponents in machine words. Tables of products are read in the
given way. -/
def MvPoly.Machine (_ : MvPoly.Reading) : Type := MvPoly.Raw

instance (reading : MvPoly.Reading) : DecidableEq (MvPoly.Machine reading) :=
  inferInstanceAs (DecidableEq MvPoly.Raw)

instance (reading : MvPoly.Reading) : Arithmetic (MvPoly.Machine reading) where
  vars := MvPoly.Raw.vars
  hasVar := MvPoly.Raw.hasVar
  isZero := List.isEmpty
  isConstant := MvPoly.Raw.isConstant
  constantValue := MvPoly.Raw.constantValue
  coefficients := MvPoly.Raw.collectCoefficients
  truncate := MvPoly.Raw.truncate
  evalAt := MvPoly.Raw.evalAt
  subFrom v p := MvPoly.Raw.sub (.varPower v 1) p
  eliminate p u :=
    match MvPoly.Raw.resultant reading p (.ofUniPoly u) u.var with
    | some r => .ok r
    -- a division on the way goes on forever
    | none => .error .exhausted
  toUniPoly := MvPoly.Raw.toUniPoly
  enclose := MvPoly.Raw.enclose

end AlgebraicReal
