import AlgebraicReal.MvPoly.Basic

/-!
# Division with remainder in several variables

Dividing `p` by `d` gives the one pair with `p = q * d + r` in which no monomial of `r` is divisible
by the leading monomial of `d`.

The division goes variable by variable. In the most significant variable `v` the dividend is a stack
of levels, one for each power of `v`, whose coefficients are polynomials in the other variables. The
highest level is divided by the leading coefficient of `d` in `v`, which is a division in fewer
variables: the quotient cancels the level but for a remainder, and the remainder stays. Then the
next level that is left is dealt with in the same way, down to the degree of `d` in `v`.
-/

namespace AlgebraicReal

namespace MvPoly

/-- Divides by `d` level by level in `v`, where `divideCoeff` divides by the leading coefficient of
`d` in `v`. Each round clears the highest level; below level zero there is nothing left. -/
def divideLevels (divideCoeff : MvPoly → MvPoly × MvPoly) (v : Var) (d p : MvPoly) :
    MvPoly × MvPoly :=
  let level := p.degree v
  if p.isZero ∨ level < d.degree v then (zero, p)
  else
    -- the coefficient of the highest level is `q * lead + r`, so both subtractions clear the level
    let (q, r) := divideCoeff (p.coeff v level)
    let quotient := q.mulTerm ⟨1, .power v (level - d.degree v)⟩
    let remainder := r.mulTerm ⟨1, .power v level⟩
    let rest := (p.sub (quotient.mul d)).sub remainder
    if rest.degree v < level then
      let (q', r') := divideLevels divideCoeff v d rest
      (q'.add quotient, r'.add remainder)
    -- level zero has been cleared, and `rest` is zero
    else (quotient, rest.add remainder)
termination_by p.degree v

/-- Division of polynomials in the listed variables, the most significant one first. -/
def divideIn : List Var → MvPoly → MvPoly → MvPoly × MvPoly
  | [], d, p => (p.scale d.constantValue⁻¹, zero)
  | v :: vs, d, p => divideLevels (divideIn vs (d.leadingCoeff v)) v d p

/-- Quotient and remainder, unless the divisor is zero. -/
def divRem? (p d : MvPoly) : Option (MvPoly × MvPoly) :=
  if d.isZero then none else some (divideIn (p.vars.foldr insertVar d.vars) d p)

/-- The quotient of a division without remainder. -/
def divExact? (p d : MvPoly) : Option MvPoly :=
  match p.divRem? d with
  | some (q, r) => if r.isZero then some q else none
  | none => none

end MvPoly

end AlgebraicReal
