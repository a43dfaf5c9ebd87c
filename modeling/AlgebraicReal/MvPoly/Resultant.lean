import AlgebraicReal.MvPoly.Division

/-!
# Determinants and resultants

The resultant of two polynomials in a variable `v` is the determinant of their Sylvester matrix. It
does not mention `v`, and it vanishes exactly where the two have a common root in `v` or both leading
coefficients vanish.

Determinants are computed by fraction-free elimination: every entry of the smaller matrix that is
left after a step is a minor of the matrix at the start, and so the division by the previous pivot is
always exact.
-/

namespace AlgebraicReal

namespace MvPoly

/-- The quotient of an exact division; without meaning if the division leaves a remainder. -/
def quotient (p d : MvPoly) : MvPoly :=
  match p.divRem? d with
  | some (q, _) => q
  | none => zero

abbrev Rows := List (List MvPoly)

/-- Clears the first column of a row with the help of the pivot row and drops that column; `prev` is
the pivot of the step before. -/
def clearRow (prev : MvPoly) (pivotRow row : List MvPoly) : List MvPoly :=
  (pivotRow.tail.zip row.tail).map fun (top, entry) =>
    (((pivotRow.headD zero).mul entry).sub ((row.headD zero).mul top)).quotient prev

/-- The determinant of a square matrix with `n` rows, divided by the right power of `prev`. The pivot
row is the first one that does not start with zero; moving it past the rows before it changes the
sign once for each of them. -/
def eliminate : Nat → MvPoly → Rows → MvPoly
  | 0, prev, _ => prev
  | n + 1, prev, rows =>
    let above := rows.takeWhile fun row => (row.headD zero).isZero
    match rows.dropWhile fun row => (row.headD zero).isZero with
    -- a column of zeros
    | [] => zero
    | pivotRow :: below =>
      let minor := eliminate n (pivotRow.headD zero) ((above ++ below).map (clearRow prev pivotRow))
      if above.length % 2 = 1 then minor.neg else minor

def determinant (rows : Rows) : MvPoly := eliminate rows.length one rows

/-- The rows of the Sylvester matrix that come from one polynomial: its coefficients, the leading one
first, shifted one place further in each of `count` rows. -/
def shiftedRows (coeffs : List MvPoly) (count : Nat) : Rows :=
  (List.range count).map fun i =>
    List.replicate i zero ++ coeffs.reverse ++ List.replicate (count - 1 - i) zero

def sylvester (f g : MvPoly) (v : Var) : Rows :=
  shiftedRows (f.coefficients v) (g.degree v) ++ shiftedRows (g.coefficients v) (f.degree v)

/-- The resultant in `v`. A polynomial without `v` contributes its power. -/
def resultant (f g : MvPoly) (v : Var) : MvPoly :=
  if f.isZero ∨ g.isZero then zero
  else if f.degree v = 0 then f.pow (g.degree v)
  else if g.degree v = 0 then g.pow (f.degree v)
  else determinant (sylvester f g v)

end MvPoly

end AlgebraicReal
