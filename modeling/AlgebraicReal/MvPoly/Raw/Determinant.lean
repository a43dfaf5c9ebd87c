import AlgebraicReal.MvPoly.Raw

/-!
# Divisions inside a determinant

After each step of the elimination the entries that are left are divided by the pivot of the step
before. A remainder of that division would be dropped, and a zero pivot would turn the entry into
zero. To see that neither happens, the elimination is written with the division as a parameter: with
`quotientOrZero` it is the one that runs, and with `divExact?` it fails as soon as a division leaves
a remainder or the divisor is zero.
-/

namespace AlgebraicReal.MvPoly.Raw

/-- The quotient without a look at the remainder, and zero if the divisor is zero. -/
def quotientOrZero (p d : Raw) : Option Raw :=
  if d.isEmpty then some [] else (divRem? p d).map (·.1)

/-- The quotient of a division without remainder. -/
def divExact? (p d : Raw) : Option Raw :=
  match divRem? p d with
  | some (q, []) => some q
  | _ => none

variable (divide : Raw → Raw → Option Raw)

/-- Clears the first entry of a row with the help of the pivot row. -/
def clearRowBy (reading : Reading) (prev : Raw) (pivotRow row : List Raw) : Option (List Raw) :=
  (pivotRow.tail.zip row.tail).mapM fun (top, entry) =>
    divide (sub (mul reading (pivotRow.headD []) entry) (mul reading (row.headD []) top)) prev

/-- The determinant of a matrix with `n + 1` rows, by fraction-free elimination. -/
def eliminateBy (reading : Reading) : Nat → Bool → Raw → List (List Raw) → Option Raw
  | 0, negate, _, rows =>
    let det := (rows.headD []).headD []
    some (if negate then neg det else det)
  | n + 1, negate, prev, rows =>
    match pivot rows with
    | none => some []
    | some (swapped, pivotRow, others) => do
      let cleared ← others.mapM (clearRowBy divide reading prev pivotRow)
      eliminateBy reading n (negate ^^ swapped) (pivotRow.headD []) cleared

/-- The determinant of a square matrix; that of the empty one is one. -/
def determinantBy (reading : Reading) (rows : List (List Raw)) : Option Raw :=
  match rows.length with
  | 0 => some (constant 1)
  | n + 1 => eliminateBy divide reading n false (constant 1) rows

/-- The determinant of a square matrix as it is computed. -/
def determinant : Reading → List (List Raw) → Option Raw := determinantBy quotientOrZero

end AlgebraicReal.MvPoly.Raw
