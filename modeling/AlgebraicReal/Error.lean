import AlgebraicReal.Interval
import AlgebraicReal.Variable

/-!
# Errors

The ways in which a request can be refused. All but the last two describe the data that came with
the request. A sum of exponents that overflows is an error only where sums of exponents are checked;
where they are not, the sum wraps around. The last, `exhausted`, says that a search without a bound of
its own used up the rounds its caller allowed.
-/

namespace AlgebraicReal

/-- Why a request is refused. -/
inductive Error where
  /-- The interval is neither open nor a point, or holds another number of roots than one. -/
  | invalidIsolatingInterval (interval : Interval) (roots : Nat)
  /-- The defining polynomial is constant. -/
  | degeneratePolynomial
  /-- Roots are numbered from one. -/
  | invalidRootIndex
  /-- A rational value was asked of a number that is not held as a rational. -/
  | notNumeric
  /-- A variable of the polynomial has no value. -/
  | unassigned (v : Var)
  /-- The lower end of a sample range is not below its upper end. -/
  | invalidSampleRange
  /-- No root of the polynomial has the given derivative signs. -/
  | invalidThomEncoding
  /-- A polynomial in `expected` alone was needed, and `found` occurs in it. -/
  | notUnivariate (expected found : Var)
  /-- The divisor is the zero polynomial. -/
  | divisionByZero
  /-- A fraction has the denominator zero. -/
  | zeroDenominator
  /-- An open interval has no element. -/
  | emptyOpen
  /-- A closed interval has no element. -/
  | emptyClosed
  /-- A sum of exponents does not fit into a machine word. -/
  | overflow
  /-- A search used up its rounds. -/
  | exhausted
  deriving DecidableEq

/-- What is told to the user. -/
def Error.message : Error → String
  | invalidIsolatingInterval interval roots =>
    "interval " ++ interval.text ++ " contains " ++ toString roots ++
      " roots, expected an open or point interval isolating exactly one"
  | degeneratePolynomial => "defining polynomial must have positive degree"
  | invalidRootIndex => "root index must be at least 1"
  | notNumeric => "number is not in numeric representation"
  | unassigned v => "variable " ++ v.text ++ " is not assigned"
  | invalidSampleRange => "sample range is empty"
  | invalidThomEncoding => "sign condition is not realized by a root of the polynomial"
  | notUnivariate expected found =>
    "polynomial is not univariate in " ++ expected.text ++ ": found " ++ found.text
  | divisionByZero => "division by zero polynomial"
  | zeroDenominator => "denominator == 0"
  | emptyOpen => "open interval requires lower < upper"
  | emptyClosed => "closed interval requires lower <= upper"
  | overflow => "attempt to add with overflow"
  | exhausted => "the search used up its rounds"

end AlgebraicReal
