import AlgebraicReal.RootExpr
import AlgebraicReal.Literal
import AlgebraicReal.Number.Sampling
import AlgebraicReal.Proofs.UniPoly.Division
import AlgebraicReal.Proofs.Interval
import AlgebraicReal.Proofs.UniPoly.Sturm
import AlgebraicReal.Proofs.UniPoly.Isolation
import AlgebraicReal.Proofs.Locator.Narrowing
import AlgebraicReal.Proofs.Locator.Integers
import AlgebraicReal.Proofs.Locator.Sign
import AlgebraicReal.Proofs.Locator.Order
import AlgebraicReal.Proofs.Store
import AlgebraicReal.Proofs.Thom
import AlgebraicReal.Proofs.Thom.Order
import AlgebraicReal.Proofs.Thom.Realization
import AlgebraicReal.Proofs.Number.Basic
import AlgebraicReal.Proofs.Number.Narrowing
import AlgebraicReal.Proofs.Number.Membership
import AlgebraicReal.Proofs.Number.Order
import AlgebraicReal.Proofs.Number.Sampling
import AlgebraicReal.Proofs.Literal
import AlgebraicReal.Proofs.Number.Sign
import AlgebraicReal.Proofs.MvPoly.Polynomial
import AlgebraicReal.Proofs.MvPoly.Variables
import AlgebraicReal.Proofs.MvPoly.Division
import AlgebraicReal.Proofs.MvPoly.Determinant
import AlgebraicReal.Proofs.MvPoly.Resultant
import AlgebraicReal.Proofs.MvPoly.RootProduct
import AlgebraicReal.Proofs.MvPoly.Enclosure
import AlgebraicReal.Proofs.MvPoly.Raw.Canonical
import AlgebraicReal.Proofs.MvPoly.Raw.Operations
import AlgebraicReal.Proofs.Point.Degeneracy
import AlgebraicReal.Proofs.Isolator
import AlgebraicReal.Proofs.Isolator.Conjugates
import AlgebraicReal.Proofs.Isolator.Undefined
import AlgebraicReal.Proofs.Isolator.Transparency
import AlgebraicReal.Proofs.Isolator.Substitution
import AlgebraicReal.Proofs.Session
import AlgebraicReal.Proofs.Session.Encodings
import AlgebraicReal.MvPoly.Raw
import AlgebraicReal.Proofs.MvPoly.Order
import AlgebraicReal.Proofs.MvPoly.Raw.Division
import AlgebraicReal.Proofs.MvPoly.Raw.Determinant
import AlgebraicReal.Proofs.MvPoly.Raw.Resultant
import AlgebraicReal.Proofs.MvPoly.Raw.Obtainable
import AlgebraicReal.Proofs.UniPoly.Worklist
import AlgebraicReal.Proofs.Isolator.Renaming
import AlgebraicReal.Proofs.Frame
import AlgebraicReal.Proofs.Isolator.Frame
import AlgebraicReal.Proofs.Session.Frame
import AlgebraicReal.Proofs.MvPoly.Evaluation
import AlgebraicReal.Proofs.MvPoly.Raw.Quotient
import AlgebraicReal.Proofs.MvPoly.Inclusion
import AlgebraicReal.Proofs.Number.Construction
import AlgebraicReal.Proofs.UniPoly.CommonDivisor
import AlgebraicReal.Proofs.Thom.Opposite
import AlgebraicReal.Proofs.Number.AbsoluteValue
import AlgebraicReal.Proofs.Rounds
import AlgebraicReal.Proofs.Isolator.Rounds
import AlgebraicReal.Proofs.Isolator.MissingValues
import AlgebraicReal.Proofs.UniPoly.SquareFree
import AlgebraicReal.Proofs.Locator.Exclusion
import AlgebraicReal.Interval.Raw
import AlgebraicReal.Proofs.Interval.Sample
import AlgebraicReal.Proofs.Interval.Elements
import AlgebraicReal.Proofs.Interval.Raw
import AlgebraicReal.MvPoly.Raw.Order
import AlgebraicReal.MvPoly.Raw.Dense
import AlgebraicReal.Proofs.MvPoly.Raw.MonomialOrder
import AlgebraicReal.Proofs.MvPoly.Raw.Dense
import AlgebraicReal.Proofs.Order
import AlgebraicReal.Proofs.Locator.Convergence
import AlgebraicReal.UniPoly.LongDivision
import AlgebraicReal.Point.Radius
import AlgebraicReal.Proofs.UniPoly.LongDivision
import AlgebraicReal.Proofs.Point.Radius
import AlgebraicReal.Proofs.UniPoly.CauchyBound
