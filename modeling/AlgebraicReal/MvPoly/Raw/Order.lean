import AlgebraicReal.MvPoly.Raw

/-!
# Comparing term lists

Polynomials are compared as monomials are, in step: the first place where the two lists differ
decides, and if there is none, the shorter list is less. Terms differ first in their monomials.
-/

namespace AlgebraicReal

def Term.Raw.compare (s t : Raw) : Ordering :=
  (s.monomial.compare t.monomial).then (Rational.compare s.coeff t.coeff)

def MvPoly.Raw.compare (p q : Raw) : Ordering := compareInStep Term.Raw.compare p q

end AlgebraicReal
