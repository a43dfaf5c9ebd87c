import AlgebraicReal.Proofs.Session

/-!
# Encodings in hand

However a client has come by two encodings with the same coefficients, be it by realizing all roots
of a polynomial or one of them, by reflection or by a change of the variable: their signs order the
roots (`encodings_ordered`), and the intervals of the roots need not be looked at.
-/

namespace AlgebraicReal

namespace Session

open RefineM

variable {P : Type} [Arithmetic P] [Arithmetic.Lawful P] {s : Session} {t u : Thom}

/-- Any two encodings in hand with the same coefficients are compared as the roots they stand for,
by their signs alone, and their locators are compared alike. -/
theorem encodings_ordered (hrun : Run P {} s) (ht : t ∈ s.held.encodings)
    (hu : u ∈ s.held.encodings) (hc : t.poly.coeffs = u.poly.coeffs) :
    ∃ x y, t.Denotes s.store x ∧ u.Denotes s.store y ∧ Thom.OrdersBySigns s.store t u x y := by
  obtain ⟨hsound, -⟩ := sound_empty.run hrun
  obtain ⟨x, hx⟩ := hsound.denote.encodings t ht
  obtain ⟨y, hy⟩ := hsound.denote.encodings u hu
  exact ⟨x, y, hx, hy, hx.ordersBySigns hsound.valid hy hc⟩

/-- The encoding of the square root of two as the second root of `x² - 2`. -/
def secondRoot : Thom := { poly := .ofCoeffs 0 [-2, 0, 1], signs := [.positive], locator := 1 }

/-- The encoding of its opposite. -/
def opposite : Thom := { poly := .ofCoeffs 0 [-2, 0, 1], signs := [.negative], locator := 2 }

/-- A session in which both roots of `x² - 2` have been realized and one has been negated. -/
def oppositeRoots : Session :=
  serve (serve {} (.realizeAll (.ofCoeffs 0 [-2, 0, 1]) : MachineRequest) 8)
    (.negate secondRoot : MachineRequest) 0

/-- The square root of two is greater than its opposite, which has a locator of its own. -/
theorem encodings_ordered_opposite : Run (MvPoly.Machine .forward) {} oppositeRoots ∧
    secondRoot ∈ oppositeRoots.held.encodings ∧ opposite ∈ oppositeRoots.held.encodings ∧
    secondRoot.poly.coeffs = opposite.poly.coeffs ∧
    exec (secondRoot.compare opposite) 0 oppositeRoots.store = (.ok .gt, oppositeRoots.store) ∧
    Exact (RefineM.compare 1 2) oppositeRoots.store fun o _ => o = .gt := by
  have hrun : Run (MvPoly.Machine .forward) {} oppositeRoots := by
    refine .step (.step (.refl {}) _ 8 ⟨List.nil_subset _, List.nil_subset _⟩) _ 0
      ⟨List.nil_subset _, ?_⟩
    decide +kernel
  have hfirst : secondRoot ∈ oppositeRoots.held.encodings := by decide +kernel
  have hsecond : opposite ∈ oppositeRoots.held.encodings := by decide +kernel
  obtain ⟨x, y, -, -, horders⟩ := encodings_ordered hrun hfirst hsecond rfl
  have hcompare := horders.compare_eq 0
  have hlocators := horders.locators
  have hgt : cmp x y = .gt := by
    rw [Thom.exec_compare (t := secondRoot) (u := opposite) rfl, Prod.mk.injEq,
      Except.ok.injEq] at hcompare
    exact hcompare.1.symm
  rw [hgt] at hcompare hlocators
  exact ⟨hrun, hfirst, hsecond, rfl, hcompare, hlocators⟩

end Session

end AlgebraicReal
