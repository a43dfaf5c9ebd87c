import AlgebraicReal.Proofs.Number.Basic

/-!
# The sign of a polynomial at a number

A rational is put into the polynomial. For a located root a common divisor with the defining
polynomial decides whether the value is zero; if it is not, the interval is narrowed until the
polynomial has no root in it. An encoding asks its locator. In each form the answer is the sign of
the value (`signOf_exact`), and the polynomial has the number as a root exactly if the test says so
(`isRootOf_exact`).
-/

open Polynomial

namespace AlgebraicReal

namespace Number

open RefineM

variable {s : Store} {n : Number} {x : ℝ}

/-- The sign of a polynomial at a number is found. -/
theorem signOf_exact (hs : s.Valid) (h : n.Denotes s x) (q : UniPoly) :
    Exact (n.signOf q) s fun o _ => o = Sign.ofReal (q.overReal.eval x) := by
  refine Exact.current_bind h fun f hf => ?_
  cases f with
  | rational v => exact Exact.pure hs (by rw [show x = v from hf, UniPoly.ofReal_eval_overReal])
  | root id => exact Exact.sign hs hf.1 hf.2 q
  | thom t => exact Thom.signOf_exact hs hf q

/-- And whether the number is a root of it. -/
theorem isRootOf_exact (hs : s.Valid) (h : n.Denotes s x) (q : UniPoly) :
    Exact (n.isRootOf q) s fun b _ => b = true ↔ q.overReal.IsRoot x := by
  refine Exact.current_bind h fun f hf => ?_
  cases f with
  | rational v =>
    refine Exact.pure hs ?_
    rw [show x = v from hf]
    exact UniPoly.isRoot_ratCast.symm
  | root id => exact Exact.get_bind (Exact.pure hs (hf.2.isRootOf_iff q))
  | thom t =>
    refine (Thom.signOf_exact hs hf q).bind fun o t _ hval ho => Exact.pure hval ?_
    rw [ho, decide_eq_true_iff, Sign.ofReal_eq_zero_iff, IsRoot.def]

/-- Whatever has been narrowed in between, the sign of a polynomial at a number and the test for a
root tell the value. The variables of the polynomial and of the number take no part. -/
theorem polynomial_at_number (hs : s.Valid) (h : n.Denotes s x) (q : UniPoly) (v : Var)
    {t : Store} (hnar : s.Narrowed t) (ht : t.Valid) :
    Exact (n.signOf (q.withVar v)) t (fun o _ => o = Sign.ofReal (q.overReal.eval x)) ∧
    Exact (n.isRootOf (q.withVar v)) t (fun b _ => b = true ↔ q.overReal.eval x = 0) ∧
    ∀ w, Exact (n.withVar w) t fun m u =>
      Exact (m.signOf (q.withVar v)) u (fun o _ => o = Sign.ofReal (q.overReal.eval x)) ∧
      Exact (m.isRootOf (q.withVar v)) u (fun b _ => b = true ↔ q.overReal.eval x = 0) := by
  have hboth : ∀ {m : Number} {u : Store}, u.Valid → m.Denotes u x →
      Exact (m.signOf (q.withVar v)) u (fun o _ => o = Sign.ofReal (q.overReal.eval x)) ∧
      Exact (m.isRootOf (q.withVar v)) u (fun b _ => b = true ↔ q.overReal.eval x = 0) := by
    intro m u hval hm
    have hsign := signOf_exact hval hm (q.withVar v)
    have hroot := isRootOf_exact hval hm (q.withVar v)
    rw [UniPoly.overReal_withVar] at hsign hroot
    exact ⟨hsign, hroot⟩
  have hnt := h.narrowed hs hnar
  obtain ⟨hsign, hroot⟩ := hboth ht hnt
  exact ⟨hsign, hroot, fun w => (withVar_exact ht hnt w).mono fun m u _ hval hm => hboth hval hm⟩

/-- The square root of two is a root of `y² - 2`, and `y - 1` is positive there. -/
theorem polynomial_at_sqrtTwo :
    Exact (sqrtTwo.isRootOf ((UniPoly.ofCoeffs 0 [-2, 0, 1]).withVar 7)) .sqrtTwo
      (fun b _ => b = true) ∧
    Exact (sqrtTwo.signOf ((UniPoly.ofCoeffs 0 [-1, 1]).withVar 7)) .sqrtTwo
      (fun o _ => o = .positive) := by
  have hat := fun q => polynomial_at_number Store.valid_sqrtTwo denotes_sqrtTwo q 7 (.refl _)
    Store.valid_sqrtTwo
  have hlinear : (UniPoly.ofCoeffs 0 [-1, 1]).overReal = X - 1 := by
    simp [UniPoly.overReal, UniPoly.toPolynomial_ofCoeffs, UniPoly.coeffsPolynomial, sub_eq_add_neg]
  have hpos : 0 < (UniPoly.ofCoeffs 0 [-1, 1]).overReal.eval √2 := by
    rw [hlinear, eval_sub, eval_X, eval_one, sub_pos]
    exact (Real.lt_sqrt zero_le_one).2 (by norm_num)
  refine ⟨(hat _).2.1.mono fun b _ _ _ hb => ?_, (hat _).1.mono fun o _ _ _ ho => ?_⟩
  · exact hb.2 (UniPoly.isRoot_sqrtTwo.2 (Real.sq_sqrt zero_le_two))
  · rw [ho, Sign.ofReal_of_pos hpos]

end Number

end AlgebraicReal
