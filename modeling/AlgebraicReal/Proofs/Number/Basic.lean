import AlgebraicReal.Proofs.Thom
import AlgebraicReal.Number.Basic

/-!
# The real a number denotes

`Number.Denotes` reads a number in a store: a rational is itself, a located root is the root of its
locator, an encoding the root it encodes. The reading survives any narrowing, and every operation
keeps the store in order.
-/

open Polynomial

namespace AlgebraicReal

open RefineM

/-- The real that a representation stands for. -/
def Form.Denotes (s : Store) : Form → ℝ → Prop
  | .rational q, x => x = q
  | .root id, x => id < s.locators.size ∧ (s.get id).Locates x
  | .thom t, x => t.Denotes s x

theorem Form.Denotes.narrowed {s t : Store} {x : ℝ} : ∀ {f : Form}, f.Denotes s x → s.Valid →
    s.Narrowed t → f.Denotes t x
  | .rational _, h, _, _ => h
  | .root _, h, _, hn => ⟨h.1.trans_le hn.size_le, hn.locates h.1 h.2⟩
  | .thom _, h, hs, hn => Thom.Denotes.narrowed h hs hn

namespace Number

/-- The real that a number stands for. -/
def Denotes (s : Store) (n : Number) (x : ℝ) : Prop := n.stored.Denotes s x

variable {s t : Store} {n : Number} {x : ℝ}

/-- A number denotes the same real in every later store. -/
theorem Denotes.narrowed (h : n.Denotes s x) (hs : s.Valid) (hn : s.Narrowed t) : n.Denotes t x :=
  Form.Denotes.narrowed h hs hn

/-- A number stands for one real. -/
theorem Denotes.eq {y : ℝ} (h : n.Denotes s x) (h' : n.Denotes s y) : x = y := by
  unfold Denotes at h h'
  cases hf : n.stored <;> rw [hf] at h h'
  case rational q => exact (show x = q from h).trans (show y = q from h').symm
  case root id => exact h.2.eq h'.2
  case thom e => exact h.locates.eq h'.locates

/-- The simplified form stands for the same real. -/
theorem Denotes.form (h : n.Denotes s x) : (n.form s).Denotes s x := by
  unfold Denotes at h
  unfold Number.form
  split
  next id hid =>
    rw [hid] at h
    split
    next q hq => exact h.2.eq_point hq
    next => exact h
  next => exact h

theorem denotes_ofRational (s : Store) (q : ℚ) : (ofRational q).Denotes s q := rfl

theorem denotes_withRootFlag {flag : Bool} :
    (n.withRootFlag flag).Denotes s x ↔ n.Denotes s x := Iff.rfl

/-! ## Building numbers -/

/-- A number that is made from a locator denotes its root. -/
theorem ofLocator_exact (hs : s.Valid) {l : Locator} (hl : l.Locates x) :
    Exact (ofLocator l) s fun m t => m.Denotes t x :=
  (Exact.allocate hs hl).bind fun id t _ hval hid => Exact.pure hval ⟨hid.1, by
    rw [hid.2]
    exact hl⟩

/-- A number for a variable alone is zero. -/
theorem ofVariable_safe (hs : s.Valid) (v : Var) :
    Safe (ofVariable v) s fun m t => m.Denotes t 0 :=
  (ofLocator_exact hs (Locator.locates_origin v)).safe

/-- A nonempty open interval is one to isolate with. -/
theorem isolating_of_isOpen {i : Interval} (h : i.isOpen = true) : i.Isolating := by
  obtain ⟨lower, upper, room⟩ := i
  unfold Interval.isOpen at h
  rw [Bool.and_eq_true] at h
  cases lower with
  | infinite => cases h.1
  | weak a => cases h.1
  | strict a =>
    cases upper with
    | infinite => cases h.2
    | weak b => cases h.2
    | strict b => exact .between a b (of_decide_eq_true room)

/-- So is a point. -/
theorem isolating_of_isPoint {i : Interval} (h : i.isPoint = true) : i.Isolating := by
  obtain ⟨q, hq⟩ := Option.isSome_iff_exists.1 h
  rw [Interval.eq_point_of_point? hq]
  exact .point q

/-- The root of a monic linear polynomial. -/
theorem eq_of_isRoot_linear {p : UniPoly} (hp : p.toPolynomial.Monic) (hd : p.degree = 1)
    (hx : p.overReal.IsRoot x) : x = ((-p.constantCoeff : ℚ) : ℝ) := by
  have hdeg : p.toPolynomial.natDegree = 1 := by rw [UniPoly.natDegree_toPolynomial, hd]
  have heq : p.toPolynomial = X + C (p.toPolynomial.coeff 0) := hp.eq_X_add_C hdeg
  unfold UniPoly.overReal at hx
  rw [heq, Polynomial.map_add, map_X, map_C, IsRoot.def, eval_add, eval_X, eval_C,
    ← UniPoly.constantCoeff_eq] at hx
  rw [Rat.cast_neg]
  exact eq_neg_of_add_eq_zero_left hx

/-- A number built from an interval is the root of the polynomial in it. -/
theorem ofInterval_safe (hs : s.Valid) (p : UniPoly) (i : Interval) :
    Safe (ofInterval p i) s fun m t => ∃ x, p.realRoots ∩ i.reals = {x} ∧ m.Denotes t x := by
  unfold ofInterval
  refine Safe.guard hs (by nofun) (by nofun) fun hc => ?_
  have hz := UniPoly.toPolynomial_ne_zero_iff.2 (UniPoly.not_isZero_of_not_isConstant hc)
  have hsz := UniPoly.toPolynomial_ne_zero_iff.1 (UniPoly.squareFree_ne_zero hz)
  refine Safe.guard hs (by nofun) (by nofun) fun hcond => ?_
  rw [not_or, not_not, not_not] at hcond
  obtain ⟨hone, hshape⟩ := hcond
  rw [UniPoly.countRoots_eq_ncard hsz, UniPoly.realRoots_squareFree] at hone
  obtain ⟨x, hx⟩ := Set.ncard_eq_one.1 hone
  have hiso : p.squareFree.Isolates i x :=
    ⟨hshape.elim isolating_of_isOpen isolating_of_isPoint, by
      rw [UniPoly.realRoots_squareFree, hx]⟩
  have hl := Locator.locates_fresh hsz hiso
  by_cases hd : p.squareFree.degree = 1
  · simp only [if_pos hd]
    exact Safe.pure hs ⟨x, hx, eq_of_isRoot_linear (UniPoly.monic_squareFree hz) hd hiso.mem.1⟩
  · simp only [if_neg hd]
    cases hq : i.point? with
    | some q => exact Safe.pure hs ⟨x, hx, hl.eq_point hq⟩
    | none =>
      obtain ⟨l, k, he, hnar, -⟩ := hl.avoid_eq 0
      have hsafe : Safe (RefineM.ofExcept ((Locator.fresh p.squareFree i).avoid 0)) s
          fun r _ => r.2.Locates x := by
        rw [he]
        exact Safe.ofExcept hs (fun a ha => by cases ha; exact hnar.locates hl) nofun
      refine hsafe.bind fun r t _ hval hr => ?_
      exact (ofLocator_exact hval hr).safe.mono fun m u _ _ hm => ⟨x, hx, hm⟩

/-! ## Operations -/

/-- An operation that looks at the simplified form first. -/
theorem Safe.current_bind {β : Type} {f : Form → RefineM β} {R : β → Store → Prop}
    (h : n.Denotes s x) (hf : ∀ g : Form, g.Denotes s x → Safe (f g) s R) :
    Safe (n.current >>= f) s R := hf _ h.form

/-- What a run does next depends on the form that the number has at that time. -/
theorem Exact.form_bind {β : Type} {f : Form → RefineM β} {R : β → Store → Prop}
    (h : Exact (f (n.form s)) s R) : Exact (n.current >>= f) s R := ⟨h.safe, h.settles⟩

theorem Exact.current_bind {β : Type} {f : Form → RefineM β} {R : β → Store → Prop}
    (h : n.Denotes s x) (hf : ∀ g : Form, g.Denotes s x → Exact (f g) s R) :
    Exact (n.current >>= f) s R := Exact.form_bind (hf _ h.form)

/-- The sign is found, and it is that of the real. -/
theorem sign_exact (hs : s.Valid) (h : n.Denotes s x) :
    Exact n.sign s fun o _ => o = Sign.ofReal x := by
  refine Exact.current_bind h fun f hf => ?_
  cases f with
  | rational q => exact Exact.pure hs (by rw [show x = q from hf, Sign.ofReal_ratCast])
  | root id =>
    obtain ⟨l, k, he, hnar⟩ := hf.2.signOfRoot_eq
    exact Exact.ask (P := fun o _ => o = _) hs hf.1 ⟨_, l, k, he, hnar, rfl⟩
  | thom t => exact Thom.sign_exact hs hf

/-- Whether the number is zero is read off it. -/
theorem isZero_exact (hs : s.Valid) (h : n.Denotes s x) :
    Exact n.isZero s fun b _ => b = decide (x = 0) :=
  (sign_exact hs h).bind fun o t _ hval ho => Exact.pure hval (by
    rw [ho, decide_eq_decide, Sign.ofReal_eq_zero_iff])

/-- The answer is whether the real differs from the rational. -/
theorem avoid_safe (hs : s.Valid) (h : n.Denotes s x) (q : ℚ) :
    Safe (n.avoid q) s fun b _ => b = decide (x ≠ q) := by
  classical
  refine Safe.current_bind h fun f hf => ?_
  cases f with
  | rational v =>
    refine Safe.pure hs ?_
    rw [decide_eq_decide, show x = v from hf, ne_eq, ne_eq, Rat.cast_inj]
  | root id =>
    obtain ⟨l, k, he, hnar, -⟩ := hf.2.avoid_eq q
    exact Safe.ask (P := fun b _ => b = _) hs hf.1 (.inr ⟨_, l, k, he, hnar, rfl⟩)
  | thom t =>
    obtain ⟨l, k, he, hnar, -⟩ := hf.locates.avoid_eq q
    exact Safe.ask (P := fun b _ => b = _) hs hf.id_lt (.inr ⟨_, l, k, he, hnar, rfl⟩)

/-- The same number under another variable. -/
theorem withVar_exact (hs : s.Valid) (h : n.Denotes s x) (v : Var) :
    Exact (n.withVar v) s fun m t => m.Denotes t x := by
  refine Exact.current_bind h fun f hf => ?_
  cases f with
  | rational q => exact Exact.pure hs h
  | root id =>
    refine Exact.get_bind ?_
    exact (ofLocator_exact hs (hf.2.withVar v)).bind fun m t _ hval hm => Exact.pure hval hm
  | thom t =>
    exact (Thom.withVar_exact hs hf v).bind fun u w _ hval hu => Exact.pure hval hu

end Number

/-! ## The square root of two -/

/-- The square root of two. -/
def Number.sqrtTwo : Number := { stored := .root 0 }

theorem Number.denotes_sqrtTwo : sqrtTwo.Denotes .sqrtTwo √2 :=
  ⟨Nat.one_pos, Locator.locates_sqrtTwo⟩

end AlgebraicReal
