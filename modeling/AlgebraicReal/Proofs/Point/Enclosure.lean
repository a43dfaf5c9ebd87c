import AlgebraicReal.Proofs.Point.Annihilator
import AlgebraicReal.Proofs.MvPoly.Enclosure

/-!
# Signs by enclosures

The search refines all coordinates, round after round, until the enclosure of the polynomial shows
the sign. Its stores form a sequence (`refined`) on which the boxes shrink to the point, so the
enclosures shrink to the value: a value other than zero is told from zero in the end, and zero lies
inside the radius. What the search reads off an enclosure is right in any case, because the
enclosure has the value and the value is a root of the annihilator.
-/

open MvPolynomial Filter Topology

namespace AlgebraicReal

open RefineM

namespace AlgebraicPoint

variable {s t : Store} {point : AlgebraicPoint} {σ : Var → ℝ} {g : MvPoly} {y : ℝ} {r : Option ℚ}

/-! ## Reading a sign off a range -/

/-- The range lies inside the radius. -/
theorem inside_iff {R : Range} : (r.any fun e => -e < R.lo && R.hi < e) = true ↔
    ∃ e, r = some e ∧ -(e : ℝ) < R.lo ∧ (R.hi : ℝ) < e := by
  cases r with
  | none => exact iff_of_false Bool.false_ne_true fun ⟨_, h, _⟩ => nomatch h
  | some e =>
    rw [Option.any_some, Bool.and_eq_true, decide_eq_true_iff, decide_eq_true_iff]
    constructor
    · intro h
      exact ⟨e, rfl, by exact_mod_cast h.1, Rat.cast_lt.2 h.2⟩
    · rintro ⟨d, hd, hlo, hhi⟩
      cases hd
      exact ⟨by exact_mod_cast hlo, Rat.cast_lt.1 hhi⟩

theorem readSign_eq (hr : CertifiesZero y r) {R : Range} (hR : R.Has y) {o : Sign}
    (h : readSign r R = some o) : o = Sign.ofReal y := by
  unfold readSign at h
  split at h
  next hin =>
    obtain ⟨e, rfl, hlo, hhi⟩ := inside_iff.1 hin
    cases h
    refine (Sign.ofReal_eq_zero_iff.2 (hr e rfl (abs_lt.2 ⟨?_, ?_⟩))).symm
    · exact hlo.trans_le hR.1
    · exact lt_of_le_of_lt hR.2 hhi
  next =>
    split at h
    next hlo =>
      cases h
      exact (Sign.ofReal_of_pos ((Rat.cast_pos.2 hlo).trans_le hR.1)).symm
    next =>
      split at h
      next hhi =>
        cases h
        exact (Sign.ofReal_of_neg (lt_of_le_of_lt hR.2 (Rat.cast_lt_zero.2 hhi))).symm
      next => cases h

/-- A range with zero in it shows no sign when there is no radius. -/
theorem readSign_none_of_has_zero {R : Range} (hR : R.Has 0) : readSign none R = none := by
  have hlo : R.lo ≤ 0 := by exact_mod_cast hR.1
  have hhi : 0 ≤ R.hi := by exact_mod_cast hR.2
  unfold readSign
  rw [Option.any_none, if_neg Bool.false_ne_true, if_neg (not_lt.2 hlo), if_neg (not_lt.2 hhi)]

/-- On ranges that shrink to the value the sign shows in the end. -/
theorem exists_readSign (hr : TellsZero y r) {R : ℕ → Range} (hR : Range.ShrinksTo R y) :
    ∃ n, readSign r (R n) ≠ none := by
  have hread : ∀ n, (r.any fun e => -e < (R n).lo && (R n).hi < e) = true ∨ 0 < (R n).lo ∨
      (R n).hi < 0 → readSign r (R n) ≠ none := by
    intro n h
    unfold readSign
    split
    next => exact Option.some_ne_none _
    next hin =>
      split
      next => exact Option.some_ne_none _
      next hlo =>
        rw [if_pos ((h.resolve_left hin).resolve_left hlo)]
        exact Option.some_ne_none _
  -- the ranges shrink to `y`, so in the end they lie on its side, or inside the radius
  rcases lt_trichotomy y 0 with hy | rfl | hy
  · obtain ⟨n, hn⟩ := (hR.hi.eventually_lt_const hy).exists
    exact ⟨n, hread n (.inr (.inr (Rat.cast_lt_zero.1 hn)))⟩
  · obtain ⟨e, rfl, hpos⟩ := hr.exists_pos rfl
    have he : (0 : ℝ) < e := Rat.cast_pos.2 hpos
    obtain ⟨n, hlo, hhi⟩ := ((hR.lo.eventually_const_lt (neg_lt_zero.2 he)).and
      (hR.hi.eventually_lt_const he)).exists
    exact ⟨n, hread n (.inl (inside_iff.2 ⟨e, rfl, hlo, hhi⟩))⟩
  · obtain ⟨n, hn⟩ := (hR.lo.eventually_const_lt hy).exists
    exact ⟨n, hread n (.inr (.inl (Rat.cast_pos.1 hn)))⟩

/-! ## One round -/

/-- One round of the search. -/
def refineAll (point : AlgebraicPoint) : RefineM Unit :=
  point.forM fun c => RefineM.narrow c.2 Locator.refine

theorem exec_narrow_refine {id : LocatorId} {x : ℝ} (hx : (s.get id).Locates x) :
    ∃ l n, (s.get id).refine = .ok l ∧ Locator.Narrows n (s.get id) l ∧
      ∀ rounds, exec (RefineM.narrow id Locator.refine) rounds s = (.ok (), s.put id l) := by
  obtain ⟨l, n, he, hnar⟩ := hx.refine_eq
  refine ⟨l, n, he, hnar, fun rounds => ?_⟩
  unfold RefineM.narrow
  rw [exec_ask, he]
  rfl

/-- A round halves the spread of each coordinate at least. -/
theorem exists_refineAll : ∀ {point : AlgebraicPoint} {s : Store}, s.Valid →
    (∀ c ∈ point, c.2 < s.locators.size) →
      ∃ t, (∀ rounds, exec (refineAll point) rounds s = (.ok (), t)) ∧ s.Narrowed t ∧ t.Valid ∧
        (∀ id < s.locators.size, (t.get id).spread ≤ (s.get id).spread) ∧
          ∀ c ∈ point, (t.get c.2).spread ≤ (s.get c.2).spread / 2
  | [], s, hs, _ =>
    ⟨s, fun _ => rfl, .refl s, hs, fun _ _ => le_rfl, fun c hc => absurd hc List.not_mem_nil⟩
  | c :: cs, s, hs, hid => by
    rw [List.forall_mem_cons] at hid
    obtain ⟨x, hx⟩ := hs c.2 hid.1
    obtain ⟨l, n, he, hnar, hexec⟩ := exec_narrow_refine hx
    have hhalf := hx.spread_refine he
    have hput := Store.narrowed_put hnar
    -- the locator that is refined, and the others
    have hself : ((s.put c.2 l).get c.2).spread ≤ (s.get c.2).spread / 2 := by
      rw [Store.get_put_self s l hid.1]
      exact hhalf
    have hle : ∀ id < s.locators.size, ((s.put c.2 l).get id).spread ≤ (s.get id).spread := by
      intro id hlt
      by_cases heq : id = c.2
      · rw [heq]
        exact hself.trans (half_le_self hx.spread_nonneg)
      · rw [Store.get_put_of_ne s l heq]
    have hrest : ∀ d ∈ cs, d.2 < (s.put c.2 l).locators.size := by
      rw [Store.size_put]
      exact hid.2
    obtain ⟨t, htexec, htnar, hval, htle, hthalf⟩ :=
      exists_refineAll (Store.Narrowed.valid_put hs hnar) hrest
    rw [Store.size_put] at htle
    refine ⟨t, fun rounds => ?_, hput.trans htnar, hval,
      fun id hlt => (htle id hlt).trans (hle id hlt), ?_⟩
    · show exec (RefineM.narrow c.2 Locator.refine >>= fun _ => refineAll cs) rounds s = _
      rw [exec_bind, hexec]
      exact htexec rounds
    · rw [List.forall_mem_cons]
      refine ⟨(htle c.2 hid.1).trans hself, fun d hd => (hthalf d hd).trans ?_⟩
      linarith [hle d.2 (hid.2 d hd)]

/-! ## The stores of the search -/

/-- The store after a number of rounds. -/
def refined (point : AlgebraicPoint) (s : Store) (n : ℕ) : Store :=
  (fun t => (exec (refineAll point) 0 t).2)^[n] s

theorem refined_spec (hs : s.Valid) (hp : point.Denotes s σ) (n : ℕ) :
    s.Narrowed (point.refined s n) ∧ (point.refined s n).Valid ∧
      (∀ c ∈ point, ((point.refined s n).get c.2).spread ≤ (s.get c.2).spread / 2 ^ n) ∧
        ∀ rounds, exec (refineAll point) rounds (point.refined s n)
          = (.ok (), point.refined s (n + 1)) := by
  -- one more round can be done from any later state, and it halves every spread
  have hround : ∀ {t}, s.Narrowed t → t.Valid → ∃ u, (∀ rounds,
      exec (refineAll point) rounds t = (.ok (), u)) ∧ t.Narrowed u ∧ u.Valid ∧
        (∀ id < t.locators.size, (u.get id).spread ≤ (t.get id).spread) ∧
          ∀ c ∈ point, (u.get c.2).spread ≤ (t.get c.2).spread / 2 := fun hn hv =>
    exists_refineAll hv fun c hc => (hp.locates c hc).1.trans_le hn.size_le
  have hsucc : ∀ k, point.refined s (k + 1) = (exec (refineAll point) 0 (point.refined s k)).2 :=
    fun k => Function.iterate_succ_apply' _ k s
  induction n with
  | zero =>
    obtain ⟨u, hexec, -⟩ := hround (.refl s) hs
    refine ⟨.refl s, hs, fun c _ => ?_, fun rounds => ?_⟩
    · rw [pow_zero, div_one]
      rfl
    · rw [hsucc]
      show exec (refineAll point) rounds s = (.ok (), (exec (refineAll point) 0 s).2)
      rw [hexec, hexec]
  | succ n ih =>
    obtain ⟨hnar, hval, hspread, hexec⟩ := ih
    obtain ⟨u, hexec', hnar', hval', -, hhalf⟩ := hround hnar hval
    have hu : point.refined s (n + 1) = u := by rw [hsucc, hexec']
    rw [hu]
    obtain ⟨w, hexecw, -⟩ := hround (hnar.trans hnar') hval'
    refine ⟨hnar.trans hnar', hval', fun c hc => (hhalf c hc).trans ?_, fun rounds => ?_⟩
    · rw [pow_succ, ← div_div]
      exact div_le_div_of_nonneg_right (hspread c hc) zero_le_two
    · rw [hsucc (n + 1), hu, hexecw, hexecw]

/-! ## Boxes and enclosures -/

/-- The range of a variable comes from its first coordinate. -/
theorem exists_lookup_box : ∀ {point : AlgebraicPoint} {v : Var}, v ∈ point.vars →
    ∃ c ∈ point, c.1 = v ∧ ∀ s : Store, (point.box s).lookup v
      = some ⟨(s.get c.2).interval.lo, (s.get c.2).interval.hi⟩
  | [], _, h => absurd h List.not_mem_nil
  | c :: cs, v, h => by
    by_cases hv : v = c.1
    · refine ⟨c, List.mem_cons_self, hv.symm, fun s => ?_⟩
      show List.lookup v ((c.1, _) :: box s cs) = _
      rw [List.lookup_cons, hv, beq_self_eq_true]
    · obtain ⟨d, hd, hdv, hlookup⟩ := exists_lookup_box ((List.mem_cons.1 h).resolve_left hv)
      refine ⟨d, List.mem_cons_of_mem c hd, hdv, fun s => ?_⟩
      show List.lookup v ((c.1, _) :: box s cs) = _
      rw [List.lookup_cons, beq_false_of_ne hv]
      exact hlookup s

/-- The boxes of the search shrink to the point. -/
theorem box_shrinksTo (hs : s.Valid) (hp : point.Denotes s σ) {v : Var} (hv : v ∈ point.vars) :
    Box.ShrinksTo (fun n => point.box (point.refined s n)) v (σ v) := by
  obtain ⟨c, hc, rfl, hlookup⟩ := exists_lookup_box hv
  have hends := fun n => ((hp.locates c hc).2 |> (refined_spec hs hp n).1.locates
    (hp.locates c hc).1).ends_near
  have hsmall : ∀ n, (((point.refined s n).get c.2).spread : ℝ) ≤ (s.get c.2).spread / 2 ^ n := by
    intro n
    exact_mod_cast (refined_spec hs hp n).2.2.1 c hc
  have hzero : Tendsto (fun n : ℕ => ((s.get c.2).spread : ℝ) / 2 ^ n) atTop (𝓝 0) := by
    have h := (tendsto_pow_atTop_nhds_zero_of_lt_one (r := (1 / 2 : ℝ)) (by norm_num)
      (by norm_num)).const_mul ((s.get c.2).spread : ℝ)
    rw [mul_zero] at h
    refine h.congr fun n => ?_
    rw [one_div, inv_pow, div_eq_mul_inv]
  refine ⟨_, fun n => hlookup _, .of_width (fun n => ⟨(hends n).1, (hends n).2.1⟩) ?_⟩
  refine squeeze_zero (fun n => sub_nonneg.2 ((hends n).1.trans (hends n).2.1)) (fun n => ?_) hzero
  exact (hends n).2.2.trans (hsmall n)

/-- The enclosures of the search exist and shrink to the value. -/
theorem exists_ranges (hs : s.Valid) (hp : point.Denotes s σ) (hg : ∀ v ∈ g.vars, v ∈ point.vars) :
    ∃ R, (∀ n, g.enclose (point.box (point.refined s n)) = some (R n)) ∧
      Range.ShrinksTo R (aeval σ g.toPolynomial) :=
  MvPoly.exists_enclose fun v hv => box_shrinksTo hs hp (hg v hv)

/-- The enclosure on the present box has the value. -/
theorem exists_enclose_has (hs : s.Valid) (hp : point.Denotes s σ)
    (hg : ∀ v ∈ g.vars, v ∈ point.vars) :
    ∃ R, g.enclose (point.box s) = some R ∧ R.Has (aeval σ g.toPolynomial) := by
  obtain ⟨R, hR, hshrink⟩ := exists_ranges hs hp hg
  exact ⟨R 0, hR 0, hshrink.has 0⟩

/-! ## The search -/

theorem refineAll_safe (hs : s.Valid) (hp : ∀ c ∈ point, c.2 < s.locators.size) :
    Safe (refineAll point) s fun _ _ => True := by
  obtain ⟨u, hexec, hnar, hval, -⟩ := exists_refineAll hs hp
  intro rounds o t he
  rw [hexec] at he
  cases he
  exact ⟨hnar, hval, fun _ _ => trivial, nofun⟩

/-- The search answers with the sign, if it has the coordinates and no wrong radius. -/
theorem signLoop_safe : ∀ (k : ℕ) {s : Store}, s.Valid → point.Denotes s σ →
    Safe (point.signLoop g r k) s fun o _ => CertifiesZero (aeval σ g.toPolynomial) r →
      (∀ v ∈ g.vars, v ∈ point.vars) → o = Sign.ofReal (aeval σ g.toPolynomial)
  | 0, _, hs, _ => Safe.throw hs nofun nofun
  | k + 1, s, hs, hp => by
    rw [signLoop]
    refine Safe.get_bind ?_
    rw [Arithmetic.enclose_mvPoly]
    cases henc : g.enclose (point.box s) with
    | none =>
      refine Safe.pure hs fun _ hg => ?_
      obtain ⟨R, hR, -⟩ := exists_enclose_has hs hp hg
      rw [henc] at hR
      cases hR
    -- a sign that is read is right, else the coordinates are refined and the loop goes on
    | some R =>
      simp only
      cases hread : readSign r R with
      | some o =>
        refine Safe.pure hs fun hr hg => ?_
        obtain ⟨R', hR', hhas⟩ := exists_enclose_has hs hp hg
        rw [henc] at hR'
        cases hR'
        exact readSign_eq hr hhas hread
      | none =>
        exact (refineAll_safe hs fun c hc => (hp.locates c hc).1).bind fun _ t hnar hval _ =>
          signLoop_safe k hval (hp.narrowed hnar)

/-- A round that shows no sign goes on to the next store. -/
theorem exec_signLoop_succ (hs : s.Valid) (hp : point.Denotes s σ) {R : ℕ → Range}
    (hR : ∀ n, g.enclose (point.box (point.refined s n)) = some (R n)) (k n rounds : ℕ) :
    exec (point.signLoop g r (k + 1)) rounds (point.refined s n) =
      match readSign r (R n) with
      | some o => (.ok o, point.refined s n)
      | none => exec (point.signLoop g r k) rounds (point.refined s (n + 1)) := by
  rw [signLoop, exec_get_bind, Arithmetic.enclose_mvPoly, hR]
  simp only
  cases readSign r (R n) with
  | some o => rfl
  | none =>
    show exec (refineAll point >>= fun _ => point.signLoop g r k) rounds _ = _
    rw [exec_bind, (refined_spec hs hp n).2.2.2]

/-- Without a radius zero is never recognised. -/
theorem exec_signLoop_of_zero (hs : s.Valid) (hp : point.Denotes s σ)
    (hg : ∀ v ∈ g.vars, v ∈ point.vars) (hzero : aeval σ g.toPolynomial = 0) (rounds : ℕ) :
    ∀ k n, exec (point.signLoop g none k) rounds (point.refined s n)
      = (.error .exhausted, point.refined s (n + k))
  | 0, _ => rfl
  | k + 1, n => by
    obtain ⟨R, hR, hshrink⟩ := exists_ranges hs hp hg
    rw [exec_signLoop_succ hs hp hR, readSign_none_of_has_zero (hzero ▸ hshrink.has n)]
    simp only
    rw [exec_signLoop_of_zero hs hp hg hzero rounds k (n + 1), Nat.add_right_comm, Nat.add_assoc]

/-- With enough rounds the search finds the sign, always in the same store. -/
theorem exists_signLoop (hs : s.Valid) (hp : point.Denotes s σ) (hg : ∀ v ∈ g.vars, v ∈ point.vars)
    (hr : TellsZero (aeval σ g.toPolynomial) r) :
    ∃ t m, s.Narrowed t ∧ t.Valid ∧ ∀ k > m, ∀ rounds, exec (point.signLoop g r k) rounds s
      = (.ok (Sign.ofReal (aeval σ g.toPolynomial)), t) := by
  classical
  obtain ⟨R, hR, hshrink⟩ := exists_ranges hs hp hg
  have hex := exists_readSign hr hshrink
  -- the first round that shows the sign
  obtain ⟨m, hfound, hfirst⟩ : ∃ m, readSign r (R m) ≠ none ∧ ∀ n < m, readSign r (R n) = none :=
    ⟨Nat.find hex, Nat.find_spec hex, fun n hn => not_not.1 (Nat.find_min hex hn)⟩
  obtain ⟨o, ho⟩ := Option.ne_none_iff_exists'.1 hfound
  obtain ⟨hnar, hval, -⟩ := refined_spec hs hp m
  have hsign := readSign_eq hr.certifies (hshrink.has m) ho
  -- on the number of rounds that are still to go
  have hloop : ∀ d n, n + d = m → ∀ k ≥ d + 1, ∀ rounds,
      exec (point.signLoop g r k) rounds (point.refined s n) = (.ok o, point.refined s m) := by
    intro d
    induction d with
    | zero =>
      intro n hn k hk rounds
      obtain ⟨k, rfl⟩ := Nat.exists_eq_add_of_le' (Nat.one_le_of_lt hk)
      rw [Nat.add_zero] at hn
      rw [exec_signLoop_succ hs hp hR, hn, ho]
    | succ d ih =>
      intro n hn k hk rounds
      obtain ⟨k, rfl⟩ := Nat.exists_eq_add_of_le' (Nat.one_le_of_lt hk)
      rw [exec_signLoop_succ hs hp hR, hfirst n (by omega)]
      exact ih (n + 1) (by omega) k (by omega) rounds
  refine ⟨point.refined s m, m, hnar, hval, fun k hk rounds => ?_⟩
  rw [← hsign]
  exact hloop m 0 (Nat.zero_add m) k hk rounds

end AlgebraicPoint

end AlgebraicReal
