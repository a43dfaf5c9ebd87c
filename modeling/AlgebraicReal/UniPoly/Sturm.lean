import AlgebraicReal.UniPoly.Division
import AlgebraicReal.Interval

/-!
# Counting real roots

The Sturm chain of a square-free polynomial starts with the polynomial and its derivative; each
further member is the remainder of the two members before it, with the opposite sign and rescaled by
a positive number. The sign variations that the chain loses between two points are the roots that
lie between them, the upper point included. `rootsIn` turns this into a count for an interval with
any kind of ends.
-/

namespace AlgebraicReal

namespace UniPoly

/-- The members of a Sturm chain from `b` on, where `a` is the member before `b`. -/
def sturmTail (a b : UniPoly) : List UniPoly :=
  if _h : b.isZero = true then []
  else
    let r := a.remainder b
    b :: sturmTail b (r.scale (-r.leadingCoeff.abs⁻¹))
termination_by b.coeffs.length
decreasing_by
  refine Nat.lt_of_le_of_lt (length_trim_le _) ?_
  rw [List.length_map]
  exact length_remainder_lt a _h

/-- The Sturm chain of the square-free part. -/
def sturmChain (p : UniPoly) : List UniPoly :=
  let s := p.squareFree
  if s.isConstant then [s] else s :: sturmTail s s.derivative

/-- How often two neighbours in a list of nonzero signs differ. -/
def signChanges : List Sign → Nat
  | s :: t :: rest => (if s = t then 0 else 1) + signChanges (t :: rest)
  | _ => 0

/-- The sign variations of a list; zeros do not count. -/
def variations (signs : List Sign) : Nat := signChanges (signs.filter (· ≠ .zero))

/-- The sign changes along a chain at a rational. -/
def variationsAt (chain : List UniPoly) (x : Rat) : Nat := variations (chain.map (·.signAt x))

def variationsAtLower (chain : List UniPoly) (lower : Bound) : Nat :=
  match lower.value? with
  | none => variations (chain.map signAtBottom)
  | some a => variationsAt chain a

def variationsAtUpper (chain : List UniPoly) (upper : Bound) : Nat :=
  match upper.value? with
  | none => variations (chain.map signAtTop)
  | some b => variationsAt chain b

/-- The number of distinct roots in an interval of the polynomial at the head of a Sturm chain. The
loss of variations counts a root at the upper end and none at the lower end; both are put right when
the ends say otherwise. -/
def rootsIn (chain : List UniPoly) (i : Interval) : Nat :=
  match chain with
  | [] => 0
  | p :: _ =>
    if p.isZero then 0
    else match i.point? with
      | some q => if p.isRoot q then 1 else 0
      | none =>
        -- the roots above the lower end and up to the upper end, which is included
        let lost := variationsAtLower chain i.lower - variationsAtUpper chain i.upper
        let withLower := match i.lower with
          | .weak a => if p.isRoot a then lost + 1 else lost
          | _ => lost
        match i.upper with
        | .strict b => if p.isRoot b then withLower - 1 else withLower
        | _ => withLower

/-- The number of distinct real roots in an interval. -/
def countRoots (p : UniPoly) (i : Interval) : Nat := rootsIn p.sturmChain i

/-- The number of all real roots. -/
def countAllRoots (p : UniPoly) : Nat := p.countRoots .unbounded

end UniPoly

end AlgebraicReal
