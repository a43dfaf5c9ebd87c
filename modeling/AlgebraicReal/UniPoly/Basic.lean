import AlgebraicReal.Rational
import AlgebraicReal.Sign
import AlgebraicReal.Variable

/-!
# Dense polynomials in one variable

A polynomial is the list of its coefficients, the constant one first. The list does not end in zero,
so a polynomial has one representation and the zero polynomial is the empty list. The variable is
carried along but takes no part in arithmetic: the result of an operation on two polynomials is in
the variable of the first.
-/

namespace AlgebraicReal

/-- A polynomial in the variable `var` with rational coefficients. -/
structure UniPoly where
  var : Var
  coeffs : List Rat
  trimmed : coeffs.getLast? ≠ some 0
  deriving DecidableEq

namespace UniPoly

@[ext] theorem ext {p q : UniPoly} (hv : p.var = q.var) (hc : p.coeffs = q.coeffs) : p = q := by
  cases p; cases q; cases hv; cases hc; rfl

/-! ## Coefficient lists -/

/-- Puts a constant coefficient before trimmed coefficients; zero alone is not kept. -/
def consTrim (c : Rat) (cs : List Rat) : List Rat :=
  if c = 0 ∧ cs = [] then [] else c :: cs

/-- A list without the zeros at its end. -/
def trim (cs : List Rat) : List Rat := cs.foldr consTrim []

theorem consTrim_trimmed {c : Rat} {cs : List Rat} (h : cs.getLast? ≠ some 0) :
    (consTrim c cs).getLast? ≠ some 0 := by
  unfold consTrim
  split
  · simp
  · cases cs with
    | nil => simp_all
    | cons d ds => simpa [List.getLast?_cons_cons] using h

theorem trim_trimmed (cs : List Rat) : (trim cs).getLast? ≠ some 0 := by
  induction cs with
  | nil => simp [trim]
  | cons c cs ih => exact consTrim_trimmed ih

theorem length_consTrim_le (c : Rat) (cs : List Rat) :
    (consTrim c cs).length ≤ cs.length + 1 := by
  unfold consTrim
  split <;> simp

theorem length_trim_le (cs : List Rat) : (trim cs).length ≤ cs.length := by
  induction cs with
  | nil => simp [trim]
  | cons c cs ih => exact Nat.le_trans (length_consTrim_le c _) (Nat.succ_le_succ ih)

/-- A list that ends in zero gets shorter. -/
theorem length_trim_lt {cs : List Rat} (h : cs.getLast? = some 0) :
    (trim cs).length < cs.length := by
  induction cs with
  | nil => simp at h
  | cons c cs ih =>
    cases cs with
    | nil =>
      simp only [List.getLast?_singleton, Option.some.injEq] at h
      simp [trim, consTrim, h]
    | cons d ds =>
      rw [List.getLast?_cons_cons] at h
      exact Nat.lt_of_le_of_lt (length_consTrim_le c _) (Nat.succ_lt_succ (ih h))

theorem trim_eq_self {cs : List Rat} (h : cs.getLast? ≠ some 0) : trim cs = cs := by
  induction cs with
  | nil => rfl
  | cons c cs ih =>
    cases cs with
    | nil => simp_all [trim, consTrim]
    | cons d ds =>
      rw [List.getLast?_cons_cons] at h
      have e : trim (c :: d :: ds) = consTrim c (trim (d :: ds)) := rfl
      rw [e, ih h]
      simp [consTrim]

/-! ## Building polynomials -/

/-- The polynomial with the given coefficients, the constant one first; zeros at the end are
dropped. -/
def ofCoeffs (v : Var) (cs : List Rat) : UniPoly := ⟨v, trim cs, trim_trimmed cs⟩

def zero (v : Var) : UniPoly := ⟨v, [], by simp⟩

def constant (v : Var) (c : Rat) : UniPoly := ofCoeffs v [c]

def identity (v : Var) : UniPoly := ofCoeffs v [0, 1]

instance : Inhabited UniPoly := ⟨zero 0⟩

/-- The same coefficients in another variable. -/
def withVar (p : UniPoly) (v : Var) : UniPoly := { p with var := v }

/-! ## Reading polynomials -/

/-- The degree; the zero polynomial counts as a constant. -/
def degree (p : UniPoly) : Nat := p.coeffs.length - 1

def isZero (p : UniPoly) : Bool := p.coeffs.isEmpty

/-- Whether the polynomial is constant, zero included. -/
def isConstant (p : UniPoly) : Bool := p.coeffs.length ≤ 1

/-- The leading coefficient, zero for the zero polynomial. -/
def leadingCoeff (p : UniPoly) : Rat := p.coeffs.getLastD 0

def constantCoeff (p : UniPoly) : Rat := p.coeffs.headD 0

def evalCoeffs (cs : List Rat) (x : Rat) : Rat := cs.foldr (fun c acc => acc * x + c) 0

/-- The value, by Horner's rule. -/
def eval (p : UniPoly) (x : Rat) : Rat := evalCoeffs p.coeffs x

/-- The sign of the value. -/
def signAt (p : UniPoly) (x : Rat) : Sign := .ofRat (p.eval x)

def isRoot (p : UniPoly) (x : Rat) : Bool := p.eval x = 0

/-- The sign of all values at large enough arguments. -/
def signAtTop (p : UniPoly) : Sign := .ofRat p.leadingCoeff

/-- The sign of all values at small enough arguments. -/
def signAtBottom (p : UniPoly) : Sign :=
  if p.degree % 2 = 0 then p.signAtTop else p.signAtTop.neg

/-! ## Arithmetic -/

def scale (p : UniPoly) (c : Rat) : UniPoly := ofCoeffs p.var (p.coeffs.map (· * c))

/-- The polynomial divided by its leading coefficient; zero stays zero. -/
def normalized (p : UniPoly) : UniPoly := p.scale p.leadingCoeff⁻¹

/-- The coefficients multiplied by `k`, `k + 1` and so on. -/
def weighted : Nat → List Rat → List Rat
  | _, [] => []
  | k, c :: cs => c * (k : Rat) :: weighted (k + 1) cs

def derivative (p : UniPoly) : UniPoly := ofCoeffs p.var (weighted 1 p.coeffs.tail)

/-- The derivative taken `k` times. -/
def iteratedDerivative (p : UniPoly) : Nat → UniPoly
  | 0 => p
  | k + 1 => p.derivative.iteratedDerivative k

/-- Changes the sign of every other coefficient, the second one first. -/
def alternate : List Rat → List Rat
  | [] => []
  | [c] => [c]
  | c :: d :: cs => c :: -d :: alternate cs

/-- The polynomial whose value at `x` is the value of `p` at `-x`. -/
def reflect (p : UniPoly) : UniPoly := ofCoeffs p.var (alternate p.coeffs)

def addCoeffs : List Rat → List Rat → List Rat
  | [], ds => ds
  | c :: cs, [] => c :: cs
  | c :: cs, d :: ds => (c + d) :: addCoeffs cs ds

def mulCoeffs : List Rat → List Rat → List Rat
  | [], _ => []
  | c :: cs, ds => addCoeffs (ds.map (c * ·)) (0 :: mulCoeffs cs ds)

def mul (p q : UniPoly) : UniPoly := ofCoeffs p.var (mulCoeffs p.coeffs q.coeffs)

/-! ## Evaluation sees through trimming -/

theorem evalCoeffs_cons (c : Rat) (cs : List Rat) (x : Rat) :
    evalCoeffs (c :: cs) x = evalCoeffs cs x * x + c := rfl

theorem evalCoeffs_consTrim (c : Rat) (cs : List Rat) (x : Rat) :
    evalCoeffs (consTrim c cs) x = evalCoeffs cs x * x + c := by
  unfold consTrim
  split
  · rename_i h
    rw [h.1, h.2]
    show (0 : Rat) = 0 * x + 0
    rw [Rat.zero_mul, Rat.add_zero]
  · rfl

theorem evalCoeffs_trim (cs : List Rat) (x : Rat) :
    evalCoeffs (trim cs) x = evalCoeffs cs x := by
  induction cs with
  | nil => rfl
  | cons c cs ih =>
    have e : trim (c :: cs) = consTrim c (trim cs) := rfl
    rw [e, evalCoeffs_consTrim, evalCoeffs_cons, ih]

/-- Dropping zeros at the end changes no value. -/
theorem eval_ofCoeffs (v : Var) (cs : List Rat) (x : Rat) :
    (ofCoeffs v cs).eval x = evalCoeffs cs x := evalCoeffs_trim cs x

@[simp] theorem coeffs_withVar (p : UniPoly) (v : Var) : (p.withVar v).coeffs = p.coeffs := rfl

@[simp] theorem coeffs_ofCoeffs (v : Var) (cs : List Rat) : (ofCoeffs v cs).coeffs = trim cs := rfl

theorem isZero_iff {p : UniPoly} : p.isZero = true ↔ p.coeffs = [] := List.isEmpty_iff

end UniPoly

end AlgebraicReal
