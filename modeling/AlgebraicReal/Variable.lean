/-!
# Variables

A variable is a 32-bit number, written `x7`. A pool hands out numbers that it has not handed out
before and remembers a name for each; names need not differ.
-/

namespace AlgebraicReal

abbrev Var := UInt32

namespace Var

def text (v : Var) : String := "x" ++ toString v.toNat

end Var

/-- Variables numbered consecutively from `base`, with a name for each. -/
structure VariablePool where
  base : Var := 0
  names : Array String := #[]
  deriving Inhabited

namespace VariablePool

def size (pool : VariablePool) : Nat := pool.names.size

/-- The next variable, under the given name, and the pool that has handed it out. -/
def fresh (pool : VariablePool) (name : String) : Var × VariablePool :=
  (pool.base + pool.size.toUInt32, { pool with names := pool.names.push name })

/-- The name of a variable of this pool. -/
def name? (pool : VariablePool) (v : Var) : Option String :=
  if v < pool.base then none else pool.names[(v - pool.base).toNat]?

/-- Smaller numbers than this one are free for callers that number variables themselves. -/
def sharedBase : Var := 1048576

/-- The pool that all callers share. Its first variable is reserved for root expressions. -/
def shared : VariablePool := (VariablePool.fresh { base := sharedBase } "__z").2

end VariablePool

/-- The variable in which a root expression has its roots, unless it names another one. -/
def rootVar : Var := VariablePool.sharedBase

theorem VariablePool.name?_shared_rootVar : VariablePool.shared.name? rootVar = some "__z" := by
  decide

theorem VariablePool.size_fresh (pool : VariablePool) (name : String) :
    (pool.fresh name).2.size = pool.size + 1 := by
  simp [VariablePool.fresh, VariablePool.size]

end AlgebraicReal
