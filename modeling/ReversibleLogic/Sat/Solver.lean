import ReversibleLogic.Error
import ReversibleLogic.Sat.Clause

/-!
# Solvers

The interface of an incremental solver: clauses are added one by one, and the formula so far is solved under
assumptions, which are dropped afterwards. The model of the last satisfiable call stays readable until the next call.
-/

namespace ReversibleLogic.Sat

/-- states `σ` of a solver. -/
class Solver (σ : Type) where
  /-- a fresh variable, as its positive literal. -/
  newVar : StateM σ Literal
  addClause : Clause → EStateM Error σ Unit
  /-- the formula has a model in which all assumptions hold. -/
  solve : List Literal → EStateM Error σ Bool
  /-- the value of a literal in the last model. -/
  value : σ → Literal → Except Error (Option Bool)
  numVars : σ → Nat
  numClauses : σ → Nat

/-- the values that the models of a query give to a literal. -/
inductive Fixing where
  | always (value : Bool)
  | free
  deriving DecidableEq, Repr

/-- whether all models of the last query, which was made under `assumptions`, agree on a literal. The query is made
again with the literal flipped, and once more as it was. -/
def fixing {σ : Type} [Solver σ] (assumptions : List Literal) (l : Literal) : EStateM Error σ (Option Fixing) := do
  let state ← get
  match Solver.value state l with
  | .error e => throw e
  | .ok none => return none
  | .ok (some v) =>
    let flipped ← Solver.solve (assumptions ++ [if v then -l else l])
    let _ ← Solver.solve (σ := σ) assumptions
    return some (if flipped then .free else .always v)

end ReversibleLogic.Sat
