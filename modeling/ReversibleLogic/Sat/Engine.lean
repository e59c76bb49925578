import ReversibleLogic.Sat.Search
import ReversibleLogic.Sat.Solver

/-!
# The solver

The engine searches for a model and checks what the search says: a model is evaluated on the formula, a refutation has
to consist of complements of assumptions. Where the search gives up, all assignments are tried.

* `Engine.model?` — a checked answer;
* the instance of `Solver`.
-/

namespace ReversibleLogic.Sat

/-- the largest variable that can be used. -/
def maxVariable : Nat := 2 ^ 28

/-- a formula, its search, and the model of the last call. -/
structure Engine where
  /-- number of variables handed out. -/
  numVars : Nat
  /-- the largest variable in use. -/
  used : Nat
  numCalls : Nat
  /-- the clauses, latest first. -/
  formula : Formula
  search : Search
  model : Array Bool

/-- tries all values of the variables `n, …, 1`, beginning with clear ones. -/
def exhaustive (accepts : Assignment → Bool) : Nat → Assignment → Option Assignment
  | 0, a => if accepts a then some a else none
  | n + 1, a =>
    match exhaustive accepts n (fun v => if v = n + 1 then false else a v) with
    | some b => some b
    | none => exhaustive accepts n (fun v => if v = n + 1 then true else a v)

namespace Engine

def empty : Engine := ⟨0, 0, 0, [], .empty, #[]⟩

/-- the clauses in the order in which they were added. -/
def clauses (e : Engine) : List Clause := e.formula.reverse

/-- the formula and the assumptions hold. -/
def accepts (e : Engine) (assumptions : List Literal) (a : Assignment) : Bool :=
  allHold a assumptions && Formula.holds a e.formula

/-- the answer of a search, if it passes the check: `some none` is a refutation. -/
def checked? (e : Engine) (assumptions : List Literal) : Verdict → Option (Option Assignment)
  | .model values =>
    let a : Assignment := fun v => values.getD v 0 = 1
    if e.accepts assumptions a then some (some a) else none
  | .refuted c => if c.all fun l => assumptions.contains (-l) then some none else none
  | .unknown => none

/-- an assignment of the variables `1, …, n` that satisfies the formula and the assumptions, if there is one. -/
def model? (e : Engine) (assumptions : List Literal) (n : Nat) (verdict : Verdict) : Option Assignment :=
  match e.checked? assumptions verdict with
  | some answer => answer
  | none => exhaustive (e.accepts assumptions) n fun _ => false

/-- the first variables of an assignment. -/
def record (a : Assignment) (n : Nat) : Array Bool := (Array.range n).map fun i => a (i + 1)

/-- the value of a literal in the last model, which covers as many variables as had been handed out. -/
def value (e : Engine) (l : Literal) : Except Error (Option Bool) :=
  if l = 0 then .error (.misuse .zeroLiteral) else .ok (e.model[l.natAbs - 1]?.map (· == (0 < l)))

/-- the last model makes a literal true. -/
def satisfies (e : Engine) (l : Literal) : Bool :=
  match e.value l with
  | .ok (some b) => b
  | _ => false

/-- the last model satisfies the formula and the assumptions. -/
def modelHolds (e : Engine) (assumptions : List Literal) : Bool :=
  assumptions.all e.satisfies && e.formula.all (·.any e.satisfies)

/-- literals of variables that can be used. -/
def checkLiterals (ls : List Literal) : Except Error Unit :=
  if ls.contains 0 then .error (.misuse .zeroLiteral)
  else if maxVariable < largestVariable ls then .error (.misuse (.outOfRange (largestVariable ls)))
  else .ok ()

/-- the variable after all those in use. -/
def newVar : StateM Engine Literal := fun e =>
  (e.used + 1, { e with numVars := e.numVars + 1, used := e.used + 1 })

/-- its variables come into use, unless the formula is already refuted. -/
def addClause (c : Clause) : EStateM Error Engine Unit := fun e =>
  match checkLiterals c with
  | .error fault => .error fault e
  | .ok () =>
    match e with
    | ⟨numVars, used, numCalls, formula, search, model⟩ =>
      let used := if search.refuted then used else max used (largestVariable c)
      .ok () ⟨numVars, used, numCalls, c :: formula, search.attach c, model⟩

/-- the variables of the assumptions come into use. -/
def solve (assumptions : List Literal) : EStateM Error Engine Bool := fun e =>
  match checkLiterals assumptions with
  | .error fault => .error fault e
  | .ok () =>
    match e with
    | ⟨numVars, used, numCalls, formula, search, _⟩ =>
      let used := max used (largestVariable assumptions)
      let (search, verdict) := search.run assumptions used
      let e : Engine := ⟨numVars, used, numCalls + 1, formula, search, #[]⟩
      match e.model? assumptions used verdict with
      | some a => .ok true { e with model := record a numVars }
      | none => .ok false e

def numClauses (e : Engine) : Nat := e.formula.length

instance : Solver Engine where
  newVar := newVar
  addClause := addClause
  solve := solve
  value := value
  numVars := numVars
  numClauses := numClauses

end Engine

end ReversibleLogic.Sat
