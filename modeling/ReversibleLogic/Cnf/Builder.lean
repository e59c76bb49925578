import ReversibleLogic.Sat.Solver

/-!
# Building clauses

A builder adds definitions to a solver: each connective gives a literal that equals its value in every model. A fixed
literal `top` is true in all models, and constant arguments are folded away.

* `Builder.start` — allocates `top`;
* `and`, `or`, `xor`, `ite`, `andAll`, `orAll` — the connectives.
-/

namespace ReversibleLogic.Cnf

open ReversibleLogic.Sat

/-- a solver with a literal that is true in all models. -/
structure Builder (σ : Type) where
  solver : σ
  top : Literal

/-- computations that add clauses. -/
abbrev CnfM (σ : Type) := EStateM Error (Builder σ)

variable {σ : Type} [Solver σ]

/-- a computation of the solver. -/
def onSolver {α : Type} (x : EStateM Error σ α) : CnfM σ α := fun ⟨solver, top⟩ =>
  match x solver with
  | .ok a solver => .ok a ⟨solver, top⟩
  | .error e solver => .error e ⟨solver, top⟩

def misuse {α : Type} (cause : Misuse) : CnfM σ α := throw (.misuse cause)

/-- a builder on a solver. -/
def Builder.start (solver : σ) : Except Error (Builder σ) :=
  let (top, solver) := (Solver.newVar : StateM σ Literal).run solver
  match (Solver.addClause [top] : EStateM Error σ Unit) solver with
  | .ok _ solver => .ok ⟨solver, top⟩
  | .error e _ => .error e

def top : CnfM σ Literal := return (← get).top

def bottom : CnfM σ Literal := return -(← top)

def constant (b : Bool) : CnfM σ Literal := if b then top else bottom

def newVar : CnfM σ Literal := fun ⟨solver, top⟩ =>
  let (x, solver) := (Solver.newVar : StateM σ Literal).run solver
  .ok x ⟨solver, top⟩

def addClause (c : Clause) : CnfM σ Unit := onSolver (Solver.addClause c)

/-- a new variable with the clauses that define it. -/
def define (clauses : Literal → List Clause) : CnfM σ Literal := do
  let x ← newVar
  (clauses x).forM addClause
  return x

/-- clauses of `x = a ∧ b`. -/
def andClauses (a b x : Literal) : List Clause := [[-a, -b, x], [a, -x], [b, -x]]

def and (a b : Literal) : CnfM σ Literal := do
  let t ← top
  if a = -t ∨ b = -t ∨ a = -b then return -t
  if a = t ∨ a = b then return b
  if b = t then return a
  define (andClauses a b)

def or (a b : Literal) : CnfM σ Literal := return -(← and (-a) (-b))

/-- clauses of `x = a ⊕ b`. -/
def xorClauses (a b x : Literal) : List Clause := [[a, b, -x], [a, -b, x], [-a, b, x], [-a, -b, -x]]

def xor (a b : Literal) : CnfM σ Literal := do
  let t ← top
  if a = -t then return b
  if b = -t then return a
  if a = t then return -b
  if b = t then return -a
  if a = b then return -t
  if a = -b then return t
  define (xorClauses a b)

/-- clauses of `x = if c then t else e`; the last two let `x` follow from equal branches. -/
def iteClauses (c t e x : Literal) : List Clause :=
  [[-c, -t, x], [-c, t, -x], [c, -e, x], [c, e, -x], [-t, -e, x], [t, e, -x]]

def ite (c t e : Literal) : CnfM σ Literal := do
  let one ← top
  if c = one ∨ t = e then return t
  if c = -one then return e
  if t = one ∧ e = -one then return c
  if t = -one ∧ e = one then return -c
  define (iteClauses c t e)

/-- conjunction of a list, from the left. -/
def andAll (ls : List Literal) : CnfM σ Literal := do ls.foldlM and (← top)

/-- clauses of `x = l₁ ∨ … ∨ lₙ`. -/
def orClauses (ls : List Literal) (x : Literal) : List Clause := (ls ++ [-x]) :: ls.map fun l => [-l, x]

/-- disjunction of a list; constants and one-literal lists need no variable. -/
def orAll (ls : List Literal) : CnfM σ Literal := do
  let t ← top
  if ls.contains t then return t
  match ls.filter (· ≠ -t) with
  | [] => return -t
  | [l] => return l
  | ls => define (orClauses ls)

end ReversibleLogic.Cnf
