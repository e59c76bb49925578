import ReversibleLogic.Transform.Lookback
import ReversibleLogic.Transform.Step

/-!
# Runs of a transformation

A strategy chooses the steps, a run collects their gates on the two sides and assembles the circuit. A row needs at
most one gate for each line, so a run with more steps than that does not converge.

* `Strategy` — how steps are found, and what the run is to do with them;
* `Strategy.run` — the circuit of a run.
-/

namespace ReversibleLogic.Transform

/-- a way to transform the function held by a state `σ` into the identity. -/
structure Strategy (σ : Type) where
  lines : Nat
  /-- chooses and applies the next gate; `none` when the function is the identity. -/
  next : EStateM Error σ (Option Step)
  /-- fold new gates into earlier ones. -/
  lookback : Bool
  /-- names, constants and flags for the circuit. -/
  template : Option Circuit
  /-- report the number of rows that needed gates. -/
  countsRows : Bool
  /-- the strategy spends its time in a solver. -/
  usesSolver : Bool

/-- the gates of both sides, latest first, and the rows met so far. -/
structure Progress where
  inputGates : List Gate
  outputGates : List Gate
  rows : Nat
  lastRow : Option Nat
  deriving DecidableEq, Repr

/-- a synthesized circuit. -/
structure Outcome where
  circuit : Circuit
  /-- number of rows that needed gates, if it was counted. -/
  rows : Option Nat
  usesSolver : Bool
  deriving DecidableEq, Repr

/-- largest number of steps of a run, kept within 128 bits. -/
def stepLimit (lines : Nat) : Nat :=
  let most := 2 ^ 128 - 1
  if lines < 128 then (if 2 ^ lines * lines ≤ most then 2 ^ lines * lines else most) else most

namespace Progress

def start : Progress := ⟨[], [], 0, none⟩

/-- adds a gate to a side. -/
def extend (lookback : Bool) (gates : List Gate) (g : Gate) : List Gate :=
  if lookback then mergeFredkin (place gates g) else g :: gates

/-- adds a step. -/
def record (p : Progress) (lookback : Bool) (s : Step) : Progress :=
  let rows := if p.lastRow = some s.row then p.rows else p.rows + 1
  match s.side with
  | .input => ⟨extend lookback p.inputGates s.gate, p.outputGates, rows, some s.row⟩
  | .output => ⟨p.inputGates, extend lookback p.outputGates s.gate, rows, some s.row⟩

/-- input gates in order, then output gates in reverse order. -/
def gates (p : Progress) : List Gate := p.inputGates.reverse ++ p.outputGates

end Progress

namespace Strategy

variable {σ : Type}

/-- takes steps until the strategy is done, at most `budget` of them. -/
def collect (s : Strategy σ) : Nat → Progress → EStateM Error σ Progress
  | 0, p => do
    match ← s.next with
    | none => return p
    | some _ => throw (.inconsistent (.noConvergence (stepLimit s.lines) s.lines))
  | budget + 1, p => do
    match ← s.next with
    | none => return p
    | some step => s.collect budget (p.record s.lookback step)

/-- the circuit of the collected gates. -/
def assemble (s : Strategy σ) (p : Progress) : Except Error Outcome := do
  let circuit ← (← Circuit.ofLines s.lines).appendAll p.gates
  let circuit ← match s.template with
    | some t => circuit.copyMetadata t
    | none => pure circuit
  return ⟨circuit, if s.countsRows then some p.rows else none, s.usesSolver⟩

/-- runs a strategy to its end. -/
def run (s : Strategy σ) : EStateM Error σ Outcome := do
  let p ← s.collect (stepLimit s.lines) .start
  match s.assemble p with
  | .ok outcome => return outcome
  | .error e => throw e

end Strategy

end ReversibleLogic.Transform
