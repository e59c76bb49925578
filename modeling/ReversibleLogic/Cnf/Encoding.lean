import ReversibleLogic.Aig.Diagram
import ReversibleLogic.Bdd.Substitution
import ReversibleLogic.Cnf.Builder

/-!
# Encodings

Clauses for diagrams, graphs and cascades of gates. Each encoder is given the literals of the inputs and returns the
literals of the outputs.

* `encodeDiagram` — one if-then-else for each node of a diagram;
* `encodeGraph` — one conjunction for each node of a graph;
* `encodeGate` — the line literals after a gate;
* `encodeMismatch` — whether two words differ.
-/

namespace ReversibleLogic.Cnf

open Bdd (Manager Ref Binding)
open ReversibleLogic.Sat

variable {σ : Type} [Solver σ]

/-- an answer that may fail. -/
def ofExcept {α : Type} : Except Error α → CnfM σ α
  | .ok a => pure a
  | .error e => throw e

/-- encoders that keep the literals of the nodes met so far. -/
abbrev NodeM (σ : Type) := StateT (Std.TreeMap Nat Literal) (CnfM σ)

/-- a computation that looks at no node. -/
def plain {α : Type} (x : CnfM σ α) : NodeM σ α := StateT.lift x

/-- the literal of `f`; `vars` gives the literals of the variables. -/
def diagramWithin (m : Manager) (vars : Binding Literal) : Nat → Ref → NodeM σ Literal
  | 0, _ => throw (.misuse .brokenOrder)
  | fuel + 1, f => do
    if f = .zero then return ← plain bottom
    if f = .one then return ← plain top
    let l ← match (← get)[f.index]? with
      | some l => pure l
      | none => do
        let v ← plain (ofExcept (m.variableOf f))
        match vars[v]? with
        | none => throw (.misuse (.unmappedVariable v))
        | some c =>
          let low ← diagramWithin m vars fuel (← plain (ofExcept (m.low f.regular)))
          let high ← diagramWithin m vars fuel (← plain (ofExcept (m.high f.regular)))
          let l ← plain (ite c high low)
          modify (·.insert f.index l)
          pure l
    return if f.isNegated then -l else l

/-- the literal of a diagram, given the literals of its variables. -/
def encodeDiagram (m : Manager) (f : Ref) (vars : Binding Literal) : CnfM σ Literal :=
  (diagramWithin m vars (f.index + 1) f).run' ∅

/-- the literal at a position of a list. -/
def literalAt (ls : Array Literal) (i : Nat) : CnfM σ Literal :=
  match ls[i]? with
  | some l => pure l
  | none => misuse (.outOfRange i)

/-- the literal of a signal. -/
def signalLiteral (inputs nodes : Array Literal) (s : Signal) : CnfM σ Literal := do
  let l ← match s.source with
    | .constant => bottom
    | .input i => literalAt inputs i
    | .node n => literalAt nodes n
  return if s.isNegated then -l else l

/-- the literals of the outputs of a graph, given those of its inputs. -/
def encodeGraph (g : Aig) (inputs : List Literal) : CnfM σ (List Literal) := do
  if inputs.length ≠ g.numInputs then misuse .lengthMismatch
  let inputs := inputs.toArray
  let nodes ← g.nodes.foldlM (fun nodes (a, b) => do
    let a ← signalLiteral inputs nodes a
    let b ← signalLiteral inputs nodes b
    return nodes.push (← and a b)) #[]
  g.outputs.toList.mapM (signalLiteral inputs nodes)

/-- the line literals after a gate. -/
def encodeGate (g : Gate) (layer : List Literal) : CnfM σ (List Literal) := do
  let lines := layer.toArray
  let controls ← g.controls.mapM fun c => do
    let l ← literalAt lines c.line
    return if c.positive then l else -l
  let active ← andAll controls
  match g with
  | .toffoli _ t =>
    let l ← literalAt lines t
    return layer.set t (← xor l active)
  | .fredkin _ a b =>
    let lb ← literalAt lines b
    let la ← literalAt lines a
    let first ← ite active lb la
    let second ← ite active la lb
    return (layer.set a first).set b second

/-- the line literals after a cascade. -/
def encodeGates (gs : List Gate) (layer : List Literal) : CnfM σ (List Literal) :=
  gs.foldlM (fun layer g => encodeGate g layer) layer

/-- the literal that is true where two words differ. -/
def encodeMismatch (xs ys : List Literal) : CnfM σ Literal := do
  if xs.length ≠ ys.length then misuse .lengthMismatch
  let differences ← (xs.zip ys).mapM fun (x, y) => xor x y
  orAll differences

end ReversibleLogic.Cnf
