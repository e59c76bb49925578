import ReversibleLogic.Aig.Graph
import ReversibleLogic.Bdd.Ite

/-!
# Graphs and diagrams

* `Aig.ofDiagrams` — a graph for some functions of a manager, one multiplexer for each diagram node;
* `Aig.toDiagrams` — the functions of a graph as references of a manager.
-/

namespace ReversibleLogic.Aig

open Bdd (BddM Manager Ref)

/-- a graph under construction, and the signals of the diagram nodes met so far. -/
structure Multiplexing where
  graph : Aig
  signals : Std.TreeMap Nat Signal

/-- extensions of a graph under construction. -/
abbrev MultiplexM := StateT Multiplexing (Except Error)

/-- runs an extension of the graph. -/
def build {α : Type} (x : AigM α) : MultiplexM α := fun s =>
  let (a, graph) := x.run s.graph
  .ok (a, { s with graph := graph })

/-- the signal of `f`; `inputs` gives the signals of the variables. -/
def multiplex (m : Manager) (inputs : Std.TreeMap Nat Signal) : Nat → Ref → MultiplexM Signal
  | 0, _ => throw (.misuse .brokenOrder)
  | fuel + 1, f => do
    if f = .zero then return .zero
    if f = .one then return .one
    let s ← match (← get).signals[f.index]? with
      | some s => pure s
      | none => do
        let v ← m.variableOf f
        match inputs[v]? with
        | none => throw (.misuse (.unmappedVariable v))
        | some selector =>
          let low ← multiplex m inputs fuel (← m.low f.regular)
          let high ← multiplex m inputs fuel (← m.high f.regular)
          let s ← build (mux selector high low)
          modify fun st => { st with signals := st.signals.insert f.index s }
          pure s
    return if f.isNegated then s.not else s

/-- one input for each variable in order; the last input of a repeated variable stands for it. -/
def inputSignals (vars : List Nat) : AigM (Std.TreeMap Nat Signal) :=
  vars.foldlM (fun map v => return map.insert v (← addInput)) ∅

/-- a graph whose outputs are the functions `fs` of the variables `vars`. -/
def ofDiagrams (m : Manager) (fs : List Ref) (vars : List Nat) : Except Error Aig := do
  let (inputs, graph) := (inputSignals vars).run .empty
  let (_, s) ← (fs.forM fun f => do
    let s ← multiplex m inputs (f.index + 1) f
    build (addOutput s)).run ⟨graph, ∅⟩
  return s.graph

/-- the reference of a signal; `vars` are the variables of the inputs. -/
def refOf (vars : Array Nat) (nodes : Array Ref) (s : Signal) : BddM Ref := do
  let f ← match s.source with
    | .constant => pure .zero
    | .input i =>
      match vars[i]? with
      | some v => Bdd.var v
      | none => Bdd.misuse (.outOfRange i)
    | .node n =>
      match nodes[n]? with
      | some f => pure f
      | none => Bdd.misuse (.outOfRange n)
  return f.negateIf s.isNegated

/-- the references of all outputs, input `i` being variable `vars[i]`. -/
def toDiagrams (g : Aig) (vars : List Nat) : BddM (List Ref) := do
  if vars.length ≠ g.numInputs then Bdd.misuse .lengthMismatch
  let inputs := vars.toArray
  let nodes ← g.nodes.foldlM (fun nodes (a, b) => do
    let f ← refOf inputs nodes a
    let h ← refOf inputs nodes b
    return nodes.push (← Bdd.conj f h)) #[]
  g.outputs.toList.mapM (refOf inputs nodes)

end ReversibleLogic.Aig
