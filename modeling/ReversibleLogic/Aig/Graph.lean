import ReversibleLogic.Aig.Signal
import Std.Data.TreeMap

/-!
# And-inverter graphs

A graph has inputs, nodes with two fanins, which are conjunctions, and outputs. Equal nodes are shared, and nodes come
after their fanins.

* `and`, `or`, `xor`, `mux` — connectives, with the constant cases folded away;
* `simulate` — the outputs for an input word.
-/

namespace ReversibleLogic

/-- the two fanins of a node. -/
abbrev Fanins := Signal × Signal

/-- a graph; `shared` finds the node with given fanins. -/
structure Aig where
  numInputs : Nat
  nodes : Array Fanins
  outputs : Array Signal
  shared : Std.TreeMap (Nat × Nat) Signal (lexOrd.compare)

namespace Aig

def empty : Aig := ⟨0, #[], #[], ∅⟩

/-- computations that extend a graph. -/
abbrev AigM := StateM Aig

def addInput : AigM Signal := fun g => (.ofInput g.numInputs, { g with numInputs := g.numInputs + 1 })

def addOutput (s : Signal) : AigM Unit := fun g => ((), { g with outputs := g.outputs.push s })

/-- the key of a pair of fanins. -/
def keyOf (fanins : Fanins) : Nat × Nat := (fanins.1.word.toNat, fanins.2.word.toNat)

/-- the node with the given fanins, which is added if it is new. -/
def share (fanins : Fanins) : AigM Signal := fun g =>
  match g.shared[keyOf fanins]? with
  | some s => (s, g)
  | none =>
    let s := .ofNode g.nodes.size
    (s, { g with nodes := g.nodes.push fanins, shared := g.shared.insert (keyOf fanins) s })

/-- conjunction. -/
def and (a b : Signal) : AigM Signal :=
  if a = .zero ∨ b = .zero ∨ a = b.not then pure .zero
  else if a = .one ∨ a = b then pure b
  else if b = .one then pure a
  else share (if a.lt b then (a, b) else (b, a))

def or (a b : Signal) : AigM Signal := return (← and a.not b.not).not

def xor (a b : Signal) : AigM Signal := do
  let left ← and a b.not
  let right ← and a.not b
  or left right

/-- `t` where `s` holds and `e` elsewhere. -/
def mux (s t e : Signal) : AigM Signal := do
  let left ← and s t
  let right ← and s.not e
  or left right

/-- fanins of node `n`. -/
def node (g : Aig) (n : Nat) : Except Error Fanins :=
  match g.nodes[n]? with
  | some fanins => .ok fanins
  | none => .error (.misuse (.outOfRange n))

/-- value of a signal on the input word `w`, given the values of the nodes so far. -/
def valueOf (w : Nat) (values : Array Bool) (s : Signal) : Except Error Bool :=
  match s.source with
  | .constant => .ok s.isNegated
  | .input i => .ok (w.testBit i ^^ s.isNegated)
  | .node n =>
    match values[n]? with
    | some v => .ok (v ^^ s.isNegated)
    | none => .error (.misuse (.outOfRange n))

/-- value of a node; the second fanin counts only if the first one is set. -/
def conjunction (w : Nat) (values : Array Bool) (fanins : Fanins) : Except Error Bool := do
  if ← valueOf w values fanins.1 then valueOf w values fanins.2 else return false

/-- values of all nodes in order. -/
def nodeValues (g : Aig) (w : Nat) : Except Error (Array Bool) :=
  g.nodes.foldlM (fun values fanins => return values.push (← conjunction w values fanins)) #[]

/-- the output word for the input word `w`. -/
def simulate (g : Aig) (w : Nat) : Except Error Nat := do
  let values ← g.nodeValues w
  return Word.ofBits (← g.outputs.toList.mapM (valueOf w values))

end Aig

end ReversibleLogic
