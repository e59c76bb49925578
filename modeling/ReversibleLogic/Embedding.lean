import ReversibleLogic.Bdd.Function
import ReversibleLogic.Circuit

/-!
# Embedding of functions into permutations

A function with `n` inputs and `m` outputs whose most frequent output word occurs `μ` times needs as many additional
output lines as it takes to number `μ` rows. Its embedding has `max n (m + additional)` lines: inputs from line `n` on
are constant zero, outputs from line `m` on are garbage.

* `additionalLines`, `additionalLinesOf` — the number of additional lines, from a table and from diagrams;
* `embedTable`, `embedFunction` — the embedding;
* `Embedding.template` — the empty circuit that marks constant inputs and garbage outputs.
-/

namespace ReversibleLogic

open Bdd (BddM Function Binding ask)

/-- the shape of an embedding; the permutation is absent if only the number of lines was asked for. -/
structure Embedding where
  inputs : Nat
  outputs : Nat
  additional : Nat
  lines : Nat
  permutation : Option Permutation
  deriving DecidableEq, Repr

/-- occurrences of each output word. -/
def BooleanFunction.occurrences (f : BooleanFunction) : Std.TreeMap Nat Nat :=
  f.rows.foldl (fun counts row => match row with
    | some y => counts.insert y (counts.getD y 0 + 1)
    | none => counts) ∅

/-- additional lines that tell apart the rows with equal outputs. -/
def additionalLines (f : BooleanFunction) : Nat := Word.bitsFor (f.occurrences.foldl (fun μ _ n => max μ n) 0)

/-- `n` variables after all those that a function has to do with. -/
def freshVariables (f : Function) (n : Nat) : BddM (List Nat) := do
  let supports ← (f.outputs ++ [f.care]).mapM fun r => ask (·.support r)
  ask fun _ => Bdd.variablesFrom ((supports.flatten ++ f.inputs).foldl max 0 + 1) n

/-- additional lines, counted on the diagrams: new variables `ys` stand for the outputs, and the models of
`care ∧ ⋀ (y = f)` over the inputs are counted for each output word. -/
def additionalLinesOf (f : Function) : BddM Nat := do
  let ys ← freshVariables f f.outputs.length
  let agree ← Bdd.conjAll (List.zipWith (fun output y => do Bdd.iff (← Bdd.var y) output) f.outputs ys)
  let graph ← Bdd.conj f.care agree
  let image ← Bdd.existsOver graph f.inputs
  let counts ← (← Bdd.models image ys).mapM fun word => do
    let preimage ← Bdd.restrict graph (.ofEntries (ys.zip word))
    ask (·.countOver preimage f.inputs)
  return Word.bitsFor (counts.foldl max 0)

/-- an output word of `m` bits followed by the number of earlier rows that share it; `counts` holds these numbers. -/
def numberRow (m : Nat) : Option Nat → StateM (Std.TreeMap Nat Nat) (Option Nat)
  | none => pure none
  | some y => fun counts =>
    let k := counts.getD y 0
    (some (y ||| (k <<< m)), counts.insert y (k + 1))

/-- a word of the table; an unspecified row takes the next free word. -/
def fillRow : Option Nat → StateM (List Nat) Nat
  | some y => pure y
  | none => fun free => (free.headD 0, free.tail)

/-- the words below `size` that do not occur among the rows, ascending. -/
def freeWords (size : Nat) (rows : Array (Option Nat)) : List Nat :=
  let used := rows.foldl (fun used row => match row with
    | some y => used.setIfInBounds y true
    | none => used) (Array.replicate size false)
  (List.range size).filter fun w => !used.getD w false

/-- the table of the embedding of `f` into `lines` lines: the specified rows are numbered, the free words fill the
other rows in order. -/
def embeddedTable (f : BooleanFunction) (lines : Nat) : Array Nat :=
  let size := 2 ^ lines
  let (rows, _) := (f.rows.mapM (numberRow f.outputs)).run ∅
  let padded := rows ++ Array.replicate (size - rows.size) none
  ((padded.mapM fillRow).run (freeWords size padded)).1

namespace Embedding

/-- the embedding without its permutation. -/
def ofCounts (inputs outputs additional : Nat) : Embedding :=
  ⟨inputs, outputs, additional, max inputs (outputs + additional), none⟩

/-- adds the permutation that embeds `f`. -/
def withTable (e : Embedding) (f : BooleanFunction) : Except Error Embedding :=
  if maxTableLines < e.lines then .error (.capacity e.lines maxTableLines)
  else do return { e with permutation := some (← Permutation.ofTable e.lines (embeddedTable f e.lines)) }

/-- the circuit without gates on the lines of the embedding; inputs beyond those of the function are constant zero,
outputs beyond those of the function are garbage. -/
def template (e : Embedding) : Circuit :=
  let lines := List.range e.lines
  { Circuit.empty e.lines with
    constants := lines.map fun i => if i < e.inputs then none else some false
    garbage := lines.map fun i => decide (e.outputs ≤ i) }

end Embedding

/-- the embedding of a function given by its table. -/
def embedTable (f : BooleanFunction) (onlyLines : Bool) : Except Error Embedding :=
  let e := Embedding.ofCounts f.inputs f.outputs (additionalLines f)
  if onlyLines then .ok e else e.withTable f

/-- the embedding of a function given by diagrams. -/
def embedFunction (f : Function) (onlyLines : Bool) : BddM Embedding := do
  if onlyLines then
    return .ofCounts f.inputs.length f.outputs.length (← additionalLinesOf f)
  else
    let table ← f.toTable
    ask fun _ => embedTable table false

/-- the output word of the embedded function. -/
def embeddedOutput (y outputs : Nat) : Nat := y % 2 ^ outputs

end ReversibleLogic
