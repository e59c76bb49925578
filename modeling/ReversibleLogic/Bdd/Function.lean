import ReversibleLogic.Bdd.Models
import ReversibleLogic.BooleanFunction

/-!
# Functions given by diagrams

A function has a diagram for each output, over variables that stand for its inputs, and a care set: the input words on
which it is specified.

* `Function.ofTable`, `Function.toTable` — from and to a table;
* `Function.eval` — the output word for an input word.
-/

namespace ReversibleLogic.Bdd

/-- the outputs and the care set of a function of the variables `inputs`. -/
structure Function where
  inputs : List Nat
  outputs : List Ref
  care : Ref
  deriving DecidableEq, Repr, Inhabited

namespace Function

/-- the fully specified function. -/
def total (inputs : List Nat) (outputs : List Ref) : Function := ⟨inputs, outputs, .one⟩

/-- adds row `x ↦ y`: its cube joins the care set and the outputs whose bit is set in `y`. -/
def addRow (f : Function) (x y : Nat) : BddM Function := do
  let cube ← cubeOfBits f.inputs (Word.toBits x f.inputs.length)
  let care ← disj f.care cube
  let outputs ← f.outputs.zipIdx.mapM fun (output, j) => if y.testBit j then disj output cube else pure output
  return ⟨f.inputs, outputs, care⟩

/-- the function with the given table over the variables from `first` on. -/
def ofTable (table : BooleanFunction) (first : Nat) : BddM Function := do
  let inputs ← ask fun _ => variablesFrom first table.inputs
  let start : Function := ⟨inputs, List.replicate table.outputs .zero, .zero⟩
  table.rows.toList.zipIdx.foldlM (fun f (y, x) => match y with
    | some y => f.addRow x y
    | none => pure f) start

/-- the inputs fixed to the bits of `x`. -/
def assignment (f : Function) (x : Nat) : Binding Bool :=
  .ofEntries (f.inputs.zipIdx.map fun (v, i) => (v, x.testBit i))

/-- the output word for the input word `x`, `none` outside the care set. -/
def eval (f : Function) (x : Nat) : BddM (Option Nat) := do
  let values := f.assignment x
  if (← restrict f.care values) = .zero then return none
  let bits ← f.outputs.mapM fun output => return decide ((← restrict output values) = .one)
  return some (Word.ofBits bits)

/-- the table of the function. -/
def toTable (f : Function) : BddM BooleanFunction := do
  let n := f.inputs.length
  if maxTableLines < n then throw (.capacity n maxTableLines)
  let rows ← (List.range (2 ^ n)).mapM f.eval
  ask fun _ => BooleanFunction.ofRows n f.outputs.length rows.toArray

end Function

end ReversibleLogic.Bdd
