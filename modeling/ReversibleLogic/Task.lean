import ReversibleLogic.Embedding

/-!
# Synthesis tasks

What a synthesis engine is given for a Boolean function: the function itself if it is a permutation, otherwise the
permutation of its embedding together with the circuit that marks its constant inputs and garbage outputs.
-/

namespace ReversibleLogic

/-- a permutation to synthesize, with the embedding it comes from. -/
structure Task where
  permutation : Permutation
  embedding : Option Embedding
  template : Option Circuit
  deriving DecidableEq, Repr

/-- the task for a function. -/
def Task.ofFunction (f : BooleanFunction) : Except Error Task :=
  match f.toPermutation? with
  | some p => .ok ⟨p, none, none⟩
  | none => do
    let e ← embedTable f false
    match e.permutation with
    | some p => return ⟨p, some e, some e.template⟩
    | none => throw (.inconsistent .noModel)

/-- the outputs that a circuit for the task gives to the `2 ^ inputs` words of the function. -/
def Task.recover (f : BooleanFunction) (c : Circuit) : List Nat :=
  (List.range (2 ^ f.inputs)).map fun x => embeddedOutput (c.simulate x) f.outputs

end ReversibleLogic
