import ReversibleLogic.Permutation

/-!
# Boolean functions with several outputs

A function is given by its table: one output word for each input word, or `none` where the function is not specified.

* `BooleanFunction.ofRows`, `tabulate` — construction;
* `toPermutation?` — the function as a permutation, if it is one.
-/

namespace ReversibleLogic

/-- the rows of a table, in order of the input words. -/
structure BooleanFunction where
  inputs : Nat
  outputs : Nat
  rows : Array (Option Nat)
  deriving DecidableEq, Repr, Inhabited

namespace BooleanFunction

/-- the first row whose output has bits beyond the outputs, with that output. -/
def oversized? (outputs : Nat) (rows : Array (Option Nat)) : Option (Nat × Nat) := do
  let bound := 2 ^ outputs
  let x ← rows.findIdx? fun row => row.any (bound ≤ ·)
  let y ← (← rows[x]?)
  return (x, y)

/-- the function with the given rows. -/
def ofRows (inputs outputs : Nat) (rows : Array (Option Nat)) : Except Error BooleanFunction :=
  let widest := max inputs outputs
  if maxTableLines < widest then .error (.capacity widest maxTableLines)
  else if rows.size ≠ 2 ^ inputs then .error (.configuration (.functionRows inputs (2 ^ inputs) rows.size))
  else
    match oversized? outputs rows with
    | some (x, y) => .error (.configuration (.functionOutput y x outputs))
    | none => .ok ⟨inputs, outputs, rows⟩

/-- the function that gives `f x` for every input word `x`. -/
def tabulate (inputs outputs : Nat) (f : Nat → Except Error (Option Nat)) : Except Error BooleanFunction :=
  if maxTableLines < inputs then .error (.capacity inputs maxTableLines)
  else do ofRows inputs outputs (← (Array.range (2 ^ inputs)).mapM f)

def ofPermutation (p : Permutation) : BooleanFunction := ⟨p.lines, p.lines, p.table.map some⟩

/-- the output for input `x`, `none` where it is not specified. -/
def output (f : BooleanFunction) (x : Nat) : Except Error (Option Nat) :=
  match f.rows[x]? with
  | some y => .ok y
  | none => .error (.misuse (.outOfRange x))

def isFullySpecified (f : BooleanFunction) : Bool := f.rows.all Option.isSome

/-- the function as a permutation, if it is one. -/
def toPermutation? (f : BooleanFunction) : Option Permutation :=
  if f.inputs ≠ f.outputs ∨ !f.isFullySpecified then none
  else (Permutation.ofTable f.inputs (f.rows.map (·.getD 0))).toOption

end BooleanFunction

end ReversibleLogic
