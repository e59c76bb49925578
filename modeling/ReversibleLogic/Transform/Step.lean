import ReversibleLogic.Circuit

/-!
# Steps of a transformation

The rows of a function are visited in increasing order. At the smallest row `x` whose image `y` differs from `x`, a
gate moves `y` towards `x` without touching a smaller row. Gates applied to the outputs of the function end up at the
end of the circuit in reverse order, gates applied to its inputs at its front in order.

* `resolvingGate?`, `swappingGate?`, `chooseGate?` — the gate for a row;
* `Step` — a gate with its row and side.
-/

namespace ReversibleLogic.Transform

/-- where a gate is applied. -/
inductive Side where
  | input
  | output
  deriving DecidableEq, Repr

/-- one gate, chosen for a row. -/
structure Step where
  side : Side
  row : Nat
  gate : Gate
  deriving DecidableEq, Repr

/-- the gate that moves `y` one bit closer to `x`: a missing bit is set under the bits of `y`, an excess bit is
cleared under the bits of `x`. -/
def resolvingGate (x y : Nat) : Gate :=
  let missing := Word.without x y
  if missing ≠ 0 then .toffoli (Gate.positives y) (Word.lowest missing)
  else .toffoli (Gate.positives x) (Word.lowest (Word.without y x))

/-- the resolving gate of two words, which have to differ. -/
def resolvingGate? (x y : Nat) : Except Error Gate :=
  if x = y then .error (.misuse .equalWords) else .ok (resolvingGate x y)

/-- the Fredkin gate under the common bits of `x` and `y`, if they differ by the exchange of two bits. -/
def swappingGate? (x y : Nat) : Option Gate :=
  let difference := x ^^^ y
  if Word.weight difference ≠ 2 ∨ Word.weight (x &&& difference) ≠ 1 then none
  else some (.fredkin (Gate.positives (x &&& y)) (Word.lowest difference) (Word.highest difference))

/-- the gate for row `x` with image `y`. -/
def chooseGate? (x y : Nat) (fredkin : Bool) : Except Error Gate :=
  match (if fredkin then swappingGate? x y else none) with
  | some g => .ok g
  | none => resolvingGate? x y

end ReversibleLogic.Transform
