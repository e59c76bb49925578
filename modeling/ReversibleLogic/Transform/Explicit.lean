import ReversibleLogic.Transform.Run

/-!
# Transformation of tables

The function is kept as a table together with its inverse. In both directions, the side of a row is fixed when the row
is reached: the input side if the preimage of the row is closer to it than its image.

* `Settings` — the options of a run on a table;
* `synthesize` — the circuit of a permutation.
-/

namespace ReversibleLogic.Transform.Explicit

/-- options of a run on a table. -/
structure Settings where
  /-- use both sides. -/
  bidirectional : Bool
  /-- exchange two bits by one Fredkin gate. -/
  fredkin : Bool
  /-- fold gates into earlier ones; needs `fredkin`. -/
  lookback : Bool
  template : Option Circuit
  deriving DecidableEq, Repr

def Settings.validate (s : Settings) : Except Error Unit :=
  if s.lookback && !s.fredkin then .error (.configuration .lookbackWithoutFredkin) else .ok ()

/-- a table with its inverse; all rows below `row` are fixed. -/
structure State where
  table : Array Nat
  inverse : Array Nat
  row : Nat
  /-- the side of the row, once it is decided. -/
  side : Option Side
  deriving DecidableEq, Repr

namespace State

def ofPermutation (p : Permutation) : State := ⟨p.table, p.inverse.table, 0, none⟩

/-- moves to the next row, among `n`, that is not fixed. -/
def skipFixed : Nat → State → State
  | 0, s => s
  | n + 1, s => if s.table[s.row]? = some s.row then skipFixed n { s with row := s.row + 1, side := none } else s

/-- the table with its inverse written anew. -/
def rebuildInverse (s : State) : State :=
  match s with
  | ⟨table, inverse, row, side⟩ =>
    let inverse := table.toList.zipIdx.foldl (fun t (y, x) => t.setIfInBounds y x) inverse
    ⟨table, inverse, row, side⟩

/-- the side for the row: the input side only if the row is strictly closer to its preimage than to its image. -/
def chooseSide (s : State) (bidirectional : Bool) (image preimage : Nat) : Side :=
  if bidirectional && Word.distance s.row preimage < Word.distance s.row image then .input else .output

/-- applies a gate to the table on a side. -/
def applyGate (s : State) (side : Side) (g : Gate) : State :=
  let table := match side with
    | .output => s.table.map g.apply
    | .input => (Array.range s.table.size).map fun z => s.table.getD (g.apply z) 0
  { s with table := table }.rebuildInverse

end State

/-- one step on the table. -/
def next (settings : Settings) : EStateM Error State (Option Step) := fun s =>
  let s := s.skipFixed (s.table.size - s.row)
  match s.table[s.row]? with
  | none => .ok none s
  | some image =>
    let preimage := s.inverse.getD s.row 0
    let side := s.side.getD (s.chooseSide settings.bidirectional image preimage)
    let gate? := match side with
      | .output => chooseGate? s.row image settings.fredkin
      | .input => chooseGate? s.row preimage settings.fredkin
    match gate? with
    | .error e => .error e s
    | .ok gate => .ok (some ⟨side, s.row, gate⟩) ({ s with side := some side }.applyGate side gate)

def strategy (lines : Nat) (settings : Settings) : Strategy State where
  lines := lines
  next := next settings
  lookback := settings.lookback
  template := settings.template
  countsRows := false
  usesSolver := false

/-- a circuit for `p`. -/
def synthesize (p : Permutation) (settings : Settings) : Except Error Outcome := do
  settings.validate
  match (strategy p.lines settings).run (.ofPermutation p) with
  | .ok outcome _ => return outcome
  | .error e _ => throw e

end ReversibleLogic.Transform.Explicit
