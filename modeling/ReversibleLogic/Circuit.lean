import ReversibleLogic.Gate.Checked
import ReversibleLogic.Permutation
import ReversibleLogic.Text.Align
import ReversibleLogic.Text.Quoted

/-!
# Circuits

A circuit is a cascade of gates on numbered lines. Every line has names for its input and its output, possibly a
constant input value, and a flag that marks its output as garbage.

* `append`, `insert`, `remove`, … — edits, which accept a gate only if it fits the lines;
* `simulate`, `permutation`, `realizes` — what the circuit computes;
* `reversed` — the inverse circuit;
* `render` — the printed form.
-/

namespace ReversibleLogic

/-- a cascade of gates with the data of its lines. -/
structure Circuit where
  lines : Nat
  gates : List Gate
  inputs : List String
  outputs : List String
  /-- the constant input of a line, `none` for a primary input. -/
  constants : List (Option Bool)
  garbage : List Bool
  name : String
  deriving DecidableEq, Repr, Inhabited

namespace Circuit

/-- the circuit without gates; its lines are primary inputs and outputs. -/
def empty (lines : Nat) : Circuit where
  lines := lines
  gates := []
  inputs := (List.range lines).map (s!"i{·}")
  outputs := (List.range lines).map (s!"o{·}")
  constants := List.replicate lines none
  garbage := List.replicate lines false
  name := ""

/-- the largest number of lines whose names can be held. -/
def maxLines : Nat := (2 ^ 63 - 1) / 24

/-- the circuit without gates on a number of lines, if these are not too many. -/
def ofLines (lines : Nat) : Except Error Circuit :=
  if maxLines < lines then .error (.misuse (.outOfRange lines)) else .ok (empty lines)

def size (c : Circuit) : Nat := c.gates.length

def isEmpty (c : Circuit) : Bool := c.gates.isEmpty

/-! ## edits -/

/-- a gate fits if all its lines are lines of the circuit. -/
def checkGate (c : Circuit) (g : Gate) : Except Error Unit :=
  if c.lines ≤ g.maxLine then .error (.invalidGate (.tooWide g c.lines)) else .ok ()

def append (c : Circuit) (g : Gate) : Except Error Circuit := do
  c.checkGate g
  return { c with gates := c.gates ++ [g] }

/-- gates one after the other behind the present ones. -/
def appendAll (c : Circuit) (gs : List Gate) : Except Error Circuit := do
  gs.forM c.checkGate
  return { c with gates := c.gates ++ gs }

/-- a gate in front of position `pos`. -/
def insert (c : Circuit) (pos : Nat) (g : Gate) : Except Error Circuit := do
  c.checkGate g
  if c.size < pos then throw (.misuse (.outOfRange pos))
  return { c with gates := c.gates.insertIdx pos g }

def prepend (c : Circuit) (g : Gate) : Except Error Circuit := c.insert 0 g

/-- the gate at position `pos`, and the circuit without it. -/
def remove (c : Circuit) (pos : Nat) : Except Error (Gate × Circuit) :=
  match c.gates[pos]? with
  | some g => .ok (g, { c with gates := c.gates.eraseIdx pos })
  | none => .error (.misuse (.outOfRange pos))

def appendToffoli (c : Circuit) (controls : List Control) (target : Nat) : Except Error Circuit := do
  c.append (← Gate.toffoli? controls target)

def appendFredkin (c : Circuit) (controls : List Control) (a b : Nat) : Except Error Circuit := do
  c.append (← Gate.fredkin? controls a b)

/-! ## data of the lines -/

/-- a list with one entry per line. -/
def checkLength (c : Circuit) (length : Nat) : Except Error Unit :=
  if length ≠ c.lines then .error (.lineMismatch c.lines length) else .ok ()

def setInputs (c : Circuit) (names : List String) : Except Error Circuit := do
  c.checkLength names.length
  return { c with inputs := names }

def setOutputs (c : Circuit) (names : List String) : Except Error Circuit := do
  c.checkLength names.length
  return { c with outputs := names }

def setConstants (c : Circuit) (values : List (Option Bool)) : Except Error Circuit := do
  c.checkLength values.length
  return { c with constants := values }

def setGarbage (c : Circuit) (flags : List Bool) : Except Error Circuit := do
  c.checkLength flags.length
  return { c with garbage := flags }

def setName (c : Circuit) (name : String) : Circuit := { c with name := name }

/-- the gates of `c` with the names, constants and flags of `other`. -/
def copyMetadata (c other : Circuit) : Except Error Circuit := do
  c.checkLength other.lines
  return { other with lines := c.lines, gates := c.gates }

/-- the same lines without gates. -/
def withoutGates (c : Circuit) : Circuit := { c with gates := [] }

/-! ## function -/

/-- the gates applied to a word in order. -/
def simulate (c : Circuit) (w : Nat) : Nat := c.gates.foldl (fun w g => g.apply w) w

/-- the table of the circuit. -/
def permutation (c : Circuit) : Except Error Permutation :=
  if maxTableLines < c.lines then .error (.capacity c.lines maxTableLines)
  else Permutation.ofTable c.lines ((Array.range (2 ^ c.lines)).map c.simulate)

/-- the circuit computes `p`. -/
def realizes (c : Circuit) (p : Permutation) : Bool :=
  c.lines == p.lines && p.rows.all fun (x, y) => c.simulate x == y

/-- the inverse circuit: every gate is its own inverse, so the order is turned around. -/
def reversed (c : Circuit) : Circuit :=
  { c with gates := c.gates.reverse, inputs := c.outputs, outputs := c.inputs }

def render (c : Circuit) : String :=
  let header := s!"circuit {Text.quote c.name} on {c.lines} lines:\n"
  header ++ String.join (c.gates.zipIdx.map fun (g, i) => s!"  {Text.alignRight 3 (toString i)}: {g.render}\n")

end Circuit

end ReversibleLogic
