import ReversibleLogic.Circuit

/-!
# Edits in place

A circuit that is changed in place: an operation checks its arguments against the circuit as it stands, and then assigns
to its fields one after the other. A failure ends the operation; what has been assigned by then stays.

* `EditM` — computations on such a circuit;
* `CascadeEdit`, `DataEdit`, `Edit` — the operations with their arguments: those on the gates, those on the data of the
  lines, and all of them;
* `performAll` — operations one after the other, where the caller goes on after a failure.
-/

namespace ReversibleLogic.Circuit

/-- computations that change a circuit. One that fails keeps the changes made so far. -/
abbrev EditM := EStateM Error Circuit

/-- a check against the circuit as it stands. -/
def check {α : Type} (f : Circuit → Except Error α) : EditM α := fun c =>
  match f c with
  | .ok a => .ok a c
  | .error e => .error e c

/-! ## gates -/

/-- operations on the gates. -/
inductive CascadeEdit where
  | append (gate : Gate)
  | prepend (gate : Gate)
  | insert (pos : Nat) (gate : Gate)
  | remove (pos : Nat)
  | appendToffoli (controls : List Control) (target : Nat)
  | appendFredkin (controls : List Control) (a b : Nat)
  deriving DecidableEq, Repr

def pushGate (g : Gate) : EditM Unit := do
  check (·.checkGate g)
  modify fun c => { c with gates := c.gates ++ [g] }

def insertGate (pos : Nat) (g : Gate) : EditM Unit := do
  check (·.checkGate g)
  check fun c => if c.size < pos then .error (.misuse (.outOfRange pos)) else .ok ()
  modify fun c => { c with gates := c.gates.insertIdx pos g }

def takeGate (pos : Nat) : EditM Gate := do
  let g ← check fun c => match c.gates[pos]? with
    | some g => .ok g
    | none => .error (.misuse (.outOfRange pos))
  modify fun c => { c with gates := c.gates.eraseIdx pos }
  return g

/-- changes the gates, and hands back the one that was removed. -/
def CascadeEdit.perform : CascadeEdit → EditM (Option Gate)
  | append g => do
    pushGate g
    return none
  | prepend g => do
    insertGate 0 g
    return none
  | insert pos g => do
    insertGate pos g
    return none
  | remove pos => return some (← takeGate pos)
  | appendToffoli cs target => do
    pushGate (← check fun _ => Gate.toffoli? cs target)
    return none
  | appendFredkin cs a b => do
    pushGate (← check fun _ => Gate.fredkin? cs a b)
    return none

/-! ## data of the lines -/

/-- operations on the names, constants and flags. -/
inductive DataEdit where
  | setInputs (names : List String)
  | setOutputs (names : List String)
  | setConstants (values : List (Option Bool))
  | setGarbage (flags : List Bool)
  | setName (name : String)
  | copyMetadata (other : Circuit)
  deriving DecidableEq, Repr

def DataEdit.perform : DataEdit → EditM Unit
  | setInputs names => do
    check (·.checkLength names.length)
    modify fun c => { c with inputs := names }
  | setOutputs names => do
    check (·.checkLength names.length)
    modify fun c => { c with outputs := names }
  | setConstants values => do
    check (·.checkLength values.length)
    modify fun c => { c with constants := values }
  | setGarbage flags => do
    check (·.checkLength flags.length)
    modify fun c => { c with garbage := flags }
  | setName name => modify fun c => { c with name := name }
  | copyMetadata other => do
    check (·.checkLength other.lines)
    modify fun c => { c with inputs := other.inputs }
    modify fun c => { c with outputs := other.outputs }
    modify fun c => { c with constants := other.constants }
    modify fun c => { c with garbage := other.garbage }
    modify fun c => { c with name := other.name }

/-! ## all operations -/

inductive Edit where
  | cascade (edit : CascadeEdit)
  | data (edit : DataEdit)
  | reverse
  deriving DecidableEq, Repr

def Edit.perform : Edit → EditM (Option Gate)
  | cascade e => e.perform
  | data e => do
    e.perform
    return none
  | reverse => do
    modify fun c => { c with gates := c.gates.reverse }
    modify fun c => { c with inputs := c.outputs, outputs := c.inputs }
    return none

/-- the circuit that an operation leaves, whether it succeeds or fails. -/
def Edit.left (e : Edit) (c : Circuit) : Circuit :=
  match e.perform c with
  | .ok _ c' => c'
  | .error _ c' => c'

/-- the circuit that operations leave one after the other. -/
def performAll (c : Circuit) (es : List Edit) : Circuit := es.foldl (fun c e => e.left c) c

end ReversibleLogic.Circuit
