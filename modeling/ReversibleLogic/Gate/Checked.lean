import ReversibleLogic.Error

/-!
# Checked gates

The checked constructors accept a gate only if its controls lie on distinct lines off the targets, and bring it into
normal form: controls sorted by line, the smaller Fredkin target first.
-/

namespace ReversibleLogic.Gate

/-- insertion into a sorted list of controls. -/
def insertControl (c : Control) : List Control → List Control
  | [] => [c]
  | d :: ds => if c.le d then c :: d :: ds else d :: insertControl c ds

/-- the controls in order of their lines, negative before positive. -/
def sortControls (cs : List Control) : List Control := cs.foldr insertControl []

/-- the first line that two neighbours share. -/
def repeatedLine? : List Control → Option Nat
  | c :: d :: ds => if c.line = d.line then some c.line else repeatedLine? (d :: ds)
  | _ => none

/-- the sorted controls, if their lines are distinct and none of them is a target. -/
def checkControls (cs : List Control) (targets : List Nat) : Except Error (List Control) :=
  let sorted := sortControls cs
  match repeatedLine? sorted with
  | some line => .error (.invalidGate (.repeatedControl line))
  | none =>
    match sorted.find? (fun c => targets.contains c.line) with
    | some c => .error (.invalidGate (.controlledTarget c.line))
    | none => .ok sorted

/-- a Toffoli gate in normal form. -/
def toffoli? (cs : List Control) (target : Nat) : Except Error Gate :=
  (checkControls cs [target]).map (toffoli · target)

/-- a Fredkin gate in normal form. -/
def fredkin? (cs : List Control) (a b : Nat) : Except Error Gate :=
  if a = b then .error (.invalidGate (.equalTargets a))
  else (checkControls cs [a, b]).map (fredkin · (min a b) (max a b))

/-- positive controls on the lines of a word. -/
def positives (mask : Nat) : List Control := (Word.ones mask).map (⟨·, true⟩)

/-- the Toffoli gate with positive controls on the lines of `mask`. -/
def ofMask? (mask target : Nat) : Except Error Gate := toffoli? (positives mask) target

/-- the gate that flips its target on every word. -/
def inverter (target : Nat) : Gate := toffoli [] target

/-- the Toffoli gate with one positive control. -/
def controlledNot? (control target : Nat) : Except Error Gate := toffoli? [⟨control, true⟩] target

end ReversibleLogic.Gate
