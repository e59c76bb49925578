import ReversibleLogic.Relation
import ReversibleLogic.Transform.Run

/-!
# Transformation of relations

The function is kept as a relation of a diagram manager, and gates are applied to its outputs only.
-/

namespace ReversibleLogic.Transform.Symbolic

open Bdd (BddM Manager)

/-- options of a run on a relation. -/
structure Settings where
  /-- exchange two bits by one Fredkin gate. -/
  fredkin : Bool
  template : Option Circuit
  deriving DecidableEq, Repr

/-- a relation and its manager. -/
structure State where
  manager : Manager
  relation : Relation

/-- a computation of the manager. -/
def onManager {α : Type} (x : Relation → BddM α) : EStateM Error State α := fun ⟨manager, relation⟩ =>
  match x relation manager with
  | .ok a manager => .ok a ⟨manager, relation⟩
  | .error e manager => .error e ⟨manager, relation⟩

/-- one step on the relation. -/
def next (settings : Settings) : EStateM Error State (Option Step) := do
  match ← onManager (·.smallestMismatch?) with
  | none => return none
  | some x =>
    match ← onManager (·.image? x) with
    | none => throw (.inconsistent (.rowWithoutImage x))
    | some y =>
      let gate ← MonadExcept.ofExcept (chooseGate? x y settings.fredkin)
      let relation ← onManager (·.applyGate gate)
      modify fun s => { s with relation := relation }
      return some ⟨.output, x, gate⟩

def strategy (lines : Nat) (settings : Settings) : Strategy State where
  lines := lines
  next := next settings
  lookback := false
  template := settings.template
  countsRows := true
  usesSolver := false

/-- a circuit for the function of a relation. -/
def synthesize (r : Relation) (settings : Settings) : BddM Outcome := do
  if !(← r.isPermutation) then throw (.inconsistent .notBijective)
  fun manager =>
    match (strategy r.lines settings).run ⟨manager, r⟩ with
    | .ok outcome s => .ok outcome s.manager
    | .error e s => .error e s.manager

end ReversibleLogic.Transform.Symbolic
