import ReversibleLogic.Bdd.Function
import ReversibleLogic.Exact.Descriptor

/-!
# Smallest cascades

For growing depths, the descriptors of all cascades of that many Toffoli gates are tested at once: a setting of the
descriptors is a solution if it is well formed and the line functions agree with the permutation on every input.

* `synthesize` — the cascades of least depth.
-/

namespace ReversibleLogic.Exact

open Bdd (BddM Ref ask)

/-- largest number of lines. -/
def maxLines : Nat := 6

/-- options of the search. -/
structure Settings where
  /-- largest number of gates to try. -/
  maxDepth : Nat
  /-- allow negative controls. -/
  negative : Bool
  /-- decode every solution. -/
  allSolutions : Bool
  /-- names, constants and flags for the circuits. -/
  template : Option Circuit
  deriving DecidableEq, Repr

/-- the number of gates that is tried unless another one is given. -/
def defaultDepth : Nat := 20

/-- the cascades of least depth. -/
structure Solution where
  circuit : Circuit
  /-- number of solutions. -/
  count : Nat
  /-- all solutions in order of their descriptors, if they were asked for. -/
  solutions : Option (List Circuit)
  depth : Nat
  /-- number of nodes at the end of the search. -/
  nodes : Nat
  deriving DecidableEq, Repr

/-- a circuit under the template of the settings. -/
def Settings.dress (s : Settings) (c : Circuit) : Except Error Circuit :=
  match s.template with
  | some t => c.copyMetadata t
  | none => .ok c

/-- the descriptors under which the lines agree with the functions `fs` on every input, and all blocks so far are
well formed. -/
def solutionSet (l : Layout) (fs lines : List Ref) (wellFormed : Ref) : BddM Ref := do
  let agree ← Bdd.conjAll (List.zipWith Bdd.iff lines fs)
  Bdd.conj (← Bdd.forallOver agree l.inputs) wellFormed

/-- reads the circuits off a non-empty set of solutions. -/
def report (s : Settings) (l : Layout) (depth : Nat) (set : Ref) : BddM Solution := do
  let vars := l.descriptors depth
  let decode (bits : List Bool) : Except Error Circuit := do s.dress (← l.decode depth bits)
  match ← ask (·.least? set vars) with
  | none => throw (.inconsistent .noModel)
  | some bits =>
    let circuit ← ask fun _ => decode bits
    let count ← ask (·.countOver set vars)
    let solutions ← if s.allSolutions then do
        let found ← Bdd.models set vars
        pure (some (← ask fun _ => found.mapM decode))
      else pure none
    return ⟨circuit, count, solutions, depth, ← ask fun m => .ok m.size⟩

/-- looks for solutions with `depth` gates, then with up to `more` further ones; `lines` and `wellFormed` are those of
the first `depth` blocks. -/
def deepen (s : Settings) (l : Layout) (fs : List Ref) : Nat → Nat → List Ref → Ref → BddM (Option Solution)
  | more, depth, lines, wellFormed => do
    let set ← solutionSet l fs lines wellFormed
    if set ≠ .zero then return some (← report s l depth set)
    match more with
    | 0 => return none
    | more + 1 =>
      let lines ← l.performGate depth lines
      let wellFormed ← Bdd.conj wellFormed (← l.wellFormed depth)
      deepen s l fs more (depth + 1) lines wellFormed

/-- the search in a manager. -/
def search (p : Permutation) (s : Settings) : BddM (Option Solution) := do
  let l : Layout := ⟨p.lines, s.negative⟩
  let f ← Bdd.Function.ofTable (.ofPermutation p) 1
  let lines ← l.inputs.mapM Bdd.var
  deepen s l f.outputs s.maxDepth 0 lines .one

/-- the smallest cascades that compute `p`, `none` if all of them are too long. -/
def synthesize (p : Permutation) (s : Settings) : Except Error (Option Solution) := do
  if p.lines = 0 ∨ maxLines < p.lines then throw (.configuration (.exactLines maxLines p.lines))
  match search p s (← Bdd.Manager.empty Bdd.defaultBits) with
  | .ok solution _ => return solution
  | .error e _ => throw e

end ReversibleLogic.Exact
