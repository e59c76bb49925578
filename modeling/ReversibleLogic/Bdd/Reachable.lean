import ReversibleLogic.Bdd.Quantifier
import Std.Data.TreeSet

/-!
# Reachable nodes

* `Manager.reachable` — the indices of the nodes below a reference, depth first, each node before its children and the
  low child before the high one;
* `support` — the variables on these nodes;
* `sizeOf` — their number.
-/

namespace ReversibleLogic.Bdd

/-- the nodes met by a walk, latest first, and the same nodes as a set. -/
structure Visited where
  order : List Nat
  set : Std.TreeSet Nat

namespace Manager

/-- adds the nodes below node `i` that have not been met. -/
def visit (m : Manager) : Nat → Nat → Visited → Except Error Visited
  | 0, _, _ => .error (.misuse .brokenOrder)
  | fuel + 1, i, seen =>
    if seen.set.contains i then .ok seen
    else
      let seen := ⟨i :: seen.order, seen.set.insert i⟩
      if i = 1 then .ok seen
      else do
        let n ← m.node (.ofIndex i)
        let seen ← m.visit fuel n.low.index seen
        m.visit fuel n.high.index seen

/-- the indices of the nodes below `f`, in the order of the walk. -/
def reachable (m : Manager) (f : Ref) : Except Error (List Nat) :=
  return (← m.visit (f.index + 1) f.index ⟨[], ∅⟩).order.reverse

/-- the variables `f` depends on, ascending. -/
def support (m : Manager) (f : Ref) : Except Error (List Nat) := do
  let vars ← (← m.reachable f).mapM fun i => m.variableOf (.ofIndex i)
  return sortedSet (vars.filter (· ≠ 0))

/-- number of nodes below `f`, the terminal included. -/
def sizeOf (m : Manager) (f : Ref) : Except Error Nat := return (← m.reachable f).length

/-- the inner nodes below `f` with their numbers, in the order of the walk. -/
def innerNodes (m : Manager) (f : Ref) : Except Error (List (Nat × Node)) := do
  let inner := (← m.reachable f).filter (· ≠ 1)
  inner.mapM fun i => return (i, ← m.node (.ofIndex i))

end Manager

end ReversibleLogic.Bdd
