import ReversibleLogic.Bdd.Reachable

/-!
# Models of a diagram

* `Manager.path?` — the literals on one satisfying path;
* `Manager.least?` — the smallest setting of some variables that a low-first walk finds;
* `models` — all settings of some variables that can be extended to a model, in ascending order;
* `Manager.count`, `Manager.countOver` — numbers of models.
-/

namespace ReversibleLogic.Bdd

namespace Manager

/-! ## one model -/

/-- the literals below `f` down to the constant one; the high child is taken unless it is zero. -/
def pathWithin (m : Manager) : Nat → Ref → Except Error (List Int)
  | 0, _ => .error (.misuse .brokenOrder)
  | fuel + 1, f =>
    if f = .one then .ok []
    else do
      let v ← m.variableOf f
      let high ← m.high f
      let low ← m.low f
      if high ≠ .zero then return (← literalWord v true) :: (← m.pathWithin fuel high)
      else return (← literalWord v false) :: (← m.pathWithin fuel low)

/-- literals whose conjunction implies `f`; variables off the path are left open. -/
def path? (m : Manager) (f : Ref) : Except Error (Option (List Int)) :=
  if f = .zero then .ok none else return some (← m.pathWithin (f.index + 1) f)

/-- the low child, unless it is zero. -/
def lowOrHigh (m : Manager) (f : Ref) : Except Error Ref := do
  let low ← m.low f
  if low = .zero then m.high f else return low

/-- walks low first until no variable smaller than `v` is left on top. -/
def descendTo (m : Manager) (v : Nat) : Nat → Ref → Except Error Ref
  | 0, _ => .error (.misuse .brokenOrder)
  | fuel + 1, f =>
    if f.isTerminal then .ok f
    else do
      if (← m.variableOf f) < v then m.descendTo v fuel (← m.lowOrHigh f) else return f

/-- values of `vars` on a walk that prefers clear variables; absent variables are clear. -/
def leastFrom (m : Manager) : List Nat → Ref → Except Error (List Bool)
  | [], _ => .ok []
  | v :: vars, f => do
    let f ← m.descendTo v (f.index + 1) f
    if !f.isTerminal && (← m.variableOf f) = v then
      let low ← m.low f
      if low = .zero then return true :: (← m.leastFrom vars (← m.high f))
      else return false :: (← m.leastFrom vars low)
    else return false :: (← m.leastFrom vars f)

/-- the smallest setting of `vars`, the first variable being most significant. -/
def least? (m : Manager) (f : Ref) (vars : List Nat) : Except Error (Option (List Bool)) :=
  if f = .zero then .ok none else return some (← m.leastFrom vars f)

end Manager

/-! ## all models -/

/-- the settings of `vars`, ascending, that satisfy `f`, which depends on nothing else. -/
def modelsFrom : List Nat → Ref → BddM (List (List Bool))
  | [], f => if f = .zero then pure [] else if f = .one then pure [[]] else misuse .foreignVariable
  | v :: vars, f =>
    if f = .zero then pure []
    else do
      let (low, high) ← cofactors f v
      let clear ← modelsFrom vars low
      let set ← modelsFrom vars high
      return clear.map (false :: ·) ++ set.map (true :: ·)

/-- lexicographic order of value lists, false before true. -/
def leBits : List Bool → List Bool → Bool
  | [], _ => true
  | _ :: _, [] => false
  | a :: as, b :: bs => if a = b then leBits as bs else b

/-- the settings of `vars` that can be extended to a model of `f`, in ascending order. -/
def models (f : Ref) (vars : List Nat) : BddM (List (List Bool)) := do
  let sorted := sortedSet vars
  let others := (← ask (·.support f)).filter (!sorted.contains ·)
  let f ← existsOver f others
  let found ← modelsFrom sorted f
  let positions := vars.map sorted.idxOf
  return (found.map fun model => positions.map (model.getD · false)).mergeSort leBits

/-! ## counting -/

namespace Manager

/-- counts by signed index. -/
abbrev Counts := Std.TreeMap Int Nat

/-- number of models of `f` among `total` assignments; each variable splits them in halves. -/
def countWithin (m : Manager) (total : Nat) : Nat → Ref → StateT Counts (Except Error) Nat
  | 0, _ => throw (.misuse .brokenOrder)
  | fuel + 1, f => do
    if f = .zero then return 0
    if f = .one then return total
    match (← get)[f.value]? with
    | some n => return n
    | none =>
      let low ← m.countWithin total fuel (← m.low f.regular)
      let high ← m.countWithin total fuel (← m.high f.regular)
      let half := (low + high) / 2
      let n := if f.isNegated then total - half else half
      modify (·.insert f.value n)
      return n

/-- number of models over the variables `1, …, n`. -/
def count (m : Manager) (f : Ref) (n : Nat) : Except Error Nat :=
  (m.countWithin (2 ^ n) (f.index + 1) f).run' ∅

/-- number of models over `vars`, outside of which `f` has no variable. -/
def countOver (m : Manager) (f : Ref) (vars : List Nat) : Except Error Nat := do
  let sorted := sortedSet vars
  let support ← m.support f
  if !support.all sorted.contains then throw (.misuse .foreignVariable)
  let last := sorted.getLastD 0
  let n ← m.count f last
  if last < sorted.length then throw (.misuse .zeroVariable)
  return n / 2 ^ (last - sorted.length)

end Manager

end ReversibleLogic.Bdd
