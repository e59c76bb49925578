import ReversibleLogic.Bdd.Ite

/-!
# Substitution

* `restrict f values` — the cofactor of `f` under a partial assignment;
* `compose f map` — every mapped variable is replaced by its function, all at once.

Both walk over `f` and keep the result of every reference they have met.
-/

namespace ReversibleLogic.Bdd

/-- a finite map from variables. -/
abbrev Binding (β : Type) := Std.TreeMap Nat β

namespace Binding

/-- the map with the given entries; a later entry replaces an earlier one of the same variable. -/
def ofEntries {β : Type} (entries : List (Nat × β)) : Binding β :=
  entries.foldl (fun m (v, b) => m.insert v b) ∅

end Binding

/-- results by signed index. -/
abbrev Memo := Std.TreeMap Int Ref

/-- walks that keep results. -/
abbrev MemoM := StateT Memo BddM

/-- the kept result of `f`, or else the one that `compute` gives, which is kept. -/
def memoized (f : Ref) (compute : MemoM Ref) : MemoM Ref := do
  match (← get)[f.value]? with
  | some r => return r
  | none =>
    let r ← compute
    modify (·.insert f.value r)
    return r

def restrictWithin (values : Binding Bool) : Nat → Ref → MemoM Ref
  | 0, _ => misuse .brokenOrder
  | fuel + 1, f =>
    if f.isTerminal || values.isEmpty then pure f
    else memoized f do
      let v ← ask (·.variableOf f)
      match values[v]? with
      | some true => restrictWithin values fuel (← ask (·.high f))
      | some false => restrictWithin values fuel (← ask (·.low f))
      | none =>
        let low ← restrictWithin values fuel (← ask (·.low f))
        let high ← restrictWithin values fuel (← ask (·.high f))
        mkNode v low high

/-- `f` with the given variables fixed. -/
def restrict (f : Ref) (values : Binding Bool) : BddM Ref := (restrictWithin values (f.index + 1) f).run' ∅

/-- the substitution on an uncomplemented reference; a complemented one shares its result. -/
def composeWithin (map : Binding Ref) : Nat → Ref → MemoM Ref
  | 0, _ => misuse .brokenOrder
  | fuel + 1, f =>
    if f.isTerminal then pure f
    else do
      let regular := f.negateIf f.isNegated
      let r ← memoized regular do
        let v ← ask (·.variableOf regular)
        let low ← composeWithin map fuel (← ask (·.low regular))
        let high ← composeWithin map fuel (← ask (·.high regular))
        let selector ← match map[v]? with
          | some g => pure g
          | none => var v
        ite selector high low
      return r.negateIf f.isNegated

/-- `f` with every mapped variable replaced by its function. -/
def compose (f : Ref) (map : Binding Ref) : BddM Ref := (composeWithin map (f.index + 1) f).run' ∅

end ReversibleLogic.Bdd
