import ReversibleLogic.Bdd.Substitution

/-!
# Quantification

* `sortedSet` — a list of variables in ascending order without repetitions;
* `existsOver f vars` — some setting of the variables makes `f` true;
* `forallOver f vars` — every setting does.
-/

namespace ReversibleLogic.Bdd

/-- insertion into an ascending list without repetitions. -/
def insertVariable (v : Nat) : List Nat → List Nat
  | [] => [v]
  | u :: us => if v < u then v :: u :: us else if v = u then u :: us else u :: insertVariable v us

/-- the distinct members in ascending order. -/
def sortedSet (vars : List Nat) : List Nat := vars.foldr insertVariable []

/-- `vars` is ascending; variables above the one of `f` are skipped. -/
def existsWithin : Nat → Ref → List Nat → MemoM Ref
  | 0, _, _ => misuse .brokenOrder
  | fuel + 1, f, vars =>
    if f.isTerminal then pure f
    else do
      let v ← ask (·.variableOf f)
      match vars.dropWhile (· < v) with
      | [] => return f
      | u :: us =>
        memoized f do
          let low ← existsWithin fuel (← ask (·.low f)) (u :: us)
          if u = v then
            if low = .one then return low
            let high ← existsWithin fuel (← ask (·.high f)) (u :: us)
            disj low high
          else
            let high ← existsWithin fuel (← ask (·.high f)) (u :: us)
            mkNode v low high

/-- some setting of `vars` makes `f` true. -/
def existsOver (f : Ref) (vars : List Nat) : BddM Ref := (existsWithin (f.index + 1) f (sortedSet vars)).run' ∅

/-- every setting of `vars` makes `f` true. -/
def forallOver (f : Ref) (vars : List Nat) : BddM Ref := return -(← existsOver (-f) vars)

end ReversibleLogic.Bdd
