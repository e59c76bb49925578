import ReversibleLogic.Bdd.Ref
import ReversibleLogic.Storage.Cache
import ReversibleLogic.Storage.Table

/-!
# Diagram managers

All nodes of a manager live in one table, so equal nodes are shared. Variables are numbered from 1, smaller ones are
closer to the root. Node 1 is the terminal. A node never has a complemented high child.

* `BddM` — computations that add nodes to a manager; a failing one keeps the nodes it has added;
* `mkNode`, `var`, `literal`, `cube` — construction;
* `nodeOf`, `low`, `high`, `cofactors` — inspection.
-/

namespace ReversibleLogic.Bdd

open Storage

/-- an inner node: if `var` is set then `high`, else `low`. The terminal has variable 0. -/
structure Node where
  var : Nat
  low : Ref
  high : Ref
  deriving DecidableEq, Repr, Inhabited

instance : Hashed Node := ⟨fun n => pairTriple (.ofNat n.var) (.ofNat n.low.code) (.ofNat n.high.code)⟩

/-- the arguments of an if-then-else. -/
structure Triple where
  test : Ref
  yes : Ref
  no : Ref
  deriving DecidableEq, Repr, Inhabited

instance : Hashed Triple := ⟨fun t => pairTriple (.ofNat t.test.code) (.ofNat t.yes.code) (.ofNat t.no.code)⟩

/-- the shared nodes, and the results of earlier if-then-else operations. -/
structure Manager where
  nodes : Table Node
  computed : Cache Triple Ref

/-- the default binary logarithm of the number of buckets. -/
def defaultBits : Nat := 16

namespace Manager

/-- the manager that holds the terminal only. -/
def empty (bits : Nat) : Except Error Manager := do
  let nodes ← Table.empty bits
  let computed ← Cache.empty (min (max bits 10) 20)
  return ⟨(nodes.put ⟨0, ⟨0⟩, ⟨0⟩⟩).2, computed⟩

/-- number of nodes, the terminal included. -/
def size (m : Manager) : Nat := m.nodes.size

/-- the node that a reference points to. -/
def node (m : Manager) (r : Ref) : Except Error Node :=
  match m.nodes.value? r.index with
  | some n => .ok n
  | none => .error (.misuse (.missingNode r.index))

/-- the variable of a node, 0 for the terminal. -/
def variableOf (m : Manager) (r : Ref) : Except Error Nat := return (← m.node r).var

/-- the cofactor of `r` for its variable clear. -/
def low (m : Manager) (r : Ref) : Except Error Ref := return (← m.node r).low.negateIf r.isNegated

/-- the cofactor of `r` for its variable set. -/
def high (m : Manager) (r : Ref) : Except Error Ref := return (← m.node r).high.negateIf r.isNegated

/-- counts of nodes, buckets and lookups. -/
def render (m : Manager) : String :=
  let counts := s!"size: {m.nodes.size}, buckets: {m.nodes.numBuckets}, " ++
    s!"cache_hits: {m.computed.hits}, cache_misses: {m.computed.misses}"
  "Bdd \x7b " ++ counts ++ " \x7d"

end Manager

/-- computations on a manager. -/
abbrev BddM := EStateM Error Manager

/-- a question to the manager. -/
def ask {α : Type} (f : Manager → Except Error α) : BddM α := fun m =>
  match f m with
  | .ok a => .ok a m
  | .error e => .error e m

def misuse {α : Type} (cause : Misuse) : BddM α := throw (.misuse cause)

/-- the number of a node in the table. -/
def store (n : Node) : BddM Ref := fun ⟨nodes, computed⟩ =>
  let (i, nodes) := nodes.put n
  .ok (.ofIndex i) ⟨nodes, computed⟩

/-- a node with an uncomplemented high child; a node with equal children is its child. -/
def mkRegular (v : Nat) (low high : Ref) : BddM Ref := if low = high then pure low else store ⟨v, low, high⟩

/-- the function that is `high` where `v` is set and `low` elsewhere. -/
def mkNode (v : Nat) (low high : Ref) : BddM Ref :=
  if v = 0 then misuse .zeroVariable
  else if high.isNegated then return -(← mkRegular v (-low) (-high))
  else mkRegular v low high

/-- the largest number of a variable. -/
def maxVariable : Nat := 2 ^ 32 - 1

/-- `n` variables from `first` on. -/
def variablesFrom (first n : Nat) : Except Error (List Nat) :=
  if maxVariable < max first (first + n - 1) then .error (.misuse (.outOfRange (first + n - 1)))
  else .ok ((List.range n).map (first + ·))

/-- variable `v`. -/
def var (v : Nat) : BddM Ref := mkNode v .zero .one

/-- variable `v` or its complement. -/
def literal (v : Nat) (positive : Bool) : BddM Ref := return (← var v).negateIf (!positive)

/-- the level of the terminal; a variable of this level is below all others and cannot be split. -/
def terminalLevel : Nat := maxVariable

/-- the level of a reference: its variable, and for the terminal the last level. -/
def levelOf (r : Ref) : BddM Nat := if r.isTerminal then pure terminalLevel else ask (·.variableOf r)

/-- both cofactors of `r` for variable `v`, which is not below the variable of `r`. -/
def cofactors (r : Ref) (v : Nat) : BddM (Ref × Ref) :=
  if v = 0 then misuse .zeroVariable
  else if r.isTerminal then pure (r, r)
  else do
    let top ← ask (·.variableOf r)
    if v < top then return (r, r)
    if v ≠ top then misuse .brokenOrder
    return (← ask (·.low r), ← ask (·.high r))

/-! ## conjunctions of literals -/

/-- insertion into a list of literals that is sorted by descending variable, in front of the equal ones. -/
def insertLiteral (l : Int) : List Int → List Int
  | [] => [l]
  | k :: ks => if k.natAbs ≤ l.natAbs then l :: k :: ks else k :: insertLiteral l ks

/-- literals by descending variable; equal variables keep their order. -/
def sortLiterals (ls : List Int) : List Int := ls.foldr insertLiteral []

/-- puts one literal on top of a conjunction of literals of larger variables. -/
def conjoinLiteral (current : Ref) (l : Int) : BddM Ref :=
  if l = 0 then misuse .zeroLiteral
  else if l < 0 then mkNode l.natAbs current .zero
  else mkNode l.natAbs .zero current

/-- conjunction of literals, built from the largest variable upwards. -/
def cube (ls : List Int) : BddM Ref := (sortLiterals ls).foldlM conjoinLiteral .one

/-- the literal of a variable as a signed 32-bit word; the smallest word has no complement. -/
def literalWord (v : Nat) (positive : Bool) : Except Error Int :=
  let l := Int.bmod v (2 ^ 32)
  if positive then .ok l
  else if l = -2 ^ 31 then .error (.misuse (.outOfRange v))
  else .ok (-l)

/-- conjunction of `vars[i] = bits[i]`. -/
def cubeOfBits (vars : List Nat) (bits : List Bool) : BddM Ref :=
  if vars.length ≠ bits.length then misuse .lengthMismatch
  else do cube (← ask fun _ => (vars.zip bits).mapM fun (v, b) => literalWord v b)

end ReversibleLogic.Bdd
