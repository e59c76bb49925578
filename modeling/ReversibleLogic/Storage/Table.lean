import ReversibleLogic.Error
import ReversibleLogic.Storage.Pairing
import Std.Data.TreeMap

/-!
# Tables of distinct values

A table stores every value once and numbers the values from 1 in order of their first insertion. Values with the same
slot form a chain, latest first; the number of buckets doubles when there are more than two values per bucket.

* `Table.put` — the number of a value, which is stored if it is new;
* `Table.value?` — the value with a number.
-/

namespace ReversibleLogic.Storage

/-- numbered distinct values; number `i` stands at position `i - 1`. -/
structure Table (α : Type) where
  /-- binary logarithm of the number of buckets. -/
  bits : Nat
  values : Array α
  /-- the number that follows in the same chain, 0 at its end. -/
  next : Array Nat
  /-- the first number of every chain that is not empty. -/
  heads : Std.TreeMap Nat Nat

namespace Table

/-- largest binary logarithm of the number of buckets of a new table. -/
def maxBits : Nat := 30

variable {α : Type}

/-- the table without values. -/
def empty (bits : Nat) : Except Error (Table α) :=
  if maxBits < bits then .error (.misuse .tooManyBuckets) else .ok ⟨bits, #[], #[], ∅⟩

/-- number of values. -/
def size (t : Table α) : Nat := t.values.size

def numBuckets (t : Table α) : Nat := 2 ^ t.bits

/-- the value with number `i`. -/
def value? (t : Table α) (i : Nat) : Option α := if i = 0 then none else t.values[i - 1]?

variable [DecidableEq α] [Hashed α]

/-- looks for `v` along the chain that starts at number `i`, over at most `fuel` values. -/
def find (t : Table α) (v : α) : Nat → Nat → Option Nat
  | 0, _ => none
  | fuel + 1, i =>
    match t.value? i with
    | none => none
    | some u => if u = v then some i else find t v fuel (t.next[i - 1]?.getD 0)

/-- chains of the values for `2 ^ bits` buckets, built in order of the numbers. -/
def chains (bits : Nat) (values : Array α) : Array Nat × Std.TreeMap Nat Nat :=
  values.foldl (fun (next, heads) v =>
    let slot := slotOf bits v
    let number := next.size + 1
    (next.push (heads.getD slot 0), heads.insert slot number)) (#[], ∅)

/-- the same values in twice as many buckets. -/
def grow (t : Table α) : Table α :=
  let (next, heads) := chains (t.bits + 1) t.values
  ⟨t.bits + 1, t.values, next, heads⟩

/-- a new value at the front of its chain. -/
def add (t : Table α) (v : α) : Table α :=
  match t with
  | ⟨bits, values, next, heads⟩ =>
    let slot := slotOf bits v
    let number := values.size + 1
    let head := heads.getD slot 0
    let t := ⟨bits, values.push v, next.push head, heads.insert slot number⟩
    if 2 * 2 ^ bits < number then grow t else t

/-- the number of `v`, which is stored if it is new. -/
def put (t : Table α) (v : α) : Nat × Table α :=
  match t.find v t.size (t.heads.getD (slotOf t.bits v) 0) with
  | some i => (i, t)
  | none => (t.size + 1, t.add v)

end Table

end ReversibleLogic.Storage
