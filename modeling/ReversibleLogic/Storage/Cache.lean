import ReversibleLogic.Error
import ReversibleLogic.Storage.Pairing
import Std.Data.TreeMap

/-!
# Direct-mapped caches

A cache has one entry per slot; a new entry overwrites what its slot held before. A lookup may miss what was inserted
earlier, but never answers for another key.
-/

namespace ReversibleLogic.Storage

/-- entries by slot, with the number of lookups that found their key and that did not. -/
structure Cache (κ β : Type) where
  bits : Nat
  entries : Std.TreeMap Nat (κ × β)
  hits : Nat
  misses : Nat

namespace Cache

/-- largest binary logarithm of the number of slots. -/
def maxBits : Nat := 31

variable {κ β : Type}

/-- the cache without entries. -/
def empty (bits : Nat) : Except Error (Cache κ β) :=
  if maxBits < bits then .error (.misuse .tooManyBuckets) else .ok ⟨bits, ∅, 0, 0⟩

/-- drops the entries and keeps the counters. -/
def clear (c : Cache κ β) : Cache κ β := { c with entries := ∅ }

variable [DecidableEq κ] [Hashed κ]

/-- the value stored for a key. -/
def lookup (c : Cache κ β) (key : κ) : Option β :=
  match c.entries[slotOf c.bits key]? with
  | some (k, v) => if k = key then some v else none
  | none => none

/-- a lookup that is counted. -/
def get (c : Cache κ β) (key : κ) : Option β × Cache κ β :=
  match c.lookup key with
  | some v => (some v, { c with hits := c.hits + 1 })
  | none => (none, { c with misses := c.misses + 1 })

def insert (c : Cache κ β) (key : κ) (v : β) : Cache κ β :=
  { c with entries := c.entries.insert (slotOf c.bits key) (key, v) }

end Cache

end ReversibleLogic.Storage
