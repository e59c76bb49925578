import ReversibleLogic.Word

/-!
# Pairing

`pair a b` numbers the pairs of words shell by shell: all pairs whose larger entry is `m` come before those with a
larger one. Arithmetic is modulo `2 ^ 64`, so on large entries it is a hash only.

* `Hashed` — types with a 64-bit hash: a word is its own hash, tuples are paired from the left.
-/

namespace ReversibleLogic.Storage

/-- number of the pair `(a, b)`. -/
def pair (a b : UInt64) : UInt64 := if a < b then b * b + a else a * a + a + b

/-- number of the triple `((a, b), c)`. -/
def pairTriple (a b c : UInt64) : UInt64 := pair (pair a b) c

/-- a type with a hash. -/
class Hashed (α : Type) where
  hashOf : α → UInt64

instance : Hashed UInt64 := ⟨id⟩

instance : Hashed (UInt64 × UInt64) := ⟨fun (a, b) => pair a b⟩

instance : Hashed (UInt64 × UInt64 × UInt64) := ⟨fun (a, b, c) => pairTriple a b c⟩

/-- the lowest `bits` bits of the hash. -/
def slotOf {α : Type} [Hashed α] (bits : Nat) (v : α) : Nat := (Hashed.hashOf v).toNat % 2 ^ bits

end ReversibleLogic.Storage
