import ReversibleLogic.Error

/-!
# Permutations

A permutation of the words on `lines` lines, given by its table.

* `Permutation.ofTable` — accepts a table only if it is a bijection;
* `inverse`, `comp` — inverse and composition of tables;
* `identity`, `isIdentity`.
-/

namespace ReversibleLogic

/-- largest number of lines of an explicit table. -/
def maxTableLines : Nat := 24

/-- the image of every word, in order of the words. -/
structure Permutation where
  lines : Nat
  table : Array Nat
  deriving DecidableEq, Repr, Inhabited

namespace Permutation

/-- walks over the rows from row `x` on; `preimage` holds the row of every output met so far. -/
def checkRows (lines : Nat) : List Nat → Nat → Array (Option Nat) → Except Error Unit
  | [], _, _ => .ok ()
  | y :: rows, x, preimage =>
    if 2 ^ lines ≤ y then .error (.configuration (.permutationOutput y x lines))
    else
      match preimage[y]?.join with
      | some first => .error (.notAPermutation y first x)
      | none => checkRows lines rows (x + 1) (preimage.setIfInBounds y (some x))

/-- the permutation with the given table, if the table is a bijection on the words of `lines` lines. -/
def ofTable (lines : Nat) (table : Array Nat) : Except Error Permutation :=
  if maxTableLines < lines then .error (.capacity lines maxTableLines)
  else if table.size ≠ 2 ^ lines then .error (.configuration (.permutationRows lines (2 ^ lines) table.size))
  else do
    checkRows lines table.toList 0 (Array.replicate (2 ^ lines) none)
    return ⟨lines, table⟩

def identity (lines : Nat) : Except Error Permutation :=
  if maxTableLines < lines then .error (.misuse (.outOfRange lines)) else .ok ⟨lines, Array.range (2 ^ lines)⟩

/-- number of rows. -/
def size (p : Permutation) : Nat := p.table.size

def isEmpty (p : Permutation) : Bool := p.table.isEmpty

/-- the image of `x`; words outside the table have none. -/
def apply (p : Permutation) (x : Nat) : Except Error Nat :=
  match p.table[x]? with
  | some y => .ok y
  | none => .error (.misuse (.outOfRange x))

/-- rows with their images, in order. -/
def rows (p : Permutation) : List (Nat × Nat) := p.table.toList.zipIdx.map Prod.swap

/-- the table with `x` written at the image of `x`, row by row. -/
def inverse (p : Permutation) : Permutation :=
  ⟨p.lines, p.rows.foldl (fun t (x, y) => t.setIfInBounds y x) (Array.replicate p.size 0)⟩

/-- `q` after `p`. -/
def comp (p q : Permutation) : Except Error Permutation :=
  if p.lines ≠ q.lines then .error (.lineMismatch p.lines q.lines)
  else do return ⟨p.lines, ← p.table.mapM q.apply⟩

def isIdentity (p : Permutation) : Bool := p.rows.all fun (x, y) => x == y

def render (p : Permutation) : String := "[" ++ " ".intercalate (p.table.toList.map toString) ++ "]"

end Permutation

end ReversibleLogic
