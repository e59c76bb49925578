import ReversibleLogic.Bdd.Models
import ReversibleLogic.Circuit

/-!
# Descriptors of cascades

Every position of a cascade has a block of descriptor variables: one for a positive control on each line, with negative
controls one more for each line, and the binary number of the target line, lowest bit first. The variables `1, …, n`
are the inputs.

* `Layout` — the places of the descriptor variables;
* `Layout.performGate` — the line functions after the gate that a block describes;
* `Layout.wellFormed` — the blocks that describe a gate;
* `Layout.decode` — the cascade of a setting of the descriptors.
-/

namespace ReversibleLogic.Exact

open Bdd (BddM Ref)

/-- cascades on some lines, with positive controls only or with both polarities. -/
structure Layout where
  lines : Nat
  negative : Bool
  deriving DecidableEq, Repr

namespace Layout

def controlBits (l : Layout) : Nat := if l.negative then 2 * l.lines else l.lines

def targetBits (l : Layout) : Nat := Word.bitsFor l.lines

def blockSize (l : Layout) : Nat := l.controlBits + l.targetBits

/-- the first variable of block `k`. -/
def block (l : Layout) (k : Nat) : Nat := l.lines + k * l.blockSize + 1

/-- the variable for a positive control on line `i`. -/
def positive (l : Layout) (k i : Nat) : Nat := l.block k + i

/-- the variable for a negative control on line `i`. -/
def negated (l : Layout) (k i : Nat) : Nat := l.block k + (l.lines + i)

def inputs (l : Layout) : List Nat := (List.range l.lines).map (· + 1)

/-- the variables of the first `depth` blocks. -/
def descriptors (l : Layout) (depth : Nat) : List Nat :=
  (List.range (depth * l.blockSize)).map (l.block 0 + ·)

/-- block `k` has target line `i`. -/
def isTarget (l : Layout) (k i : Nat) : BddM Ref :=
  let first := l.block k + l.controlBits
  Bdd.cubeOfBits ((List.range l.targetBits).map (first + ·)) (Word.toBits i l.targetBits)

/-- adds one line to the condition that all controls of block `k` are satisfied. -/
def satisfyControls (l : Layout) (k : Nat) (active : Ref) (line : Ref × Nat) : BddM Ref := do
  let (x, i) := line
  let p ← Bdd.var (l.positive k i)
  let active ← Bdd.conj active (← Bdd.imply p x)
  if l.negative then
    let q ← Bdd.var (l.negated k i)
    Bdd.conj active (← Bdd.imply q (-x))
  else return active

/-- the line functions `current` followed by the gate of block `k`. -/
def performGate (l : Layout) (k : Nat) (current : List Ref) : BddM (List Ref) := do
  let active ← current.zipIdx.foldlM (l.satisfyControls k) Ref.one
  current.zipIdx.mapM fun (x, i) => do
    let flips ← Bdd.conj active (← l.isTarget k i)
    Bdd.xor x flips

/-- adds line `i` to the lines that block `k` may have as its target, and to the constraint that no line is controlled
twice or both a control and the target. -/
def constrainLine (l : Layout) (k : Nat) (acc : Ref × Ref) (i : Nat) : BddM (Ref × Ref) := do
  let (targets, constraint) := acc
  let isTarget ← l.isTarget k i
  let targets ← Bdd.disj targets isTarget
  let p ← Bdd.var (l.positive k i)
  let (uncontrolled, constraint) ←
    if l.negative then do
      let q ← Bdd.var (l.negated k i)
      let uncontrolled ← Bdd.conj (-p) (-q)
      let both ← Bdd.conj p q
      pure (uncontrolled, ← Bdd.conj constraint (-both))
    else pure (-p, constraint)
  let free ← Bdd.imply isTarget uncontrolled
  return (targets, ← Bdd.conj constraint free)

/-- block `k` describes a gate. -/
def wellFormed (l : Layout) (k : Nat) : BddM Ref := do
  let (targets, constraint) ← (List.range l.lines).foldlM (l.constrainLine k) (Ref.zero, Ref.one)
  Bdd.conj targets constraint

/-- the gate that the values of a block describe. -/
def decodeGate (l : Layout) (bits : List Bool) : Except Error Gate :=
  let controls := (List.range l.lines).flatMap fun i =>
    (if bits.getD i false then [⟨i, true⟩] else []) ++
      (if l.negative && bits.getD (l.lines + i) false then [⟨i, false⟩] else [])
  Gate.toffoli? controls (Word.ofBits (bits.drop l.controlBits))

/-- the cascade that the values of `depth` blocks describe. -/
def decodeFrom (l : Layout) : Nat → List Bool → Circuit → Except Error Circuit
  | 0, _, c => .ok c
  | depth + 1, bits, c => do
    let c ← c.append (← l.decodeGate (bits.take l.blockSize))
    l.decodeFrom depth (bits.drop l.blockSize) c

def decode (l : Layout) (depth : Nat) (bits : List Bool) : Except Error Circuit :=
  l.decodeFrom depth bits (Circuit.empty l.lines)

end Layout

end ReversibleLogic.Exact
