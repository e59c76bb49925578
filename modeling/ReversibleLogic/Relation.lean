import ReversibleLogic.Bdd.Function
import ReversibleLogic.Circuit

/-!
# Reversible functions as relations

A reversible function `f` on `n` lines is given by the diagram of the relation `y = f(x)`. The variables of the lines
are interleaved, the most significant line first: `x` of line `n - 1`, `y` of line `n - 1`, `x` of line `n - 2`, and so
on. A walk that prefers clear variables therefore finds the numerically smallest word.

* `Relation.identity`, `ofPermutation`, `ofCircuit` — construction;
* `isPermutation`, `smallestMismatch?`, `image?` — questions about the function;
* `applyGate` — the function followed by a gate.
-/

namespace ReversibleLogic

open Bdd (BddM Ref Binding ask)

/-- largest number of lines of a relation. -/
def maxRelationLines : Nat := 63

/-- a set of pairs of words on `lines` lines. -/
structure Relation where
  lines : Nat
  root : Ref
  deriving DecidableEq, Repr, Inhabited

namespace Relation

/-- the input variable of a line. -/
def inputVar (r : Relation) (line : Nat) : Nat := 2 * (r.lines - 1 - line) + 1

/-- the output variable of a line. -/
def outputVar (r : Relation) (line : Nat) : Nat := r.inputVar line + 1

/-- the input and the output variable of a line of the relation. -/
def varsOf (r : Relation) (line : Nat) : Except Error (Nat × Nat) :=
  if line < r.lines then .ok (r.inputVar line, r.outputVar line) else .error (.misuse (.outOfRange line))

/-- input variables, most significant line first. -/
def inputVars (r : Relation) : List Nat := (List.range r.lines).reverse.map r.inputVar

/-- output variables, most significant line first. -/
def outputVars (r : Relation) : List Nat := (List.range r.lines).reverse.map r.outputVar

/-- the bits of a word, most significant line first. -/
def bitsOf (r : Relation) (w : Nat) : List Bool := (Word.toBits w r.lines).reverse

/-- the word with the given bits, most significant line first. -/
def wordOf (bits : List Bool) : Nat := Word.ofBits bits.reverse

/-! ## construction -/

/-- a relation over the variables of the lines. -/
def ofRoot (lines : Nat) (root : Ref) : Except Error Relation :=
  if maxRelationLines < lines then .error (.capacity lines maxRelationLines) else .ok ⟨lines, root⟩

/-- the pairs of equal words. -/
def diagonal (r : Relation) : BddM Ref :=
  Bdd.conjAll <| (List.range r.lines).map fun line => do
    let x ← Bdd.var (r.inputVar line)
    let y ← Bdd.var (r.outputVar line)
    Bdd.iff x y

def identity (lines : Nat) : BddM Relation := do
  let r ← ask fun _ => ofRoot lines .one
  return { r with root := ← r.diagonal }

/-- the pair `(x, y)` alone. -/
def row (r : Relation) (x y : Nat) : BddM Ref := do
  let input ← Bdd.cubeOfBits r.inputVars (r.bitsOf x)
  let output ← Bdd.cubeOfBits r.outputVars (r.bitsOf y)
  Bdd.conj input output

def ofPermutation (p : Permutation) : BddM Relation := do
  let r ← ask fun _ => ofRoot p.lines .zero
  let root ← p.rows.foldlM (fun root (x, y) => do Bdd.disj root (← r.row x y)) Ref.zero
  return { r with root := root }

/-! ## gates -/

/-- the functions that replace the output variables under a gate. -/
def substitution (r : Relation) (g : Gate) : BddM (Binding Ref) := do
  let active ← Bdd.conjAll (g.controls.map fun c => Bdd.literal (r.outputVar c.line) c.positive)
  match g with
  | .toffoli _ t =>
    let y ← Bdd.var (r.outputVar t)
    return .ofEntries [(r.outputVar t, ← Bdd.xor y active)]
  | .fredkin _ a b =>
    let ya ← Bdd.var (r.outputVar a)
    let yb ← Bdd.var (r.outputVar b)
    let first ← Bdd.ite active yb ya
    let second ← Bdd.ite active ya yb
    return .ofEntries [(r.outputVar a, first), (r.outputVar b, second)]

/-- the function of the relation followed by `g`: the pairs `(x, y)` with `(x, g y)` in the relation. -/
def applyGate (r : Relation) (g : Gate) : BddM Relation := do
  if r.lines ≤ g.maxLine then Bdd.misuse (.outOfRange g.maxLine)
  let map ← r.substitution g
  return { r with root := ← Bdd.compose r.root map }

/-- the relation that a circuit computes. -/
def ofCircuit (c : Circuit) : BddM Relation := do
  c.gates.foldlM applyGate (← identity c.lines)

/-! ## questions -/

/-- every input word has an image. -/
def isTotal (r : Relation) : BddM Bool := return decide ((← Bdd.existsOver r.root r.outputVars) = .one)

/-- every output word has a preimage. -/
def isOnto (r : Relation) : BddM Bool := return decide ((← Bdd.existsOver r.root r.inputVars) = .one)

/-- exactly one image for each input and one preimage for each output. -/
def isPermutation (r : Relation) : BddM Bool := do
  if !(← r.isTotal) then return false
  if !(← r.isOnto) then return false
  let vars := (List.range (2 * r.lines)).map (· + 1)
  return (← ask (·.countOver r.root vars)) == 2 ^ r.lines

/-- the function of the inputs that gives output bit `line`. -/
def outputFunction (r : Relation) (line : Nat) : BddM Ref := do
  let y ← Bdd.var (r.outputVar line)
  Bdd.existsOver (← Bdd.conj r.root y) r.outputVars

/-- the output functions, line 0 first. -/
def outputFunctions (r : Relation) : BddM (List Ref) := (List.range r.lines).mapM r.outputFunction

/-- the smallest input word with an image other than itself. -/
def smallestMismatch? (r : Relation) : BddM (Option Nat) := do
  let mismatch ← Bdd.conj r.root (-(← r.diagonal))
  let rows ← Bdd.existsOver mismatch r.outputVars
  return (← ask (·.least? rows r.inputVars)).map wordOf

/-- the smallest image of the input word `x`. -/
def image? (r : Relation) (x : Nat) : BddM (Option Nat) := do
  let values := .ofEntries ((List.range r.lines).map fun line => (r.inputVar line, x.testBit line))
  let outputs ← Bdd.restrict r.root values
  return (← ask (·.least? outputs r.outputVars)).map wordOf

/-- the table of the relation. -/
def toPermutation (r : Relation) : BddM Permutation := do
  if maxTableLines < r.lines then throw (.capacity r.lines maxTableLines)
  let table ← (List.range (2 ^ r.lines)).mapM fun x => do
    match ← r.image? x with
    | some y => pure y
    | none => throw (.inconsistent (.inputWithoutImage x))
  ask fun _ => Permutation.ofTable r.lines table.toArray

end Relation

end ReversibleLogic
