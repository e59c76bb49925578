import ReversibleLogic.Gate.Basic

/-!
# Errors

Every failing operation of the library names its cause. `Error.message` is the only place where a cause is worded.

* `Misuse` — a broken contract of a call (an index out of range, variable 0, …);
* `ConfigurationFault`, `GateFault`, `Inconsistency` — the causes behind three kinds of errors;
* `Error` — all of them.
-/

namespace ReversibleLogic

/-- a call that its operation does not allow. -/
inductive Misuse where
  /-- variables are numbered from 1. -/
  | zeroVariable
  /-- a literal is a signed variable. -/
  | zeroLiteral
  /-- a node that is not stored. -/
  | missingNode (index : Nat)
  /-- a node below one of its own descendants, or a variable that lies below the node's own. -/
  | brokenOrder
  /-- a function that depends on variables which are not listed. -/
  | foreignVariable
  /-- a variable without a signal or a literal. -/
  | unmappedVariable (var : Nat)
  /-- lists that have to be equally long. -/
  | lengthMismatch
  /-- a storage with more than the supported number of buckets. -/
  | tooManyBuckets
  /-- a position outside a list, a table or the lines. -/
  | outOfRange (position : Nat)
  /-- a signal that is not of the kind asked for. -/
  | wrongSignal
  /-- a row that already has its image. -/
  | equalWords
  deriving DecidableEq, Repr

/-- an input that does not fit the settings. -/
inductive ConfigurationFault where
  | permutationRows (lines needed found : Nat)
  | permutationOutput (output row lines : Nat)
  | functionRows (inputs needed found : Nat)
  | functionOutput (output row outputs : Nat)
  | lookbackWithoutFredkin
  | exactLines (limit found : Nat)
  deriving DecidableEq, Repr

/-- a gate that is not allowed. -/
inductive GateFault where
  | equalTargets (line : Nat)
  | repeatedControl (line : Nat)
  | controlledTarget (line : Nat)
  | tooWide (gate : Gate) (lines : Nat)
  deriving DecidableEq, Repr

/-- a function that is not what the synthesis was promised. -/
inductive Inconsistency where
  | noConvergence (limit lines : Nat)
  | rowWithoutImage (row : Nat)
  | inputWithoutImage (input : Nat)
  | notBijective
  | notInjective (first second : Nat)
  | spuriousMismatch (row : Nat)
  | noModel
  | reported (text : String)
  deriving DecidableEq, Repr

/-- the failures of the library. -/
inductive Error where
  | configuration (fault : ConfigurationFault)
  | invalidGate (fault : GateFault)
  | notAPermutation (output first second : Nat)
  | lineMismatch (expected found : Nat)
  | capacity (required limit : Nat)
  | inconsistent (cause : Inconsistency)
  | solver (text : String)
  | misuse (cause : Misuse)
  deriving DecidableEq, Repr

open Word (hexadecimal)

def Misuse.message : Misuse → String
  | zeroVariable => "variable index should not be zero"
  | zeroLiteral => "literal should not be zero"
  | missingNode i => s!"node {i} is not stored"
  | brokenOrder => "variables are out of order"
  | foreignVariable => "function depends on variables that are not listed"
  | unmappedVariable v => s!"variable {v} is not mapped"
  | lengthMismatch => "lists differ in length"
  | tooManyBuckets => "too many buckets"
  | outOfRange i => s!"position {i} is out of range"
  | wrongSignal => "signal is of another kind"
  | equalWords => "words should differ"

def ConfigurationFault.message : ConfigurationFault → String
  | permutationRows lines needed found => s!"a permutation on {lines} lines needs {needed} rows, got {found}"
  | permutationOutput y x lines => s!"output {hexadecimal y} of row {hexadecimal x} does not fit into {lines} lines"
  | functionRows inputs needed found => s!"a function with {inputs} inputs needs {needed} rows, got {found}"
  | functionOutput y x outputs =>
    s!"output {hexadecimal y} of row {hexadecimal x} does not fit into {outputs} outputs"
  | lookbackWithoutFredkin => "fredkin_lookback requires fredkin"
  | exactLines limit found => s!"exact synthesis supports 1 to {limit} lines, got {found}"

def GateFault.message : GateFault → String
  | equalTargets line => s!"Fredkin targets must differ, got {line} twice"
  | repeatedControl line => s!"line {line} is controlled twice"
  | controlledTarget line => s!"line {line} is both a control and a target"
  | tooWide gate lines => s!"{gate.render} does not fit into a circuit with {lines} lines"

def Inconsistency.message : Inconsistency → String
  | noConvergence limit lines => s!"no convergence after {limit} steps on {lines} lines"
  | rowWithoutImage row => s!"row {hexadecimal row} has no image"
  | inputWithoutImage x => s!"input {hexadecimal x} has no image"
  | notBijective => "relation does not describe a permutation"
  | notInjective first second =>
    s!"AIG is not injective: inputs {hexadecimal first} and {hexadecimal second} share an output"
  | spuriousMismatch row => s!"solver reported a mismatch on row {hexadecimal row} without one"
  | noModel => "satisfiable result without a model"
  | reported text => text

/-- the text of an error. -/
def Error.message : Error → String
  | configuration fault => s!"invalid configuration: {fault.message}"
  | invalidGate fault => s!"invalid gate: {fault.message}"
  | notAPermutation y first second =>
    s!"not a permutation: output {hexadecimal y} is produced by both {hexadecimal first} and {hexadecimal second}"
  | lineMismatch expected found => s!"line count mismatch: expected {expected}, found {found}"
  | capacity required limit => s!"embedding requires {required} lines, but at most {limit} are supported"
  | inconsistent cause => s!"inconsistent synthesis state: {cause.message}"
  | solver text => s!"SAT solver failure: {text}"
  | misuse cause => s!"misuse: {cause.message}"

end ReversibleLogic
