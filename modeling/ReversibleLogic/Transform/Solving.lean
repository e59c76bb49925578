import ReversibleLogic.Cnf.Encoding
import ReversibleLogic.Relation
import ReversibleLogic.Transform.Run

/-!
# Transformation with a solver

The function is encoded in clauses over input literals and a layer of line literals; each gate adds a layer. A guard
literal switches on the constraint that inputs and layer differ. The smallest input that differs is found bit by bit,
from the most significant line down.

* `Presentation` — the function as a relation, a circuit or a graph;
* `synthesize` — the circuit of a presentation, with any solver;
* `synthesizeFrom` — the circuit of a source, which is presented as the settings say.
-/

namespace ReversibleLogic.Transform.Solving

open Bdd (BddM Manager ask)
open Cnf (Builder CnfM)
open ReversibleLogic.Sat

/-- options of a run with a solver. -/
structure Settings where
  /-- encode a relation through a graph of its output functions. -/
  viaGraph : Bool
  /-- switch old guards off by assumptions instead of clauses. -/
  assumeRetired : Bool
  template : Option Circuit
  deriving DecidableEq, Repr

/-- a function to be encoded. -/
inductive Presentation where
  /-- a relation that is known to be a permutation. -/
  | relation (manager : Manager) (relation : Relation)
  /-- the output functions of such a relation. -/
  | functions (lines : Nat) (graph : Aig)
  | circuit (circuit : Circuit)
  /-- a graph, which is to be a permutation. -/
  | graph (graph : Aig)

/-- the presentation of a relation, which has to be a permutation. -/
def present (r : Relation) (settings : Settings) : BddM Presentation := do
  if !(← r.isPermutation) then throw (.inconsistent .notBijective)
  if settings.viaGraph then
    let functions ← r.outputFunctions
    let graph ← ask (Aig.ofDiagrams · functions ((List.range r.lines).map r.inputVar))
    return .functions r.lines graph
  else
    ask fun m => .ok (.relation m r)

/-- input literals and the layer of line literals, line 0 first. -/
structure Layers where
  inputs : List Literal
  layer : List Literal
  deriving DecidableEq, Repr

variable {σ : Type} [Solver σ]

def newVars (n : Nat) : CnfM σ (List Literal) := (List.range n).mapM fun _ => Cnf.newVar

/-- words have a bit for each line. -/
def checkWidth (lines : Nat) : Except Error Unit :=
  if maxRelationLines < lines then .error (.capacity lines maxRelationLines) else .ok ()

/-- an answer of the solver to a query. -/
def solve (assumptions : List Literal) : CnfM σ Bool := Cnf.onSolver (Solver.solve assumptions)

/-- the bits that the last model gives to some literals. -/
def modelBits (ls : List Literal) : CnfM σ (List Bool) := do
  let solver := (← get).solver
  Cnf.ofExcept (ls.mapM fun l => return (← Solver.value solver l).getD false)

/-- fails unless no two inputs of the graph share an output word. The graph is encoded once more over other inputs,
and a guard asks for different inputs with equal outputs. -/
def checkInjective (g : Aig) (l : Layers) : CnfM σ Unit := do
  let guard ← Cnf.newVar
  let others ← newVars l.inputs.length
  let otherLayer ← Cnf.encodeGraph g others
  let inputsDiffer ← Cnf.encodeMismatch l.inputs others
  Cnf.addClause [-guard, inputsDiffer]
  let outputsDiffer ← Cnf.encodeMismatch l.layer otherLayer
  Cnf.addClause [-guard, -outputsDiffer]
  let collision ← solve [guard]
  Cnf.addClause [-guard]
  if collision then
    let first ← modelBits l.inputs
    let second ← modelBits others
    throw (.inconsistent (.notInjective (Word.ofBits first) (Word.ofBits second)))

/-- encodes a presentation. -/
def encode : Presentation → CnfM σ Layers
  | .relation m r => do
    let xs ← newVars r.lines
    let ys ← newVars r.lines
    let pairs := (List.range r.lines).zip (xs.zip ys)
    let vars := Bdd.Binding.ofEntries
      (pairs.flatMap fun (line, x, y) => [(r.inputVar line, x), (r.outputVar line, y)])
    let holds ← Cnf.encodeDiagram m r.root vars
    Cnf.addClause [holds]
    return ⟨xs, ys⟩
  | .functions lines g => do
    let xs ← newVars lines
    return ⟨xs, ← Cnf.encodeGraph g xs⟩
  | .circuit c => do
    Cnf.ofExcept (checkWidth c.lines)
    let xs ← newVars c.lines
    return ⟨xs, ← Cnf.encodeGates c.gates xs⟩
  | .graph g => do
    if g.numInputs ≠ g.outputs.size then throw (.lineMismatch g.numInputs g.outputs.size)
    Cnf.ofExcept (checkWidth g.numInputs)
    let xs ← newVars g.numInputs
    let l : Layers := ⟨xs, ← Cnf.encodeGraph g xs⟩
    checkInjective g l
    return l

/-- the encoded function; `active` is the guard of the present layer, `retired` are those of the earlier ones. -/
structure State (σ : Type) where
  builder : Builder σ
  layers : Layers
  active : Literal
  retired : List Literal

/-- a computation that adds clauses. -/
def onBuilder {α : Type} (x : CnfM σ α) : EStateM Error (State σ) α := fun ⟨builder, layers, active, retired⟩ =>
  match x builder with
  | .ok a builder => .ok a ⟨builder, layers, active, retired⟩
  | .error e builder => .error e ⟨builder, layers, active, retired⟩

/-- a guard under which inputs and layer differ. -/
def guardLayer (l : Layers) : CnfM σ Literal := do
  let guard ← Cnf.newVar
  let mismatch ← Cnf.encodeMismatch l.inputs l.layer
  Cnf.addClause [-guard, mismatch]
  return guard

/-- bits of an input and of its layer. -/
structure Model where
  inputs : List Bool
  layer : List Bool
  deriving DecidableEq, Repr

/-- a model of the clauses under assumptions. -/
def query (l : Layers) (assumptions : List Literal) : CnfM σ (Option Model) := do
  if ← solve assumptions then return some ⟨← modelBits l.inputs, ← modelBits l.layer⟩ else return none

/-- makes the inputs of a model as small as the clauses allow, one bit at a time: `assumptions` grow by the bits that
are settled. -/
def minimize (l : Layers) : List (Literal × Nat) → List Literal → Model → CnfM σ Model
  | [], _, model => pure model
  | (x, j) :: rest, assumptions, model =>
    if !model.inputs.getD j false then minimize l rest (assumptions ++ [-x]) model
    else do
      match ← query l (assumptions ++ [-x]) with
      | some smaller => minimize l rest (assumptions ++ [-x]) smaller
      | none => minimize l rest (assumptions ++ [x]) model

/-- assumptions of every query. -/
def baseAssumptions (s : State σ) (settings : Settings) : List Literal :=
  s.active :: if settings.assumeRetired then s.retired.map (- ·) else []

/-- the smallest input that differs from its layer, with its layer. -/
def smallestMismatch? (settings : Settings) : EStateM Error (State σ) (Option Model) := do
  let s ← get
  let l := s.layers
  let assumptions := baseAssumptions s settings
  onBuilder do
    match ← query l assumptions with
    | none => return none
    | some model => return some (← minimize l l.inputs.zipIdx.reverse assumptions model)

/-- puts a gate behind the layer and retires the old guard. -/
def addLayer (settings : Settings) (gate : Gate) : EStateM Error (State σ) Unit := do
  let s ← get
  let layer ← onBuilder (Cnf.encodeGate gate s.layers.layer)
  let l : Layers := ⟨s.layers.inputs, layer⟩
  if !settings.assumeRetired then onBuilder (Cnf.addClause [-s.active])
  let retired := if settings.assumeRetired then s.retired ++ [s.active] else s.retired
  let active ← onBuilder (guardLayer l)
  modify fun s => { s with layers := l, active := active, retired := retired }

/-- one step on the encoded function. -/
def next (settings : Settings) : EStateM Error (State σ) (Option Step) := do
  match ← smallestMismatch? settings with
  | none => return none
  | some model =>
    let x := Word.ofBits model.inputs
    let y := Word.ofBits model.layer
    if x = y then throw (.inconsistent (.spuriousMismatch x))
    let gate ← MonadExcept.ofExcept (resolvingGate? x y)
    addLayer settings gate
    return some ⟨.output, x, gate⟩

/-- the template of the settings, or else the lines of a circuit. -/
def templateFor (p : Presentation) (settings : Settings) : Option Circuit :=
  match settings.template, p with
  | some t, _ => some t
  | none, .circuit c => some c.withoutGates
  | none, _ => none

def strategy (lines : Nat) (template : Option Circuit) (settings : Settings) : Strategy (State σ) where
  lines := lines
  next := next settings
  lookback := false
  template := template
  countsRows := true
  usesSolver := true

/-- the encoded function with its first guard. -/
def prepare (p : Presentation) : CnfM σ (Layers × Literal) := do
  let l ← encode p
  return (l, ← guardLayer l)

/-- a circuit for the function of a presentation, found with the given solver. -/
def synthesize (solver : σ) (p : Presentation) (settings : Settings) : Except Error Outcome := do
  let builder ← Builder.start solver
  match prepare p builder with
  | .error e _ => throw e
  | .ok (l, active) builder =>
    match (strategy l.inputs.length (templateFor p settings) settings).run ⟨builder, l, active, []⟩ with
    | .ok outcome _ => return outcome
    | .error e _ => throw e

/-- what a circuit is to be found for. -/
inductive Source where
  | relation (manager : Manager) (relation : Relation)
  | circuit (circuit : Circuit)
  | graph (graph : Aig)

/-- the presentation of a source. -/
def Source.presentation (settings : Settings) : Source → Except Error Presentation
  | .relation m r =>
    match present r settings m with
    | .ok p _ => .ok p
    | .error e _ => .error e
  | .circuit c => .ok (.circuit c)
  | .graph g => .ok (.graph g)

/-- a circuit for the function of a source, found with the given solver. -/
def synthesizeFrom (solver : σ) (source : Source) (settings : Settings) : Except Error Outcome := do
  synthesize solver (← source.presentation settings) settings

end ReversibleLogic.Transform.Solving
