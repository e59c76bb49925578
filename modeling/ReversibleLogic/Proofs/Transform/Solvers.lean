import ReversibleLogic.Proofs.Bdd.Reached
import ReversibleLogic.Proofs.Transform.Presentations
import ReversibleLogic.Proofs.Transform.Relations

/-!
# Runs with a solver

* `Source.IsFor p` — the source is a relation, a circuit or a graph for the permutation `p`;
* `presentation_eq` — such a source has a presentation of the table of `p`;
* `synthesizeFrom_agrees` — with every lawful solver, the run on the clauses has the gates of the run on the table.
-/

namespace ReversibleLogic.Transform.Solving

open Bdd (Manager Ignores)
open Cnf (Builder)
open ReversibleLogic.Relation (Represents graph graph_iff bijective_graph pairAssignment)
open ReversibleLogic.Sat

variable {m : Manager} {r : Relation} {t : Array Nat} {n : Nat} {p : Permutation}

/-! ### sources -/

/-- the source is the graph of the permutation as a relation in a reachable manager, or a circuit or an and-inverter
graph that computes the permutation. -/
inductive Source.IsFor (p : Permutation) : Source → Prop
  | relation {m : Manager} {r : Relation} (hm : Bdd.Reached m) (hr : m.Holds r.root) (hlines : r.lines = p.lines)
    (hvars : ∀ v, ¬ (1 ≤ v ∧ v ≤ 2 * r.lines) → Ignores (m.eval · r.root) v)
    (hgraph : ∀ x < 2 ^ p.lines, ∀ y < 2 ^ p.lines,
      m.eval (pairAssignment p.lines x y) r.root = true ↔ p.apply x = .ok y) : IsFor p (.relation m r)
  | circuit {c : Circuit} (hlines : c.lines = p.lines) (hgates : ∀ g ∈ c.gates, g.Built ∧ g.Within c.lines)
    (hcomputes : ∀ x < 2 ^ p.lines, p.apply x = .ok (c.simulate x)) : IsFor p (.circuit c)
  | graph {g : Aig} (hclosed : g.Closed) (hinputs : g.numInputs = p.lines) (houtputs : g.outputs.size = p.lines)
    (hcomputes : ∀ x < 2 ^ p.lines, g.simulate x = p.apply x) : IsFor p (.graph g)

theorem present_eq (h : m.WellFormed) (hn : r.lines ≤ maxTableLines) (ht : Bijection r.lines t)
    (hr : Represents m r (graph t)) (settings : Settings) :
    ∃ q m', present r settings m = .ok q m' ∧ Presents q r.lines t := by
  obtain ⟨ok, m₁, hok₁, h₁, hle₁, hb⟩ := Relation.yields_isPermutation h hr
  have hb : ok = true := hb.2 (bijective_graph ht)
  subst hb
  have hr₁ := hr.mono h.toOrdered hle₁
  unfold present
  rw [bind_of_ok hok₁]
  simp only [Bool.not_true, Bool.false_eq_true, ↓reduceIte]
  cases settings.viaGraph with
  | false => exact ⟨_, m₁, rfl, .relation h₁.toOrdered hr₁⟩
  | true =>
    obtain ⟨fs, m₂, hok₂, h₂, -, hfs⟩ := Relation.yields_outputFunctions h₁ (Symbolic.vars_lt hn) ht hr₁
    obtain ⟨g, hg, hclosed, hinputs, houtputs, hsimulate⟩ := Relation.exists_graph h₂.toOrdered hn ht hfs
    refine ⟨.functions r.lines g, m₂, ?_, .functions ⟨hclosed, hinputs, houtputs, hsimulate⟩⟩
    rw [if_pos rfl, bind_of_ok hok₂, bind_of_ok (Bdd.ask_eq hg)]
    rfl

/-- **Sources** of a permutation have presentations of its table. -/
theorem presentation_eq (hp : p.Valid) {source : Source} (hsource : source.IsFor p) (settings : Settings) :
    ∃ q, source.presentation settings = .ok q ∧ Presents q p.lines p.table := by
  have happly : ∀ {x y}, x < 2 ^ p.lines → (p.apply x = .ok y ↔ p.table.getD x 0 = y) := fun {x y} hx => by
    rw [Permutation.apply_eq hp hx]
    exact ⟨Except.ok.inj, congrArg Except.ok⟩
  cases hsource with
  | @relation m r hm hr hlines hvars hgraph =>
    have h := Bdd.wellFormed_of_reached hm
    rw [← hlines] at happly hgraph
    have ht : Bijection r.lines p.table := hlines ▸ hp.bijection
    have hrep := (Relation.represents_self h.toOrdered hr hvars).congr (S := graph p.table) fun x hx y hy => by
      rw [Bool.eq_iff_iff, hgraph x hx y hy, graph_iff, happly hx]
    obtain ⟨q, m', hok, hq⟩ := present_eq h (hlines ▸ hp.lines_le) ht hrep settings
    refine ⟨q, ?_, hlines ▸ hq⟩
    rw [Source.presentation, hok]
  | @circuit c hlines hgates hcomputes =>
    refine ⟨_, rfl, hlines ▸ .circuit (fun g hg => (hgates g hg).2) fun x hx => ?_⟩
    exact ((happly (hlines ▸ hx)).1 (hcomputes x (hlines ▸ hx))).symm
  | @graph g hclosed hinputs houtputs hcomputes =>
    refine ⟨_, rfl, .graph ⟨hclosed, hinputs, houtputs, fun x hx => ?_⟩⟩
    rw [hcomputes x hx, happly hx]

/-! ### runs -/

variable {σ : Type} [Solver σ]

/-- the lines of a circuit fit, and so do those of a template on the lines of the table. -/
theorem templateFits_of_lines {q : Presentation} (hq : Presents q n t) {settings : Settings}
    (hfits : ∀ c, settings.template = some c → c.lines = n) :
    (strategy n (templateFor q settings) settings : Strategy (State σ)).TemplateFits := by
  intro c hc
  obtain ⟨viaGraph, assumeRetired, template⟩ := settings
  cases template with
  | some c' =>
    obtain rfl := Option.some.inj hc
    exact hfits _ rfl
  | none =>
    cases hq with
    | circuit =>
      obtain rfl := Option.some.inj hc
      rfl
    | relation => cases hc
    | functions => cases hc
    | graph => cases hc

theorem templateFits {q : Presentation} (hq : Presents q n t) (viaGraph assumeRetired : Bool) :
    (strategy n (templateFor q ⟨viaGraph, assumeRetired, none⟩) ⟨viaGraph, assumeRetired, none⟩ :
      Strategy (State σ)).TemplateFits :=
  templateFits_of_lines hq fun _ hc => nomatch hc

theorem synthesizeFrom_of_run {solver : σ} {source : Source} {settings : Settings} {q : Presentation} {b b' : Builder σ}
    {l : Layers} {active : Literal} {outcome : Outcome} {st' : State σ} (hq : source.presentation settings = .ok q)
    (hstart : Builder.start solver = .ok b) (hprepare : prepare q b = .ok (l, active) b') (hlen : l.inputs.length = n)
    (hrun : (strategy n (templateFor q settings) settings).run ⟨b', l, active, []⟩ = .ok outcome st') :
    synthesizeFrom solver source settings = .ok outcome := by
  subst hlen
  rw [synthesizeFrom, hq, ok_bind, synthesize, hstart, ok_bind, hprepare]
  dsimp only
  rw [hrun]
  rfl

variable [LawfulSolver σ]

theorem prepare_eq {b : Builder σ} (h : b.theory.Good) (hmodel : ∃ s, b.theory.IsModel s) {q : Presentation}
    (hq : Presents q n t) (hn : n ≤ maxRelationLines) (ht : Bijection n t) :
    ∃ l active b', prepare q b = .ok (l, active) b' ∧ Guarded b'.theory n l active [] t := by
  obtain ⟨l, b₁, hok₁, h₁⟩ := encode_eq h hmodel hq hn ht
  obtain ⟨active, b₂, hok₂, h₂⟩ := guardLayer_eq h₁
  exact ⟨l, active, b₂, (bind_of_ok hok₁ _).trans (bind_of_ok hok₂ _), h₂⟩

/-- **The run on the clauses of a presentation computes its table**, which may have as many lines as a word has bits
for, under any template on these lines. -/
theorem exists_synthesizeFrom {solver : σ}
    (hvars : ∀ c ∈ LawfulSolver.formula solver, ∀ l ∈ c, Literal.On (LawfulSolver.inUse solver) l)
    (hmodel : ∃ a, (LawfulSolver.formula solver).holds a = true) {source : Source} {settings : Settings}
    {q : Presentation} (hq : source.presentation settings = .ok q) (hpresents : Presents q n t)
    (hn : n ≤ maxRelationLines) (ht : Bijection n t) (hfits : ∀ c, settings.template = some c → c.lines = n) :
    ∃ gates rows, synthesizeFrom solver source settings =
        .ok ⟨(strategy n (templateFor q settings) settings : Strategy (State σ)).circuitOf gates, some rows, true⟩ ∧
      (∀ g ∈ gates, g.Proper n) ∧ ∀ x < 2 ^ n, Gate.applyAll gates x = t.getD x 0 := by
  obtain ⟨b, hstart, hb, hmodel⟩ := Cnf.start_eq hvars hmodel
  obtain ⟨l, active, b', hprepare, hguarded⟩ := prepare_eq hb hmodel hpresents hn ht
  have htracks : Tracks n (⟨b', l, active, []⟩ : State σ) t := hguarded
  obtain ⟨gates, rows, st', hrun, hproper, hcomputes⟩ := (follows n (templateFor q settings) settings).run_computes
    rfl rfl rfl (templateFits_of_lines hpresents hfits) ht (Nat.lt_succ_of_le hn) htracks
  exact ⟨gates, rows, synthesizeFrom_of_run hq hstart hprepare hguarded.inputs.length hrun, hproper, hcomputes⟩

/-- **Synthesis with a solver.** Whatever models a lawful solver picks, the synthesis of a permutation from a relation,
a circuit or a graph finds the gates of its table, and the number of different rows that needed a gate. The solver may
have clauses already, which have to be satisfiable. -/
theorem synthesizeFrom_agrees {solver : σ}
    (hvars : ∀ c ∈ LawfulSolver.formula solver, ∀ l ∈ c, Literal.On (LawfulSolver.inUse solver) l)
    (hmodel : ∃ a, (LawfulSolver.formula solver).holds a = true) (hp : p.Valid) {source : Source}
    (hsource : source.IsFor p) (viaGraph assumeRetired : Bool) :
    ∃ outcome plain rows, synthesizeFrom solver source ⟨viaGraph, assumeRetired, none⟩ = .ok outcome ∧
      TableRun p false plain rows ∧ outcome.circuit.gates = plain.circuit.gates ∧ outcome.rows = some rows := by
  obtain ⟨q, hq, hpresents⟩ := presentation_eq hp hsource ⟨viaGraph, assumeRetired, none⟩
  obtain ⟨b, hstart, hb, hmodel⟩ := Cnf.start_eq hvars hmodel
  have hn : p.lines ≤ maxRelationLines := hp.lines_le.trans (by decide)
  obtain ⟨l, active, b', hprepare, hguarded⟩ := prepare_eq hb hmodel hpresents hn hp.bijection
  have htracks : Tracks p.lines (⟨b', l, active, []⟩ : State σ) p.table := hguarded
  obtain ⟨gates, rows, st', hrun, htable⟩ :=
    (follows p.lines (templateFor q ⟨viaGraph, assumeRetired, none⟩) ⟨viaGraph, assumeRetired, none⟩).run_eq rfl rfl rfl
      (templateFits hpresents viaGraph assumeRetired) hp rfl htracks
  exact ⟨_, _, rows, synthesizeFrom_of_run hq hstart hprepare hguarded.inputs.length hrun, htable,
    Strategy.gates_circuitOf _ gates, rfl⟩

theorem synthesizeFrom_agrees_cycle :
    ∃ outcome plain rows, synthesizeFrom TrialSolver.empty
        (.circuit { Circuit.empty 2 with gates := [.toffoli [⟨0, true⟩] 1, .toffoli [] 0] }) ⟨false, true, none⟩ =
          .ok outcome ∧
      TableRun ⟨2, #[1, 2, 3, 0]⟩ false plain rows ∧ outcome.circuit.gates = plain.circuit.gates ∧
      outcome.rows = some rows := by
  have hp : (⟨2, #[1, 2, 3, 0]⟩ : Permutation).Valid := by
    have hok : Permutation.ofTable 2 #[1, 2, 3, 0] = .ok ⟨2, #[1, 2, 3, 0]⟩ := rfl
    exact (Permutation.ofTable_eq_ok.1 hok).2
  have hbuilt : (Gate.toffoli [⟨0, true⟩] 1).Built := .controlledNot (c := 0) (t := 1) rfl
  have hbuilt' : (Gate.toffoli [] 0).Built := .inverter 0
  refine synthesizeFrom_agrees (List.forall_mem_nil _) ⟨fun _ => false, rfl⟩ hp (.circuit rfl ?_ (by decide)) false true
  intro g hg
  rcases List.mem_pair.1 hg with rfl | rfl
  · exact ⟨hbuilt, by simp [Gate.Within, Gate.controls, Gate.targets, Circuit.empty]⟩
  · exact ⟨hbuilt', by simp [Gate.Within, Gate.controls, Gate.targets, Circuit.empty]⟩

end ReversibleLogic.Transform.Solving
