import ReversibleLogic.Proofs.Relation.Construction
import ReversibleLogic.Proofs.Transform.Solvers

/-!
# Functions on as many lines as a word has bits

With a lawful solver, circuits and graphs need no table: there may be 63 lines.

* `exists_computing` — the circuit of a presentation computes its table;
* `exists_notInjective` — a graph with a collision is rejected;
* `exists_check` — the clauses that the check of a graph leaves behind exclude no input;
* `synthesizeFrom_wide` — so graphs are accepted exactly if they are one to one, and what is found for a circuit or a
  graph computes the same; the inputs and outputs of a graph have to match, and no more than 63 lines fit.
-/

namespace ReversibleLogic.Transform.Solving

open Cnf (Builder wordOf)
open ReversibleLogic.Sat

variable {σ : Type} [Solver σ] {solver : σ} {settings : Settings} {n : Nat} {t : Array Nat} {g : Aig} {c : Circuit}

theorem synthesizeFrom_of_error {source : Source} {q : Presentation} {b b' : Builder σ} {e : Error}
    (hq : source.presentation settings = .ok q) (hstart : Builder.start solver = .ok b)
    (hencode : encode q b = .error e b') : synthesizeFrom solver source settings = .error e := by
  have hprepare : prepare q b = .error e b' := bind_of_error hencode _
  rw [synthesizeFrom, hq, ok_bind, synthesize, hstart, ok_bind, hprepare]
  rfl

section lawful

variable [LawfulSolver σ]
  (hvars : ∀ c ∈ LawfulSolver.formula solver, ∀ l ∈ c, Literal.On (LawfulSolver.inUse solver) l)
  (hmodel : ∃ a, (LawfulSolver.formula solver).holds a = true)

include hvars hmodel

theorem exists_computing (source : Source) {q : Presentation} (hq : source.presentation settings = .ok q)
    (hpresents : Presents q n t) (hn : n ≤ maxRelationLines) (ht : Bijection n t)
    (htemplate : settings.template = none) :
    ∃ outcome, synthesizeFrom solver source settings = .ok outcome ∧
      ∀ w < 2 ^ n, outcome.circuit.simulate w = t.getD w 0 := by
  have hfits : ∀ c, settings.template = some c → c.lines = n := fun c hc => nomatch htemplate.symm.trans hc
  obtain ⟨gates, rows, hok, -, hcomputes⟩ := exists_synthesizeFrom hvars hmodel hq hpresents hn ht hfits
  refine ⟨_, hok, fun w hw => ?_⟩
  rw [Gate.simulate_eq_applyAll, Strategy.gates_circuitOf]
  exact hcomputes w hw

/-- a graph with a collision, if the values of the literals can be read. -/
theorem exists_notInjective (hg : IsTable g n t) (hn : n ≤ maxRelationLines) (hcollides : Collides n t)
    (hread : ∀ (solver : σ) k, Literal.On (LawfulSolver.inUse solver) k → ∃ o, Solver.value solver k = .ok o) :
    ∃ x y, synthesizeFrom solver (.graph g) settings = .error (.inconsistent (.notInjective x y)) := by
  obtain ⟨b, hstart, hb, hmodel⟩ := Cnf.start_eq hvars hmodel
  obtain ⟨x, y, b', herror⟩ := encode_graph_eq_error hb hmodel hg hn hcollides hread
  exact ⟨x, y, synthesizeFrom_of_error rfl hstart herror⟩

/-- whatever the check of a graph answers, it excludes no word of the inputs. -/
theorem exists_check (hg : IsTable g n t) (hn : n ≤ maxRelationLines)
    (hread : ∀ (solver : σ) k, Literal.On (LawfulSolver.inUse solver) k → ∃ o, Solver.value solver k = .ok o) :
    ∃ b l b₁ b₂, Builder.start solver = .ok b ∧ encode (.graph g) b = (do checkInjective g l; return l) b₁ ∧
      (checkInjective g l b₁ = .ok () b₂ ∨ ∃ e, checkInjective g l b₁ = .error e b₂) ∧ b₁.theory ≤ b₂.theory ∧
      l.inputs.length = n ∧ ∀ w < 2 ^ n, ∃ s, b₂.theory.IsModel s ∧ wordOf s l.inputs = w := by
  obtain ⟨b, hstart, hb, hmodel⟩ := Cnf.start_eq hvars hmodel
  obtain ⟨l, b₁, hencoded, hencode⟩ := encode_graph_eq hb hmodel hg hn
  have hcheck : ∃ b₂, (checkInjective g l b₁ = .ok () b₂ ∨ ∃ e, checkInjective g l b₁ = .error e b₂) ∧
      b₂.theory.Good ∧ b₁.theory ≤ b₂.theory := by
    by_cases hcollides : Collides n t
    · obtain ⟨x, y, b₂, herror, hb₂, hle⟩ := checkInjective_eq_error hencoded hg hcollides hread
      exact ⟨b₂, Or.inr ⟨_, herror⟩, hb₂, hle⟩
    · obtain ⟨_, b₂, hok, hb₂, hle, -⟩ := encodes_checkInjective hencoded hg hcollides
      exact ⟨b₂, Or.inl hok, hb₂, hle⟩
  obtain ⟨b₂, hresult, hb₂, hle⟩ := hcheck
  refine ⟨b, l, b₁, b₂, hstart, hencode, hresult, hle, hencoded.inputs.length, fun w hw => ?_⟩
  obtain ⟨s, hs, hword, -⟩ := (hencoded.mono hle hb₂).free w hw
  exact ⟨s, hs, hword⟩

theorem synthesizeFrom_lineMismatch (hne : g.numInputs ≠ g.outputs.size) :
    synthesizeFrom solver (.graph g) settings = .error (.lineMismatch g.numInputs g.outputs.size) := by
  obtain ⟨b, hstart, -⟩ := Cnf.start_eq hvars hmodel
  have hencode : encode (.graph g) b = .error (.lineMismatch g.numInputs g.outputs.size) b := by
    rw [encode, if_pos hne]
    rfl
  exact synthesizeFrom_of_error rfl hstart hencode

theorem synthesizeFrom_graph_capacity (heq : g.numInputs = g.outputs.size) (hn : maxRelationLines < g.numInputs) :
    synthesizeFrom solver (.graph g) settings = .error (.capacity g.numInputs maxRelationLines) := by
  obtain ⟨b, hstart, -⟩ := Cnf.start_eq hvars hmodel
  have hencode : encode (.graph g) b = .error (.capacity g.numInputs maxRelationLines) b := by
    rw [encode, if_neg (not_not.2 heq)]
    exact bind_of_error (checkWidth_eq_error hn) _
  exact synthesizeFrom_of_error rfl hstart hencode

theorem synthesizeFrom_circuit_capacity (hn : maxRelationLines < c.lines) :
    synthesizeFrom solver (.circuit c) settings = .error (.capacity c.lines maxRelationLines) := by
  obtain ⟨b, hstart, -⟩ := Cnf.start_eq hvars hmodel
  have hencode : encode (.circuit c) b = .error (.capacity c.lines maxRelationLines) b :=
    bind_of_error (checkWidth_eq_error hn) _
  exact synthesizeFrom_of_error rfl hstart hencode

end lawful

/-- **Functions that are too wide for a table.** With a lawful solver, whose clauses can be satisfied and whose values
can be read, and without a template:

* a graph with as many outputs as inputs, at most 63, is rejected exactly if two different words have the same output
  word, and otherwise the circuit that is found computes the graph. Either way, every model of the clauses before the
  check of the graph extends to one of the clauses after it, and the inputs can still hold every word;
* the circuit that is found for a circuit of built gates on at most 63 lines computes the same;
* a graph with more outputs than inputs, or fewer, is rejected, and so is whatever is wider than 63 lines. -/
theorem synthesizeFrom_wide [LawfulSolver σ] (solver : σ) (settings : Settings)
    (hvars : ∀ c ∈ LawfulSolver.formula solver, ∀ l ∈ c, Literal.On (LawfulSolver.inUse solver) l)
    (hmodel : ∃ a, (LawfulSolver.formula solver).holds a = true)
    (hread : ∀ (solver : σ) k, Literal.On (LawfulSolver.inUse solver) k → ∃ o, Solver.value solver k = .ok o)
    (htemplate : settings.template = none) :
    (∀ (g : Aig) (n : Nat), g.Closed → g.numInputs = n → g.outputs.size = n → n ≤ maxRelationLines →
      ((∃ cause, synthesizeFrom solver (.graph g) settings = .error (.inconsistent cause)) ↔
        ∃ x < 2 ^ n, ∃ y < 2 ^ n, x ≠ y ∧ g.simulate x = g.simulate y) ∧
      ((∃ cause, synthesizeFrom solver (.graph g) settings = .error (.inconsistent cause)) ∨
        ∃ outcome, synthesizeFrom solver (.graph g) settings = .ok outcome ∧
          ∀ w < 2 ^ n, g.simulate w = .ok (outcome.circuit.simulate w)) ∧
      ∃ b l b₁ b₂, Builder.start solver = .ok b ∧ encode (.graph g) b = (do checkInjective g l; return l) b₁ ∧
        (checkInjective g l b₁ = .ok () b₂ ∨ ∃ e, checkInjective g l b₁ = .error e b₂) ∧ b₁.theory ≤ b₂.theory ∧
        l.inputs.length = n ∧ ∀ w < 2 ^ n, ∃ s, b₂.theory.IsModel s ∧ wordOf s l.inputs = w) ∧
    (∀ c : Circuit, (∀ g ∈ c.gates, g.Built ∧ g.Within c.lines) → c.lines ≤ maxRelationLines →
      ∃ outcome, synthesizeFrom solver (.circuit c) settings = .ok outcome ∧
        ∀ w < 2 ^ c.lines, outcome.circuit.simulate w = c.simulate w) ∧
    (∀ g : Aig, g.numInputs ≠ g.outputs.size →
      synthesizeFrom solver (.graph g) settings = .error (.lineMismatch g.numInputs g.outputs.size)) ∧
    (∀ g : Aig, g.numInputs = g.outputs.size → maxRelationLines < g.numInputs →
      synthesizeFrom solver (.graph g) settings = .error (.capacity g.numInputs maxRelationLines)) ∧
    ∀ c : Circuit, maxRelationLines < c.lines →
      synthesizeFrom solver (.circuit c) settings = .error (.capacity c.lines maxRelationLines) := by
  refine ⟨fun g n hclosed hinputs houtputs hn => ?_, fun c hgates hn => ?_,
    fun g => synthesizeFrom_lineMismatch hvars hmodel, fun g => synthesizeFrom_graph_capacity hvars hmodel,
    fun c => synthesizeFrom_circuit_capacity hvars hmodel⟩
  · obtain ⟨f, hsimulate, hlt, htable⟩ := exists_isTable hclosed hinputs houtputs
    have hcollides : Collides n ((Array.range (2 ^ n)).map f) ↔
        ∃ x < 2 ^ n, ∃ y < 2 ^ n, x ≠ y ∧ g.simulate x = g.simulate y := by
      refine exists_congr fun x => and_congr_right fun hx => exists_congr fun y => and_congr_right fun hy => ?_
      rw [getD_map_range f hx, getD_map_range f hy, hsimulate, hsimulate, Except.ok.injEq]
    rw [← hcollides]
    have hcheck := exists_check hvars hmodel htable hn hread
    by_cases h : Collides n ((Array.range (2 ^ n)).map f)
    · obtain ⟨x, y, herror⟩ := exists_notInjective hvars hmodel htable hn h hread
      exact ⟨iff_of_true ⟨_, herror⟩ h, Or.inl ⟨_, herror⟩, hcheck⟩
    · obtain ⟨outcome, hok, hcomputes⟩ := exists_computing hvars hmodel (.graph g) rfl (.graph htable) hn
        (bijection_of_not_collides (fun x _ => hlt x) h) htemplate
      refine ⟨iff_of_false (fun ⟨cause, herror⟩ => nomatch hok.symm.trans herror) h,
        Or.inr ⟨outcome, hok, fun w hw => ?_⟩, hcheck⟩
      rw [hsimulate, hcomputes w hw, getD_map_range f hw]
  · have hproper : ∀ g ∈ c.gates, g.Proper c.lines := fun g hg =>
      ⟨Gate.built_iff_normal.1 (hgates g hg).1, (hgates g hg).2⟩
    have hpresents : Presents (.circuit c) c.lines c.table :=
      .circuit (fun g hg => (hgates g hg).2) fun x hx => (Circuit.getD_table hx).symm
    obtain ⟨outcome, hok, hcomputes⟩ :=
      exists_computing hvars hmodel (.circuit c) rfl hpresents hn (Circuit.bijection_table hproper) htemplate
    exact ⟨outcome, hok, fun w hw => (hcomputes w hw).trans (Circuit.getD_table hw)⟩

theorem synthesizeFrom_wide_sharedOutput :
    (∃ cause, synthesizeFrom TrialSolver.empty (.graph ⟨2, #[(.ofInput 0, .ofInput 1)], #[.ofNode 0, .ofInput 1], ∅⟩)
      ⟨false, false, none⟩ = .error (.inconsistent cause)) ∧
    (∃ outcome, synthesizeFrom TrialSolver.empty
        (.graph ⟨2, #[], #[.ofInput 1, (Signal.ofInput 0).not], ∅⟩) ⟨false, false, none⟩ = .ok outcome ∧
      outcome.circuit.simulate 1 = 0) ∧
    (∃ outcome, synthesizeFrom TrialSolver.empty (.circuit { Circuit.empty 63 with gates := [.toffoli [] 62] })
        ⟨false, false, none⟩ = .ok outcome ∧ outcome.circuit.simulate 5 = 2 ^ 62 + 5) ∧
    synthesizeFrom TrialSolver.empty (.graph ⟨2, #[], #[], ∅⟩) ⟨false, false, none⟩ = .error (.lineMismatch 2 0) ∧
    synthesizeFrom TrialSolver.empty (.graph ⟨64, #[], Array.replicate 64 (.ofInput 0), ∅⟩) ⟨false, false, none⟩ =
      .error (.capacity 64 63) ∧
    synthesizeFrom TrialSolver.empty (.circuit (Circuit.empty 70)) ⟨false, false, none⟩ =
      .error (.capacity 70 63) := by
  obtain ⟨hgraph, hcircuit, hmismatch, hwide, hwide'⟩ :=
    synthesizeFrom_wide TrialSolver.empty ⟨false, false, none⟩ (List.forall_mem_nil _) ⟨fun _ => false, rfl⟩
      (fun solver k _ => ⟨solver.model.map k.holds, rfl⟩) rfl
  have hinput : ∀ {i k : Nat}, i < 2 → (Signal.ofInput i).Within 2 k := fun hi =>
    Signal.within_ofInput (hi.trans (by decide)) hi
  have hnil : Aig.Causal 2 [] := fun k fanins hk => by simp at hk
  have hand : Aig.Closed ⟨2, #[(.ofInput 0, .ofInput 1)], #[.ofNode 0, .ofInput 1], ∅⟩ := by
    refine ⟨hnil.concat (hinput (by decide)) (hinput (by decide)), fun s hs => ?_⟩
    rcases List.mem_pair.1 hs with rfl | rfl
    · exact Signal.within_ofNode (by decide) Nat.one_pos
    · exact hinput (by decide)
  have hswap : Aig.Closed ⟨2, #[], #[.ofInput 1, (Signal.ofInput 0).not], ∅⟩ := by
    refine ⟨hnil, fun s hs => ?_⟩
    rcases List.mem_pair.1 hs with rfl | rfl
    · exact hinput (by decide)
    · exact (hinput (by decide)).not
  have hgates : ∀ g ∈ [Gate.toffoli [] 62], g.Built ∧ g.Within 63 := fun g hg => by
    rw [List.mem_singleton.1 hg]
    exact ⟨.inverter 62, by simp [Gate.Within, Gate.controls, Gate.targets]⟩
  refine ⟨(hgraph _ 2 hand rfl rfl (by decide)).1.2 ⟨0, by decide, 1, by decide, by decide, rfl⟩, ?_, ?_,
    hmismatch _ (by decide), hwide _ (by simp) (by decide), hwide' _ (by decide)⟩
  · obtain ⟨hiff, hor, -⟩ := hgraph _ 2 hswap rfl rfl (by decide)
    obtain ⟨outcome, hok, hcomputes⟩ := hor.resolve_left (mt hiff.1 (by decide))
    exact ⟨outcome, hok, (Except.ok.inj (hcomputes 1 (by decide))).symm⟩
  · obtain ⟨outcome, hok, hcomputes⟩ :=
      hcircuit { Circuit.empty 63 with gates := [.toffoli [] 62] } hgates (by decide)
    exact ⟨outcome, hok, hcomputes 5 (by decide)⟩

end ReversibleLogic.Transform.Solving
