import ReversibleLogic.Proofs.Bdd.Reached
import ReversibleLogic.Proofs.Cnf.Diagrams
import ReversibleLogic.Proofs.Cnf.Graphs

/-!
# Encoders are definitional extensions

* `defines_simulate` — the literals of the outputs of a graph hold the word that it simulates;
* `encoders_define` — diagrams, graphs, cascades and mismatches: each assignment extends in exactly one way, and the
  literals that are returned have the values of what is encoded.
-/

namespace ReversibleLogic.Cnf

open Bdd (Manager Ref Binding)
open ReversibleLogic.Sat

variable {σ : Type} [Solver σ] [LawfulStore σ] {b : Builder σ}

/-- the literals of the outputs hold the word that the graph simulates. -/
theorem defines_simulate (h : b.theory.Good) {g : Aig} (hg : g.Closed) {ins : List Literal}
    (hlen : ins.length = g.numInputs) (hins : ∀ l ∈ ins, b.theory.Knows l) :
    Defines b (encodeGraph g ins : CnfM σ (List Literal)) fun outs T =>
      outs.length = g.outputs.size ∧ (∀ l ∈ outs, T.Knows l) ∧
        ∀ s, T.IsModel s → g.simulate (wordOf s ins) = .ok (wordOf s outs) := by
  have hgraph := defines_encodeGraph h hg (Theory.meansWord_wordOf hlen hins) fun w _ => hg.simulate_eq w
  refine hgraph.imp fun outs T _ _ houts => ⟨houts.length, houts.knows, fun s hs => ?_⟩
  rw [houts.eval s hs, hg.simulate_eq]

/-- **Encoders are definitional extensions.** The clauses so far are about variables in use, and say that `top` is true.
From there, an encoder with known literals for its arguments succeeds, and leaves every assignment of the old variables
that satisfies the old clauses with exactly one extension to the new ones. In all models of all clauses,

* the literal of a diagram has the value of the diagram, under the values that the literals give to its variables;
* the literals of the outputs of a graph hold the word that it simulates on the word of its inputs;
* the line literals behind a cascade hold the word of the lines before it with the gates applied in order;
* the literal of a mismatch is true exactly where the two words differ. -/
theorem encoders_define (hclauses : ∀ c ∈ LawfulStore.formula b.solver, ∀ l ∈ c, b.theory.Knows l)
    (htop : [b.top] ∈ LawfulStore.formula b.solver) :
    (∀ (m : Manager) (f : Ref) (vars : Binding Literal), m.Ordered → m.Holds f → Maps m vars f b.theory →
      Defines b (encodeDiagram m f vars) fun l T => T.Means l fun s => m.eval (valuesOf vars s) f) ∧
    (∀ (g : Aig) (ins : List Literal), g.Closed → ins.length = g.numInputs → (∀ l ∈ ins, b.theory.Knows l) →
      Defines b (encodeGraph g ins) fun outs T => outs.length = g.outputs.size ∧ (∀ l ∈ outs, T.Knows l) ∧
        ∀ s, T.IsModel s → g.simulate (wordOf s ins) = .ok (wordOf s outs)) ∧
    (∀ (gs : List Gate) (layer : List Literal), (∀ g ∈ gs, g.Within layer.length) → (∀ l ∈ layer, b.theory.Knows l) →
      Defines b (encodeGates gs layer) fun layer' T =>
        T.MeansWord layer.length layer' fun s => Gate.applyAll gs (wordOf s layer)) ∧
    ∀ xs ys : List Literal, xs.length = ys.length → (∀ l ∈ xs, b.theory.Knows l) → (∀ l ∈ ys, b.theory.Knows l) →
      Defines b (encodeMismatch xs ys) fun l T => T.Means l fun s => decide (wordOf s xs ≠ wordOf s ys) := by
  have h := good_of_clauses hclauses htop
  refine ⟨fun m f vars hm hf hvars => defines_encodeDiagram hm h hf hvars,
    fun g ins hg hlen hins => defines_simulate h hg hlen hins, fun gs layer hgs hlayer => ?_,
    fun xs ys hlen hxs hys => ?_⟩
  · exact defines_encodeGates h hgs (Theory.meansWord_wordOf rfl hlayer)
  · exact defines_encodeMismatch h (Theory.meansWord_wordOf rfl hxs) (Theory.meansWord_wordOf hlen.symm hys)

theorem encoders_define_difference :
    ∃ (b : Builder TrialSolver) (m : Manager) (f : Ref),
      b.top = 1 ∧ LawfulStore.formula b.solver = [[1]] ∧ LawfulStore.inUse b.solver = Set.Icc 1 3 ∧
      m.Denotes f (fun a => a 1 != a 2) ∧
      (Defines b (encodeDiagram m f (.ofEntries [(1, 2), (2, -3)])) fun l T =>
        T.Means l fun s => Literal.holds s 2 != Literal.holds s (-3)) ∧
      (Defines b (encodeGraph ⟨2, #[(.ofInput 0, (Signal.ofInput 1).not)], #[.ofNode 0], ∅⟩ [2, -2]) fun outs T =>
        outs.length = 1 ∧ (∀ l ∈ outs, T.Knows l) ∧ ∀ s, T.IsModel s →
          Aig.simulate ⟨2, #[(.ofInput 0, (Signal.ofInput 1).not)], #[.ofNode 0], ∅⟩ (wordOf s [2, -2]) =
            .ok (wordOf s outs)) ∧
      (Defines b (encodeGates [.toffoli [⟨0, true⟩] 1, .fredkin [⟨2, false⟩] 0 1] [2, -2, 3]) fun layer' T =>
        T.MeansWord 3 layer' fun s =>
          Gate.applyAll [.toffoli [⟨0, true⟩] 1, .fredkin [⟨2, false⟩] 0 1] (wordOf s [2, -2, 3])) ∧
      Defines b (encodeMismatch [2, 3] [3, 2]) fun l T =>
        T.Means l fun s => decide (wordOf s [2, 3] ≠ wordOf s [3, 2]) := by
  obtain ⟨m, f, hm, hf⟩ := Bdd.exists_reached_difference
  let b : Builder TrialSolver := ⟨⟨3, [[1]], by decide, none⟩, 1⟩
  have hknown : ∀ ls : List Literal, (∀ l ∈ ls, Literal.On (Set.Icc 1 3) l) → ∀ l ∈ ls, b.theory.Knows l :=
    fun _ hls => hls
  have hclauses : ∀ c ∈ LawfulStore.formula b.solver, ∀ l ∈ c, b.theory.Knows l := b.solver.inRange
  obtain ⟨hdiagram, hgraph, hgates, hmismatch⟩ := encoders_define hclauses List.mem_cons_self
  have hvars : Maps m (.ofEntries [(1, 2), (2, -3)]) f b.theory := by
    intro v hv
    have hv' : v = 1 ∨ v = 2 := by
      by_contra hne
      obtain ⟨h₁, h₂⟩ := not_or.1 hne
      refine hv (hf.ignores_iff.1 fun a c => ?_)
      simp only [Function.update_of_ne (Ne.symm h₁), Function.update_of_ne (Ne.symm h₂)]
    rcases hv' with rfl | rfl
    · exact ⟨2, rfl, hknown [2] (by decide) _ List.mem_cons_self⟩
    · exact ⟨-3, rfl, hknown [-3] (by decide) _ List.mem_cons_self⟩
  refine ⟨b, m, f, rfl, rfl, rfl, hf, ?_, ?_, ?_, ?_⟩
  · refine (hdiagram m f _ (Bdd.wellFormed_of_reached hm).toOrdered hf.holds hvars).imp fun l T _ _ hl => hl.congr ?_
    intro s _
    rw [hf.eval, valuesOf_of_some (l := 2) rfl, valuesOf_of_some (l := -3) rfl]
  · refine hgraph _ _ ⟨?_, ?_⟩ rfl (hknown _ (by decide))
    · have hnil : Aig.Causal 2 [] := fun k fanins hk => by simp at hk
      exact hnil.concat (Signal.within_ofInput (by decide) (by decide))
        (Signal.within_ofInput (by decide) (by decide)).not
    · intro s hs
      rw [List.mem_singleton.1 hs]
      exact Signal.within_ofNode (by decide) Nat.one_pos
  · exact hgates _ _ (by simp [Gate.Within, Gate.controls, Gate.targets]) (hknown _ (by decide))
  · exact hmismatch _ _ rfl (hknown _ (by decide)) (hknown _ (by decide))

end ReversibleLogic.Cnf
