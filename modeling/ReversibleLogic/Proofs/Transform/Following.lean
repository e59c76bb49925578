import ReversibleLogic.Proofs.Transform.Tables

/-!
# Strategies that follow a table

With output gates only, a run on a table is determined by the smallest row that is not fixed and by its image.

* `FirstUnfixed n t x` — `x` is the smallest row that the table moves;
* `Follows S n fredkin Tracks` — states of the strategy `S` stand for tables, and at every such state `S` finds that row
  and applies its gate;
* `Follows.takes` — such a strategy takes the steps of the run on the table;
* `Follows.run_computes` — so its run computes the table;
* `Follows.run_eq` — it has the gates of the run on the table, and counts the rows that needed gates.
-/

namespace ReversibleLogic.Transform

open Gate

/-! ### runs with output gates only -/

namespace Explicit

/-- options of a run on one side. -/
def outputOnly (fredkin : Bool) : Settings := ⟨false, fredkin, false, none⟩

/-- `x` is the smallest row that the table moves. -/
structure FirstUnfixed (n : Nat) (t : Array Nat) (x : Nat) : Prop where
  lt : x < 2 ^ n
  ne : t.getD x 0 ≠ x
  below : ∀ z < x, t.getD z 0 = z

variable {n : Nat} {fredkin : Bool} {s s' : State}

theorem Advances.side_ne {t : State} (h : Advances n s t) (hside : s.side ≠ some .input) : t.side ≠ some .input := by
  rcases h.fresh with rfl | ⟨-, hnone⟩
  · exact hside
  · rw [hnone]
    exact fun h => nomatch h

theorem stepAt_outputOnly (fredkin : Bool) (h : s.side ≠ some .input) :
    stepAt (outputOnly fredkin) s = ⟨.output, s.row, chooseGate s.row (s.table.getD s.row 0) fredkin⟩ := by
  unfold stepAt
  rcases hside : s.side with - | (- | -)
  · rfl
  · exact absurd hside h
  · rfl

theorem afterStep_outputOnly (fredkin : Bool) (h : s.side ≠ some .input) :
    (afterStep (outputOnly fredkin) s).side = some .output ∧
      (afterStep (outputOnly fredkin) s).table =
        s.table.map (chooseGate s.row (s.table.getD s.row 0) fredkin).apply := by
  unfold afterStep
  rw [stepAt_outputOnly fredkin h]
  exact ⟨rfl, rfl⟩

theorem getD_map {t : Array Nat} (ht : Bijection n t) (g : Gate) {x : Nat} (hx : x < 2 ^ n) :
    (t.map g.apply).getD x 0 = g.apply (t.getD x 0) :=
  State.table_applyGate_output ⟨t, #[], 0, none⟩ g (ht.size.symm ▸ hx)

theorem FirstUnfixed.gate_proper {t : Array Nat} {x : Nat} (hx : FirstUnfixed n t x) (ht : Bijection n t)
    (fredkin : Bool) : (chooseGate x (t.getD x 0) fredkin).Proper n :=
  ⟨chooseGate_normal hx.ne.symm _, chooseGate_within hx.ne.symm hx.lt (ht.lt _ hx.lt) _⟩

end Explicit

/-- `plain` is the outcome for `p` with output gates only, and `rows` is the number of different rows that its steps are
taken for. -/
structure TableRun (p : Permutation) (fredkin : Bool) (plain : Outcome) (rows : Nat) : Prop where
  synthesized : Explicit.synthesize p (Explicit.outputOnly fredkin) = .ok plain
  counted : ∃ steps s', (Explicit.strategy p.lines (Explicit.outputOnly fredkin)).Takes (.ofPermutation p) steps s' ∧
    rows = (steps.map Step.row).toFinset.card

/-! ### strategies that stand for tables -/

open Explicit (outputOnly FirstUnfixed)

variable {σ : Type} {S : Strategy σ} {n : Nat} {fredkin : Bool} {Tracks : σ → Array Nat → Prop}

/-- at a state that stands for a table, the strategy finds the smallest row to be moved and applies its gate. -/
structure Follows (S : Strategy σ) (n : Nat) (fredkin : Bool) (Tracks : σ → Array Nat → Prop) : Prop where
  done : ∀ {st t}, Tracks st t → Bijection n t → (∀ x < 2 ^ n, t.getD x 0 = x) → ∃ st', S.next st = .ok none st'
  step : ∀ {st t x}, Tracks st t → Bijection n t → FirstUnfixed n t x →
    ∃ st', S.next st = .ok (some ⟨.output, x, chooseGate x (t.getD x 0) fredkin⟩) st' ∧
      Tracks st' (t.map (chooseGate x (t.getD x 0) fredkin).apply)

/-- **Simulation.** The strategy takes the steps of the run on the table. -/
theorem Follows.takes (hS : Follows S n fredkin Tracks) {s s' : Explicit.State} {steps : List Step}
    (htakes : (Explicit.strategy n (outputOnly fredkin)).Takes s steps s') (h : s.Sound n)
    (hside : s.side ≠ some .input) {st : σ} (hst : Tracks st s.table) : ∃ st', S.Takes st steps st' := by
  induction steps generalizing s st with
  | nil =>
    obtain ⟨st', hst'⟩ := hS.done hst h.table (Explicit.fixed_of_takes_nil h htakes)
    exact ⟨st', .done hst'⟩
  | cons step steps ih =>
    obtain ⟨t, hadv, hu, rfl, hrest⟩ := Explicit.takes_cons h htakes
    have hside' := hadv.side_ne hside
    obtain ⟨hside₁, htable₁⟩ := Explicit.afterStep_outputOnly fredkin hside'
    rw [← hadv.table] at hst
    obtain ⟨st₁, hst₁, htracks⟩ := hS.step hst hadv.sound.table ⟨hu.1, hu.2, hadv.sound.fixed⟩
    rw [← htable₁] at htracks
    obtain ⟨st', htakes'⟩ :=
      ih hrest (Explicit.sound_afterStep hadv.sound hu) (by rw [hside₁]; exact fun h => nomatch h) htracks
    rw [Explicit.stepAt_outputOnly fredkin hside']
    exact ⟨st', .step hst₁ htakes'⟩

/-- the run of a strategy that follows a table collects the steps of the run on the table, which may have any number of
lines that a word has bits for. -/
theorem Follows.exists_run (hS : Follows S n fredkin Tracks) (hlines : S.lines = n) (hlookback : S.lookback = false)
    (hrows : S.countsRows = true) (ht : S.TemplateFits) {p : Permutation} (hp : Bijection p.lines p.table)
    (hlines64 : p.lines < 64) (hn : p.lines = n) {st : σ} (hst : Tracks st p.table) :
    ∃ steps s' st', (Explicit.strategy p.lines (outputOnly fredkin)).Takes (.ofPermutation p) steps s' ∧
      steps.length ≤ stepLimit p.lines ∧ Explicit.Realizes p.lines p.table 0 steps ∧
      S.run st = .ok ⟨S.circuitOf (cascade steps), some (steps.map Step.row).toFinset.card, S.usesSolver⟩ st' := by
  subst hn
  obtain ⟨steps, s', htakes, hlen, hr⟩ := Explicit.exists_takes_ofBijection hp hlines64 (outputOnly fredkin)
  obtain ⟨st', htakes'⟩ := hS.takes htakes (Explicit.State.sound_ofPermutation hp) (fun h => nomatch h) hst
  refine ⟨steps, s', st', htakes, hlen, hr, ?_⟩
  have hrun := Strategy.run_of_takes htakes' (hlines ▸ hlen) (hlines ▸ le_maxLines hlines64) ht (hlines ▸ hr.proper)
  rw [hrun, hlookback, hrows, Progress.gates_after_false, Progress.rows_after false hr.ascending]
  rfl

/-- **The run of a strategy that follows a table** computes the table. -/
theorem Follows.run_computes (hS : Follows S n fredkin Tracks) (hlines : S.lines = n) (hlookback : S.lookback = false)
    (hrows : S.countsRows = true) (ht : S.TemplateFits) {t : Array Nat} (hbij : Bijection n t) (hn : n < 64) {st : σ}
    (hst : Tracks st t) :
    ∃ gates rows st', S.run st = .ok ⟨S.circuitOf gates, some rows, S.usesSolver⟩ st' ∧
      (∀ g ∈ gates, g.Proper n) ∧ ∀ x < 2 ^ n, applyAll gates x = t.getD x 0 := by
  obtain ⟨steps, -, st', -, -, hr, hrun⟩ := hS.exists_run hlines hlookback hrows ht (p := ⟨n, t⟩) hbij hn rfl hst
  refine ⟨_, _, st', hrun, fun g hg => ?_, hr.computes⟩
  rw [← Progress.gates_after_false] at hg
  exact Progress.gates_proper false hr.proper g hg

/-- it has the gates of the run on the table, and counts the rows that needed gates. -/
theorem Follows.run_eq (hS : Follows S n fredkin Tracks) (hlines : S.lines = n) (hlookback : S.lookback = false)
    (hrows : S.countsRows = true) (ht : S.TemplateFits) {p : Permutation} (hp : p.Valid) (hn : p.lines = n) {st : σ}
    (hst : Tracks st p.table) :
    ∃ gates rows st', S.run st = .ok ⟨S.circuitOf gates, some rows, S.usesSolver⟩ st' ∧
      TableRun p fredkin ⟨{ Circuit.empty n with gates := gates }, none, false⟩ rows := by
  obtain ⟨steps, s', st', htakes, hlen, hr, hrun⟩ :=
    hS.exists_run hlines hlookback hrows ht hp.bijection (hp.lines_le.trans_lt (by decide)) hn hst
  subst hn
  refine ⟨cascade steps, _, st', hrun, ?_, steps, s', htakes, rfl⟩
  have hvalid : (outputOnly fredkin).validate = .ok () := rfl
  have hplain := Explicit.synthesize_of_takes hp hvalid (fun t h => nomatch h) htakes hlen hr.proper
  have hgates : (Progress.after (outputOnly fredkin).lookback steps).gates = cascade steps :=
    Progress.gates_after_false steps
  rw [hplain, hgates]
  rfl

end ReversibleLogic.Transform
