import Mathlib.Data.Finset.Card
import Mathlib.Data.Finset.Insert
import ReversibleLogic.Proofs.Circuit
import ReversibleLogic.Proofs.Transform.Folding
import ReversibleLogic.Transform.Run

/-!
# Runs of a strategy

* `Strategy.Takes` — the steps that a strategy takes from a state until it is done;
* `Progress.Holds` — what the collected gates compute, how many they are, and that they are in normal form;
* `Strategy.run_of_takes` — a run that takes few enough steps succeeds, and its circuit computes the input gates in
  order followed by the output gates in reverse order, with or without folding;
* `run_replay` — the same with and without folding, for any list of steps that a strategy hands out.
-/

namespace ReversibleLogic.Transform

open Gate

/-! ### the gates of some steps -/

def gatesOn (side : Side) (steps : List Step) : List Gate := (steps.filter (·.side = side)).map Step.gate

/-- the input gates in order, then the output gates in reverse order. -/
def cascade (steps : List Step) : List Gate := gatesOn .input steps ++ (gatesOn .output steps).reverse

theorem gatesOn_append (side : Side) (steps : List Step) (s : Step) :
    gatesOn side (steps ++ [s]) = if s.side = side then gatesOn side steps ++ [s.gate] else gatesOn side steps := by
  unfold gatesOn
  by_cases h : s.side = side <;> simp [h]

theorem length_gatesOn (steps : List Step) :
    (gatesOn .input steps).length + (gatesOn .output steps).length = steps.length := by
  induction steps with
  | nil => rfl
  | cons s steps ih =>
    cases hs : s.side <;> simp only [gatesOn, List.length_map] at ih <;> simp [gatesOn, hs] <;> omega

theorem mem_gatesOn {side : Side} {steps : List Step} {g : Gate} (h : g ∈ gatesOn side steps) :
    ∃ s ∈ steps, s.gate = g := by
  obtain ⟨s, hs, rfl⟩ := List.mem_map.1 h
  exact ⟨s, (List.mem_filter.1 hs).1, rfl⟩

theorem mem_cascade {steps : List Step} {g : Gate} (h : g ∈ cascade steps) : ∃ s ∈ steps, s.gate = g := by
  rcases List.mem_append.1 h with h | h
  · exact mem_gatesOn h
  · exact mem_gatesOn (List.mem_reverse.1 h)

theorem length_cascade (steps : List Step) : (cascade steps).length = steps.length := by
  rw [cascade, List.length_append, List.length_reverse, length_gatesOn]

def StepsProper (n : Nat) (steps : List Step) : Prop := ∀ s ∈ steps, s.gate.Proper n

theorem gatesOn_proper {n : Nat} {side : Side} {steps : List Step} (h : StepsProper n steps) :
    ∀ g ∈ gatesOn side steps, g.Proper n := by
  intro g hg
  obtain ⟨s, hs, rfl⟩ := mem_gatesOn hg
  exact h s hs

/-! ### progress -/

namespace Progress

theorem extend_proper {n : Nat} {gates : List Gate} {g : Gate} (lookback : Bool) (hgates : ∀ h ∈ gates, h.Proper n)
    (hg : g.Proper n) : ∀ h ∈ extend lookback gates g, h.Proper n := by
  cases lookback with
  | false => exact List.forall_mem_cons.2 ⟨hg, hgates⟩
  | true => exact mergeFredkin_proper (placeBehind_proper hg (List.forall_mem_nil _) hgates)

theorem length_extend (lookback : Bool) (gates : List Gate) (g : Gate) :
    (extend lookback gates g).length ≤ gates.length + 1 := by
  cases lookback with
  | false => exact Nat.le_refl _
  | true => exact (length_mergeFredkin_le _).trans (length_placeBehind g [] gates)

/-- a side with a new gate, folded in or not, computes the side followed by the gate. -/
theorem applyAll_extend {n : Nat} {gates : List Gate} {g : Gate} (lookback : Bool)
    (hgates : ∀ h ∈ gates, h.Proper n) (hg : g.Proper n) (w : Nat) :
    applyAll (extend lookback gates g).reverse w = g.apply (applyAll gates.reverse w) := by
  cases lookback with
  | false => simp [extend]
  | true =>
    have hplace := placeBehind_proper hg (List.forall_mem_nil _) hgates
    show applyAll (mergeFredkin (placeBehind g [] gates)).reverse w = _
    rw [applyAll_mergeFredkin hplace, applyAll_placeBehind hg (List.forall_mem_nil _) hgates]
    simp

/-- what the gates collected from `steps` are known for. -/
structure Holds (n : Nat) (steps : List Step) (p : Progress) : Prop where
  input_proper : ∀ g ∈ p.inputGates, g.Proper n
  output_proper : ∀ g ∈ p.outputGates, g.Proper n
  input_computes : ∀ w, applyAll p.inputGates.reverse w = applyAll (gatesOn .input steps) w
  output_computes : ∀ w, applyAll p.outputGates.reverse w = applyAll (gatesOn .output steps) w
  input_length : p.inputGates.length ≤ (gatesOn .input steps).length
  output_length : p.outputGates.length ≤ (gatesOn .output steps).length

theorem Holds.record {n : Nat} {steps : List Step} {p : Progress} (h : Holds n steps p) (lookback : Bool) {s : Step}
    (hs : s.gate.Proper n) : Holds n (steps ++ [s]) (p.record lookback s) := by
  unfold Progress.record
  cases hside : s.side with
  | input =>
    have ho : gatesOn .output (steps ++ [s]) = gatesOn .output steps := by simp [gatesOn_append, hside]
    have hi : gatesOn .input (steps ++ [s]) = gatesOn .input steps ++ [s.gate] := by simp [gatesOn_append, hside]
    refine ⟨extend_proper lookback h.input_proper hs, h.output_proper, fun w => ?_, fun w => ?_, ?_, ?_⟩
    · rw [applyAll_extend lookback h.input_proper hs, h.input_computes, hi, applyAll_append]
      rfl
    · rw [ho, h.output_computes]
    · rw [hi, List.length_append]
      exact (length_extend lookback _ _).trans (Nat.add_le_add_right h.input_length 1)
    · rw [ho]
      exact h.output_length
  | output =>
    have ho : gatesOn .output (steps ++ [s]) = gatesOn .output steps ++ [s.gate] := by simp [gatesOn_append, hside]
    have hi : gatesOn .input (steps ++ [s]) = gatesOn .input steps := by simp [gatesOn_append, hside]
    refine ⟨h.input_proper, extend_proper lookback h.output_proper hs, fun w => ?_, fun w => ?_, ?_, ?_⟩
    · rw [hi, h.input_computes]
    · rw [applyAll_extend lookback h.output_proper hs, h.output_computes, ho, applyAll_append]
      rfl
    · rw [hi]
      exact h.input_length
    · rw [ho, List.length_append]
      exact (length_extend lookback _ _).trans (Nat.add_le_add_right h.output_length 1)

def after (lookback : Bool) (steps : List Step) : Progress := steps.foldl (fun p s => p.record lookback s) start

theorem after_append (lookback : Bool) (steps : List Step) (s : Step) :
    after lookback (steps ++ [s]) = (after lookback steps).record lookback s := by
  simp [after]

theorem holds_after {n : Nat} {steps : List Step} (lookback : Bool) (h : StepsProper n steps) :
    Holds n steps (after lookback steps) := by
  induction steps using List.reverseRecOn with
  | nil =>
    exact ⟨by simp [after, start], by simp [after, start], fun _ => rfl, fun _ => rfl, Nat.le_refl _, Nat.le_refl _⟩
  | append_singleton steps s ih =>
    rw [after_append]
    exact (ih fun t ht => h t (List.mem_append_left _ ht)).record lookback (h s (by simp))

/-- without folding, the gates are those of the steps. -/
theorem gates_after_false (steps : List Step) : (after false steps).gates = cascade steps := by
  have hsides : (after false steps).inputGates = (gatesOn .input steps).reverse ∧
      (after false steps).outputGates = (gatesOn .output steps).reverse := by
    induction steps using List.reverseRecOn with
    | nil => exact ⟨rfl, rfl⟩
    | append_singleton steps s ih =>
      rw [after_append]
      unfold Progress.record
      cases hs : s.side <;> simp [gatesOn_append, hs, extend, ih]
  rw [gates, hsides.1, hsides.2, List.reverse_reverse, cascade]

variable {n : Nat} {steps : List Step}

theorem gates_proper (lookback : Bool) (h : StepsProper n steps) :
    ∀ g ∈ (after lookback steps).gates, g.Proper n := by
  intro g hg
  rw [gates, List.mem_append, List.mem_reverse] at hg
  exact hg.elim ((holds_after lookback h).input_proper g) ((holds_after lookback h).output_proper g)

/-- **The collected gates compute the cascade of the steps.** -/
theorem applyAll_gates (lookback : Bool) (h : StepsProper n steps) (w : Nat) :
    applyAll (after lookback steps).gates w = applyAll (cascade steps) w := by
  have hp := holds_after lookback h
  have hout : ∀ v, applyAll (after lookback steps).outputGates v = applyAll (gatesOn .output steps).reverse v := by
    intro v
    have := applyAll_reverse_congr (fun g hg => (hp.output_proper g (List.mem_reverse.1 hg)).1)
      (fun g hg => (gatesOn_proper h g hg).1) hp.output_computes v
    rwa [List.reverse_reverse] at this
  rw [gates, cascade, applyAll_append, applyAll_append, hp.input_computes, hout]

theorem length_gates_le (lookback : Bool) (h : StepsProper n steps) :
    (after lookback steps).gates.length ≤ steps.length := by
  have hp := holds_after lookback h
  rw [gates, List.length_append, List.length_reverse, ← length_gatesOn steps]
  exact Nat.add_le_add hp.input_length hp.output_length

theorem lastRow_after (lookback : Bool) (steps : List Step) :
    (after lookback steps).lastRow = (steps.map Step.row).getLast? := by
  induction steps using List.reverseRecOn with
  | nil => rfl
  | append_singleton steps s ih =>
    rw [after_append]
    unfold Progress.record
    cases s.side <;> simp

/-- **Rows are counted once each** if they never decrease. -/
theorem rows_after (lookback : Bool) (h : (steps.map Step.row).Pairwise (· ≤ ·)) :
    (after lookback steps).rows = (steps.map Step.row).toFinset.card := by
  induction steps using List.reverseRecOn with
  | nil => rfl
  | append_singleton steps s ih =>
    rw [List.map_append, List.pairwise_append] at h
    obtain ⟨hsteps, -, hle⟩ := h
    have ih := ih hsteps
    have hlast := lastRow_after lookback steps
    have hrows : ((after lookback steps).record lookback s).rows =
        if (after lookback steps).lastRow = some s.row then (after lookback steps).rows
        else (after lookback steps).rows + 1 := by
      unfold Progress.record
      cases s.side <;> rfl
    have hset : ((steps ++ [s]).map Step.row).toFinset = insert s.row (steps.map Step.row).toFinset := by
      ext r
      simp
    rw [after_append, hrows, hset, hlast, ih]
    split
    · next he =>
      have hmem : s.row ∈ (steps.map Step.row).toFinset := List.mem_toFinset.2 (List.mem_of_getLast? he)
      rw [Finset.insert_eq_self.2 hmem]
    · next hne =>
      rw [Finset.card_insert_of_notMem]
      intro hmem
      rw [List.mem_toFinset] at hmem
      -- the last row lies between an equal row and the new one
      obtain ⟨l, hl⟩ : ∃ l, (steps.map Step.row).getLast? = some l :=
        Option.ne_none_iff_exists'.1 (by
          rw [ne_eq, List.getLast?_eq_none_iff]
          exact List.ne_nil_of_mem hmem)
      obtain ⟨init, hinit⟩ := List.getLast?_eq_some_iff.1 hl
      have hls : l ≤ s.row := hle l (List.mem_of_getLast? hl) s.row (by simp)
      have hsl : s.row ≤ l := by
        rw [hinit] at hsteps hmem
        rcases List.mem_append.1 hmem with hm | hm
        · exact (List.pairwise_append.1 hsteps).2.2 _ hm l (by simp)
        · rw [List.mem_singleton.1 hm]
      exact hne (by rw [hl, Nat.le_antisymm hls hsl])

end Progress

/-! ### runs -/

namespace Strategy

variable {σ : Type} {s : Strategy σ}

/-- from `st` the strategy takes the given steps and is then done, in the last state. -/
inductive Takes (s : Strategy σ) : σ → List Step → σ → Prop
  | done {st st' : σ} (h : s.next st = .ok none st') : Takes s st [] st'
  | step {st st' st'' : σ} {step : Step} {steps : List Step} (h : s.next st = .ok (some step) st')
      (hs : Takes s st' steps st'') : Takes s st (step :: steps) st''

/-- from `st` the strategy takes the given steps, which lead to the last state. -/
inductive Passes (s : Strategy σ) : σ → List Step → σ → Prop
  | start {st : σ} : Passes s st [] st
  | step {st st' st'' : σ} {step : Step} {steps : List Step} (h : s.next st = .ok (some step) st')
      (hs : Passes s st' steps st'') : Passes s st (step :: steps) st''

theorem collect_done {st st' : σ} (h : s.next st = .ok none st') (budget : Nat) (p : Progress) :
    s.collect budget p st = .ok p st' := by
  cases budget <;> simp [collect, bind, EStateM.bind, h, pure, EStateM.pure]

theorem collect_step {st st' : σ} {step : Step} (h : s.next st = .ok (some step) st') (budget : Nat) (p : Progress) :
    s.collect (budget + 1) p st = s.collect budget (p.record s.lookback step) st' := by
  simp [collect, bind, EStateM.bind, h]

theorem collect_of_takes {st st' : σ} {steps : List Step} (h : s.Takes st steps st') {budget : Nat}
    (hlen : steps.length ≤ budget) (p : Progress) :
    s.collect budget p st = .ok (steps.foldl (fun p x => p.record s.lookback x) p) st' := by
  induction h generalizing budget p with
  | done h => exact collect_done h budget p
  | step h _ ih =>
    obtain ⟨b, rfl⟩ : ∃ b, budget = b + 1 := ⟨budget - 1, by simp at hlen; omega⟩
    rw [collect_step h, ih (by simpa using hlen)]
    rfl

def TemplateFits (s : Strategy σ) : Prop := ∀ t, s.template = some t → t.lines = s.lines

/-- the circuit with the given gates, and the data of the template's lines if there is one. -/
def circuitOf (s : Strategy σ) (gates : List Gate) : Circuit :=
  match s.template with
  | some t => { t with lines := s.lines, gates := gates }
  | none => { Circuit.empty s.lines with gates := gates }

@[simp] theorem gates_circuitOf (s : Strategy σ) (gates : List Gate) : (s.circuitOf gates).gates = gates := by
  unfold circuitOf
  cases s.template <;> rfl

@[simp] theorem lines_circuitOf (s : Strategy σ) (gates : List Gate) : (s.circuitOf gates).lines = s.lines := by
  unfold circuitOf
  cases s.template <;> rfl

theorem forM_checkGate {c : Circuit} {gs : List Gate} (h : ∀ g ∈ gs, g.Within c.lines) :
    gs.forM c.checkGate = .ok () := by
  induction gs with
  | nil => rfl
  | cons g gs ih =>
    show (do c.checkGate g; gs.forM c.checkGate) = _
    rw [Circuit.checkGate_eq_ok.2 (h g List.mem_cons_self)]
    exact ih fun g' hg' => h g' (List.mem_cons_of_mem _ hg')

theorem assemble_eq (hlines : s.lines ≤ Circuit.maxLines) (ht : s.TemplateFits) {p : Progress}
    (hp : ∀ g ∈ p.gates, g.Within s.lines) :
    s.assemble p = .ok ⟨s.circuitOf p.gates, if s.countsRows then some p.rows else none, s.usesSolver⟩ := by
  have hof : Circuit.ofLines s.lines = .ok (Circuit.empty s.lines) := by
    rw [Circuit.ofLines, if_neg (by omega)]
  have happ : (Circuit.empty s.lines).appendAll p.gates = .ok { Circuit.empty s.lines with gates := p.gates } := by
    rw [Circuit.appendAll, forM_checkGate hp]
    rfl
  unfold assemble circuitOf
  rw [hof]
  show (do let circuit ← (Circuit.empty s.lines).appendAll p.gates; _) = _
  rw [happ]
  cases htemp : s.template with
  | none => rfl
  | some t =>
    have hcopy : ({ Circuit.empty s.lines with gates := p.gates } : Circuit).copyMetadata t =
        .ok { t with lines := s.lines, gates := p.gates } :=
      Circuit.checkLength_seq_eq_ok.2 ⟨ht t htemp, rfl⟩
    show (do let circuit ← ({ Circuit.empty s.lines with gates := p.gates } : Circuit).copyMetadata t; _) = _
    rw [hcopy]
    rfl

/-- **A run that takes few enough steps succeeds.** -/
theorem run_of_takes {st st' : σ} {steps : List Step} (h : s.Takes st steps st')
    (hlen : steps.length ≤ stepLimit s.lines) (hlines : s.lines ≤ Circuit.maxLines) (ht : s.TemplateFits)
    (hsteps : StepsProper s.lines steps) :
    s.run st = .ok ⟨s.circuitOf (Progress.after s.lookback steps).gates,
      if s.countsRows then some (Progress.after s.lookback steps).rows else none, s.usesSolver⟩ st' := by
  have hcollect : s.collect (stepLimit s.lines) .start st = .ok (Progress.after s.lookback steps) st' :=
    collect_of_takes h hlen _
  have hassemble := assemble_eq hlines ht fun g hg => (Progress.gates_proper s.lookback hsteps g hg).2
  simp [run, bind, EStateM.bind, hcollect, hassemble, pure, EStateM.pure]

end Strategy

theorem stepLimit_eq {n : Nat} (hn : n < 64) : stepLimit n = n * 2 ^ n := by
  have hpow : 2 ^ n ≤ 2 ^ 64 := Nat.pow_le_pow_right (by decide) (by omega)
  have hle : 2 ^ n * n ≤ 2 ^ 64 * 64 := Nat.mul_le_mul hpow (by omega)
  have hmost : 2 ^ n * n ≤ 2 ^ 128 - 1 := hle.trans (by decide)
  unfold stepLimit
  simp only
  rw [if_pos (by omega), if_pos hmost, Nat.mul_comm]

theorem le_maxLines {n : Nat} (hn : n < 64) : n ≤ Circuit.maxLines := by
  have : (64 : Nat) ≤ Circuit.maxLines := by decide
  omega

/-! ### replaying steps -/

section replay

variable {σ : Type} {s : Strategy σ} {st st' : σ} {steps : List Step}

/-- whether gates are folded has no influence on the steps. -/
theorem Strategy.Takes.withLookback (h : s.Takes st steps st') (lookback : Bool) :
    ({ s with lookback := lookback } : Strategy σ).Takes st steps st' := by
  induction h with
  | done h => exact .done h
  | step h _ ih => exact .step h ih

/-- **Runs with and without folding.** A strategy that hands out at most `n * 2 ^ n` steps with checked gates is run to
its end, and both circuits compute the input gates in order, then the output gates in reverse order. -/
theorem run_replay (hn : s.lines < 64) (ht : s.TemplateFits) (h : s.Takes st steps st')
    (hlen : steps.length ≤ s.lines * 2 ^ s.lines) (hsteps : ∀ x ∈ steps, x.gate.Built ∧ x.gate.Within s.lines) :
    ∃ plain folded, ({ s with lookback := false } : Strategy σ).run st = .ok plain st' ∧
      ({ s with lookback := true } : Strategy σ).run st = .ok folded st' ∧
      (∀ w, plain.circuit.simulate w = applyAll (gatesOn .input steps ++ (gatesOn .output steps).reverse) w) ∧
      (∀ w, folded.circuit.simulate w = plain.circuit.simulate w) ∧ folded.circuit.size ≤ steps.length ∧
      ∀ g ∈ folded.circuit.gates, g.Normal ∧ g.Within s.lines := by
  have hproper : StepsProper s.lines steps := fun x hx => ⟨built_iff_normal.1 (hsteps x hx).1, (hsteps x hx).2⟩
  rw [← stepLimit_eq hn] at hlen
  have hrun := fun b => Strategy.run_of_takes (h.withLookback b) hlen (le_maxLines hn) ht hproper
  refine ⟨_, _, hrun false, hrun true, fun w => ?_, fun w => ?_, ?_, fun g hg => ?_⟩
  · rw [simulate_eq_applyAll, Strategy.gates_circuitOf, Progress.applyAll_gates false hproper, cascade]
  · simp only [simulate_eq_applyAll, Strategy.gates_circuitOf, Progress.applyAll_gates _ hproper]
  · rw [Circuit.size, Strategy.gates_circuitOf]
    exact Progress.length_gates_le true hproper
  · rw [Strategy.gates_circuitOf] at hg
    exact Progress.gates_proper true hproper g hg

/-- the strategy that hands out the steps of a list. -/
def replay (lines : Nat) (lookback : Bool) : Strategy (List Step) where
  lines := lines
  next := fun
    | [] => .ok none []
    | step :: rest => .ok (some step) rest
  lookback := lookback
  template := none
  countsRows := false
  usesSolver := false

theorem replay_takes (lines : Nat) (lookback : Bool) (steps : List Step) :
    (replay lines lookback).Takes steps steps [] := by
  induction steps with
  | nil => exact .done rfl
  | cons s steps ih => exact .step rfl ih

end replay

/-- three controlled inverters that exchange lines 0 and 1, and two inverters on the other side. -/
def exchangeSteps : List Step :=
  [⟨.output, 0, .toffoli [⟨0, true⟩] 1⟩, ⟨.input, 3, .inverter 0⟩, ⟨.output, 1, .toffoli [⟨1, true⟩] 0⟩,
    ⟨.input, 0, .inverter 0⟩, ⟨.output, 1, .toffoli [⟨0, true⟩] 1⟩]

theorem run_replay_exchangeSteps :
    ∃ plain folded, (replay 2 false).run exchangeSteps = .ok plain [] ∧
      (replay 2 true).run exchangeSteps = .ok folded [] ∧
      (∀ w, folded.circuit.simulate w = plain.circuit.simulate w) ∧ folded.circuit.size ≤ 5 := by
  have hbuilt : ∀ x ∈ exchangeSteps, x.gate.Built ∧ x.gate.Within 2 := by
    have hwithin : ∀ x ∈ exchangeSteps, x.gate.maxLine < 2 := by decide
    refine fun x hx => ⟨?_, maxLine_lt_iff.1 (hwithin x hx)⟩
    simp only [exchangeSteps, List.mem_cons, List.not_mem_nil, or_false] at hx
    rcases hx with rfl | rfl | rfl | rfl | rfl
    · exact .toffoli (toffoli?_of_normal (normal_toffoli (by decide) (by decide)))
    · exact .inverter 0
    · exact .toffoli (toffoli?_of_normal (normal_toffoli (by decide) (by decide)))
    · exact .inverter 0
    · exact .toffoli (toffoli?_of_normal (normal_toffoli (by decide) (by decide)))
  obtain ⟨plain, folded, hplain, hfolded, -, heq, hsize, -⟩ := run_replay (s := replay 2 false) (by decide)
    (fun t ht => nomatch ht) (replay_takes 2 false exchangeSteps) (by decide) hbuilt
  exact ⟨plain, folded, hplain, hfolded, heq, hsize⟩

/-- with folding, one Fredkin gate is left of them. -/
example : (Progress.after true exchangeSteps).gates = [.fredkin [] 0 1] := by decide

end ReversibleLogic.Transform
