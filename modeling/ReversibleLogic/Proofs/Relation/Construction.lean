import ReversibleLogic.Proofs.Bdd.Functions
import ReversibleLogic.Proofs.Bdd.Reached
import ReversibleLogic.Proofs.Circuit
import ReversibleLogic.Proofs.Relation.Functions

/-!
# Relations of tables and of circuits

* `yields_ofPermutation` — the rows of a table, put together one by one, are its graph;
* `yields_ofCircuit` — the gates of a circuit, applied one by one to the equal pairs, lead to the graph of its table
  (`Circuit.table`);
* `Represents.root_eq` — a relation has one reference, so the two constructions meet in the same one;
* `refines_circuits` — relations refine circuits and tables.
-/

namespace ReversibleLogic

open Bdd Gate

namespace Relation

variable {m m' : Manager} {r s : Relation} {c : Circuit} {p : Permutation} {n x y : Nat} {R : Nat → Nat → Bool}

/-! ### one reference for a relation -/

/-- **A relation has one reference**: the same pairs on the same lines have the same root. -/
theorem Represents.root_eq (hr : Represents m r R) (hs : Represents m s R) (hm : m.Ordered)
    (hlines : s.lines = r.lines) : s = r := by
  obtain ⟨n, f⟩ := r
  obtain ⟨n', f'⟩ := s
  obtain rfl : n' = n := hlines
  have hroot : f' = f := Manager.eval_injective hm hs.holds hr.holds fun a => by
    have hpair := hr.onLines.eq_pair a
    have hpair' := hs.onLines.eq_pair a
    simp only at hpair hpair'
    rw [hpair, hpair', hr.value _ (inputWord_lt _ a) _ (outputWord_lt _ a),
      hs.value _ (inputWord_lt _ a) _ (outputWord_lt _ a)]
  rw [hroot]

/-! ### rows -/

/-- variables of lines, the most significant line first, hold the bits of a word exactly if they spell it. -/
theorem map_eq_bitsOf {f : Nat → Nat} (hx : x < 2 ^ r.lines) (a : Assignment) :
    ((List.range r.lines).reverse.map f).map a = r.bitsOf x ↔ wordAt ((List.range r.lines).map f) a = x := by
  have hlen : ((List.range r.lines).map f).length = r.lines := by simp
  have hword : ((List.range r.lines).map f).map a = Word.toBits x ((List.range r.lines).map f).length ↔
      wordAt ((List.range r.lines).map f) a = x := map_eq_toBits (by rwa [hlen])
  rw [hlen] at hword
  rw [← hword, bitsOf, List.map_reverse, List.map_reverse, List.reverse_inj]

theorem wordAt_inputVars (r : Relation) (a : Assignment) :
    wordAt ((List.range r.lines).map r.inputVar) a = inputWord r.lines a := by
  rw [wordAt, List.map_map]
  rfl

theorem wordAt_outputVars (r : Relation) (a : Assignment) :
    wordAt ((List.range r.lines).map r.outputVar) a = outputWord r.lines a := by
  rw [wordAt, List.map_map]
  rfl

theorem yields_row (h : m.WellFormed) (hn : r.lines ≤ maxRelationLines) (hx : x < 2 ^ r.lines)
    (hy : y < 2 ^ r.lines) :
    Yields m (r.row x y) fun f m' => m'.Denotes f fun a =>
      decide (inputWord r.lines a = x) && decide (outputWord r.lines a = y) := by
  have hbound : 2 * maxRelationLines < 2 ^ 31 := by decide
  have hinputs : ∀ v ∈ r.inputVars, 0 < v ∧ v < 2 ^ 31 := fun v hv => by
    obtain ⟨l, hl, rfl⟩ := mem_inputVars.1 hv
    have := r.inputVar_bounds hl
    omega
  have houtputs : ∀ v ∈ r.outputVars, 0 < v ∧ v < 2 ^ 31 := fun v hv => by
    obtain ⟨l, hl, rfl⟩ := mem_outputVars.1 hv
    have := r.outputVar_bounds hl
    omega
  unfold row
  refine (yields_cubeOfBits h (by rw [length_inputVars, length_bitsOf]) hinputs
    (r.inputVars_pairwise.imp Nat.ne_of_lt)).bind fun f m₁ h₁ _ hf => ?_
  refine (yields_cubeOfBits h₁ (by rw [length_outputVars, length_bitsOf]) houtputs
    (r.outputVars_pairwise.imp Nat.ne_of_lt)).bind fun g m₂ h₂ hle₂ hg => ?_
  refine (yields_conj h₂ (hf.mono h₁.toOrdered hle₂) hg).imp fun e m₃ _ _ he => he.congr fun a => ?_
  simp only [inputVars, outputVars, map_eq_bitsOf hx, map_eq_bitsOf hy, wordAt_inputVars, wordAt_outputVars]

/-- **The rows of a table** are its graph. -/
theorem yields_ofPermutation (h : m.WellFormed) (hn : p.lines ≤ maxRelationLines) (hp : Bijection p.lines p.table) :
    Yields m (ofPermutation p) fun r m' => r.lines = p.lines ∧ Represents m' r (graph p.table) := by
  have hroot : ofRoot p.lines .zero = .ok ⟨p.lines, .zero⟩ := if_neg (Nat.not_lt.2 hn)
  have hrows : p.rows.length = 2 ^ p.lines := by simp [Permutation.rows, hp.size]
  unfold ofPermutation
  refine yields_bind_of_eq (ask_eq hroot) ?_
  -- the first `i` rows are the part of the graph below `i`
  refine (yields_foldlM h (I := fun i root m' => m'.Denotes root fun a =>
    decide (inputWord p.lines a < i) && graph p.table (inputWord p.lines a) (outputWord p.lines a))
    (h.toOrdered.denotes_zero.congr fun a => by simp) fun i row hrow root m₁ h₁ _ hd => ?_).bind
    fun root m₁ h₁ _ hd => yields_pure h₁ ⟨rfl, ?_⟩
  · obtain ⟨hi, rfl⟩ : i < 2 ^ p.lines ∧ row = (i, p.table.getD i 0) := by
      have hlt : i < 2 ^ p.lines := hrows ▸ (List.getElem?_eq_some_iff.1 hrow).1
      refine ⟨hlt, ?_⟩
      rw [Permutation.rows, List.getElem?_map, List.getElem?_zipIdx, Array.getElem?_toList, hp.getElem? hlt] at hrow
      simpa using hrow.symm
    refine (yields_row h₁ hn hi (hp.lt i hi)).bind fun f m₂ h₂ hle₂ hf => ?_
    refine (yields_disj h₂ (hd.mono h₁.toOrdered hle₂) hf).imp fun e m₃ _ _ he => he.congr fun a => ?_
    rw [Bool.eq_iff_iff]
    simp only [graph, Bool.or_eq_true, Bool.and_eq_true, decide_eq_true_eq, beq_iff_eq, Nat.lt_succ_iff_lt_or_eq]
    constructor
    · rintro (⟨hlt, he⟩ | ⟨he, he'⟩)
      · exact ⟨Or.inl hlt, he⟩
      · exact ⟨Or.inr he, he ▸ he'.symm⟩
    · rintro ⟨hlt | he, he'⟩
      · exact Or.inl ⟨hlt, he'⟩
      · exact Or.inr ⟨he, he ▸ he'.symm⟩
  · have hover : Over p.lines fun a => graph p.table (inputWord p.lines a) (outputWord p.lines a) :=
      fun a b hab => by simp only [Agree.inputWord_eq hab, Agree.outputWord_eq hab]
    refine represents_of_denotes (hd.congr fun a => ?_) hover fun x hx y hy => ?_
    · rw [hrows, decide_eq_true (inputWord_lt _ a), Bool.true_and]
    · simp only [inputWord_pair hx, outputWord_pair hy]

/-! ### cascades -/

theorem yields_identity (h : m.WellFormed) (hn : n ≤ maxRelationLines) :
    Yields m (identity n) fun r m' => r.lines = n ∧ Represents m' r fun x y => x == y := by
  have hroot : ofRoot n .one = .ok ⟨n, .one⟩ := if_neg (Nat.not_lt.2 hn)
  unfold identity
  refine yields_bind_of_eq (ask_eq hroot) ?_
  refine (yields_diagonal (r := ⟨n, .one⟩) h (lineVars_lt hn)).bind fun d m₁ h₁ _ hd => yields_pure h₁ ⟨rfl, ?_⟩
  exact represents_of_denotes hd (over_equalOn _) fun x hx y hy => equalOn_pair (r := ⟨n, .one⟩) hx hy

/-- **The gates of a circuit**, applied one by one, lead to the graph of its table. -/
theorem yields_ofCircuit (h : m.WellFormed) (hn : c.lines ≤ maxRelationLines)
    (hc : ∀ g ∈ c.gates, g.Proper c.lines) :
    Yields m (ofCircuit c) fun r m' => r.lines = c.lines ∧ Represents m' r (graph c.table) := by
  unfold ofCircuit
  refine (yields_identity h hn).bind fun r m₁ h₁ _ ⟨hlines, hr⟩ => ?_
  -- after `i` gates the relation is the graph of these gates
  refine (yields_foldlM h₁ (I := fun i s m' => s.lines = c.lines ∧
    Represents m' s fun x y => applyAll (c.gates.take i) x == y)
    ⟨hlines, hr⟩ fun i g hg s m₂ h₂ _ ⟨hs, hr⟩ => ?_).imp fun s m₂ _ _ ⟨hs, hr⟩ => ⟨hs, ?_⟩
  · have hproper := hc g (List.mem_of_getElem? hg)
    refine (yields_applyGate h₂ (hs ▸ lineVars_lt hn) hr (hs ▸ hproper)).imp fun t m₃ _ _ ⟨ht, hr⟩ => ⟨ht.trans hs, ?_⟩
    refine hr.congr fun x _ y _ => ?_
    rw [List.take_add_one, hg, Option.toList_some, applyAll_append, applyAll_cons, applyAll_nil, Bool.eq_iff_iff,
      beq_iff_eq, beq_iff_eq]
    -- a gate is its own inverse
    constructor
    · intro he
      rw [he, apply_apply hproper.1]
    · rintro rfl
      rw [apply_apply hproper.1]
  · refine hr.congr fun x hx y _ => ?_
    rw [List.take_length, graph, Circuit.getD_table (hs ▸ hx)]
    rfl

/-! ### the functions of the outputs -/

theorem IsOutputFunction.denotes {t : Array Nat} {l : Nat} {f : Ref} (h : IsOutputFunction m r t l f)
    (hm : m.Ordered) : m.Denotes f fun a => (t.getD (inputWord r.lines a) 0).testBit l := by
  refine ⟨h.holds, fun a => ?_⟩
  rw [← h.value _ (inputWord_lt _ a)]
  refine Manager.eval_congr_of_ignores (S := fun v => v ∈ r.inputVars) hm h.holds (fun v hv => ?_) fun v hv => ?_
  · by_contra hreads
    obtain ⟨i, hi, rfl⟩ := h.reads v hreads
    exact hv (mem_inputVars.2 ⟨i, hi, rfl⟩)
  · obtain ⟨i, hi, rfl⟩ := mem_inputVars.1 hv
    rw [pair_inputVar hi]
    exact (testBit_inputWord hi).symm

theorem yields_outputFunctions_circuit (h : m.WellFormed) (hn : c.lines ≤ maxRelationLines)
    (hc : ∀ g ∈ c.gates, g.Proper c.lines) (hlines : r.lines = c.lines) (hr : Represents m r (graph c.table)) :
    Yields m r.outputFunctions fun fs m' =>
      DenotesWord m' c.lines fs fun a => c.simulate (inputWord c.lines a) := by
  have hbij := hlines ▸ Circuit.bijection_table hc
  refine (yields_outputFunctions h (hlines ▸ lineVars_lt hn) hbij hr).imp fun fs m' h' _ hfs => ?_
  have hword := DenotesWord.of_forall₂ (W := fun a => c.table.getD (inputWord r.lines a) 0) (i := id)
    (hfs.imp fun l f hf => hf.denotes h'.toOrdered) fun j l hl => by
      obtain ⟨hj, rfl⟩ := List.getElem?_eq_some_iff.1 hl
      simp
  rw [List.length_range, hlines] at hword
  exact hword.congr fun a => Circuit.getD_table (inputWord_lt _ a)

/-! ### refinement -/

/-- from `m` the computation succeeds, and its result satisfies `Q` in every later manager. -/
def Lasts {α : Type} (m : Manager) (x : BddM α) (Q : α → Manager → Prop) : Prop :=
  Yields m x fun a m₁ => ∀ m', m'.WellFormed → m₁ ≤ m' → Q a m'

/-- two ways to construct a relation meet in one reference. -/
theorem lasts_eq {u v : BddM Relation} (h : m.WellFormed)
    (hu : ∀ m, m.WellFormed → Yields m u fun r m' => r.lines = n ∧ Represents m' r R)
    (hv : ∀ m, m.WellFormed → Yields m v fun r m' => r.lines = n ∧ Represents m' r R) :
    Lasts m u fun r m' => Yields m' v fun s _ => s = r :=
  (hu m h).imp fun _ _ h₁ _ ⟨hr, hrR⟩ m' h' hle => (hv m' h').imp fun _ _ h₂ hle₂ ⟨hs, hsR⟩ =>
    ((hrR.mono h₁.toOrdered hle).mono h'.toOrdered hle₂).root_eq hsR h₂.toOrdered (hs.trans hr.symm)

theorem lasts_applyGate (h : m.WellFormed) (hn : r.lines ≤ maxRelationLines) (hr : Represents m r R) {g : Gate}
    (hg : g.Proper r.lines) :
    Lasts m (r.applyGate g) fun s m' => s.lines = r.lines ∧ Represents m' s (fun x y => R x (g.apply y)) ∧
      Yields m' (s.applyGate g) fun t _ => t = r := by
  refine (yields_applyGate h (lineVars_lt hn) hr hg).imp fun s m₁ h₁ hle₁ ⟨hs, hsR⟩ m' h' hle => ?_
  have hs' := hsR.mono h₁.toOrdered hle
  refine ⟨hs, hs', (yields_applyGate h' (hs ▸ lineVars_lt hn) hs' (hs ▸ hg)).imp fun t m₂ h₂ hle₂ ⟨ht, htR⟩ => ?_⟩
  have hr₂ := ((hr.mono h.toOrdered hle₁).mono h₁.toOrdered hle).mono h'.toOrdered hle₂
  refine hr₂.root_eq (htR.congr fun x _ y _ => ?_) h₂.toOrdered (ht.trans hs)
  rw [apply_apply hg.1]

/-- **Relations refine circuits and tables.** From a reachable manager, a circuit of built gates on the lines of a table
has a table, and the relation of the circuit and that of the table have the same reference, whichever is constructed
first and whatever is done in between. This relation has the table of the circuit, and its output functions are the bits
of what the circuit computes from the input variables.

A built gate turns any relation `R` over the variables of its lines into the relation of the pairs `(x, y)` with
`R x (g y)`, and the same gate leads back to the first reference. -/
theorem refines_circuits (hm : Reached m) :
    (∀ c : Circuit, c.lines ≤ maxTableLines → (∀ g ∈ c.gates, g.Built ∧ g.Within c.lines) →
      ∃ p, c.permutation = .ok p ∧
        (Lasts m (ofCircuit c) fun r m' => Yields m' (ofPermutation p) fun s _ => s = r) ∧
        (Lasts m (ofPermutation p) fun r m' => Yields m' (ofCircuit c) fun s _ => s = r) ∧
        Lasts m (ofCircuit c) fun r m' => (Yields m' r.toPermutation fun q _ => q = p) ∧
          Yields m' r.outputFunctions fun fs m'' =>
            DenotesWord m'' c.lines fs fun a => c.simulate (inputWord c.lines a)) ∧
      ∀ r R g, Represents m r R → r.lines ≤ maxRelationLines → g.Built → g.Within r.lines →
        Lasts m (r.applyGate g) fun s m' => s.lines = r.lines ∧ Represents m' s (fun x y => R x (g.apply y)) ∧
          Yields m' (s.applyGate g) fun t _ => t = r := by
  have h := wellFormed_of_reached hm
  refine ⟨fun c hn hgates => ?_, fun r R g hr hn hbuilt hwithin =>
    lasts_applyGate h hn hr ⟨built_iff_normal.1 hbuilt, hwithin⟩⟩
  have hc : ∀ g ∈ c.gates, g.Proper c.lines := fun g hg => ⟨built_iff_normal.1 (hgates g hg).1, (hgates g hg).2⟩
  have hbij := Circuit.bijection_table hc
  have hn' : c.lines ≤ maxRelationLines := hn.trans (by decide)
  have hcircuit : ∀ m, m.WellFormed → Yields m (ofCircuit c) fun r m' =>
      r.lines = c.lines ∧ Represents m' r (graph c.table) := fun m h => yields_ofCircuit h hn' hc
  have htable : ∀ m, m.WellFormed → Yields m (ofPermutation ⟨c.lines, c.table⟩) fun r m' =>
      r.lines = c.lines ∧ Represents m' r (graph c.table) := fun m h => yields_ofPermutation h hn' hbij
  refine ⟨_, Circuit.permutation_eq hn hc, lasts_eq h hcircuit htable, lasts_eq h htable hcircuit, ?_⟩
  refine (hcircuit m h).imp fun r m₁ h₁ _ ⟨hlines, hr⟩ m' h' hle => ?_
  have hr' := hr.mono h₁.toOrdered hle
  refine ⟨(yields_toPermutation h' (hlines ▸ hn) (hlines ▸ hbij) hr').imp fun q m₂ _ _ hq => ?_,
    yields_outputFunctions_circuit h' hn' hc hlines hr'⟩
  rw [hq, hlines]

theorem refines_circuits_difference :
    ∃ m root p, Reached m ∧ m.Denotes root (fun a => a 1 != a 2) ∧
      ({ Circuit.empty 2 with gates := [.toffoli [⟨0, true⟩] 1, .fredkin [] 0 1] } : Circuit).permutation = .ok p ∧
      (Lasts m (ofCircuit { Circuit.empty 2 with gates := [.toffoli [⟨0, true⟩] 1, .fredkin [] 0 1] }) fun r m' =>
        Yields m' (ofPermutation p) fun s _ => s = r) ∧
      Lasts m (applyGate ⟨1, root⟩ (.toffoli [] 0)) fun s m' => s.lines = 1 ∧
        Represents m' s (fun x y => x == y) ∧ Yields m' (s.applyGate (.toffoli [] 0)) fun t _ => t = ⟨1, root⟩ := by
  obtain ⟨m, root, hm, hroot⟩ := exists_reached_difference
  have hnot : (Gate.toffoli [⟨0, true⟩] 1).Built := .controlledNot (c := 0) (t := 1) rfl
  have hswapped : Gate.fredkin? [] 0 1 = .ok (.fredkin [] 0 1) := rfl
  have hswap : (Gate.fredkin [] 0 1).Built := .fredkin hswapped
  obtain ⟨hcircuit, hgate⟩ := refines_circuits hm
  obtain ⟨p, hp, hsame, -⟩ := hcircuit { Circuit.empty 2 with gates := [.toffoli [⟨0, true⟩] 1, .fredkin [] 0 1] }
    (by decide) (by simpa using ⟨⟨hnot, maxLine_lt_iff.1 (by decide)⟩, hswap, maxLine_lt_iff.1 (by decide)⟩)
  have hover : Over 1 fun a => a 1 != a 2 := fun a b hab => by
    simp only [hab 1 (by omega), hab 2 (by omega)]
  have hrep : Represents m ⟨1, root⟩ fun x y => x == 1 - y := represents_of_denotes hroot hover (by decide)
  have hlines : 1 ≤ maxRelationLines := by decide
  have hback : ∀ x < 2 ^ 1, ∀ y < 2 ^ 1, (x == 1 - (Gate.inverter 0).apply y) = (x == y) := by decide
  refine ⟨m, root, p, hm, hroot, hp, hsame, ?_⟩
  refine (hgate _ _ _ hrep hlines (.inverter 0) (maxLine_lt_iff.1 Nat.one_pos)).imp fun s m₁ _ _ hs m' h' hle => ?_
  obtain ⟨hs, hsR, ht⟩ := hs m' h' hle
  exact ⟨hs, hsR.congr (hs ▸ hback), ht⟩

end Relation

end ReversibleLogic
