import ReversibleLogic.Proofs.Embedding.Tables
import ReversibleLogic.Proofs.Exact.Comparison
import ReversibleLogic.Proofs.Relation.Construction
import ReversibleLogic.Proofs.Transform.Solvers

/-!
# Functions recovered from circuits

* `Circuit.feed` — an input word on the lines that are not constant, next to the constants;
* `Circuit.read` — the word on the lines that are not garbage;
* `Circuit.Recovers c f` — fed with the input of a specified row, the circuit leaves the output word of that row to be
  read;
* `recovers_of_embeds` — a circuit under the template of an embedding recovers the function if it computes the
  permutation of the embedding;
* `synthesize_recovers` — all ways of synthesis find such circuits.
-/

namespace ReversibleLogic

open Bdd Gate

variable {f : BooleanFunction} {c : Circuit} {p : Permutation} {e : Embedding} {x y w n k lines : Nat}

/-! ### words on the lines of a circuit -/

namespace Circuit

/-- constant lines have their constants, the other lines take the bits of a word, both in the order of the lines. -/
def placeBits : List (Option Bool) → Nat → List Bool
  | [], _ => []
  | some b :: constants, x => b :: placeBits constants x
  | none :: constants, x => x.testBit 0 :: placeBits constants (x >>> 1)

/-- the bits of a word on the lines that are not flagged, in the order of the lines. -/
def keepBits : List Bool → Nat → List Bool
  | [], _ => []
  | true :: garbage, w => keepBits garbage (w >>> 1)
  | false :: garbage, w => w.testBit 0 :: keepBits garbage (w >>> 1)

/-- the word on all lines for an input word. -/
def feed (c : Circuit) (x : Nat) : Nat := Word.ofBits (placeBits c.constants x)

/-- the output word in a word on all lines. -/
def read (c : Circuit) (w : Nat) : Nat := Word.ofBits (keepBits c.garbage w)

/-- the circuit gives the output word of every specified row. -/
def Recovers (c : Circuit) (f : BooleanFunction) : Prop :=
  ∀ x y : Nat, f.rows[x]? = some (some y) → c.read (c.simulate (c.feed x)) = y

theorem toNat_testBit_zero_add (x n : Nat) : (x.testBit 0).toNat + 2 * (x >>> 1 % 2 ^ n) = x % 2 ^ (n + 1) := by
  rw [Nat.toNat_testBit, Nat.pow_zero, Nat.div_one, Nat.pow_succ', Nat.mod_mul, Nat.shiftRight_one]

/-- lines that take bits, followed by clear ones. -/
theorem ofBits_placeBits (n k x : Nat) :
    Word.ofBits (placeBits (List.replicate n none ++ List.replicate k (some false)) x) = x % 2 ^ n := by
  induction n generalizing x with
  | zero =>
    rw [List.replicate_zero, List.nil_append, Nat.pow_zero, Nat.mod_one]
    induction k with
    | zero => rfl
    | succ k ih =>
      rw [List.replicate_succ, placeBits, Word.ofBits, ih]
      rfl
  | succ n ih =>
    rw [List.replicate_succ, List.cons_append, placeBits, Word.ofBits, ih]
    exact toNat_testBit_zero_add x n

/-- lines that are read, followed by garbage. -/
theorem ofBits_keepBits (n k w : Nat) :
    Word.ofBits (keepBits (List.replicate n false ++ List.replicate k true) w) = w % 2 ^ n := by
  induction n generalizing w with
  | zero =>
    rw [List.replicate_zero, List.nil_append, Nat.pow_zero, Nat.mod_one]
    induction k generalizing w with
    | zero => rfl
    | succ k ih =>
      rw [List.replicate_succ, keepBits]
      exact ih _
  | succ n ih =>
    rw [List.replicate_succ, List.cons_append, keepBits, Word.ofBits, ih]
    exact toNat_testBit_zero_add w n

end Circuit

/-! ### the template of an embedding -/

theorem map_range_ite {α : Type} (a b : α) (h : n ≤ lines) :
    ((List.range lines).map fun i => if i < n then a else b) =
      List.replicate n a ++ List.replicate (lines - n) b := by
  refine List.ext_getElem (by simp; omega) fun i hi hi' => ?_
  rw [List.getElem_map, List.getElem_range, List.getElem_append]
  split <;> simp_all

/-- the inputs of an embedded function are on the first lines, and the other lines are clear. -/
theorem feed_template (hc : c.constants = e.template.constants) (hn : e.inputs ≤ e.lines) (x : Nat) :
    c.feed x = x % 2 ^ e.inputs := by
  have hconstants : e.template.constants =
      List.replicate e.inputs none ++ List.replicate (e.lines - e.inputs) (some false) := map_range_ite _ _ hn
  rw [Circuit.feed, hc, hconstants, Circuit.ofBits_placeBits]

/-- the outputs of an embedded function are on the first lines. -/
theorem read_template (hc : c.garbage = e.template.garbage) (hn : e.outputs ≤ e.lines) (w : Nat) :
    c.read w = embeddedOutput w e.outputs := by
  have hflags : e.template.garbage = (List.range e.lines).map fun i => if i < e.outputs then false else true := by
    refine List.map_congr_left fun i _ => ?_
    by_cases hi : i < e.outputs
    · rw [if_pos hi, decide_eq_false (by omega)]
    · rw [if_neg hi, decide_eq_true (by omega)]
  rw [Circuit.read, hc, hflags, map_range_ite _ _ hn, Circuit.ofBits_keepBits]
  rfl

/-- the embedding of a function with its permutation. -/
structure IsEmbedding (e : Embedding) (p : Permutation) (f : BooleanFunction) : Prop where
  inputs : e.inputs = f.inputs
  outputs : e.outputs = f.outputs
  lines : e.lines = p.lines
  inputs_le : f.inputs ≤ p.lines
  outputs_le : f.outputs ≤ p.lines
  permutation : e.permutation = some p
  embeds : Embeds p f

theorem IsEmbedding.lines_template (he : IsEmbedding e p f) : e.template.lines = p.lines := he.lines

theorem exists_isEmbedding (hf : f.Valid) (hlines : embeddingLines f ≤ maxTableLines) :
    ∃ e p, embedTable f false = .ok e ∧ p.lines = embeddingLines f ∧ IsEmbedding e p f := by
  have hembeds := embeds_embeddedTable hf hlines
  have htable := Permutation.ofTable_eq_ok.2 ⟨rfl, hembeds.valid⟩
  refine ⟨⟨f.inputs, f.outputs, additionalLines f, embeddingLines f, some _⟩, _, ?_, rfl, rfl, rfl, rfl,
    Nat.le_max_left _ _, (Nat.le_add_right _ _).trans (Nat.le_max_right _ _), rfl, hembeds⟩
  refine Eq.trans (if_neg (Nat.not_lt.2 hlines)) ?_
  show (Permutation.ofTable (embeddingLines f) (embeddedTable f (embeddingLines f)) >>= _) = _
  rw [htable]
  rfl

/-- **The function comes back** from a circuit that computes the permutation of its embedding, and has the constants and
flags of the template. -/
theorem recovers_of_embeds (hf : f.Valid) (he : IsEmbedding e p f) (hconstants : c.constants = e.template.constants)
    (hgarbage : c.garbage = e.template.garbage) (hc : ∀ x < 2 ^ p.lines, p.apply x = .ok (applyAll c.gates x)) :
    c.Recovers f := by
  intro x y hxy
  have hx : x < 2 ^ f.inputs := by
    rw [← hf.size]
    exact (Array.getElem?_eq_some_iff.1 hxy).1
  have hlt : x < 2 ^ p.lines := hx.trans_le (Nat.pow_le_pow_right (by decide) he.inputs_le)
  -- the input word on the lines is the word itself, and its image is the numbered output word
  have hfeed : c.feed x = x := by
    rw [feed_template hconstants (by rw [he.inputs, he.lines]; exact he.inputs_le), he.inputs, Nat.mod_eq_of_lt hx]
  have himage : c.simulate x = f.numberedWord x y := by
    have happly := he.embeds.specified x y hxy
    rw [hc x hlt] at happly
    exact Except.ok.inj happly
  rw [hfeed, himage, read_template hgarbage (by rw [he.outputs, he.lines]; exact he.outputs_le), he.outputs]
  exact he.embeds.output x y hxy

theorem recovers_circuitOf (hf : f.Valid) (he : IsEmbedding e p f) {σ : Type} {S : Transform.Strategy σ}
    (htemplate : S.template = some e.template) {gates : List Gate}
    (hgates : ∀ x < 2 ^ p.lines, applyAll gates x = p.table.getD x 0) : (S.circuitOf gates).Recovers f := by
  unfold Transform.Strategy.circuitOf
  rw [htemplate]
  refine recovers_of_embeds hf he rfl rfl fun x hx => ?_
  rw [Permutation.apply_eq he.embeds.valid hx, hgates x hx]

/-! ### ways of synthesis -/

open ReversibleLogic.Relation (Represents Lasts graph)
open ReversibleLogic.Sat (Solver LawfulSolver Literal TrialSolver)

section synthesis

variable (hf : f.Valid) (he : IsEmbedding e p f)
include hf he

theorem explicit_recovers {settings : Transform.Explicit.Settings} (hs : settings.validate = .ok ())
    (htemplate : settings.template = some e.template) :
    ∃ outcome, Transform.Explicit.synthesize p settings = .ok outcome ∧ outcome.circuit.Recovers f := by
  have hfits : ∀ t, settings.template = some t → t.lines = p.lines := fun t ht => by
    rw [htemplate] at ht
    cases ht
    exact he.lines_template
  obtain ⟨gates, hok, -, hgates⟩ := Transform.Explicit.exists_synthesize he.embeds.valid hs hfits
  exact ⟨_, hok, recovers_circuitOf hf he htemplate hgates⟩

theorem symbolic_recovers {m : Manager} {r : Relation} (h : m.WellFormed) (hr : r.lines = p.lines)
    (hrep : Represents m r (graph p.table)) (fredkin : Bool) :
    ∃ outcome m', Transform.Symbolic.synthesize r ⟨fredkin, some e.template⟩ m = .ok outcome m' ∧
      outcome.circuit.Recovers f := by
  have hp := he.embeds.valid
  have hfits : ∀ t, (⟨fredkin, some e.template⟩ : Transform.Symbolic.Settings).template = some t →
      t.lines = r.lines := fun t ht => by
    cases ht
    exact he.lines_template.trans hr.symm
  obtain ⟨gates, rows, m', hok, -, hgates⟩ :=
    Transform.Symbolic.exists_synthesize h (hr ▸ hp.lines_le) (hr ▸ hp.bijection) hrep hfits
  rw [hr] at hgates
  exact ⟨_, m', hok, recovers_circuitOf hf he rfl hgates⟩

theorem solving_recovers {m : Manager} {r : Relation} (h : m.WellFormed) (hr : r.lines = p.lines)
    (hrep : Represents m r (graph p.table)) {σ : Type} [Solver σ] [LawfulSolver σ] {solver : σ}
    (hvars : ∀ c ∈ LawfulSolver.formula solver, ∀ l ∈ c, Literal.On (LawfulSolver.inUse solver) l)
    (hmodel : ∃ a, (LawfulSolver.formula solver).holds a = true) (viaGraph assumeRetired : Bool) :
    ∃ outcome, Transform.Solving.synthesizeFrom solver (.relation m r) ⟨viaGraph, assumeRetired, some e.template⟩ =
      .ok outcome ∧ outcome.circuit.Recovers f := by
  have hp := he.embeds.valid
  have hbij : Bijection r.lines p.table := hr ▸ hp.bijection
  obtain ⟨q, m', hq, hpresents⟩ := Transform.Solving.present_eq h (hr ▸ hp.lines_le) hbij hrep
    ⟨viaGraph, assumeRetired, some e.template⟩
  have hpresentation : (Transform.Solving.Source.relation m r).presentation
      ⟨viaGraph, assumeRetired, some e.template⟩ = .ok q := by
    rw [Transform.Solving.Source.presentation, hq]
  obtain ⟨gates, rows, hok, -, hgates⟩ := Transform.Solving.exists_synthesizeFrom hvars hmodel hpresentation hpresents
    (hr ▸ hp.lines_le.trans (by decide)) hbij fun t ht => by
      cases ht
      exact he.lines_template.trans hr.symm
  rw [hr] at hgates
  exact ⟨_, hok, recovers_circuitOf hf he rfl hgates⟩

/-- every cascade that the search for the smallest ones reports. -/
theorem exact_recovers {settings : Exact.Settings} (htemplate : settings.template = some e.template)
    {sol : Exact.Solution} (hsol : Exact.synthesize p settings = .ok (some sol)) :
    sol.circuit.Recovers f ∧ ∀ cs, sol.solutions = some cs → ∀ c ∈ cs, c.Recovers f := by
  obtain ⟨gss, hreports⟩ := Exact.reports_of_synthesize he.embeds.valid hsol
  have hone : ∀ gs ∈ gss, (settings.circuitOf p.lines gs).Recovers f := fun gs hgs => by
    unfold Exact.Settings.circuitOf
    rw [htemplate]
    exact recovers_of_embeds hf he rfl rfl ((hreports.mem_iff gs).1 hgs).1.computes
  have hall : ∀ c ∈ gss.map (settings.circuitOf p.lines), c.Recovers f := List.forall_mem_map.2 hone
  refine ⟨hall _ (List.mem_of_mem_head? hreports.circuit), fun cs hcs => ?_⟩
  rw [hreports.solutions] at hcs
  split at hcs
  · cases hcs
    exact hall
  · cases hcs

end synthesis

/-- **From a function to a circuit and back.** If the embedding of a function fits a table, every synthesis of its
permutation under its template leads to circuits that give the output words of all specified rows: from the table with
any accepted options; from the relation of the table in any reachable manager, whatever is done there in between, on
the diagrams or with any lawful solver; and by the search for the smallest cascades, if it finds any. -/
theorem synthesize_recovers (hf : f.Valid) (hlines : embeddingLines f ≤ maxTableLines) :
    ∃ e p, embedTable f false = .ok e ∧ e.permutation = some p ∧
      (∀ settings : Transform.Explicit.Settings, settings.validate = .ok () → settings.template = some e.template →
        ∃ outcome, Transform.Explicit.synthesize p settings = .ok outcome ∧ outcome.circuit.Recovers f) ∧
      (∀ m, Reached m → Lasts m (Relation.ofPermutation p) fun r m' =>
        (∀ fredkin, ∃ outcome m'', Transform.Symbolic.synthesize r ⟨fredkin, some e.template⟩ m' = .ok outcome m'' ∧
          outcome.circuit.Recovers f) ∧
        ∀ (σ : Type) [Solver σ] [LawfulSolver σ] (solver : σ),
          (∀ c ∈ LawfulSolver.formula solver, ∀ l ∈ c, Literal.On (LawfulSolver.inUse solver) l) →
          (∃ a, (LawfulSolver.formula solver).holds a = true) → ∀ viaGraph assumeRetired, ∃ outcome,
            Transform.Solving.synthesizeFrom solver (.relation m' r) ⟨viaGraph, assumeRetired, some e.template⟩ =
              .ok outcome ∧ outcome.circuit.Recovers f) ∧
      ∀ settings : Exact.Settings, settings.template = some e.template →
        ∀ sol, Exact.synthesize p settings = .ok (some sol) →
          sol.circuit.Recovers f ∧ ∀ cs, sol.solutions = some cs → ∀ c ∈ cs, c.Recovers f := by
  obtain ⟨e, p, hok, -, he⟩ := exists_isEmbedding hf hlines
  refine ⟨e, p, hok, he.permutation, fun settings => explicit_recovers hf he, fun m hm => ?_,
    fun settings htemplate sol => exact_recovers hf he htemplate⟩
  have hvalid := he.embeds.valid
  refine (Relation.yields_ofPermutation (wellFormed_of_reached hm) (hvalid.lines_le.trans (by decide))
    hvalid.bijection).imp fun r m₁ h₁ _ ⟨hr, hrep⟩ m' h' hle => ?_
  have hrep' := hrep.mono h₁.toOrdered hle
  exact ⟨symbolic_recovers hf he h' hr hrep', fun σ _ _ solver hvars hmodel =>
    solving_recovers hf he h' hr hrep' hvars hmodel⟩

theorem synthesize_recovers_sharedOutput :
    ∃ e p m, embedTable sharedOutput false = .ok e ∧ e.permutation = some p ∧ Reached m ∧
      (∃ outcome, Transform.Explicit.synthesize p ⟨true, true, true, some e.template⟩ = .ok outcome ∧
        outcome.circuit.Recovers sharedOutput) ∧
      (Lasts m (Relation.ofPermutation p) fun r m' =>
        (∃ outcome m'', Transform.Symbolic.synthesize r ⟨true, some e.template⟩ m' = .ok outcome m'' ∧
          outcome.circuit.Recovers sharedOutput) ∧
        ∃ outcome, Transform.Solving.synthesizeFrom TrialSolver.empty (.relation m' r) ⟨true, true, some e.template⟩ =
          .ok outcome ∧ outcome.circuit.Recovers sharedOutput) ∧
      ∃ sol, Exact.synthesize p ⟨24, true, true, some e.template⟩ = .ok (some sol) ∧
        sol.circuit.Recovers sharedOutput := by
  obtain ⟨m, hm⟩ : ∃ m, Manager.empty 4 = .ok m := ⟨_, rfl⟩
  obtain ⟨e, p, hok, hp, hexplicit, hrelation, hexact⟩ := synthesize_recovers valid_sharedOutput (by decide)
  obtain ⟨e', p', hok', hlines, he⟩ := exists_isEmbedding valid_sharedOutput (by decide)
  obtain rfl : e = e' := Except.ok.inj (hok.symm.trans hok')
  obtain rfl : p = p' := Option.some.inj (hp.symm.trans he.permutation)
  have hthree : p.lines = 3 := hlines.trans (by decide)
  have hfits : ∀ t, Exact.Settings.template ⟨24, true, true, some e.template⟩ = some t → t.lines = p.lines := by
    intro t ht
    cases ht
    exact he.lines_template
  -- the search finds something, since the largest depth is that of the longest transformation
  obtain ⟨sol, hsol⟩ := Exact.exists_synthesize_of_le he.embeds.valid (by rw [hthree]; decide) (by rw [hthree]; decide)
    hfits (by rw [hthree])
  refine ⟨e, p, m, hok, hp, .empty hm, hexplicit ⟨true, true, true, some e.template⟩ rfl rfl, ?_, sol, hsol,
    (hexact ⟨24, true, true, some e.template⟩ rfl sol hsol).1⟩
  refine (hrelation m (.empty hm)).imp fun r m₁ _ _ h m' hm' hle => ?_
  obtain ⟨hsymbolic, hsolving⟩ := h m' hm' hle
  exact ⟨hsymbolic true, hsolving TrialSolver TrialSolver.empty (List.forall_mem_nil _) ⟨fun _ => false, rfl⟩ true true⟩

end ReversibleLogic
