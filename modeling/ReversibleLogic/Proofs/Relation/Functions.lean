import ReversibleLogic.Proofs.Aig.Diagrams
import ReversibleLogic.Proofs.Relation.Questions

/-!
# Output functions of a relation

* `IsOutputFunction m r t l f` — the diagram `f` is bit `l` of the table `t`, as a function of the inputs;
* `yields_outputFunctions` — the output functions of the graph of a table;
* `exists_graph` — they have a graph, which simulates the table.
-/

namespace ReversibleLogic

open Bdd

namespace Relation

variable {m m' : Manager} {r : Relation} {t : Array Nat} {l : Nat} {f : Ref} {fs : List Ref}

/-- bit `l` of the table as a function of the input variables. -/
structure IsOutputFunction (m : Manager) (r : Relation) (t : Array Nat) (l : Nat) (f : Ref) : Prop where
  holds : m.Holds f
  reads : Aig.Reads m r.inputVar r.lines f
  value : ∀ x < 2 ^ r.lines, m.eval (pairAssignment r.lines x 0) f = (t.getD x 0).testBit l

theorem IsOutputFunction.mono (h : IsOutputFunction m r t l f) (hm : m.Ordered) (hle : m ≤ m') :
    IsOutputFunction m' r t l f := by
  have heval := Manager.eval_mono hm hle h.holds
  refine ⟨h.holds.mono hle, fun v hv => h.reads v ?_, fun x hx => (heval _).trans (h.value x hx)⟩
  simpa only [heval] using hv

theorem yields_outputFunction (h : m.WellFormed) (hn : 2 * r.lines < lastLevel) (ht : Bijection r.lines t)
    (hr : Represents m r (graph t)) (hl : l < r.lines) :
    Yields m (r.outputFunction l) fun f m' => IsOutputFunction m' r t l f := by
  obtain ⟨hpos, hbound⟩ := r.outputVar_bounds hl
  unfold outputFunction
  refine (yields_var h (by omega) (by omega)).bind fun y m₁ h₁ hle₁ hy => ?_
  have hr₁ := hr.mono h.toOrdered hle₁
  refine (yields_conj h₁ hr₁.holds.denotes hy).bind fun c m₂ h₂ _ hc => ?_
  have hover : Over r.lines fun a => m₁.eval a r.root && a (r.outputVar l) := fun a b hab => by
    have hroot : m₁.eval a r.root = m₁.eval b r.root := hr₁.onLines a b hab
    simp only [hroot, hab _ ⟨hpos, hbound⟩]
  refine (yields_existsOver h₂ hc r.outputVars).imp fun f m₃ h₃ _ hf => ⟨hf.holds, fun v hv => ?_, fun x hx => ?_⟩
  · by_contra hnot
    have hmem : v ∉ r.inputVars := fun hmem => by
      obtain ⟨i, hi, rfl⟩ := mem_inputVars.1 hmem
      exact hnot ⟨i, hi, rfl⟩
    exact hv (hf.ignores_iff.1 (ignores_someSetting_outputVars hover hmem))
  · rw [hf.eval, Bool.eq_iff_iff, someSetting_outputVars hover]
    constructor
    · rintro ⟨y, hy, hxy⟩
      rw [Bool.and_eq_true, hr₁.value x hx y hy, graph_iff, pair_outputVar hl] at hxy
      rw [hxy.1]
      exact hxy.2
    · intro hbit
      refine ⟨t.getD x 0, ht.lt x hx, ?_⟩
      rw [Bool.and_eq_true, hr₁.value x hx _ (ht.lt x hx), graph_iff, pair_outputVar hl]
      exact ⟨rfl, hbit⟩

theorem yields_outputFunctions (h : m.WellFormed) (hn : 2 * r.lines < lastLevel) (ht : Bijection r.lines t)
    (hr : Represents m r (graph t)) :
    Yields m r.outputFunctions fun fs m' => List.Forall₂ (IsOutputFunction m' r t) (List.range r.lines) fs :=
  yields_mapM h (fun _ _ _ _ h hle hf => hf.mono h.toOrdered hle) fun _ hl _ h' hle' =>
    yields_outputFunction h' hn ht (hr.mono h.toOrdered hle') (List.mem_range.1 hl)

theorem map_eval_eq (hfs : List.Forall₂ (IsOutputFunction m r t) (List.range r.lines) fs) {x : Nat}
    (hx : x < 2 ^ r.lines) : fs.map (m.eval (pairAssignment r.lines x 0)) = Word.toBits (t.getD x 0) r.lines := by
  refine List.ext_getElem (by simpa using hfs.length_eq.symm) ?_
  intro l hl hl'
  have hl : l < fs.length := by simpa using hl
  have hl' : l < r.lines := by simpa using hl'
  have hf := (List.forall₂_iff_get.1 hfs).2 l (by simpa using hl') hl
  simp only [List.get_eq_getElem, List.getElem_range] at hf
  simp [Word.toBits, hf.value x hx]

/-- a table on few enough lines has few enough nodes. -/
theorem room_lt {n : Nat} (hn : n ≤ maxTableLines) : n * Aig.room n < 2 ^ 30 := by
  have hroom : Aig.room n ≤ Aig.room maxTableLines := Aig.room_mono hn
  have hmax : maxTableLines * Aig.room maxTableLines < 2 ^ 30 := by decide
  exact (Nat.mul_le_mul hn hroom).trans_lt hmax

/-- **The graph of the output functions** simulates the table. -/
theorem exists_graph (hm : m.Ordered) (hn : r.lines ≤ maxTableLines) (ht : Bijection r.lines t)
    (hfs : List.Forall₂ (IsOutputFunction m r t) (List.range r.lines) fs) :
    ∃ g, Aig.ofDiagrams m fs ((List.range r.lines).map r.inputVar) = .ok g ∧ g.Closed ∧ g.numInputs = r.lines ∧
      g.outputs.size = r.lines ∧ ∀ x < 2 ^ r.lines, g.simulate x = .ok (t.getD x 0) := by
  have hlen : fs.length = r.lines := by simpa using hfs.length_eq.symm
  have hvars : Aig.Descending r.inputVar := fun i j h => by
    unfold inputVar at h
    omega
  have hinjective : ∀ i < r.lines, ∀ j < r.lines, r.inputVar i = r.inputVar j → i = j := fun i hi j hj h => by
    unfold inputVar at h
    omega
  have hreads : ∀ f ∈ fs, m.Holds f ∧ Aig.Reads m r.inputVar r.lines f := by
    intro f hf
    obtain ⟨i, hi, rfl⟩ := List.getElem_of_mem hf
    have hf := (List.forall₂_iff_get.1 hfs).2 i (by simpa [hlen] using hi) hi
    exact ⟨hf.holds, hf.reads⟩
  obtain ⟨g, hok, hg⟩ := Aig.exists_ofDiagrams (A := fun w => pairAssignment r.lines w 0) hm hinjective
    (fun w i hi => pair_inputVar hi) hreads
  have hnum : g.Numbered := by
    refine ⟨hg.numInputs_eq.trans_le (hn.trans (by decide)), (hg.size_le_room hvars).trans_lt ?_⟩
    rw [hlen]
    exact room_lt hn
  have houtputs : g.outputs.size = r.lines := by rw [← Array.length_toList, ← hg.outputs.length_eq, hlen]
  refine ⟨g, hok, hg.closed hnum, hg.numInputs_eq, houtputs, fun x hx => ?_⟩
  rw [hg.simulate_eq hnum, map_eval_eq hfs hx, Word.ofBits_toBits, Nat.mod_eq_of_lt (ht.lt x hx)]

end Relation

end ReversibleLogic
