import Mathlib.Data.Finset.Card
import Mathlib.Order.Interval.Finset.Nat
import ReversibleLogic.Aig.Diagram
import ReversibleLogic.Proofs.Aig.Operations
import ReversibleLogic.Proofs.Bdd.Walks

/-!
# Graphs of diagrams

Input `i` of the graph stands for the variable `u i`. Each diagram node gets its signal once, so the graph has at most
three nodes for each of them. If later inputs stand for earlier variables, a diagram of the first `d` inputs also needs
fewer than `3 * 2 ^ (d - 1)` nodes, since the nodes of the last variable need none.

* `Reads m u d f` — the diagram `f` depends on the first `d` inputs only;
* `Multiplexes m A st x Q` — the walk `x` adds nodes to the graph and keeps right signals;
* `Visits m u f st st'` — what the walk along `f` adds; `multiplexes_multiplex` for the walk;
* `Draws m u n A fs g` — the graph has the functions of the diagrams `fs`; `exists_ofDiagrams`.
-/

namespace ReversibleLogic.Aig

open Bdd (Manager Ref Ignores Children childOf)

variable {m : Manager} {u : Nat → Nat} {A : Nat → Bdd.Assignment} {f : Ref} {d i k n : Nat} {F : Nat → Bool}

/-! ### variables and inputs -/

/-- input `i` stands for the variable `u i`, and `A w` gives the variables the bits of the word `w`. -/
structure Wiring (u : Nat → Nat) (A : Nat → Bdd.Assignment) (n : Nat) (inputs : Std.TreeMap Nat Signal) : Prop where
  inputs : ∀ i < n, inputs[u i]? = some (.ofInput i)
  value : ∀ w, ∀ i < n, A w (u i) = w.testBit i

/-- the diagram depends on the variables of the first `d` inputs only. -/
def Reads (m : Manager) (u : Nat → Nat) (d : Nat) (f : Ref) : Prop := ∀ v, ¬ Ignores (m.eval · f) v → ∃ i < d, v = u i

/-- later inputs stand for earlier variables. -/
def Descending (u : Nat → Nat) : Prop := ∀ i j, u i < u j → j < i

theorem reads_regular (hf : m.Holds f) (h : Reads m u d f) : Reads m u d f.regular := by
  intro v hv
  exact h v (mt (Manager.ignores_regular hf) hv)

theorem Reads.terminal (h : Reads m u 0 f) (hm : m.Ordered) (hf : m.Holds f) : f.index = 1 := by
  by_contra hi
  obtain ⟨i, hi, -⟩ := h _ (Manager.not_ignores_level hm hf hi)
  omega

theorem Reads.level (h : Reads m u d f) (hm : m.Ordered) (hf : m.Holds f) (hi : f.index ≠ 1) {node : Bdd.Node}
    (hc : Children m f node) : ∃ i < d, node.var = u i :=
  hc.level ▸ h _ (Manager.not_ignores_level hm hf hi)

theorem Reads.child (h : Reads m u d f) {node : Bdd.Node} (hc : Children m f node) (b : Bool) :
    Reads m u d (childOf f node b) := by
  intro v hv
  exact h v fun hignores => hv (hc.ignores hignores b)

/-- in the order of the variables, a child depends on earlier inputs only. -/
theorem Reads.child_of_descending (h : Reads m u d f) (hu : Descending u) (hm : m.Ordered) {node : Bdd.Node}
    (hc : Children m f node) (hvar : node.var = u i) (b : Bool) : Reads m u i (childOf f node b) := by
  intro v hv
  obtain ⟨j, -, rfl⟩ := h.child hc b v hv
  refine ⟨j, hu i j ?_, rfl⟩
  rw [← hvar]
  by_contra hle
  exact hv (Manager.ignores_of_lt_level hm (hc.holds b) (by have := hc.level_child b; omega))

/-! ### numbers of nodes -/

/-- a bound for the nodes of a diagram of `d` inputs. -/
def room (d : Nat) : Nat := 3 * (2 ^ (d - 1) - 1)

theorem room_succ (i : Nat) : room (i + 1) + room (i + 1) + 3 = room (i + 2) := by
  have hpos : 0 < 2 ^ i := Nat.two_pow_pos i
  have hpow : 2 ^ (i + 1) = 2 * 2 ^ i := Nat.pow_succ'
  unfold room
  rw [Nat.add_sub_cancel, show i + 2 - 1 = i + 1 from rfl, hpow]
  omega

theorem room_mono (h : i ≤ d) : room i ≤ room d := by
  have hpow : 2 ^ (i - 1) ≤ 2 ^ (d - 1) := Nat.pow_le_pow_right (by decide) (by omega)
  unfold room
  omega

/-! ### walks -/

variable {α β : Type} {st st₁ st₂ st' : Multiplexing} {inputs : Std.TreeMap Nat Signal}

/-- every kept signal has the value of its diagram node. -/
structure Kept (m : Manager) (A : Nat → Bdd.Assignment) (st : Multiplexing) : Prop where
  wellFormed : st.graph.WellFormed
  holds : ∀ i ∈ st.signals, m.Holds (.ofIndex i)
  signals : ∀ (i : Nat) s, st.signals[i]? = some s → st.graph.Denotes s fun w => m.eval (A w) (.ofIndex i)

/-- from `st` the walk succeeds, adds nodes to the graph, and keeps right signals. -/
def Multiplexes (m : Manager) (A : Nat → Bdd.Assignment) (st : Multiplexing) (x : MultiplexM α)
    (Q : α → Multiplexing → Prop) : Prop :=
  ∃ r st', x.run st = .ok (r, st') ∧ Kept m A st' ∧ Grows st.graph st'.graph ∧ Q r st'

section multiplexes

variable {Q Q' : α → Multiplexing → Prop} {R : β → Multiplexing → Prop}

theorem multiplexes_pure (hst : Kept m A st) {r : α} (hQ : Q r st) : Multiplexes m A st (pure r) Q :=
  ⟨r, st, rfl, hst, grows_refl hst.wellFormed, hQ⟩

theorem Multiplexes.bind {x : MultiplexM α} {y : α → MultiplexM β} (hx : Multiplexes m A st x Q)
    (hy : ∀ r st', Kept m A st' → Grows st.graph st'.graph → Q r st' → Multiplexes m A st' (y r) R) :
    Multiplexes m A st (x >>= y) R := by
  obtain ⟨r, st', hok, hst', hgrows, hQ⟩ := hx
  obtain ⟨r', st'', hok', hst'', hgrows', hR⟩ := hy r st' hst' hgrows hQ
  refine ⟨r', st'', ?_, hst'', hgrows.trans hgrows', hR⟩
  rw [StateT.run_bind, hok]
  exact hok'

theorem Multiplexes.imp {x : MultiplexM α} (hx : Multiplexes m A st x Q) (hQ : ∀ r st', Q r st' → Q' r st') :
    Multiplexes m A st x Q' := by
  obtain ⟨r, st', hok, hst', hgrows, hr⟩ := hx
  exact ⟨r, st', hok, hst', hgrows, hQ r st' hr⟩

theorem Multiplexes.of_run_eq {x y : MultiplexM α} (hrun : x.run st = y.run st) (hy : Multiplexes m A st y Q) :
    Multiplexes m A st x Q := by
  unfold Multiplexes
  rw [hrun]
  exact hy

end multiplexes

/-! ### the signal of a diagram node -/

theorem denotes_signed (hf : m.Holds f) {g : Aig} {s : Signal} (hs : g.Denotes s fun w => m.eval (A w) f.regular) :
    g.Denotes (if f.isNegated then s.not else s) fun w => m.eval (A w) f := by
  cases hn : f.isNegated with
  | false => exact hs.congr fun w => by rw [Manager.eval_regular hf, hn, Bool.false_xor]
  | true => exact hs.not.congr fun w => by rw [Manager.eval_regular hf, hn, Bool.true_xor, Bool.not_not]

theorem multiplex_terminal (hi : f.index = 1) (fuel : Nat) :
    multiplex m inputs (fuel + 1) f = pure (.ofBool !f.isNegated) := by
  rw [multiplex]
  rcases Ref.eq_one_or_eq_zero hi with rfl | rfl
  · rfl
  · rfl

theorem isNegated_children {node : Bdd.Node} (hc : Children m f node) (hi : ∀ b, (childOf f node b).index = 1) :
    (childOf f node false).isNegated = !(childOf f node true).isNegated := by
  have hne : childOf f node false ≠ childOf f node true := fun h => hc.inner.low_ne_high (Ref.negateIf_injective _ h)
  rw [Bool.eq_not]
  exact fun h => hne (Ref.ext_index ((hi false).trans (hi true).symm) h)

/-- the selector, and the values of the children, give the value of a node. -/
theorem denotes_node {node : Bdd.Node} (hc : Children m f node) {g : Aig} {s : Signal} {i : Nat}
    (hvalue : ∀ w, A w node.var = w.testBit i)
    (hs : g.Denotes s fun w =>
      if w.testBit i then m.eval (A w) (childOf f node true) else m.eval (A w) (childOf f node false)) :
    g.Denotes s fun w => m.eval (A w) f := by
  refine hs.congr ?_
  intro w
  rw [hc.eval_eq, hvalue]

/-- **A new signal** is built, kept and signed. -/
theorem multiplexes_keep (hst : Kept m A st) (hf : m.Holds f) {x : AigM Signal}
    (hx : Gives st.graph x k fun w => m.eval (A w) f.regular) :
    Multiplexes m A st (do
      let s ← build x
      modify fun st => { st with signals := st.signals.insert f.index s }
      return if f.isNegated then s.not else s) fun s st' =>
        st'.graph.Denotes s (fun w => m.eval (A w) f) ∧ st'.graph.nodes.size ≤ st.graph.nodes.size + k ∧
          ∃ t, st'.signals = st.signals.insert f.index t := by
  obtain ⟨hadds, hs⟩ := hx
  refine ⟨_, ⟨(x.run st.graph).2, st.signals.insert f.index (x.run st.graph).1⟩, rfl,
    ⟨hadds.wellFormed, fun i hi => ?_, fun i t ht => ?_⟩, hadds.toGrows, denotes_signed hf hs, hadds.size_le, _, rfl⟩
  · rcases Std.TreeMap.mem_insert.1 hi with he | hi
    · obtain rfl := Std.LawfulEqCmp.eq_of_compare he
      exact hf
    · exact hst.holds i hi
  · rw [Std.TreeMap.getElem?_insert] at ht
    split at ht
    · next he =>
      obtain rfl := Std.LawfulEqCmp.eq_of_compare he
      obtain rfl := Option.some.inj ht
      exact hs
    · exact (hst.signals i t ht).mono hadds.le

/-! ### the walk along a diagram -/

/-- at most three nodes have been added for each diagram node that has got its signal, all of them nodes of `f`. -/
structure Visits (m : Manager) (u : Nat → Nat) (f : Ref) (st st' : Multiplexing) : Prop where
  later : ∀ i, f.index < i → (i ∈ st'.signals ↔ i ∈ st.signals)
  size_le : st'.graph.nodes.size + 3 * st.signals.size ≤ st.graph.nodes.size + 3 * st'.signals.size
  size_le_room : Descending u → ∀ d, Reads m u d f → st'.graph.nodes.size ≤ st.graph.nodes.size + room d

theorem visits_refl (m : Manager) (u : Nat → Nat) (f : Ref) (st : Multiplexing) : Visits m u f st st :=
  ⟨fun _ _ => Iff.rfl, Nat.le_refl _, fun _ _ _ => Nat.le_add_right _ _⟩

theorem size_insert_signals {signals : Std.TreeMap Nat Signal} (hi : i ∉ signals) (s : Signal) :
    (signals.insert i s).size = signals.size + 1 := by
  rw [Std.TreeMap.size_insert, if_neg]
  simpa using hi

theorem Visits.of_regular (h : Visits m u f.regular st st') (hf : m.Holds f) : Visits m u f st st' :=
  ⟨h.later, h.size_le, fun hu d hreads => h.size_le_room hu d (reads_regular hf hreads)⟩

theorem visits_literal (hi : f.index ∉ st.signals) {s : Signal} (hsize : st'.graph.nodes.size ≤ st.graph.nodes.size)
    (hsignals : st'.signals = st.signals.insert f.index s) : Visits m u f st st' := by
  refine ⟨fun i hlt => ?_, ?_, fun _ d _ => by omega⟩
  · rw [hsignals, Std.TreeMap.mem_insert, or_iff_right]
    intro he
    exact Nat.ne_of_lt hlt (Std.LawfulEqCmp.eq_of_compare he)
  · rw [hsignals, size_insert_signals hi]
    omega

/-- a node after its children, which are not both constants. -/
theorem visits_node (hm : m.Ordered) (hf : m.Holds f) (hi : f.index ≠ 1) {node : Bdd.Node} (hc : Children m f node)
    (hnew : f.index ∉ st.signals) (hterminal : ¬ ∀ b, (childOf f node b).index = 1)
    (hlow : Visits m u (childOf f node false) st st₁) (hhigh : Visits m u (childOf f node true) st₁ st₂) {s : Signal}
    (hsize : st'.graph.nodes.size ≤ st₂.graph.nodes.size + 3)
    (hsignals : st'.signals = st₂.signals.insert f.index s) : Visits m u f st st' := by
  have hlater : ∀ i, f.index ≤ i → (i ∈ st₂.signals ↔ i ∈ st.signals) := fun i hle =>
    (hhigh.later i ((hc.index_lt true).trans_le hle)).trans (hlow.later i ((hc.index_lt false).trans_le hle))
  have hsize₁ := hlow.size_le
  have hsize₂ := hhigh.size_le
  refine ⟨fun i hlt => ?_, ?_, fun hu d hreads => ?_⟩
  · rw [hsignals, Std.TreeMap.mem_insert, or_iff_right, hlater i hlt.le]
    intro he
    exact Nat.ne_of_lt hlt (Std.LawfulEqCmp.eq_of_compare he)
  · rw [hsignals, size_insert_signals (mt (hlater _ (Nat.le_refl _)).1 hnew)]
    omega
  · obtain ⟨i, hid, hvar⟩ := hreads.level hm hf hi hc
    have hchild := hreads.child_of_descending hu hm hc hvar
    cases i with
    | zero => exact absurd (fun b => (hchild b).terminal hm (hc.holds b)) hterminal
    | succ i =>
      have hroom₁ := hlow.size_le_room hu (i + 1) (hchild false)
      have hroom₂ := hhigh.size_le_room hu (i + 1) (hchild true)
      have hroom : room (i + 2) ≤ room d := room_mono (Nat.succ_le_of_lt hid)
      have := room_succ i
      omega

/-- an inner node that has no signal yet: a multiplexer of the signals of its children. -/
theorem multiplex_new {node : Bdd.Node} {selector : Signal} (hi : f.index ≠ 1) (hget : st.signals[f.index]? = none)
    (hc : Children m f.regular node) (hselect : inputs[node.var]? = some selector) (fuel : Nat) :
    (multiplex m inputs (fuel + 1) f).run st = (do
      let low ← multiplex m inputs fuel (childOf f.regular node false)
      let high ← multiplex m inputs fuel (childOf f.regular node true)
      let s ← build (mux selector high low)
      modify fun st => { st with signals := st.signals.insert f.index s }
      return if f.isNegated then s.not else s : MultiplexM Signal).run st := by
  have hvariable : m.variableOf f = .ok node.var := hc.variableOf_eq m.le_refl
  have hzero : f ≠ .zero := fun h => hi (by rw [h]; rfl)
  have hone : f ≠ .one := fun h => hi (by rw [h]; rfl)
  have hanswer : ∀ {α : Type} (r : α), (liftM (Except.ok r : Except Error α) : MultiplexM α) = pure r := fun _ => rfl
  rw [multiplex, if_neg hzero, if_neg hone]
  simp only [StateT.run_bind, StateT.run_get, pure_bind, hget, hvariable, hc.low_eq m.le_refl, hc.high_eq m.le_refl,
    hanswer, hselect]

/-- the signal of a variable: the children are different constants. -/
theorem multiplexes_literal (hst : Kept m A st) (hf : m.Holds f) {node : Bdd.Node} (hc : Children m f.regular node)
    (hterminal : ∀ b, (childOf f.regular node b).index = 1) (hvalue : ∀ w, A w node.var = w.testBit i)
    (hin : i < st.graph.numInputs) (hnew : f.index ∉ st.signals) (fuel : Nat) :
    Multiplexes m A st (do
      let low ← multiplex m inputs (fuel + 1) (childOf f.regular node false)
      let high ← multiplex m inputs (fuel + 1) (childOf f.regular node true)
      let s ← build (mux (.ofInput i) high low)
      modify fun st => { st with signals := st.signals.insert f.index s }
      return if f.isNegated then s.not else s) fun s st' =>
        st'.graph.Denotes s (fun w => m.eval (A w) f) ∧ Visits m u f st st' := by
  have hnegated := isNegated_children hc hterminal
  rw [multiplex_terminal (hterminal false), multiplex_terminal (hterminal true), pure_bind, pure_bind, hnegated]
  have hmux := gives_mux_constants hst.wellFormed (denotes_ofInput hin) (!(childOf f.regular node true).isNegated)
  refine (multiplexes_keep hst hf ⟨hmux.1, denotes_node hc hvalue (hmux.2.congr fun w => ?_)⟩).imp ?_
  · rw [Manager.eval_terminal (hterminal true), Manager.eval_terminal (hterminal false), hnegated]
  · rintro s st' ⟨hs, hsize, t, hsignals⟩
    exact ⟨hs, visits_literal hnew hsize hsignals⟩

/-- **The signal of a diagram** has its value. -/
theorem multiplexes_multiplex (hm : m.Ordered) (hw : Wiring u A n inputs) (hf : m.Holds f) (hreads : Reads m u n f)
    (hst : Kept m A st) (hn : st.graph.numInputs = n) {fuel : Nat} (hfuel : f.index < fuel) :
    Multiplexes m A st (multiplex m inputs fuel f) fun s st' =>
      st'.graph.Denotes s (fun w => m.eval (A w) f) ∧ Visits m u f st st' := by
  induction fuel generalizing st f with
  | zero => omega
  | succ fuel ih =>
    by_cases hi : f.index = 1
    · rw [multiplex_terminal hi]
      refine multiplexes_pure hst ⟨?_, visits_refl _ _ _ _⟩
      rcases Ref.eq_one_or_eq_zero hi with rfl | rfl
      · exact (denotes_one _).congr fun w => (Manager.eval_one _ _).symm
      · exact (denotes_zero _).congr fun w => (Manager.eval_zero _ _).symm
    cases hget : st.signals[f.index]? with
    | some s =>
      rw [multiplex, if_neg fun h => hi (by rw [h]; rfl), if_neg fun h => hi (by rw [h]; rfl)]
      refine .of_run_eq (y := pure (if f.isNegated then s.not else s)) ?_ ?_
      · simp only [StateT.run_bind, StateT.run_get, pure_bind, hget]
      · exact multiplexes_pure hst ⟨denotes_signed hf (hst.signals _ _ hget), visits_refl _ _ _ _⟩
    | none =>
      have hg : m.Holds f.regular := hf
      have hnew : f.index ∉ st.signals := by simp [Std.TreeMap.mem_iff_isSome_getElem?, hget]
      obtain ⟨node, hc⟩ := Bdd.exists_children hm hg hi
      have hregular := reads_regular hf hreads
      obtain ⟨i, hin, hvar⟩ := hregular.level hm hg hi hc
      have hvalue : ∀ w, A w node.var = w.testBit i := fun w => hvar ▸ hw.value w i hin
      have hfuel' : ∀ b, (childOf f.regular node b).index < fuel := fun b => by
        have hlt : (childOf f.regular node b).index < f.index := hc.index_lt b
        omega
      refine .of_run_eq (multiplex_new hi hget hc (hvar ▸ hw.inputs i hin) fuel) ?_
      by_cases hterminal : ∀ b, (childOf f.regular node b).index = 1
      · obtain ⟨fuel, rfl⟩ : ∃ fuel', fuel = fuel' + 1 := Nat.exists_eq_succ_of_ne_zero (by have := hfuel' true; omega)
        exact multiplexes_literal hst hf hc hterminal hvalue (hn ▸ hin) hnew fuel
      · refine (ih (hc.holds false) (hregular.child hc false) hst hn (hfuel' false)).bind
          fun low st₁ hst₁ hgrows₁ ⟨hlow, hvisits₁⟩ => ?_
        have hn₁ := hgrows₁.numInputs_eq.trans hn
        refine (ih (hc.holds true) (hregular.child hc true) hst₁ hn₁ (hfuel' true)).bind
          fun high st₂ hst₂ hgrows₂ ⟨hhigh, hvisits₂⟩ => ?_
        have hselector := denotes_ofInput (hin.trans_eq (hgrows₂.numInputs_eq.trans hn₁).symm)
        have hmux := gives_mux hst₂.wellFormed hselector hhigh (hlow.mono hgrows₂.le)
        refine (multiplexes_keep hst₂ hf ⟨hmux.1, denotes_node hc hvalue hmux.2⟩).imp ?_
        rintro s st' ⟨hs, hsize, t, hsignals⟩
        exact ⟨hs, (visits_node hm hg hi hc hnew hterminal hvisits₁ hvisits₂ hsize hsignals).of_regular hf⟩

/-! ### inputs and outputs -/

theorem exists_inputSignals (n : Nat) (hu : ∀ i < n, ∀ j < n, u i = u j → i = j) :
    ∃ inputs, (inputSignals ((List.range n).map u)).run .empty = (inputs, { empty with numInputs := n }) ∧
      ∀ i < n, inputs[u i]? = some (.ofInput i) := by
  induction n with
  | zero => exact ⟨∅, rfl, fun i hi => absurd hi (Nat.not_lt_zero i)⟩
  | succ n ih =>
    obtain ⟨inputs, hrun, hinputs⟩ := ih fun i hi j hj => hu i (by omega) j (by omega)
    refine ⟨inputs.insert (u n) (.ofInput n), ?_, fun i hi => ?_⟩
    · rw [List.range_succ, List.map_append, inputSignals, List.foldlM_append, StateT.run_bind]
      rw [inputSignals] at hrun
      rw [hrun]
      rfl
    · rw [Std.TreeMap.getElem?_insert]
      split
      · next he => rw [hu i hi n (Nat.lt_succ_self n) (Std.LawfulEqCmp.eq_of_compare he).symm]
      · next he =>
        refine hinputs i (Nat.lt_of_le_of_ne (Nat.le_of_lt_succ hi) ?_)
        rintro rfl
        exact he Std.ReflCmp.compare_self

structure Outputs (m : Manager) (u : Nat → Nat) (A : Nat → Bdd.Assignment) (n : Nat) (fs : List Ref)
    (st st' : Multiplexing) : Prop where
  le : st.graph ≤ st'.graph
  numInputs_eq : st'.graph.numInputs = st.graph.numInputs
  outputs : ∃ ss, st'.graph.outputs.toList = st.graph.outputs.toList ++ ss ∧
    List.Forall₂ (fun f s => st'.graph.Denotes s fun w => m.eval (A w) f) fs ss
  size_le : st'.graph.nodes.size + 3 * st.signals.size ≤ st.graph.nodes.size + 3 * st'.signals.size
  size_le_room : Descending u → st'.graph.nodes.size ≤ st.graph.nodes.size + fs.length * room n

theorem exists_outputs (hm : m.Ordered) (hw : Wiring u A n inputs) {fs : List Ref}
    (hfs : ∀ f ∈ fs, m.Holds f ∧ Reads m u n f) (hst : Kept m A st) (hn : st.graph.numInputs = n) :
    ∃ st', (fs.forM fun f => do
        let s ← multiplex m inputs (f.index + 1) f
        build (addOutput s) : MultiplexM PUnit).run st = .ok (⟨⟩, st') ∧ Kept m A st' ∧ Outputs m u A n fs st st' := by
  induction fs generalizing st with
  | nil =>
    exact ⟨st, rfl, hst, st.graph.le_refl, rfl, ⟨[], (List.append_nil _).symm, .nil⟩, Nat.le_refl _,
      fun _ => Nat.le_add_right _ _⟩
  | cons f fs ih =>
    obtain ⟨⟨hf, hreads⟩, hfs⟩ := List.forall_mem_cons.1 hfs
    obtain ⟨s, st₁, hok, hst₁, hgrows, hs, hvisits⟩ :=
      multiplexes_multiplex hm hw hf hreads hst hn (Nat.lt_succ_self _)
    let st₂ : Multiplexing := { st₁ with graph := ((addOutput s).run st₁.graph).2 }
    have hle₂ : st₁.graph ≤ st₂.graph := le_addOutput _ s
    have hst₂ : Kept m A st₂ :=
      ⟨wellFormed_addOutput hst₁.wellFormed s, hst₁.holds, fun i t ht => (hst₁.signals i t ht).mono hle₂⟩
    obtain ⟨st', hok', hst', hle', hin', ⟨ss, houtputs, hss⟩, hsize, hroom⟩ :=
      ih hfs hst₂ (hgrows.numInputs_eq.trans hn)
    have hle : st₁.graph ≤ st'.graph := le_trans hle₂ hle'
    refine ⟨st', ?_, hst', le_trans hgrows.le hle, hin'.trans hgrows.numInputs_eq,
      ⟨s :: ss, ?_, .cons (hs.mono hle) hss⟩, ?_, fun hu => ?_⟩
    · rw [List.forM, StateT.run_bind, StateT.run_bind, hok]
      exact hok'
    · rw [houtputs]
      show (st₁.graph.outputs.push s).toList ++ ss = _
      rw [Array.toList_push, hgrows.outputs_eq, List.append_assoc]
      rfl
    · have hsize₁ := hvisits.size_le
      change st'.graph.nodes.size + 3 * st₁.signals.size ≤ st₁.graph.nodes.size + 3 * st'.signals.size at hsize
      omega
    · have hroom₁ := hvisits.size_le_room hu n hreads
      have hroom : st'.graph.nodes.size ≤ st₁.graph.nodes.size + fs.length * room n := hroom hu
      rw [List.length_cons, Nat.add_one_mul]
      omega

/-- there is at most one signal for each node of the manager. -/
theorem Kept.size_signals_le (hst : Kept m A st) : st.signals.size ≤ m.nodes.size := by
  have hsub : st.signals.keys.toFinset ⊆ Finset.Ioc 0 m.nodes.size := by
    intro i hi
    obtain ⟨node, hnode⟩ := hst.holds i (Std.TreeMap.mem_keys.1 (List.mem_toFinset.1 hi))
    obtain ⟨j, hj, -⟩ := Storage.Table.value?_eq_some.1 hnode
    have hi : i = j + 1 := hj
    exact Finset.mem_Ioc.2 ⟨by omega, Storage.Table.le_size_of_value? hnode⟩
  have hcard := Finset.card_le_card hsub
  rwa [List.toFinset_card_of_nodup Std.TreeMap.nodup_keys, Std.TreeMap.length_keys, Nat.card_Ioc] at hcard

/-- the graph `g` has the functions of the diagrams `fs` as its outputs, and is not too large. -/
structure Draws (m : Manager) (u : Nat → Nat) (n : Nat) (A : Nat → Bdd.Assignment) (fs : List Ref) (g : Aig) :
    Prop where
  wellFormed : g.WellFormed
  numInputs_eq : g.numInputs = n
  outputs : List.Forall₂ (fun f s => g.Denotes s fun w => m.eval (A w) f) fs g.outputs.toList
  size_le : g.nodes.size ≤ 3 * m.nodes.size
  size_le_room : Descending u → g.nodes.size ≤ fs.length * room n

/-- **Graphs of diagrams** that depend on different variables. -/
theorem exists_ofDiagrams (hm : m.Ordered) (hu : ∀ i < n, ∀ j < n, u i = u j → i = j)
    (hvalue : ∀ w, ∀ i < n, A w (u i) = w.testBit i) {fs : List Ref} (hfs : ∀ f ∈ fs, m.Holds f ∧ Reads m u n f) :
    ∃ g, ofDiagrams m fs ((List.range n).map u) = .ok g ∧ Draws m u n A fs g := by
  obtain ⟨inputs, hrun, hinputs⟩ := exists_inputSignals n hu
  have hst : Kept m A ⟨{ empty with numInputs := n }, ∅⟩ :=
    ⟨wellFormed_empty n, fun i hi => by simp at hi, fun i s hs => by simp at hs⟩
  obtain ⟨st', hok, hst', -, hin, ⟨ss, houtputs, hss⟩, hsize, hroom⟩ := exists_outputs hm ⟨hinputs, hvalue⟩ hfs hst rfl
  have houtputs : st'.graph.outputs.toList = ss := houtputs
  refine ⟨st'.graph, ?_, hst'.wellFormed, hin, houtputs ▸ hss, ?_, fun hu => ?_⟩
  · rw [ofDiagrams, hrun]
    dsimp only
    rw [hok]
    rfl
  · have hsignals := hst'.size_signals_le
    simp only [empty, List.size_toArray, List.length_nil, Std.TreeMap.size_emptyc, Nat.mul_zero, Nat.zero_add] at hsize
    omega
  · simpa [empty] using hroom hu

section draws

variable {fs : List Ref} {g : Aig}

theorem Draws.closed (h : Draws m u n A fs g) (hnum : g.Numbered) : g.Closed := by
  refine ⟨h.wellFormed.causal hnum, fun s hs => ?_⟩
  obtain ⟨i, hi, rfl⟩ := List.getElem_of_mem hs
  exact ((List.forall₂_iff_get.1 h.outputs).2 i (h.outputs.length_eq ▸ hi) hi).within hnum

theorem Draws.map_eval_eq (h : Draws m u n A fs g) (hnum : g.Numbered) (w : Nat) :
    g.outputs.toList.map (g.eval w) = fs.map (m.eval (A w)) := by
  have houtputs := h.outputs
  clear h
  generalize g.outputs.toList = ss at houtputs
  induction houtputs with
  | nil => rfl
  | cons hs _ ih => rw [List.map_cons, List.map_cons, hs.eval hnum, ih]

theorem Draws.simulate_eq (h : Draws m u n A fs g) (hnum : g.Numbered) (w : Nat) :
    g.simulate w = .ok (Word.ofBits (fs.map (m.eval (A w)))) := by
  rw [(h.closed hnum).simulate_eq, h.map_eval_eq hnum]

end draws

end ReversibleLogic.Aig
