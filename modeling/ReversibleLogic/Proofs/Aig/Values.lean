import Mathlib.Data.List.Induction
import ReversibleLogic.Aig.Graph
import ReversibleLogic.Proofs.Aig.Signals
import ReversibleLogic.Proofs.Computation

/-!
# Values of the nodes of a graph

* `bits w nodes` — the values of the nodes on the input word `w`;
* `eval g w s` — the value of a signal on the input word `w`;
* `Causal inputs nodes` — every node refers to inputs and to earlier nodes;
* `Closed` — so does the whole graph, and its outputs refer to its inputs and nodes;
* `simulate_eq` — such a graph can be simulated, and has the values of its outputs.
-/

namespace ReversibleLogic.Aig

variable {w inputs k : Nat} {nodes more : List Fanins} {fanins : Fanins} {s : Signal} {g : Aig}

/-! ### nodes -/

/-- the conjunction of the fanins. -/
def meet (w : Nat) (v : Nat → Bool) (fanins : Fanins) : Bool := fanins.1.value w v && fanins.2.value w v

/-- the values of the nodes on the input word `w`, in order. -/
def bits (w : Nat) (nodes : List Fanins) : List Bool :=
  nodes.foldl (fun values fanins => values ++ [meet w (values.getD · false) fanins]) []

def bit (w : Nat) (nodes : List Fanins) (k : Nat) : Bool := (bits w nodes).getD k false

/-- every node refers to inputs and to earlier nodes only. -/
def Causal (inputs : Nat) (nodes : List Fanins) : Prop :=
  ∀ k (fanins : Fanins), nodes[k]? = some fanins → fanins.1.Within inputs k ∧ fanins.2.Within inputs k

theorem bits_concat (w : Nat) (nodes : List Fanins) (fanins : Fanins) :
    bits w (nodes ++ [fanins]) = bits w nodes ++ [meet w (bit w nodes) fanins] := by
  rw [bits, List.foldl_append]
  rfl

@[simp] theorem length_bits (w : Nat) (nodes : List Fanins) : (bits w nodes).length = nodes.length := by
  induction nodes using List.reverseRecOn with
  | nil => rfl
  | append_singleton nodes fanins ih => rw [bits_concat, List.length_append, List.length_append, ih]; rfl

/-- later nodes do not change the values of earlier ones. -/
theorem bit_append (w : Nat) (more : List Fanins) (hk : k < nodes.length) :
    bit w (nodes ++ more) k = bit w nodes k := by
  induction more using List.reverseRecOn with
  | nil => rw [List.append_nil]
  | append_singleton more fanins ih =>
    rw [← ih, ← List.append_assoc, bit, bits_concat, List.getD_append _ _ _ _ (by simp; omega)]
    rfl

theorem bit_concat (w : Nat) (nodes : List Fanins) (fanins : Fanins) :
    bit w (nodes ++ [fanins]) nodes.length = meet w (bit w nodes) fanins := by
  rw [bit, bits_concat, List.getD_append_right _ _ _ _ (by simp)]
  simp

theorem getElem?_concat_eq_some {last : Fanins} (h : (nodes ++ [last])[k]? = some fanins) :
    k < nodes.length ∧ nodes[k]? = some fanins ∨ k = nodes.length ∧ fanins = last := by
  rw [List.getElem?_append] at h
  split at h
  · next hlt => exact Or.inl ⟨hlt, h⟩
  · next hge =>
    rw [List.getElem?_singleton] at h
    split at h
    · next hk => exact Or.inr ⟨by omega, (Option.some.inj h).symm⟩
    · cases h

theorem Causal.mono (h : Causal inputs nodes) {inputs' : Nat} (hle : inputs ≤ inputs') : Causal inputs' nodes :=
  fun k fanins hk => ⟨(h k fanins hk).1.mono hle (Nat.le_refl k), (h k fanins hk).2.mono hle (Nat.le_refl k)⟩

theorem Causal.of_append (h : Causal inputs (nodes ++ more)) : Causal inputs nodes := by
  intro k fanins hk
  exact h k fanins (by rw [List.getElem?_append_left (List.getElem?_eq_some_iff.1 hk).1, hk])

theorem Causal.last (h : Causal inputs (nodes ++ [fanins])) :
    fanins.1.Within inputs nodes.length ∧ fanins.2.Within inputs nodes.length :=
  h nodes.length fanins (by simp)

theorem Causal.concat (h : Causal inputs nodes) (h₁ : fanins.1.Within inputs nodes.length)
    (h₂ : fanins.2.Within inputs nodes.length) : Causal inputs (nodes ++ [fanins]) := by
  intro k fanins' hk
  rcases getElem?_concat_eq_some hk with ⟨-, hk⟩ | ⟨rfl, rfl⟩
  · exact h k fanins' hk
  · exact ⟨h₁, h₂⟩

theorem meet_congr {v v' : Nat → Bool} (h₁ : fanins.1.Within inputs k) (h₂ : fanins.2.Within inputs k)
    (hv : ∀ j < k, v j = v' j) : meet w v fanins = meet w v' fanins := by
  rw [meet, meet, h₁.value_congr hv, h₂.value_congr hv]

/-- **Nodes are conjunctions** of their fanins. -/
theorem Causal.bit_eq (h : Causal inputs nodes) (hk : nodes[k]? = some fanins) (w : Nat) :
    bit w nodes k = meet w (bit w nodes) fanins := by
  induction nodes using List.reverseRecOn with
  | nil => simp at hk
  | append_singleton nodes last ih =>
    obtain ⟨h₁, h₂⟩ := h k fanins hk
    rcases getElem?_concat_eq_some hk with ⟨hlt, hk⟩ | ⟨rfl, rfl⟩
    · rw [bit_append w _ hlt, ih h.of_append hk]
      exact meet_congr h₁ h₂ fun j hj => (bit_append w _ (hj.trans hlt)).symm
    · rw [bit_concat]
      exact meet_congr h₁ h₂ fun j hj => (bit_append w _ hj).symm

/-! ### simulation -/

/-- the graph refers to its inputs and nodes only, and to earlier nodes from nodes. -/
structure Closed (g : Aig) : Prop where
  nodes : Causal g.numInputs g.nodes.toList
  outputs : ∀ s ∈ g.outputs.toList, s.Within g.numInputs g.nodes.size

theorem valueOf_eq {values : List Bool} (hs : s.Within inputs values.length) (w : Nat) :
    valueOf w values.toArray s = .ok (s.value w (values.getD · false)) := by
  unfold valueOf Signal.value
  cases hsource : s.source with
  | constant => simp [Signal.Source.value]
  | input i => rfl
  | node n =>
    have hn := hs.2 n hsource
    simp [Signal.Source.value, hn]

theorem conjunction_eq {values : List Bool} (h₁ : fanins.1.Within inputs values.length)
    (h₂ : fanins.2.Within inputs values.length) (w : Nat) :
    conjunction w values.toArray fanins = .ok (meet w (values.getD · false) fanins) := by
  rw [conjunction, valueOf_eq h₁, meet]
  cases fanins.1.value w (values.getD · false) with
  | false => rfl
  | true => exact valueOf_eq h₂ w

theorem nodeValues_eq (h : Causal g.numInputs g.nodes.toList) (w : Nat) :
    g.nodeValues w = .ok (bits w g.nodes.toList).toArray := by
  rw [nodeValues, ← Array.foldlM_toList]
  generalize g.nodes.toList = nodes at h
  induction nodes using List.reverseRecOn with
  | nil => rfl
  | append_singleton nodes fanins ih =>
    obtain ⟨h₁, h₂⟩ := h.last
    rw [List.foldlM_append, ih h.of_append, bits_concat]
    have hmeet : conjunction w (bits w nodes).toArray fanins = .ok (meet w (bit w nodes) fanins) :=
      conjunction_eq (by simpa using h₁) (by simpa using h₂) w
    show ((do let v ← conjunction w (bits w nodes).toArray fanins; pure ((bits w nodes).toArray.push v)) >>= pure) = _
    rw [hmeet]
    exact congrArg Except.ok (List.push_toArray _ _)

/-- the value of a signal on the input word `w`. -/
def eval (g : Aig) (w : Nat) (s : Signal) : Bool := s.value w (bit w g.nodes.toList)

/-- **Simulation** of a closed graph. -/
theorem Closed.simulate_eq (h : g.Closed) (w : Nat) :
    g.simulate w = .ok (Word.ofBits (g.outputs.toList.map (g.eval w))) := by
  have hvalues : ∀ s ∈ g.outputs.toList, valueOf w (bits w g.nodes.toList).toArray s = .ok (g.eval w s) :=
    fun s hs => valueOf_eq (by simpa using h.outputs s hs) w
  rw [simulate, nodeValues_eq h.nodes, ok_bind, mapM_eq_ok hvalues]
  rfl

end ReversibleLogic.Aig
