import ReversibleLogic.Proofs.Aig.Values

/-!
# Operations on graphs

Signals have 30 bits for the number of an input or of a node (`Numbered`). All that is said of the signals of a graph is
said under the condition that these suffice.

* `WellFormed` — nodes are reduced and refer to earlier ones, and `shared` finds exactly the nodes;
* `g ≤ g'` — inputs and nodes have been added, so signals keep their values (`Denotes.mono`); `Extending` operations do
  nothing else;
* `Denotes g s F` — the signal has the value `F w` on the input word `w`;
* `Gives g x k F` — the operation `x` adds at most `k` nodes, and its signal has the value `F`; `gives_and`, `gives_or`,
  `gives_xor`, `gives_mux`.
-/

namespace ReversibleLogic.Aig

variable {g g' g'' : Aig} {s a b : Signal} {F G H : Nat → Bool} {j k : Nat} {fanins : Fanins}

/-! ### graphs -/

/-- all inputs and nodes have signals of their own. -/
structure Numbered (g : Aig) : Prop where
  inputs : g.numInputs ≤ 2 ^ 30
  nodes : g.nodes.size < 2 ^ 30

/-- no rule folds the conjunction of the two signals, which are in the order of their words. -/
structure Reduced (fanins : Fanins) : Prop where
  lt : fanins.1.lt fanins.2 = true
  first : fanins.1.isConst = false
  second : fanins.2.isConst = false
  ne_not : fanins.1 ≠ fanins.2.not

/-- nodes are reduced and refer to inputs and to earlier nodes, and equal nodes are shared. -/
structure WellFormed (g : Aig) : Prop where
  causal : g.Numbered → Causal g.numInputs g.nodes.toList
  reduced : ∀ fanins ∈ g.nodes.toList, Reduced fanins
  shared : ∀ (fanins : Fanins) s, g.shared[keyOf fanins]? = some s ↔
    ∃ k, g.nodes.toList[k]? = some fanins ∧ s = .ofNode k

structure Extends (g g' : Aig) : Prop where
  numInputs_le : g.numInputs ≤ g'.numInputs
  nodes : ∃ more, g'.nodes.toList = g.nodes.toList ++ more

instance : LE Aig := ⟨Extends⟩

theorem le_refl (g : Aig) : g ≤ g := ⟨Nat.le_refl _, [], (List.append_nil _).symm⟩

theorem le_trans (h : g ≤ g') (h' : g' ≤ g'') : g ≤ g'' := by
  obtain ⟨hin, more, hmore⟩ := h
  obtain ⟨hin', more', hmore'⟩ := h'
  exact ⟨hin.trans hin', more ++ more', by rw [hmore', hmore, List.append_assoc]⟩

theorem size_le (h : g ≤ g') : g.nodes.size ≤ g'.nodes.size := by
  obtain ⟨-, more, hmore⟩ := h
  have := congrArg List.length hmore
  simp only [Array.length_toList, List.length_append] at this
  omega

theorem Numbered.of_le (h : g'.Numbered) (hle : g ≤ g') : g.Numbered :=
  ⟨hle.numInputs_le.trans h.inputs, (size_le hle).trans_lt h.nodes⟩

/-- the signal has the value `F w` on the input word `w`. -/
structure Denotes (g : Aig) (s : Signal) (F : Nat → Bool) : Prop where
  within : g.Numbered → s.Within g.numInputs g.nodes.size
  eval : g.Numbered → ∀ w, g.eval w s = F w

theorem Denotes.mono (h : g.Denotes s F) (hle : g ≤ g') : g'.Denotes s F := by
  have hsize := size_le hle
  refine ⟨fun hnum => ?_, fun hnum w => ?_⟩
  · exact (h.within (hnum.of_le hle)).mono hle.numInputs_le hsize
  · obtain ⟨more, hmore⟩ := hle.nodes
    rw [← h.eval (hnum.of_le hle) w, Aig.eval, Aig.eval, hmore]
    exact (h.within (hnum.of_le hle)).value_congr fun n hn => bit_append w more (by simpa using hn)

theorem Denotes.congr (h : g.Denotes s F) (hFG : ∀ w, F w = G w) : g.Denotes s G :=
  ⟨h.within, fun hnum w => (h.eval hnum w).trans (hFG w)⟩

theorem eval_not (g : Aig) (w : Nat) (s : Signal) : g.eval w s.not = !g.eval w s := Signal.value_not w _ s

theorem eval_zero (g : Aig) (w : Nat) : g.eval w .zero = false := Signal.value_zero w _

theorem eval_one (g : Aig) (w : Nat) : g.eval w .one = true := Signal.value_one w _

theorem Denotes.not (h : g.Denotes s F) : g.Denotes s.not fun w => !F w :=
  ⟨fun hnum => (h.within hnum).not, fun hnum w => by rw [eval_not, h.eval hnum]⟩

theorem denotes_zero (g : Aig) : g.Denotes .zero fun _ => false :=
  ⟨fun _ => Signal.within_of_constant Signal.source_zero, fun _ => g.eval_zero⟩

theorem denotes_one (g : Aig) : g.Denotes .one fun _ => true :=
  ⟨fun _ => Signal.within_of_constant Signal.source_one, fun _ => g.eval_one⟩

theorem denotes_ofInput {i : Nat} (hi : i < g.numInputs) : g.Denotes (.ofInput i) fun w => w.testBit i := by
  have hi' : g.Numbered → i < 2 ^ 30 := fun hnum => hi.trans_le hnum.inputs
  exact ⟨fun hnum => Signal.within_ofInput (hi' hnum) hi, fun hnum w => Signal.value_ofInput (hi' hnum) w _⟩

/-! ### inputs and outputs -/

theorem wellFormed_empty (n : Nat) : WellFormed { empty with numInputs := n } := by
  refine ⟨fun _ k fanins hk => ?_, fun fanins hfanins => ?_, fun fanins s => ?_⟩
  · cases hk
  · cases hfanins
  · rw [empty, Std.TreeMap.getElem?_emptyc]
    simp

theorem wellFormed_addInput (hg : g.WellFormed) : (addInput.run g).2.WellFormed := by
  refine ⟨fun hnum => ?_, hg.reduced, hg.shared⟩
  have hnum' : g.Numbered := ⟨(Nat.le_succ _).trans hnum.inputs, hnum.nodes⟩
  exact (hg.causal hnum').mono (Nat.le_succ _)

theorem le_addInput (g : Aig) : g ≤ (addInput.run g).2 := ⟨Nat.le_succ _, [], (List.append_nil _).symm⟩

theorem wellFormed_addOutput (hg : g.WellFormed) (s : Signal) : ((addOutput s).run g).2.WellFormed :=
  ⟨fun hnum => hg.causal ⟨hnum.inputs, hnum.nodes⟩, hg.reduced, hg.shared⟩

theorem le_addOutput (g : Aig) (s : Signal) : g ≤ ((addOutput s).run g).2 :=
  ⟨Nat.le_refl _, [], (List.append_nil _).symm⟩

/-! ### extensions -/

/-- the operation adds inputs and nodes, whatever its arguments are. -/
def Extending (x : AigM Signal) : Prop := ∀ g : Aig, g ≤ (x.run g).2

theorem extending_pure (s : Signal) : Extending (pure s) := le_refl

theorem Extending.bind {x : AigM Signal} {f : Signal → AigM Signal} (hx : Extending x) (hf : ∀ s, Extending (f s)) :
    Extending (x >>= f) := fun g => le_trans (hx g) (hf _ _)

theorem extending_share (fanins : Fanins) : Extending (share fanins) := by
  intro g
  unfold share
  simp only [StateT.run]
  split
  · exact le_refl g
  · exact ⟨Nat.le_refl _, [fanins], Array.toList_push⟩

theorem extending_and (a b : Signal) : Extending (and a b) := by
  unfold and
  split
  · exact extending_pure _
  split
  · exact extending_pure _
  split
  · exact extending_pure _
  · exact extending_share _

theorem extending_or (a b : Signal) : Extending (or a b) := (extending_and _ _).bind fun _ => extending_pure _

theorem extending_or_and (a b a' b' : Signal) : Extending (do
    let left ← and a b
    let right ← and a' b'
    or left right) :=
  (extending_and a b).bind fun _ => (extending_and a' b').bind fun _ => extending_or _ _

/-! ### computations -/

/-- nodes have been added, and nothing else. -/
structure Grows (g g' : Aig) : Prop where
  wellFormed : g'.WellFormed
  le : g ≤ g'
  numInputs_eq : g'.numInputs = g.numInputs
  outputs_eq : g'.outputs = g.outputs

theorem grows_refl (hg : g.WellFormed) : Grows g g := ⟨hg, g.le_refl, rfl, rfl⟩

theorem Grows.trans (h : Grows g g') (h' : Grows g' g'') : Grows g g'' :=
  ⟨h'.wellFormed, le_trans h.le h'.le, h'.numInputs_eq.trans h.numInputs_eq, h'.outputs_eq.trans h.outputs_eq⟩

/-- at most `k` nodes have been added, and nothing else. -/
structure Adds (g g' : Aig) (k : Nat) : Prop extends Grows g g' where
  size_le : g'.nodes.size ≤ g.nodes.size + k

theorem adds_refl (hg : g.WellFormed) (k : Nat) : Adds g g k := ⟨grows_refl hg, Nat.le_add_right _ _⟩

theorem Adds.trans (h : Adds g g' j) (h' : Adds g' g'' k) : Adds g g'' (j + k) :=
  ⟨h.toGrows.trans h'.toGrows, by have := h.size_le; have := h'.size_le; omega⟩

/-- from `g` the operation adds at most `k` nodes, and its signal has the value `F`. -/
def Gives (g : Aig) (x : AigM Signal) (k : Nat) (F : Nat → Bool) : Prop :=
  Adds g (x.run g).2 k ∧ (x.run g).2.Denotes (x.run g).1 F

theorem gives_pure (hg : g.WellFormed) (hs : g.Denotes s F) : Gives g (pure s) k F := ⟨adds_refl hg k, hs⟩

theorem Gives.bind {x : AigM Signal} {f : Signal → AigM Signal} (hx : Gives g x j F)
    (hf : ∀ s g', Adds g g' j → g'.Denotes s F → Gives g' (f s) k G) : Gives g (x >>= f) (j + k) G := by
  obtain ⟨hadds, hs⟩ := hx
  obtain ⟨hadds', hs'⟩ := hf _ _ hadds hs
  exact ⟨hadds.trans hadds', hs'⟩

theorem Gives.congr {x : AigM Signal} (hx : Gives g x k F) (hFG : ∀ w, F w = G w) : Gives g x k G :=
  ⟨hx.1, hx.2.congr hFG⟩

/-! ### conjunctions -/

theorem keyOf_injective : Function.Injective keyOf := by
  rintro ⟨⟨a⟩, ⟨b⟩⟩ ⟨⟨a'⟩, ⟨b'⟩⟩ h
  obtain ⟨ha, hb⟩ := Prod.ext_iff.1 h
  obtain rfl := UInt32.toNat_inj.1 ha
  obtain rfl := UInt32.toNat_inj.1 hb
  rfl

theorem denotes_ofNode (hg : g.WellFormed) (hk : g.nodes.toList[k]? = some fanins) :
    g.Denotes (.ofNode k) fun w => meet w (bit w g.nodes.toList) fanins := by
  have hlt : k < g.nodes.size := by simpa using (List.getElem?_eq_some_iff.1 hk).1
  have hk' : g.Numbered → k + 1 < 2 ^ 30 := fun hnum => (Nat.succ_le_of_lt hlt).trans_lt hnum.nodes
  refine ⟨fun hnum => Signal.within_ofNode (hk' hnum) hlt, fun hnum w => ?_⟩
  rw [Aig.eval, Signal.value_ofNode (hk' hnum), (hg.causal hnum).bit_eq hk]

theorem wellFormed_push (hg : g.WellFormed) (hfanins : Reduced fanins)
    (h₁ : g.Numbered → fanins.1.Within g.numInputs g.nodes.size)
    (h₂ : g.Numbered → fanins.2.Within g.numInputs g.nodes.size) (hnew : g.shared[keyOf fanins]? = none) :
    WellFormed { g with
      nodes := g.nodes.push fanins
      shared := g.shared.insert (keyOf fanins) (.ofNode g.nodes.size) } := by
  have hnodes : (g.nodes.push fanins).toList = g.nodes.toList ++ [fanins] := Array.toList_push
  refine ⟨fun hnum => ?_, fun other hother => ?_, fun other s => ?_⟩
  · have hnum' : g.Numbered := hnum.of_le ⟨Nat.le_refl _, [fanins], hnodes⟩
    show Causal g.numInputs (g.nodes.push fanins).toList
    rw [hnodes]
    exact (hg.causal hnum').concat (by simpa using h₁ hnum') (by simpa using h₂ hnum')
  · rw [hnodes, List.mem_append, List.mem_singleton] at hother
    rcases hother with hother | rfl
    · exact hg.reduced other hother
    · exact hfanins
  · show (g.shared.insert (keyOf fanins) (.ofNode g.nodes.size))[keyOf other]? = some s ↔
      ∃ k, (g.nodes.push fanins).toList[k]? = some other ∧ s = .ofNode k
    rw [hnodes, Std.TreeMap.getElem?_insert]
    split
    · next he =>
      obtain rfl := keyOf_injective (Std.LawfulEqCmp.eq_of_compare he)
      constructor
      · intro hs
        exact ⟨g.nodes.size, by simp, (Option.some.inj hs).symm⟩
      · rintro ⟨k, hk, rfl⟩
        rcases getElem?_concat_eq_some hk with ⟨-, hk⟩ | ⟨rfl, -⟩
        · have hs := (hg.shared fanins _).2 ⟨k, hk, rfl⟩
          rw [hnew] at hs
          cases hs
        · rw [Array.length_toList]
    · next he =>
      rw [hg.shared]
      refine exists_congr fun k => and_congr_left fun _ => ⟨fun hk => ?_, fun hk => ?_⟩
      · rw [List.getElem?_append_left (List.getElem?_eq_some_iff.1 hk).1, hk]
      · rcases getElem?_concat_eq_some hk with ⟨-, hk⟩ | ⟨-, rfl⟩
        · exact hk
        · exact absurd Std.ReflCmp.compare_self he

theorem gives_share (hg : g.WellFormed) (hreduced : Reduced (a, b)) (ha : g.Denotes a F) (hb : g.Denotes b G) :
    Gives g (share (a, b)) 1 fun w => F w && G w := by
  have hmeet : g.Numbered → ∀ w, meet w (bit w g.nodes.toList) (a, b) = (F w && G w) := fun hnum w => by
    rw [← ha.eval hnum, ← hb.eval hnum]
    rfl
  unfold Gives share
  simp only [StateT.run]
  cases hget : g.shared[keyOf (a, b)]? with
  | some s =>
    obtain ⟨k, hk, rfl⟩ := (hg.shared _ s).1 hget
    have hs := denotes_ofNode hg hk
    exact ⟨adds_refl hg 1, hs.within, fun hnum w => (hs.eval hnum w).trans (hmeet hnum w)⟩
  | none =>
    have hle : g ≤ { g with
        nodes := g.nodes.push (a, b)
        shared := g.shared.insert (keyOf (a, b)) (.ofNode g.nodes.size) } :=
      ⟨Nat.le_refl _, [(a, b)], Array.toList_push⟩
    have hg' := wellFormed_push hg hreduced ha.within hb.within hget
    have hs := denotes_ofNode (k := g.nodes.size) hg' (show _ = some (a, b) by simp)
    refine ⟨⟨⟨hg', hle, rfl, rfl⟩, Nat.le_of_eq (Array.size_push _)⟩, hs.within, fun hnum w => ?_⟩
    rw [hs.eval hnum, meet]
    exact congrArg₂ _ ((ha.mono hle).eval hnum w) ((hb.mono hle).eval hnum w)

/-- the fanins of a conjunction that is not folded. -/
theorem reduced_ordered (ha : a.isConst = false) (hb : b.isConst = false) (hne : a ≠ b) (hnot : a ≠ b.not) :
    Reduced (if a.lt b then (a, b) else (b, a)) := by
  split
  · next hlt => exact ⟨hlt, ha, hb, hnot⟩
  · next hlt =>
    refine ⟨(Signal.lt_or_lt hne).resolve_left hlt, hb, ha, fun he => hnot ?_⟩
    have hnot : b = a.not := he
    rw [hnot, Signal.not_not]

/-- **Conjunction.** -/
theorem gives_and (hg : g.WellFormed) (ha : g.Denotes a F) (hb : g.Denotes b G) :
    Gives g (and a b) 1 fun w => F w && G w := by
  unfold and
  split
  · next hcase =>
    refine gives_pure hg ⟨(denotes_zero g).within, fun hnum w => ?_⟩
    rw [eval_zero, ← ha.eval hnum, ← hb.eval hnum]
    rcases hcase with rfl | rfl | rfl <;> simp [eval_zero, eval_not]
  next hcase =>
  obtain ⟨ha₀, hb₀, hnot⟩ : a ≠ .zero ∧ b ≠ .zero ∧ a ≠ b.not := by simpa only [not_or] using hcase
  split
  · next hcase =>
    refine gives_pure hg ⟨hb.within, fun hnum w => ?_⟩
    rw [← ha.eval hnum, ← hb.eval hnum]
    rcases hcase with rfl | rfl <;> simp [eval_one]
  next hcase =>
  obtain ⟨ha₁, hne⟩ := not_or.1 hcase
  split
  · next hcase =>
    refine gives_pure hg ⟨ha.within, fun hnum w => ?_⟩
    rw [← ha.eval hnum, ← hb.eval hnum, hcase, eval_one, Bool.and_true]
  · next hb₁ =>
    have hreduced := reduced_ordered (Signal.isConst_eq_false ha₀ ha₁) (Signal.isConst_eq_false hb₀ hb₁) hne hnot
    cases hlt : a.lt b with
    | true =>
      rw [if_pos hlt] at hreduced
      exact gives_share hg hreduced ha hb
    | false =>
      rw [if_neg (Bool.eq_false_iff.1 hlt)] at hreduced
      exact (gives_share hg hreduced hb ha).congr fun w => Bool.and_comm _ _

/-! ### other connectives -/

/-- **Disjunction.** -/
theorem gives_or (hg : g.WellFormed) (ha : g.Denotes a F) (hb : g.Denotes b G) :
    Gives g (or a b) 1 fun w => F w || G w := by
  refine (gives_and hg ha.not hb.not).bind fun s g' hadds hs =>
    gives_pure (k := 0) hadds.wellFormed (hs.not.congr fun w => ?_)
  rw [Bool.not_and, Bool.not_not, Bool.not_not]

theorem gives_or_and {F' G' : Nat → Bool} {a' b' : Signal} (hg : g.WellFormed) (ha : g.Denotes a F)
    (hb : g.Denotes b G) (ha' : g.Denotes a' F') (hb' : g.Denotes b' G') :
    Gives g (do
      let left ← and a b
      let right ← and a' b'
      or left right) 3 fun w => F w && G w || F' w && G' w :=
  Gives.bind (j := 1) (k := 2) (gives_and hg ha hb) fun _ _ hadds₁ hx =>
    Gives.bind (j := 1) (k := 1) (gives_and hadds₁.wellFormed (ha'.mono hadds₁.le) (hb'.mono hadds₁.le))
      fun _ _ hadds₂ hy => gives_or hadds₂.wellFormed (hx.mono hadds₂.le) hy

/-- **Difference.** -/
theorem gives_xor (hg : g.WellFormed) (ha : g.Denotes a F) (hb : g.Denotes b G) :
    Gives g (xor a b) 3 fun w => F w ^^ G w := by
  refine (gives_or_and hg ha hb.not ha.not hb).congr fun w => ?_
  cases F w <;> cases G w <;> rfl

/-- **Multiplexers.** -/
theorem gives_mux (hg : g.WellFormed) (hs : g.Denotes s F) (ha : g.Denotes a G) (hb : g.Denotes b H) :
    Gives g (mux s a b) 3 fun w => if F w then G w else H w := by
  refine (gives_or_and hg hs ha hs.not hb).congr fun w => ?_
  cases F w <;> simp

/-! ### constants -/

theorem not_zero : Signal.zero.not = .one := by decide

theorem not_one : Signal.one.not = .zero := by decide

theorem and_zero (a : Signal) : and a .zero = pure .zero := if_pos (Or.inr (Or.inl rfl))

theorem and_one (a : Signal) : and a .one = pure a := by
  unfold and
  split
  · next hcase =>
    rw [not_one] at hcase
    rcases hcase with rfl | hone | rfl
    · rfl
    · exact absurd hone (by decide)
    · rfl
  split
  · next hcase => rw [or_self_iff.1 hcase]
  · rfl

theorem one_and (a : Signal) : and .one a = pure a := by
  unfold and
  split
  · next hcase =>
    rcases hcase with hone | rfl | hnot
    · exact absurd hone (by decide)
    · rfl
    · rw [← Signal.not_not a, ← hnot, not_one]
  · rfl

/-- a multiplexer between different constants needs no node. -/
theorem mux_constants (s : Signal) (b : Bool) :
    mux s (.ofBool b) (.ofBool !b) = pure (if b then s else s.not) := by
  unfold mux or
  cases b with
  | false =>
    show (and s .zero >>= fun left => and s.not .one >>= fun right => _) = pure s.not
    rw [and_zero, pure_bind, and_one, pure_bind, not_zero, one_and, pure_bind, Signal.not_not]
  | true =>
    show (and s .one >>= fun left => and s.not .zero >>= fun right => _) = pure s
    rw [and_one, pure_bind, and_zero, pure_bind, not_zero, and_one, pure_bind, Signal.not_not]

theorem gives_mux_constants (hg : g.WellFormed) (hs : g.Denotes s F) (b : Bool) :
    Gives g (mux s (.ofBool b) (.ofBool !b)) 0 fun w => if F w then b else !b := by
  rw [mux_constants]
  cases b with
  | false => exact gives_pure hg (hs.not.congr fun w => by cases F w <;> rfl)
  | true => exact gives_pure hg (hs.congr fun w => by cases F w <;> rfl)

end ReversibleLogic.Aig
