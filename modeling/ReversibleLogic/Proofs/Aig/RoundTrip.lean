import ReversibleLogic.Proofs.Aig.Built
import ReversibleLogic.Proofs.Aig.Diagrams
import ReversibleLogic.Proofs.Bdd.Reached
import ReversibleLogic.Proofs.Bdd.Support
import ReversibleLogic.Proofs.Bdd.Tables

/-!
# Diagrams of graphs

* `DenotesNodes m vars nodes k fs` — the references have the values of the first `k` nodes, input `i` being the variable
  `vars[i]`;
* `yields_toDiagrams` — the diagrams of a graph have the values of its outputs;
* `diagrams_of_graphs` — the graph of some diagrams has these diagrams, and simulates their functions; the diagrams of
  any graph are those of the functions that it simulates;
* `diagrams_of_graphs_wrapped` — too many inputs for the words of signals.
-/

namespace ReversibleLogic.Aig

open Bdd (Assignment BddM Manager Ref Yields yields_pure yields_mapM yields_foldlM yields_conj yields_var wordAt
  testBit_wordAt spelling spelling_getElem Avoids Children childOf)

variable {m m' : Manager} {vars : List Nat} {nodes : List Fanins} {fs rs : List Ref} {r : Ref} {k n : Nat} {s : Signal}
  {g : Aig}

/-! ### diagrams of nodes -/

/-- the references have the values of the first `k` nodes. -/
structure DenotesNodes (m : Manager) (vars : List Nat) (nodes : List Fanins) (k : Nat) (fs : Array Ref) : Prop where
  size : fs.size = k
  node : ∀ (n : Nat) f, fs[n]? = some f → m.Denotes f fun a => bit (wordAt vars a) nodes n

theorem DenotesNodes.mono {fs : Array Ref} (h : DenotesNodes m vars nodes k fs) (hm : m.Ordered) (hle : m ≤ m') :
    DenotesNodes m' vars nodes k fs :=
  ⟨h.size, fun n f hf => (h.node n f hf).mono hm hle⟩

/-- **Signals** have the references of their inputs and nodes. -/
theorem yields_refOf (h : m.WellFormed) (hvars : ∀ v ∈ vars, 0 < v ∧ v ≤ Bdd.maxVariable) {fs : Array Ref}
    (hfs : DenotesNodes m vars nodes k fs) (hs : s.Within vars.length k) :
    Yields m (refOf vars.toArray fs s) fun r m' =>
      m'.Denotes r fun a => s.value (wordAt vars a) (bit (wordAt vars a) nodes) := by
  -- the reference of the source gets the sign of the signal
  have hsigned : ∀ {x : BddM Ref}, (Yields m x fun r m' => m'.Denotes r fun a =>
      s.source.value (wordAt vars a) (bit (wordAt vars a) nodes)) →
      Yields m (x >>= fun f => pure (f.negateIf s.isNegated)) fun r m' =>
        m'.Denotes r fun a => s.value (wordAt vars a) (bit (wordAt vars a) nodes) := fun hx =>
    hx.bind fun r m' h' _ hr => yields_pure h' ((hr.negateIf s.isNegated).congr fun a => Bool.xor_comm _ _)
  unfold refOf
  cases hsource : s.source with
  | constant =>
    refine hsigned (yields_pure h (h.denotes_zero.congr fun a => ?_))
    rw [hsource, Signal.Source.value]
  | input i =>
    have hi := hs.1 i hsource
    have hv := hvars vars[i] (List.getElem_mem hi)
    simp only [List.getElem?_toArray, List.getElem?_eq_getElem hi]
    refine hsigned ((yields_var h hv.1 (Nat.lt_succ_of_le hv.2)).imp fun r m' _ _ hr => hr.congr fun a => ?_)
    rw [hsource, Signal.Source.value, testBit_wordAt hi]
  | node n =>
    have hn : n < fs.size := hfs.size ▸ hs.2 n hsource
    simp only [Array.getElem?_eq_getElem hn]
    refine hsigned (yields_pure h ((hfs.node n _ (Array.getElem?_eq_getElem hn)).congr fun a => ?_))
    rw [hsource, Signal.Source.value]

theorem yields_nodes (h : m.WellFormed) (hvars : ∀ v ∈ vars, 0 < v ∧ v ≤ Bdd.maxVariable)
    (hnodes : Causal vars.length nodes) :
    Yields m (nodes.foldlM (fun (fs : Array Ref) (a, b) => do
        let f ← refOf vars.toArray fs a
        let h ← refOf vars.toArray fs b
        return fs.push (← Bdd.conj f h)) #[]) fun fs m' => DenotesNodes m' vars nodes nodes.length fs := by
  refine yields_foldlM h (I := fun k fs m' => DenotesNodes m' vars nodes k fs) ⟨rfl, fun n f hf => by simp at hf⟩ ?_
  rintro k ⟨a, b⟩ hk fs m₁ h₁ - hfs
  obtain ⟨ha, hb⟩ := hnodes k _ hk
  refine (yields_refOf h₁ hvars hfs ha).bind fun f m₂ h₂ hle₂ hf => ?_
  refine (yields_refOf h₂ hvars (hfs.mono h₁.toOrdered hle₂) hb).bind fun h m₃ h₃ hle₃ hh => ?_
  refine (yields_conj h₃ (hf.mono h₂.toOrdered hle₃) hh).bind fun r m₄ h₄ hle₄ hr =>
    yields_pure h₄ ⟨?_, fun n f hn => ?_⟩
  · rw [Array.size_push, hfs.size]
  · have hle := Manager.le_trans hle₂ (Manager.le_trans hle₃ hle₄)
    rw [Array.getElem?_push, hfs.size] at hn
    split at hn
    · next hnk =>
      obtain rfl := Option.some.inj hn
      subst hnk
      exact hr.congr fun a => (hnodes.bit_eq hk _).symm
    · exact (hfs.node n f hn).mono h₁.toOrdered hle

/-- **Diagrams of a graph** have the values of its outputs. -/
theorem yields_toDiagrams (h : m.WellFormed) (hg : g.Closed) (hlen : vars.length = g.numInputs)
    (hvars : ∀ v ∈ vars, 0 < v ∧ v ≤ Bdd.maxVariable) :
    Yields m (g.toDiagrams vars) fun rs m' =>
      List.Forall₂ (fun s r => m'.Denotes r fun a => g.eval (wordAt vars a) s) g.outputs.toList rs := by
  unfold toDiagrams
  rw [if_neg (not_not.2 hlen)]
  simp only [← Array.foldlM_toList]
  refine (yields_nodes h hvars (hlen ▸ hg.nodes)).bind fun fs m₁ h₁ hle₁ hfs => ?_
  refine yields_mapM h₁ (fun _ _ _ _ h' hle hr => hr.mono h'.toOrdered hle) fun s hs m' h' hle => ?_
  rw [Array.length_toList] at hfs
  exact yields_refOf h' hvars (hfs.mono h₁.toOrdered hle) (hlen ▸ hg.outputs s hs)

/-! ### graphs of diagrams -/

/-- diagrams of the variables have the same value under all assignments that spell the word. -/
theorem eval_spelling (hm : m.Ordered) (hnodup : vars.Nodup) {f : Ref} (hf : m.Holds f) (hsub : Avoids m f (· ∉ vars))
    {w : Nat} {a : Assignment} (ha : ∀ i v, vars[i]? = some v → a v = w.testBit i) :
    m.eval (spelling vars w) f = m.eval a f := by
  refine hf.denotes.dependsOn hm (fun v hv => hsub.ignores hm hf hv) _ _ fun v hv => ?_
  obtain ⟨i, hi, rfl⟩ := List.getElem_of_mem hv
  rw [ha i _ (List.getElem?_eq_getElem hi), spelling_getElem hnodup w hi]

/-- **Graphs of diagrams** whose variables are listed. -/
theorem exists_draws (hm : m.Ordered) (hnodup : vars.Nodup) (hfs : ∀ f ∈ fs, m.Holds f ∧ Avoids m f (· ∉ vars)) :
    ∃ g, ofDiagrams m fs vars = .ok g ∧ Draws m (vars.getD · 0) vars.length (spelling vars) fs g := by
  have hget : ∀ {i : Nat} (hi : i < vars.length), vars.getD i 0 = vars[i] := fun hi => List.getD_eq_getElem _ _ hi
  have hvars : (List.range vars.length).map (vars.getD · 0) = vars := by
    refine List.ext_getElem (by simp) fun i _ hi => ?_
    rw [List.getElem_map, List.getElem_range, hget hi]
  have hinj : ∀ i < vars.length, ∀ j < vars.length, vars.getD i 0 = vars.getD j 0 → i = j := fun i hi j hj hij => by
    rwa [hget hi, hget hj, hnodup.getElem_inj_iff] at hij
  have hvalue : ∀ w, ∀ i < vars.length, spelling vars w (vars.getD i 0) = w.testBit i := fun w i hi => by
    rw [hget hi, spelling_getElem hnodup w hi]
  have hreads : ∀ f ∈ fs, m.Holds f ∧ Reads m (vars.getD · 0) vars.length f := by
    intro f hf
    obtain ⟨hholds, hsub⟩ := hfs f hf
    refine ⟨hholds, fun v hv => ?_⟩
    obtain ⟨i, hi, rfl⟩ := List.getElem_of_mem (not_not.1 (mt (hsub.ignores hm hholds) hv))
    exact ⟨i, hi, (hget hi).symm⟩
  obtain ⟨g, hok, hg⟩ := exists_ofDiagrams hm hinj hvalue hreads
  exact ⟨g, hvars ▸ hok, hg⟩

theorem yields_toDiagrams_of_draws (h : m'.WellFormed) (hm : m.Ordered) (hle : m ≤ m') (hnodup : vars.Nodup)
    (hvars : ∀ v ∈ vars, 0 < v ∧ v ≤ Bdd.maxVariable) (hfs : ∀ f ∈ fs, m.Holds f ∧ Avoids m f (· ∉ vars))
    (hg : Draws m (vars.getD · 0) vars.length (spelling vars) fs g) (hnum : g.Numbered) :
    Yields m' (g.toDiagrams vars) fun rs _ => rs = fs := by
  refine (yields_toDiagrams h (hg.closed hnum) hg.numInputs_eq.symm hvars).imp fun rs m'' h'' hle' hrs => ?_
  have houtputs := hg.outputs
  clear hg
  generalize g.outputs.toList = ss at houtputs hrs
  induction houtputs generalizing rs with
  | nil => exact List.forall₂_nil_left_iff.1 hrs
  | @cons f s fs ss hs _ ih =>
    obtain ⟨⟨hf, hsub⟩, hfs⟩ := List.forall_mem_cons.1 hfs
    cases hrs with
    | cons hr hrs =>
      have hrf := hr.congr (G := (m.eval · f)) fun a => by
        refine (hs.eval hnum _).trans (eval_spelling hm hnodup hf hsub fun i v hi => ?_)
        obtain ⟨hlt, rfl⟩ := List.getElem?_eq_some_iff.1 hi
        exact (testBit_wordAt hlt a).symm
      rw [hrf.unique h''.toOrdered (hf.denotes.mono hm (Manager.le_trans hle hle')), ih hfs _ hrs]

/-! ### graphs built by operations -/

/-- a diagram has the function of an output if and only if it is the reference for it. -/
theorem eq_iff_of_simulate (hm : m.Ordered) (hg : g.Closed) {j : Nat} {f r : Ref} (hs : g.outputs.toList[j]? = some s)
    (hf : m.Denotes f fun a => g.eval (wordAt vars a) s) :
    r = f ↔ m.Holds r ∧ ∀ a, ∃ y, g.simulate (wordAt vars a) = .ok y ∧ m.eval a r = y.testBit j := by
  have hbit : ∀ a, (Word.ofBits (g.outputs.toList.map (g.eval (wordAt vars a)))).testBit j =
      g.eval (wordAt vars a) s := fun a => by
    rw [Word.testBit_ofBits, List.getD_eq_getElem?_getD, List.getElem?_map, hs]
    rfl
  constructor
  · rintro rfl
    exact ⟨hf.holds, fun a => ⟨_, hg.simulate_eq _, by rw [hf.eval, hbit]⟩⟩
  · rintro ⟨hr, hy⟩
    refine Manager.Denotes.unique ⟨hr, fun a => ?_⟩ hm hf
    obtain ⟨y, hok, hy⟩ := hy a
    rw [hg.simulate_eq] at hok
    cases hok
    rw [hy, hbit]

/-- **Diagrams and graphs.** In a reachable manager, the graph of diagrams with listed variables has an input for each
of them. If its inputs and nodes have signals of their own, then its diagrams are the given ones, now and later, and it
simulates their functions. The diagrams of a graph built by operations, again with signals of their own for its inputs
and nodes, are the references for the functions that it simulates. -/
theorem diagrams_of_graphs (hm : Bdd.Reached m) :
    (∀ fs vars, (∀ f ∈ fs, m.Holds f ∧ Avoids m f (· ∉ vars)) → vars.Nodup → (∀ v ∈ vars, 0 < v ∧ v ≤ Bdd.maxVariable) →
      ∃ g, ofDiagrams m fs vars = .ok g ∧ g.numInputs = vars.length ∧ g.nodes.size ≤ 3 * m.nodes.size ∧ (g.Numbered →
        (∀ m', Bdd.Reached m' → m ≤ m' → Yields m' (g.toDiagrams vars) fun rs _ => rs = fs) ∧
        ∀ w a, (∀ (i : Nat) v, vars[i]? = some v → a v = w.testBit i) →
          g.simulate w = .ok (Word.ofBits (fs.map (m.eval a))))) ∧
      ∀ g rs vars, Built g rs → g.Numbered → vars.length = g.numInputs → vars.Nodup →
        (∀ v ∈ vars, 0 < v ∧ v ≤ Bdd.maxVariable) →
        Yields m (g.toDiagrams vars) fun fs m' => fs.length = g.outputs.size ∧
          ∀ (j : Nat) f, fs[j]? = some f → ∀ r,
            r = f ↔ m'.Holds r ∧ ∀ a, ∃ y, g.simulate (wordAt vars a) = .ok y ∧ m'.eval a r = y.testBit j := by
  have h := Bdd.wellFormed_of_reached hm
  refine ⟨fun fs vars hfs hnodup hvars => ?_, fun g rs vars hg hnum hlen _ hvars => ?_⟩
  · obtain ⟨g, hok, hg⟩ := exists_draws h.toOrdered hnodup hfs
    refine ⟨g, hok, hg.numInputs_eq, hg.size_le, fun hnum => ⟨fun m' hm' hle => ?_, fun w a ha => ?_⟩⟩
    · exact yields_toDiagrams_of_draws (Bdd.wellFormed_of_reached hm') h.toOrdered hle hnodup hvars hfs hg hnum
    · rw [hg.simulate_eq hnum]
      refine congrArg (fun bs => Except.ok (Word.ofBits bs)) (List.map_congr_left fun f hf => ?_)
      exact eval_spelling h.toOrdered hnodup (hfs f hf).1 (hfs f hf).2 ha
  · have hclosed := (hg.sound hnum).closed
    refine (yields_toDiagrams h hclosed hlen hvars).imp fun fs m' h' _ hfs => ⟨?_, fun j f hj r => ?_⟩
    · rw [← hfs.length_eq, Array.length_toList]
    · obtain ⟨hlt, rfl⟩ := List.getElem?_eq_some_iff.1 hj
      have hlt' : j < g.outputs.toList.length := hfs.length_eq ▸ hlt
      exact eq_iff_of_simulate h'.toOrdered hclosed (List.getElem?_eq_getElem hlt')
        ((List.forall₂_iff_get.1 hfs).2 j hlt' hlt)

theorem diagrams_of_graphs_difference : ∃ m r, Bdd.Reached m ∧ (m.Denotes r fun a => a 1 != a 2) ∧
    ∃ g, ofDiagrams m [r] [2, 1] = .ok g ∧ (Yields m (g.toDiagrams [2, 1]) fun rs _ => rs = [r]) ∧
      g.simulate 1 = .ok 1 ∧ g.simulate 3 = .ok 0 := by
  obtain ⟨m, r, hm, hr⟩ := Bdd.exists_reached_difference
  have hfs : ∀ f ∈ [r], m.Holds f ∧ Avoids m f (· ∉ [2, 1]) := by
    rw [List.forall_mem_singleton]
    exact ⟨hr.holds, Bdd.avoids_difference hm.ordered hr fun v hv => by simpa [and_comm] using hv⟩
  have hnodup : [2, 1].Nodup := by decide
  have hvars : ∀ v ∈ [2, 1], 0 < v ∧ v ≤ Bdd.maxVariable :=
    List.forall_mem_cons.2 ⟨⟨by decide, by decide⟩, List.forall_mem_singleton.2 ⟨by decide, by decide⟩⟩
  obtain ⟨g, hok, hin, -, hg⟩ := (diagrams_of_graphs hm).1 [r] [2, 1] hfs hnodup hvars
  have hnum : g.Numbered := by
    obtain ⟨g', hok', hg'⟩ := exists_draws hm.ordered hnodup hfs
    obtain rfl : g' = g := Except.ok.inj (hok'.symm.trans hok)
    have hsize : g'.nodes.size ≤ 1 * room 2 := hg'.size_le_room fun i j hij => by
      rcases i with _ | _ | i <;> rcases j with _ | _ | j <;> simp at hij ⊢
    exact ⟨hin.trans_le (by decide), hsize.trans_lt (by decide)⟩
  obtain ⟨hback, hsimulate⟩ := hg hnum
  refine ⟨m, r, hm, hr, g, hok, hback m hm m.le_refl, ?_, ?_⟩
  · rw [hsimulate 1 (fun v => v == 2), List.map_singleton, hr.eval]
    · rfl
    · rintro (_ | _ | i) v hv <;> simp at hv <;> subst hv <;> rfl
  · rw [hsimulate 3 (fun v => true), List.map_singleton, hr.eval]
    · rfl
    · rintro (_ | _ | i) v hv <;> simp at hv <;> rfl

/-! ### signals that stand for two inputs -/

theorem exists_children_of_variable (h : m.WellFormed) {v : Nat} (hr : m.Denotes r fun a => a v) :
    r.index ≠ 1 ∧ r.isNegated = false ∧
      ∃ node, Children m r node ∧ node.var = v ∧ childOf r node false = .zero ∧ childOf r node true = .one := by
  have hm := h.toOrdered
  have hi : r.index ≠ 1 := fun hi => by
    have hconst : ∀ b, b = !r.isNegated := fun b => (hr.eval fun _ => b).symm.trans (Manager.eval_terminal hi)
    exact Bool.noConfusion ((hconst true).trans (hconst false).symm)
  obtain ⟨node, hc⟩ := Bdd.exists_children hm hr.holds hi
  -- the function depends on no other variable
  have hvar : node.var = v := by
    by_contra hne
    refine Manager.not_ignores_level hm hr.holds hi (hr.ignores_iff.1 fun a b => ?_)
    exact Function.update_of_ne (hc.level ▸ Ne.symm hne) b a
  have hchild : ∀ b, m.Denotes (childOf r node b) fun _ => b := fun b =>
    (hc.cofactor b).denotes.congr fun a => by rw [hr.eval, hvar, Function.update_self]
  have hlow : childOf r node false = .zero := (hchild false).unique hm h.denotes_zero
  have hhigh : childOf r node true = .one := (hchild true).unique hm h.denotes_one
  -- a high child carries no sign, so neither does the reference
  have hsign : r.isNegated = false := by
    have h := congrArg Ref.isNegated hhigh
    rwa [childOf, if_pos rfl, Ref.isNegated_negateIf hc.inner.high_holds.index_ne_zero, hc.inner.high_regular,
      Bool.xor_false] at h
  exact ⟨hi, hsign, node, hc, hvar, hlow, hhigh⟩

/-- the last of `n + 1` inputs as output. -/
def lastInput (n : Nat) : Aig :=
  { empty with numInputs := n + 1, outputs := #[.ofInput n] }

theorem ofDiagrams_variable (h : m.WellFormed) (hr : m.Denotes r fun a => a (n + 1)) :
    ofDiagrams m [r] ((List.range (n + 1)).map (· + 1)) = .ok (lastInput n) := by
  obtain ⟨hi, hsign, node, hc, hvar, hlow, hhigh⟩ := exists_children_of_variable h hr
  have hregular : r.regular = r := by rw [← r.negateIf_isNegated, hsign, Ref.negateIf, if_neg Bool.false_ne_true]
  obtain ⟨inputs, hrun, hinputs⟩ := exists_inputSignals (u := (· + 1)) (n + 1) fun i _ j _ hij => Nat.succ.inj hij
  obtain ⟨fuel, hfuel⟩ : ∃ fuel, r.index = fuel + 1 := Nat.exists_eq_succ_of_ne_zero hr.holds.index_ne_zero
  let st : Multiplexing := ⟨{ empty with numInputs := n + 1 }, ∅⟩
  have hnew : st.signals[r.index]? = none := Std.TreeMap.getElem?_emptyc
  have hselect : inputs[node.var]? = some (.ofInput n) := hvar ▸ hinputs n (Nat.lt_succ_self n)
  have hone : Ref.one.index = 1 := rfl
  have hzero : Ref.zero.index = 1 := rfl
  have hmux : mux (.ofInput n) (.ofBool !Ref.one.isNegated) (.ofBool !Ref.zero.isNegated) = pure (.ofInput n) :=
    mux_constants (.ofInput n) true
  have hwalk := multiplex_new hi hnew (hregular.symm ▸ hc) hselect (fuel + 1)
  rw [hregular, hlow, hhigh, multiplex_terminal hzero, multiplex_terminal hone, pure_bind, pure_bind, hmux, hsign,
    ← hfuel] at hwalk
  rw [ofDiagrams, hrun]
  dsimp only
  rw [List.forM, List.forM, StateT.run_bind, StateT.run_bind, hwalk]
  rfl

/-- if an input has the signal of the first one, the diagram of its variable comes back as the first variable. -/
theorem yields_toDiagrams_of_ofInput_eq (h : m.WellFormed)
    (hvars : ∀ v ∈ (List.range (n + 1)).map (· + 1), 0 < v ∧ v ≤ Bdd.maxVariable)
    (heq : Signal.ofInput n = .ofInput 0) :
    Yields m ((lastInput n).toDiagrams ((List.range (n + 1)).map (· + 1))) fun rs m' => ∃ r', rs = [r'] ∧ m'.Denotes r' fun a => a 1 := by
  have hclosed : (lastInput n).Closed := by
    refine ⟨fun k fanins hk => by simp [lastInput, empty] at hk, ?_⟩
    intro s hs
    obtain rfl : s = .ofInput n := by simpa [lastInput] using hs
    exact heq ▸ Signal.within_ofInput (by decide) (Nat.succ_pos n)
  refine (yields_toDiagrams h hclosed (by simp [lastInput]) hvars).imp fun rs m' h' _ hrs => ?_
  obtain ⟨r', rs, hr', hnil, rfl⟩ := List.forall₂_cons_left_iff.1 hrs
  obtain rfl := List.forall₂_nil_left_iff.1 hnil
  have hlen : 0 < ((List.range (n + 1)).map (· + 1)).length := by simp
  refine ⟨r', rfl, hr'.congr fun a => ?_⟩
  rw [heq, eval, Signal.value_ofInput (by decide), testBit_wordAt hlen, List.getElem_map, List.getElem_range]

theorem yields_ne_of_ofInput_eq (h : m.WellFormed) (hr : m.Denotes r fun a => a (n + 1)) (hn : 0 < n)
    (hvars : ∀ v ∈ (List.range (n + 1)).map (· + 1), 0 < v ∧ v ≤ Bdd.maxVariable)
    (heq : Signal.ofInput n = .ofInput 0) :
    Yields m ((lastInput n).toDiagrams ((List.range (n + 1)).map (· + 1))) fun rs _ => rs ≠ [r] := by
  refine (yields_toDiagrams_of_ofInput_eq h hvars heq).imp fun rs m' h' hle hrs => ?_
  obtain ⟨r', rfl, hr'⟩ := hrs
  intro hne
  obtain rfl := List.singleton_inj.1 hne
  have hvalues : (1 == 1) = (n + 1 == 1) :=
    (hr'.eval (· == 1)).symm.trans ((hr.mono h.toOrdered hle).eval (· == 1))
  exact hn.ne' (Nat.succ.inj (beq_iff_eq.1 hvalues.symm))

/-- input number 2³⁰ has the signal of the first input, so the diagram of its variable does not come back. -/
theorem diagrams_of_graphs_wrapped :
    let vars := (List.range (2 ^ 30 + 1)).map (· + 1)
    ∃ m r, Bdd.Reached m ∧ (m.Denotes r fun a => a (2 ^ 30 + 1)) ∧ Avoids m r (· ∉ vars) ∧ vars.Nodup ∧
      (∀ v ∈ vars, 0 < v ∧ v ≤ Bdd.maxVariable) ∧
      ∃ g, ofDiagrams m [r] vars = .ok g ∧ Yields m (g.toDiagrams vars) fun rs _ => rs ≠ [r] := by
  obtain ⟨m₀, hm₀⟩ : ∃ m₀, Manager.empty 4 = .ok m₀ := ⟨_, rfl⟩
  have hop : Bdd.Op.Allowed m₀ (.var (2 ^ 30 + 1)) := ⟨by decide, by decide⟩
  obtain ⟨r, m, hm, -, hr⟩ := (Bdd.Reached.empty hm₀).exists_run hop
  have hr : m.Denotes r fun a => a (2 ^ 30 + 1) := hr
  have h := Bdd.wellFormed_of_reached hm
  have hmax : 2 ^ 30 < Bdd.maxVariable := by decide
  have heq : Signal.ofInput (2 ^ 30) = .ofInput 0 := by decide
  have hn : 0 < 2 ^ 30 := Nat.two_pow_pos 30
  -- only the equality of the signals matters from here on
  generalize 2 ^ 30 = n at hr hmax heq hn ⊢
  intro vars
  have hvars : ∀ v ∈ vars, 0 < v ∧ v ≤ Bdd.maxVariable := by
    simp only [vars, List.forall_mem_map, List.mem_range]
    exact fun i hi => ⟨i.succ_pos, (Nat.succ_le_of_lt hi).trans hmax⟩
  have hmem : n + 1 ∈ vars := List.mem_map.2 ⟨n, List.mem_range.2 (Nat.lt_succ_self n), rfl⟩
  have havoids : Avoids m r (· ∉ vars) := hr.avoids h.toOrdered fun v hv a b =>
    Function.update_of_ne (fun hne : n + 1 = v => hv (hne ▸ hmem)) b a
  exact ⟨m, r, hm, hr, havoids, List.nodup_range.map fun _ _ => Nat.succ.inj, hvars, _, ofDiagrams_variable h hr,
    yields_ne_of_ofInput_eq h hr hn hvars heq⟩

end ReversibleLogic.Aig
