import ReversibleLogic.Proofs.Aig.Values
import ReversibleLogic.Proofs.Cnf.Cascades

/-!
# Graphs as clauses

* `defines_nodes` — the literals of the nodes hold the values of the nodes;
* `defines_encodeGraph` — the literals of the outputs hold the word that the simulation gives.
-/

namespace ReversibleLogic.Cnf

open Aig (Causal Closed bit bits)
open ReversibleLogic.Sat

variable {σ : Type} [Solver σ] [LawfulStore σ] {b : Builder σ} {F : Assignment → Nat} {inputs : Nat}
  {ins ls : List Literal} {nodes : List Fanins} {s : Signal} {g : Aig}

/-- **Signals** have the values of their inputs and nodes. -/
theorem defines_signalLiteral (h : b.theory.Good) (hins : b.theory.MeansWord inputs ins F)
    (hls : b.theory.MeansWord nodes.length ls fun a => Word.ofBits (bits (F a) nodes))
    (hs : s.Within inputs nodes.length) :
    Defines b (signalLiteral ins.toArray ls.toArray s) fun l T =>
      T.Means l fun a => s.value (F a) (bit (F a) nodes) := by
  have hsigned : ∀ {l : Literal} {T : Theory}, (T.Means l fun a => s.source.value (F a) (bit (F a) nodes)) →
      T.Means (if s.isNegated then -l else l) fun a => s.value (F a) (bit (F a) nodes) := by
    intro l T hl
    unfold Signal.value
    cases s.isNegated with
    | false => exact hl.congr fun a _ => by rw [Bool.xor_false]
    | true => exact hl.neg.congr fun a _ => by rw [Bool.xor_true]
  unfold signalLiteral
  cases hsource : s.source with
  | constant =>
    refine (defines_bottom h).bind fun l b' h' _ hl => defines_pure h' (hsigned (hl.congr ?_))
    intro a _
    rw [hsource, Signal.Source.value]
  | input i =>
    obtain ⟨l, hget, hl⟩ := exists_line hins (hs.1 i hsource)
    refine defines_bind_of_eq (literalAt_eq hget) (defines_pure h (hsigned (hl.congr ?_)))
    intro a _
    rw [hsource, Signal.Source.value]
  | node k =>
    obtain ⟨l, hget, hl⟩ := exists_line hls (hs.2 k hsource)
    refine defines_bind_of_eq (literalAt_eq hget) (defines_pure h (hsigned (hl.congr ?_)))
    intro a _
    rw [hsource, Signal.Source.value, Word.testBit_ofBits, bit]

theorem Theory.MeansWord.concat {T : Theory} {k : Nat} {bs : Assignment → List Bool} {f : Assignment → Bool}
    {l : Literal} (h : T.MeansWord k ls fun a => Word.ofBits (bs a)) (hbs : ∀ a, (bs a).length = k) (hl : T.Means l f) :
    T.MeansWord (k + 1) (ls ++ [l]) fun a => Word.ofBits (bs a ++ [f a]) := by
  refine Theory.meansWord_of_means (by simp [h.length]) (fun a _ => ?_) fun i l' hi => ?_
  · simpa [hbs] using Word.ofBits_lt (bs a ++ [f a])
  · rw [List.getElem?_append] at hi
    split at hi
    · next hlt =>
      refine (h.means hi).congr ?_
      intro a _
      rw [Word.testBit_ofBits, Word.testBit_ofBits, List.getD_append _ _ _ _ (by rw [hbs, ← h.length]; exact hlt)]
    · next hge =>
      rw [List.getElem?_singleton] at hi
      split at hi
      · next hlast =>
        have hik : i = k := by have := h.length; omega
        subst hik
        obtain rfl := Option.some.inj hi
        refine hl.congr ?_
        intro a _
        rw [Word.testBit_ofBits, List.getD_append_right _ _ _ _ (Nat.le_of_eq (hbs a)), hbs, Nat.sub_self]
        rfl
      · cases hi

/-- **Nodes** have the values of the conjunctions. -/
theorem defines_nodes (h : b.theory.Good) (hins : b.theory.MeansWord inputs ins F) (hnodes : Causal inputs nodes) :
    Defines b (nodes.foldlM (fun (ls : Array Literal) (fanins : Fanins) => do
        let x ← signalLiteral ins.toArray ls fanins.1
        let y ← signalLiteral ins.toArray ls fanins.2
        return ls.push (← and x y)) #[] : CnfM σ (Array Literal)) fun ls T =>
      T.MeansWord nodes.length ls.toList fun a => Word.ofBits (bits (F a) nodes) := by
  induction nodes using List.reverseRecOn with
  | nil => exact defines_pure h ⟨rfl, List.forall_mem_nil _, fun a _ => rfl⟩
  | append_singleton nodes fanins ih =>
    obtain ⟨h₁, h₂⟩ := hnodes.last
    rw [List.foldlM_append]
    refine (ih hnodes.of_append).bind fun ls b₁ hb₁ hle₁ hls => ?_
    rw [List.foldlM_cons, bind_assoc]
    refine (defines_signalLiteral hb₁ (hins.mono hle₁) hls h₁).bind fun x b₂ hb₂ hle₂ hx => ?_
    rw [bind_assoc]
    refine (defines_signalLiteral hb₂ (hins.mono (Theory.le_trans hle₁ hle₂)) (hls.mono hle₂) h₂).bind
      fun y b₃ hb₃ hle₃ hy => ?_
    rw [bind_assoc]
    refine (defines_and hb₃ (hx.knows.mono hle₃) hy.knows).bind fun z b₄ hb₄ hle₄ hz => ?_
    have hle := Theory.le_trans hle₂ (Theory.le_trans hle₃ hle₄)
    have hz' : b₄.theory.Means z fun a => Aig.meet (F a) (bit (F a) nodes) fanins := by
      refine hz.congr ?_
      intro a ha
      have ha₃ := hle₄.sound a ha
      rw [hx.eval a (hle₃.sound a ha₃), hy.eval a ha₃, Aig.meet]
    refine defines_pure hb₄ ?_
    rw [Array.toList_push, List.length_append, List.length_singleton]
    refine ((hls.mono hle).concat (fun a => Aig.length_bits _ _) hz').congr ?_
    intro a _
    rw [Aig.bits_concat]

/-- **Graphs.** The literals of the outputs hold the output word. -/
theorem defines_encodeGraph (h : b.theory.Good) (hg : g.Closed) (hins : b.theory.MeansWord g.numInputs ins F)
    {G : Nat → Nat} (hG : ∀ x < 2 ^ g.numInputs, g.simulate x = .ok (G x)) :
    Defines b (encodeGraph g ins : CnfM σ (List Literal)) fun layer T =>
      T.MeansWord g.outputs.size layer fun a => G (F a) := by
  unfold encodeGraph
  rw [if_neg (not_not.2 hins.length)]
  simp only [← Array.foldlM_toList]
  refine (defines_nodes h hins hg.nodes).bind fun ls b₁ h₁ hle₁ hls => ?_
  have houtputs : Defines b₁ (g.outputs.toList.mapM (signalLiteral ins.toArray ls) : CnfM σ (List Literal))
      fun layer T => List.Forall₂ (fun (s : Signal) l => T.Means l fun a => g.eval (F a) s)
        g.outputs.toList layer := by
    refine defines_mapM h₁ (fun _ _ _ _ hle hl => hl.mono hle) ?_
    intro s hs b' h' hle'
    exact defines_signalLiteral h' (hins.mono (Theory.le_trans hle₁ hle')) (hls.mono hle') (hg.outputs s hs)
  refine houtputs.imp fun layer T _ hle hlayer => ?_
  have hword : ∀ a, T.IsModel a → G (F a) = Word.ofBits (g.outputs.toList.map (g.eval (F a))) := by
    intro a ha
    have hok := hG _ (hins.lt (hle₁.sound a (hle.sound a ha)))
    rw [hg.simulate_eq] at hok
    exact (Except.ok.inj hok).symm
  have hlen := hlayer.length_eq
  refine Theory.meansWord_of_means (by rw [← hlen, Array.length_toList]) (fun a ha => ?_) fun i l hi => ?_
  · rw [hword a ha]
    simpa using Word.ofBits_lt (g.outputs.toList.map (g.eval (F a)))
  · obtain ⟨hlt, rfl⟩ := List.getElem?_eq_some_iff.1 hi
    refine (List.forall₂_iff_get.1 hlayer).2 i (hlen.symm ▸ hlt) hlt |>.congr ?_
    intro a ha
    rw [hword a ha, Word.testBit_ofBits, List.getD_eq_getElem?_getD, List.getElem?_map,
      List.getElem?_eq_getElem (hlen.symm ▸ hlt)]
    rfl

end ReversibleLogic.Cnf
