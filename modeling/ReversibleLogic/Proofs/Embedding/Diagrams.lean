import ReversibleLogic.Proofs.Bdd.Enumeration
import ReversibleLogic.Proofs.Bdd.Tables
import ReversibleLogic.Proofs.Embedding.Tables

/-!
# Embeddings of diagrams

* `exists_freshVariables` — variables for the outputs, above all variables of the function;
* `graphOf`, `yields_agree` — the diagram that relates the inputs to these variables;
* `mem_image`, `graphOf_override` — its image has the output words, and a word leaves it the inputs that have it;
* `yields_additionalLinesOf` — so the counts are the multiplicities of the table;
* `SameEmbedding`, `SameLines` — the diagrams have the embedding of their table, and need the same lines if and only if
  there are variables for the outputs (`exists_sameEmbedding`, `additionalLinesOf_without_room`).
-/

namespace ReversibleLogic

open Bdd

variable {m : Manager} {f : Function} {n : Nat} {vars ys : List Nat} {W : Assignment → Nat} {C : Assignment → Bool}

/-! ### new variables -/

theorem exists_supports (hm : m.Ordered) {rs : List Ref} (hrs : ∀ r ∈ rs, m.Holds r ∧ DependsOn vars (m.eval · r)) :
    ∃ supports, (rs.mapM fun r => ask (·.support r)) m = .ok supports m ∧ ∀ v ∈ supports.flatten, v ∈ vars := by
  induction rs with
  | nil => exact ⟨[], rfl, by simp⟩
  | cons r rs ih =>
    obtain ⟨⟨hr, hdep⟩, hrs⟩ := List.forall_mem_cons.1 hrs
    obtain ⟨support, hsupport, -, hmem⟩ := support_sub hm hr (S := (· ∈ vars)) fun v hv => hdep.ignores hv
    obtain ⟨supports, hok, hmem'⟩ := ih hrs
    refine ⟨support :: supports, ?_, fun v hv => ?_⟩
    · rw [List.mapM_cons, bind_of_ok (ask_eq hsupport), bind_of_ok hok]
      rfl
    · rcases List.mem_append.1 (List.flatten_cons ▸ hv) with hv | hv
      · exact hmem v hv
      · exact hmem' v hv

/-- `n` variables in a row, above the variables `vars`. -/
structure Fresh (vars ys : List Nat) (n : Nat) : Prop where
  length : ys.length = n
  sorted : ys.Pairwise (· < ·)
  bound : ∀ y ∈ ys, 0 < y ∧ y < lastLevel
  above : ∀ y ∈ ys, ∀ v ∈ vars, v < y

theorem Fresh.not_mem (h : Fresh vars ys n) {y : Nat} (hy : y ∈ ys) : y ∉ vars := fun hv =>
  Nat.lt_irrefl y (h.above y hy y hv)

/-- new variables start above the largest input. -/
theorem exists_last (hm : m.Ordered)
    (hrs : ∀ r ∈ f.outputs ++ [f.care], m.Holds r ∧ DependsOn f.inputs (m.eval · r)) :
    ∃ last, (∀ v ∈ f.inputs, v ≤ last) ∧ (last = 0 ∨ last ∈ f.inputs) ∧
      ∀ n, freshVariables f n m = ask (fun _ => variablesFrom (last + 1) n) m := by
  obtain ⟨supports, hok, hsub⟩ := exists_supports hm hrs
  refine ⟨_, fun v hv => le_foldl_max (List.mem_append_right supports.flatten hv), ?_, fun n => bind_of_ok hok _⟩
  rcases foldl_max_mem (supports.flatten ++ f.inputs) with hzero | hmem
  · exact .inl hzero
  · exact .inr ((List.mem_append.1 hmem).elim (hsub _) id)

/-- **New variables** exist if the largest input leaves room for them. -/
theorem exists_freshVariables (hm : m.Ordered)
    (hrs : ∀ r ∈ f.outputs ++ [f.care], m.Holds r ∧ DependsOn f.inputs (m.eval · r)) (hn : n ≤ maxTableLines)
    (hroom : ∀ v ∈ f.inputs, v + max 1 n ≤ maxVariable) :
    ∃ ys, freshVariables f n m = .ok ys m ∧ Fresh f.inputs ys n := by
  obtain ⟨last, hle, hlast, hfresh⟩ := exists_last hm hrs
  have hbound : last + max 1 n ≤ maxVariable := by
    rcases hlast with rfl | hmem
    · have : max 1 maxTableLines ≤ maxVariable := by decide
      omega
    · exact hroom last hmem
  have hvariables : variablesFrom (last + 1) n = .ok ((List.range n).map (last + 1 + ·)) := if_neg (by omega)
  refine ⟨(List.range n).map (last + 1 + ·), (hfresh n).trans (ask_eq hvariables), ?_, ?_, fun y hy => ?_,
    fun y hy v hv => ?_⟩
  · simp
  · exact List.pairwise_map.2 (List.pairwise_lt_range.imp fun h => Nat.add_lt_add_left h _)
  · obtain ⟨j, hj, rfl⟩ := List.mem_map.1 hy
    have := List.mem_range.1 hj
    rw [lastLevel]
    omega
  · obtain ⟨j, -, rfl⟩ := List.mem_map.1 hy
    have := hle v hv
    omega

/-- without room, the numbers of the new variables overflow. -/
theorem exists_freshVariables_error (hm : m.Ordered)
    (hrs : ∀ r ∈ f.outputs ++ [f.care], m.Holds r ∧ DependsOn f.inputs (m.eval · r)) {v : Nat} (hv : v ∈ f.inputs)
    (hroom : maxVariable < v + max 1 n) : ∃ k, freshVariables f n m = .error (.misuse (.outOfRange k)) m := by
  obtain ⟨last, hle, -, hfresh⟩ := exists_last hm hrs
  have hv := hle v hv
  have hvariables : variablesFrom (last + 1) n = .error (.misuse (.outOfRange (last + 1 + n - 1))) :=
    if_pos (by omega)
  exact ⟨last + 1 + n - 1, by rw [hfresh, ask, hvariables]⟩

/-! ### the graph -/

/-- the inputs of the care set together with their output word. -/
def graphOf (W : Assignment → Nat) (C : Assignment → Bool) (ys : List Nat) (a : Assignment) : Bool :=
  C a && decide (wordAt ys a = W a)

section graph

variable (ht : Function.Tabular vars n W C) (hys : Fresh vars ys n)
include ht hys

omit ht in
theorem wordAt_eq_iff (hlt : ∀ a, W a < 2 ^ n) (a : Assignment) :
    ((List.range n).all fun j => a (ys.getD j 0) == (W a).testBit j) = decide (wordAt ys a = W a) := by
  rw [Bool.eq_iff_iff, List.all_eq_true, decide_eq_true_iff]
  have hbit : ∀ j < n, (wordAt ys a).testBit j = a (ys.getD j 0) := by
    intro j hj
    have hj' : j < ys.length := by rw [hys.length]; exact hj
    rw [testBit_wordAt hj', List.getD_eq_getElem?_getD, List.getElem?_eq_getElem hj', Option.getD_some]
  constructor
  · intro h
    refine Word.eq_of_testBit_lt (n := n) ?_ (hlt a) fun j hj => ?_
    · rw [← hys.length]
      exact wordAt_lt ys a
    · rw [hbit j hj]
      exact beq_iff_eq.1 (h j (List.mem_range.2 hj))
  · intro h j hj
    rw [← h, hbit j (List.mem_range.1 hj), beq_self_eq_true]

omit ht in
theorem yields_agree (hlt : ∀ a, W a < 2 ^ n) (hf : Function.Denotes m f vars n W C) (h : m.WellFormed) :
    Yields m (conjAll (List.zipWith (fun output y => do Bdd.iff (← var y) output) f.outputs ys)) fun r m' =>
      m'.Denotes r fun a => decide (wordAt ys a = W a) := by
  have hlen : (List.zipWith (fun output y => do Bdd.iff (← var y) output) f.outputs ys).length = n := by
    simp [hf.outputs.length, hys.length]
  have heach : YieldsEach m (List.zipWith (fun output y => do Bdd.iff (← var y) output) f.outputs ys)
      ((List.range n).map fun j a => a (ys.getD j 0) == (W a).testBit j) := by
    refine List.forall₂_iff_get.2 ⟨by simpa using hlen, fun j hj hj' m' h' hle => ?_⟩
    have hr : j < f.outputs.length := by rw [hf.outputs.length, ← hlen]; exact hj
    have hy : j < ys.length := by rw [hys.length, ← hlen]; exact hj
    have hbit := hf.outputs.bit j f.outputs[j] (List.getElem?_eq_getElem hr)
    obtain ⟨hpos, hlt⟩ := hys.bound ys[j] (List.getElem_mem hy)
    have hiff : Yields m' (do Bdd.iff (← var ys[j]) f.outputs[j]) fun r m'' =>
        m''.Denotes r fun a => a ys[j] == (W a).testBit j :=
      (yields_var h' hpos hlt).bind fun r m₁ h₁ hle₁ hr =>
        yields_iff h₁ hr (hbit.mono h.toOrdered (Manager.le_trans hle hle₁))
    simpa [List.getElem?_eq_getElem hy] using hiff
  refine (yields_conjAll h heach).imp fun r m' _ _ hr => hr.congr fun a => ?_
  rw [← wordAt_eq_iff hys hlt]
  simp [List.all_map, Function.comp_def]

omit hys in
theorem ignores_graphOf {v : Nat} (hv : v ∉ vars) (hv' : v ∉ ys) : Ignores (graphOf W C ys) v := by
  intro a b
  have hmap : ys.map (Function.update a v b) = ys.map a := by
    refine List.map_congr_left fun y hy => Function.update_of_ne ?_ b a
    rintro rfl
    exact hv' hy
  have hagree : ∀ u ∈ vars, Function.update a v b u = a u := by
    intro u hu
    refine Function.update_of_ne ?_ b a
    rintro rfl
    exact hv hu
  rw [graphOf, graphOf, wordAt, wordAt, hmap, ht.care _ _ hagree, ht.word _ _ hagree]

omit hys in
theorem ignores_image {v : Nat} (hv : v ∉ ys) : Ignores (someSetting vars (graphOf W C ys)) v := by
  by_cases hmem : v ∈ vars
  · exact ignores_someSetting_of_mem hmem
  · exact ignores_someSetting (ignores_graphOf ht hmem hv)

/-- **The image** of the graph has every output word of the care set. -/
theorem mem_image {a : Assignment} (hC : C a = true) :
    Word.toBits (W a) n ∈ modelList ys (someSetting vars (graphOf W C ys)) := by
  have hnodup : ys.Nodup := hys.sorted.imp Nat.ne_of_lt
  have hlen : (Word.toBits (W a) n).length = ys.length := by rw [Word.length_toBits, hys.length]
  refine mem_modelList.2 ⟨hlen, someSetting_eq_true.2 ?_⟩
  -- the inputs as they are, the new variables as their word
  refine ⟨fun v => if v ∈ vars then a v else setting ys (Word.toBits (W a) n) (fun _ => false) v,
    fun v hv => if_neg hv, ?_⟩
  have hagree : ∀ v ∈ vars,
      (if v ∈ vars then a v else setting ys (Word.toBits (W a) n) (fun _ => false) v) = a v := fun v hv => if_pos hv
  have hmap : ys.map (fun v => if v ∈ vars then a v else setting ys (Word.toBits (W a) n) (fun _ => false) v) =
      Word.toBits (W a) n := by
    rw [← map_setting hnodup hlen fun _ => false]
    refine List.map_congr_left fun y hy => ?_
    rw [if_neg (hys.not_mem hy), map_setting hnodup hlen]
  rw [graphOf, wordAt, hmap, Word.ofBits_toBits, Nat.mod_eq_of_lt (ht.lt a), ht.care _ a hagree, ht.word _ a hagree, hC]
  simp

/-- **A word in the graph** leaves the inputs that have it. -/
theorem graphOf_override {word : List Bool} (hlen : word.length = n) (a : Assignment) :
    graphOf W C ys (override (.ofEntries (ys.zip word)) a) = (C a && decide (W a = Word.ofBits word)) := by
  have hfst : (ys.zip word).map Prod.fst = ys := List.map_fst_zip (by rw [hlen, hys.length])
  have hnodup : ys.Nodup := hys.sorted.imp Nat.ne_of_lt
  have hagree : ∀ v ∈ vars, override (.ofEntries (ys.zip word)) a v = a v := by
    intro v hv
    have hnone : v ∉ (ys.zip word).map Prod.fst := by
      rw [hfst]
      exact fun hy => hys.not_mem hy hv
    rw [override, Binding.getElem?_ofEntries_of_not_mem hnone, Option.getD_none]
  have hmap : ys.map (override (.ofEntries (ys.zip word)) a) = word := by
    refine List.ext_getElem (by rw [List.length_map, hlen, hys.length]) fun i hi hi' => ?_
    have hi : i < ys.length := by simpa using hi
    have hentry : (ys[i], word[i]) ∈ ys.zip word := by
      have hzip : i < (ys.zip word).length := by rw [List.length_zip]; omega
      have := List.getElem_mem hzip
      rwa [List.getElem_zip] at this
    rw [List.getElem_map, override, Binding.getElem?_ofEntries_of_mem hentry (by rw [hfst]; exact hnodup),
      Option.getD_some]
  rw [graphOf, wordAt, hmap, ht.care _ a hagree, ht.word _ a hagree]
  simp only [eq_comm]

/-! ### counting -/

/-- **Additional lines of diagrams.** The models of the graph are counted for each word of its image, and the largest
count is the largest multiplicity of the table. -/
theorem yields_additionalLinesOf (hf : Function.Denotes m f vars n W C) (h : m.WellFormed)
    (hpos : ∀ v ∈ vars, 0 < v) (hfresh : freshVariables f f.outputs.length m = .ok ys m) :
    Yields m (additionalLinesOf f) fun k _ => k = additionalLines (Function.tableOf vars n W C) := by
  unfold additionalLinesOf
  refine yields_bind_of_eq hfresh ?_
  rw [hf.inputs]
  refine (yields_agree hys ht.lt hf h).bind fun agree m₁ h₁ hle₁ hagree => ?_
  refine (yields_conj h₁ (hf.care.mono h.toOrdered hle₁) hagree).bind fun graph m₂ h₂ _ hgraph => ?_
  have hgraph : m₂.Denotes graph (graphOf W C ys) := hgraph
  refine (yields_existsOver h₂ hgraph vars).bind fun image m₃ h₃ hle₃ himage => ?_
  refine (yields_models h₃ hys.sorted (fun v hv => (hys.bound v hv).1) himage fun v hv => ignores_image ht hv).bind
    fun words m₄ h₄ hle₄ hwords => ?_
  refine (yields_mapM h₄
    (P := fun word k _ => k = (Function.tableOf vars n W C).multiplicity (Word.ofBits word))
    (fun _ _ _ _ _ _ he => he) fun word hword m₅ h₅ hle₅ => ?_).bind fun counts m₆ h₆ _ hcounts => yields_pure h₆ ?_
  · have hlen : word.length = n := by
      rw [← hys.length]
      exact (mem_modelList.1 (hwords ▸ hword)).1
    have hle := Manager.le_trans hle₃ (Manager.le_trans hle₄ hle₅)
    refine (yields_restrict h₅ (hgraph.mono h₂.toOrdered hle) _).bind fun preimage m₆ h₆ _ hpreimage => ?_
    have hpreimage := hpreimage.congr (graphOf_override ht hys hlen)
    have hdep : DependsOn vars fun a => C a && decide (W a = Word.ofBits word) := fun a b hab => by
      simp only [ht.care a b hab, ht.word a b hab]
    have hcount := countOver_modelList h₆.toOrdered hpos hpreimage fun v hv => hdep.ignores hv
    refine ⟨_, m₆, ask_eq hcount, h₆, m₆.le_refl, ?_⟩
    rw [Function.multiplicity_tableOf]
    exact length_modelList_perm (sortedSet_perm ht.nodup) _
  · -- all multiplicities are counted, and nothing else
    have hmap : counts = words.map fun word => (Function.tableOf vars n W C).multiplicity (Word.ofBits word) := by
      rw [← List.forall₂_eq_eq_eq, List.forall₂_map_right_iff]
      exact hcounts.flip
    refine (additionalLines_eq (isMaxMultiplicity_foldl (fun k hk => ?_) fun y hy => ?_)).symm
    · rw [hmap] at hk
      obtain ⟨word, -, rfl⟩ := List.mem_map.1 hk
      exact ⟨_, rfl⟩
    · obtain ⟨bits, hbits⟩ := List.exists_mem_of_length_pos
        (Nat.pos_of_ne_zero (Function.multiplicity_tableOf vars n W C y ▸ hy))
      obtain ⟨-, hmodel⟩ := mem_modelList.1 hbits
      rw [Bool.and_eq_true, decide_eq_true_iff] at hmodel
      obtain ⟨hC, rfl⟩ := hmodel
      rw [hmap, List.mem_map]
      refine ⟨_, hwords ▸ mem_image ht hys hC, ?_⟩
      rw [Word.ofBits_toBits, Nat.mod_eq_of_lt (ht.lt _)]

end graph

/-! ### embeddings of diagrams -/

/-- a function that a manager holds: the outputs and the care set are a matter of different inputs, and there are no
more inputs and outputs than a table can have. -/
structure HeldFunction (m : Manager) (f : Function) : Prop where
  holds : ∀ r ∈ f.outputs ++ [f.care], m.Holds r
  depends : ∀ r ∈ f.outputs ++ [f.care], DependsOn f.inputs (m.eval · r)
  nodup : f.inputs.Nodup
  pos : ∀ v ∈ f.inputs, 0 < v
  inputs_le : f.inputs.length ≤ maxTableLines
  outputs_le : f.outputs.length ≤ maxTableLines

theorem HeldFunction.denotes (hf : HeldFunction m f) :
    Function.Denotes m f f.inputs f.outputs.length (fun a => Word.ofBits (f.outputs.map (m.eval a)))
      (m.eval · f.care) :=
  Function.denotes_self (hf.holds _ (by simp)) fun r hr => hf.holds r (List.mem_append_left _ hr)

theorem HeldFunction.tabular (hf : HeldFunction m f) :
    Function.Tabular f.inputs f.outputs.length (fun a => Word.ofBits (f.outputs.map (m.eval a))) (m.eval · f.care) :=
  Function.tabular_self hf.nodup hf.depends

theorem HeldFunction.mono {m' : Manager} (hf : HeldFunction m f) (hm : m.Ordered) (hle : m ≤ m') :
    HeldFunction m' f := by
  refine ⟨fun r hr => (hf.holds r hr).mono hle, fun r hr a b hab => ?_, hf.nodup, hf.pos, hf.inputs_le, hf.outputs_le⟩
  have hheld := hf.holds r hr
  show m'.eval a r = m'.eval b r
  rw [Manager.eval_mono hm hle hheld, Manager.eval_mono hm hle hheld]
  exact hf.depends r hr a b hab

/-- the diagrams of a function give its table, and the embedding of the table or the error of that embedding. -/
def SameEmbedding (m : Manager) (f : Function) (table : BooleanFunction) : Prop :=
  ∃ m', f.toTable m = .ok table m' ∧
    (∀ e, embedTable table false = .ok e → embedFunction f false m = .ok e m') ∧
    ∀ e, embedTable table false = .error e → embedFunction f false m = .error e m'

/-- the diagrams of a function need as many lines as its table: the additional lines are the same, and so is the
embedding without a permutation. -/
structure SameLines (m : Manager) (f : Function) (table : BooleanFunction) : Prop where
  additional : ∃ m', additionalLinesOf f m = .ok (additionalLines table) m'
  onlyLines : ∃ e m', embedTable table true = .ok e ∧ embedFunction f true m = .ok e m' ∧ e.permutation = none

/-- no lines are counted, since a new variable has no number. -/
structure NoLines (m : Manager) (f : Function) : Prop where
  additional : ∃ k, additionalLinesOf f m = .error (.misuse (.outOfRange k)) m
  onlyLines : ∃ k, embedFunction f true m = .error (.misuse (.outOfRange k)) m

theorem HeldFunction.noLines (hf : HeldFunction m f) (hm : m.Ordered) {v : Nat} (hv : v ∈ f.inputs)
    (hroom : maxVariable < v + max 1 f.outputs.length) : NoLines m f := by
  obtain ⟨k, hfresh⟩ := exists_freshVariables_error hm (fun r hr => ⟨hf.holds r hr, hf.depends r hr⟩) hv hroom
  have hlines : additionalLinesOf f m = .error (.misuse (.outOfRange k)) m := bind_of_error hfresh _
  exact ⟨⟨k, hlines⟩, k, bind_of_error hlines _⟩

section embeddings

variable (h : m.WellFormed) (hf : HeldFunction m f) (hd : Function.Denotes m f f.inputs f.outputs.length W C)
  (ht : Function.Tabular f.inputs f.outputs.length W C)
include h hf hd ht

theorem sameEmbedding_tableOf : SameEmbedding m f (Function.tableOf f.inputs f.outputs.length W C) := by
  obtain ⟨table, m', htable, -, -, rfl⟩ := Function.yields_toTable hd ht h hf.inputs_le hf.outputs_le
  refine ⟨m', htable, fun e he => (bind_of_ok htable _).trans (ask_eq he), fun e he => (bind_of_ok htable _).trans ?_⟩
  rw [ask, he]

theorem sameLines_tableOf (hroom : ∀ v ∈ f.inputs, v + max 1 f.outputs.length ≤ maxVariable) :
    SameLines m f (Function.tableOf f.inputs f.outputs.length W C) := by
  obtain ⟨ys, hfresh, hys⟩ := exists_freshVariables h.toOrdered (fun r hr => ⟨hf.holds r hr, hf.depends r hr⟩)
    hf.outputs_le hroom
  obtain ⟨k, m', hlines, -, -, rfl⟩ := yields_additionalLinesOf ht hys hd h hf.pos hfresh
  exact ⟨⟨m', hlines⟩, _, m', rfl, bind_of_ok hlines _, rfl⟩

end embeddings

/-- **Embeddings of diagrams.** A function has a valid table with the same embedding, in the manager that holds the
function and in all larger ones. If the inputs leave room for the variables of the outputs, then the lines can be
counted on the diagrams as well; otherwise the count fails, since the numbers of these variables overflow. -/
theorem exists_sameEmbedding (h : Reached m) (hf : HeldFunction m f) :
    ∃ table, table.Valid ∧ ∀ m', m'.WellFormed → m ≤ m' → SameEmbedding m' f table ∧
      ((∀ v ∈ f.inputs, v + max 1 f.outputs.length ≤ maxVariable) → SameLines m' f table) ∧
      ((∃ v ∈ f.inputs, maxVariable < v + max 1 f.outputs.length) → NoLines m' f) := by
  have hm := (wellFormed_of_reached h).toOrdered
  refine ⟨_, Function.valid_tableOf hf.tabular hf.inputs_le hf.outputs_le, fun m' hm' hle => ?_⟩
  have hf' := hf.mono hm hle
  have hd := hf.denotes.mono hm hle
  refine ⟨sameEmbedding_tableOf hm' hf' hd hf.tabular, sameLines_tableOf hm' hf' hd hf.tabular, ?_⟩
  rintro ⟨v, hv, hroom⟩
  exact hf'.noLines hm'.toOrdered hv hroom

/-- the inputs in descending order. -/
theorem exists_sameEmbedding_difference :
    ∃ m r, Reached m ∧ m.Denotes r (fun a => a 1 != a 2) ∧ ∃ table, table.Valid ∧
      SameEmbedding m ⟨[2, 1], [r, -r], .one⟩ table ∧ SameLines m ⟨[2, 1], [r, -r], .one⟩ table := by
  obtain ⟨m, r, hm, hr⟩ := exists_reached_difference
  have hone := (wellFormed_of_reached hm).denotes_one
  have hdep : ∀ a b : Assignment, (∀ v ∈ [2, 1], a v = b v) → (a 1 != a 2) = (b 1 != b 2) := fun a b hab => by
    rw [hab 1 (by decide), hab 2 (by decide)]
  have hf : HeldFunction m ⟨[2, 1], [r, -r], .one⟩ := by
    refine ⟨?_, ?_, ?_, ?_, ?_, ?_⟩
    · simp only [List.cons_append, List.nil_append, List.forall_mem_cons]
      exact ⟨hr.holds, hr.neg.holds, hone.holds, List.forall_mem_nil _⟩
    · simp only [List.cons_append, List.nil_append, List.forall_mem_cons]
      refine ⟨fun a b hab => ?_, fun a b hab => ?_, fun a b hab => ?_, List.forall_mem_nil _⟩
      · exact (hr.eval a).trans ((hdep a b hab).trans (hr.eval b).symm)
      · refine (hr.neg.eval a).trans (Eq.trans ?_ (hr.neg.eval b).symm)
        rw [hdep a b hab]
      · exact (hone.eval a).trans (hone.eval b).symm
    · show [2, 1].Nodup
      decide
    · show ∀ v ∈ [2, 1], 0 < v
      decide
    · show 2 ≤ maxTableLines
      decide
    · show 2 ≤ maxTableLines
      decide
  have hroom : ∀ v ∈ [2, 1], v + max 1 2 ≤ maxVariable := by decide
  obtain ⟨table, hvalid, hsame⟩ := exists_sameEmbedding hm hf
  obtain ⟨hembedding, hlines, -⟩ := hsame m (wellFormed_of_reached hm) m.le_refl
  exact ⟨m, r, hm, hr, table, hvalid, hembedding, hlines hroom⟩

/-- an input that leaves no room: the second output has no variable. -/
theorem additionalLinesOf_without_room :
    ∃ m, Reached m ∧ HeldFunction m ⟨[2 ^ 32 - 2], [.one, .one], .one⟩ ∧
      (∃ m', Function.toTable ⟨[2 ^ 32 - 2], [.one, .one], .one⟩ m = .ok ⟨1, 2, #[some 3, some 3]⟩ m') ∧
      additionalLines ⟨1, 2, #[some 3, some 3]⟩ = 1 ∧
      ∃ m', additionalLinesOf ⟨[2 ^ 32 - 2], [.one, .one], .one⟩ m = .error (.misuse (.outOfRange (2 ^ 32))) m' := by
  obtain ⟨m, hm⟩ : ∃ m, Manager.empty 4 = .ok m := ⟨_, rfl⟩
  have h : Reached m := .empty hm
  have hone := (wellFormed_of_reached h).denotes_one
  refine ⟨m, h, ⟨?_, ?_, by decide, by decide, by decide, by decide⟩, ?_, by decide, ?_⟩
  · intro r hr
    obtain rfl : r = .one := by simpa using hr
    exact hone.holds
  · intro r hr a b _
    obtain rfl : r = .one := by simpa using hr
    exact (hone.eval a).trans (hone.eval b).symm
  · have hword : DenotesWord m 2 [.one, .one] fun _ => 3 := by
      refine ⟨rfl, fun j r hr => ?_⟩
      match j, hr with
      | 0, rfl => exact hone
      | 1, rfl => exact hone
    have ht : Function.Tabular [2 ^ 32 - 2] 2 (fun _ => 3) fun _ => true :=
      ⟨by decide, fun _ _ _ => rfl, fun _ _ _ => rfl, fun _ => by decide⟩
    have hf : Function.Denotes m ⟨[2 ^ 32 - 2], [.one, .one], .one⟩ [2 ^ 32 - 2] 2 (fun _ => 3) fun _ => true :=
      ⟨rfl, hword, hone⟩
    obtain ⟨table, m', htable, -, -, rfl⟩ :=
      Function.yields_toTable hf ht (wellFormed_of_reached h) (by decide) (by decide)
    exact ⟨m', htable⟩
  · cases hm
    exact ⟨_, rfl⟩

end ReversibleLogic
