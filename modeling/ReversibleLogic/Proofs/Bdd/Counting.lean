import Mathlib.Data.Finset.Powerset
import Mathlib.Order.Interval.Finset.Nat
import ReversibleLogic.Proofs.Bdd.Enumeration
import ReversibleLogic.Proofs.Bdd.Reached

/-!
# Numbers of models

* `modelsOver V F` — the models of `F` over the variables `V`, each as the set of the variables that are true in it;
  a variable splits them by its cofactors (`card_modelsOver_insert`);
* `card_modelsOver` — the settings in a list of models are as many, in whatever order the variables are listed;
* `HalvesExactly m f n` — every halving below `f` is exact;
* `counting_spec` — in a reachable manager.
-/

namespace ReversibleLogic.Bdd

variable {m : Manager} {f : Ref} {F G : Assignment → Bool} {V : Finset Nat} {v n : Nat} {vars : List Nat}

/-! ### sets of models -/

/-- the assignment in which exactly the variables of the set are true. -/
def indicator (s : Finset Nat) : Assignment := fun v => decide (v ∈ s)

def modelsOver (V : Finset Nat) (F : Assignment → Bool) : Finset (Finset Nat) :=
  V.powerset.filter fun s => F (indicator s) = true

theorem update_indicator_true (s : Finset Nat) (v : Nat) :
    Function.update (indicator s) v true = indicator (insert v s) := by
  funext u
  by_cases hu : u = v
  · simp [indicator, hu]
  · simp [indicator, hu, Function.update_of_ne]

theorem update_indicator_false {s : Finset Nat} (hv : v ∉ s) : Function.update (indicator s) v false = indicator s := by
  funext u
  by_cases hu : u = v
  · simp [indicator, hu, hv]
  · rw [Function.update_of_ne hu]

/-- **A variable splits the models** by its value. -/
theorem card_modelsOver_insert (hv : v ∉ V) (F : Assignment → Bool) :
    (modelsOver (insert v V) F).card = (modelsOver V fun a => F (Function.update a v false)).card +
      (modelsOver V fun a => F (Function.update a v true)).card := by
  have hnot : ∀ s ∈ V.powerset, v ∉ s := fun s hs hmem => hv (Finset.mem_powerset.1 hs hmem)
  have hclear : V.powerset.filter (fun s => F (indicator s) = true) =
      modelsOver V fun a => F (Function.update a v false) :=
    Finset.filter_congr fun s hs => by simp only [update_indicator_false (hnot s hs)]
  have hset : (V.powerset.image (insert v)).filter (fun s => F (indicator s) = true) =
      (modelsOver V fun a => F (Function.update a v true)).image (insert v) := by
    rw [Finset.filter_image, modelsOver]
    simp only [update_indicator_true]
  have hdisjoint : Disjoint (modelsOver V fun a => F (Function.update a v false))
      ((modelsOver V fun a => F (Function.update a v true)).image (insert v)) := by
    refine Finset.disjoint_left.2 fun s hs hs' => ?_
    obtain ⟨s', -, rfl⟩ := Finset.mem_image.1 hs'
    exact hnot _ (Finset.mem_filter.1 hs).1 (Finset.mem_insert_self v s')
  have hinj : Set.InjOn (insert v) (modelsOver V fun a => F (Function.update a v true) : Set (Finset Nat)) := by
    intro s hs s' hs' he
    rw [← Finset.erase_insert (hnot s (Finset.mem_filter.1 hs).1),
      ← Finset.erase_insert (hnot s' (Finset.mem_filter.1 hs').1), he]
  rw [modelsOver, Finset.powerset_insert, Finset.filter_union, hclear, hset, Finset.card_union_of_disjoint hdisjoint,
    Finset.card_image_of_injOn hinj]

/-- **A list of models** over different variables has as many members as there are models. -/
theorem card_modelsOver (hvars : vars.Nodup) (F : Assignment → Bool) :
    (modelsOver vars.toFinset F).card = (modelList vars F).length := by
  induction vars generalizing F with
  | nil =>
    have hempty : indicator ∅ = fun _ => false := by
      funext v
      simp [indicator]
    rw [modelList, List.toFinset_nil, modelsOver, Finset.powerset_empty, Finset.filter_singleton, hempty]
    cases F fun _ => false <;> rfl
  | cons v vars ih =>
    obtain ⟨hv, hvars⟩ := List.nodup_cons.1 hvars
    rw [List.toFinset_cons, card_modelsOver_insert (mt List.mem_toFinset.1 hv), ih hvars, ih hvars, modelList,
      List.length_append, List.length_map, List.length_map]

theorem card_modelsOver_sortedSet (vars : List Nat) (F : Assignment → Bool) :
    (modelsOver vars.toFinset F).card = (modelList (sortedSet vars) F).length := by
  have hsame : vars.toFinset = (sortedSet vars).toFinset := by
    ext v
    rw [List.mem_toFinset, List.mem_toFinset, mem_sortedSet]
  rw [hsame, card_modelsOver (sortedSet_nodup vars)]

/-- the words below `2 ^ n` that are models are as many as the models over `1, …, n`. -/
theorem modelCount_eq_card_modelsOver (hF : ∀ v, v ∉ Finset.Icc 1 n → Ignores F v) (hm : m.Ordered)
    (hf : m.Denotes f F) : modelCount n F = (modelsOver (Finset.Icc 1 n) F).card := by
  have hmem : ∀ v, v ∈ (List.range n).map (· + 1) ↔ v ∈ Finset.Icc 1 n := by
    intro v
    rw [List.mem_map, Finset.mem_Icc]
    constructor
    · rintro ⟨k, hk, rfl⟩
      have := List.mem_range.1 hk
      omega
    · rintro ⟨hpos, hle⟩
      exact ⟨v - 1, List.mem_range.2 (by omega), by omega⟩
  have hnodup : ((List.range n).map (· + 1)).Nodup := List.nodup_range.map (add_left_injective 1)
  have hset : Finset.Icc 1 n = ((List.range n).map (· + 1)).toFinset := by
    ext v
    rw [List.mem_toFinset, hmem]
  have hlen : ((List.range n).map (· + 1)).length = n := by simp
  have hdep : DependsOn ((List.range n).map (· + 1)) F := hf.dependsOn hm fun v hv => hF v (mt (hmem v).2 hv)
  rw [modelCount_eq_modelList (fun v hv => Finset.mem_Icc.1 ((hmem v).1 hv)) hlen.le hdep, hlen, Nat.sub_self,
    Nat.pow_zero, Nat.one_mul, hset, card_modelsOver hnodup]

/-! ### halvings -/

/-- every halving below `f` is exact: the counts of the two children of an inner node have an even sum. -/
def HalvesExactly (m : Manager) (f : Ref) (n : Nat) : Prop :=
  ∃ inner, m.innerNodes f = .ok inner ∧ ∀ i k, (i, k) ∈ inner →
    ∃ low high, m.count k.low n = .ok low ∧ m.count k.high n = .ok high ∧ 2 ∣ low + high

/-- **No halving drops a bit.** -/
theorem halvesExactly (hm : m.Ordered) (hf : m.Holds f) (hdep : ∀ v, ¬ (1 ≤ v ∧ v ≤ n) → Ignores (m.eval · f) v) :
    HalvesExactly m f n := by
  obtain ⟨inner, hinner, hnodes⟩ := exists_innerNodes hm hf hdep
  refine ⟨inner, hinner, fun i k hin => ?_⟩
  obtain ⟨hi, hk, r, rfl, hr, hdep'⟩ := hnodes i k hin
  have hregular : ∀ v, ¬ (1 ≤ v ∧ v ≤ n) → Ignores (m.eval · r.regular) v := fun v hv =>
    Manager.ignores_regular hr (hdep' v hv)
  obtain ⟨k', hc⟩ := exists_children (f := r.regular) hm hr hi
  obtain rfl : k' = k := Option.some.inj (hc.node.symm.trans hk)
  have hsign : r.regular.isNegated = false := Ref.isNegated_ofIndex _
  have hchild : ∀ b, childOf r.regular k' b = if b then k'.high else k'.low := fun b => by
    rw [childOf, hsign]
    rfl
  have hcount : ∀ b, m.count (childOf r.regular k' b) n = .ok (modelCount n (m.eval · (childOf r.regular k' b))) :=
    fun b => count_eq hm (hc.holds b) fun v hv => hc.ignores (hregular v hv) b
  have htwo := hc.two_mul_modelCount hm hr hregular hi
  have hlow := hcount false
  have hhigh := hcount true
  rw [hchild] at hlow hhigh
  exact ⟨_, _, hlow, hhigh, Dvd.intro _ htwo⟩

/-! ### counting -/

/-- **Counting.** In a reachable manager the count over `1, …, n` is the number of models over these variables, if the
support is among them, and every halving on the way is exact. The count over listed variables, in any order and with
repetitions, is the number of models over the variables that are listed, which is the number of listed models. -/
theorem counting_spec (h : Reached m) (hf : m.Holds f) :
    (∀ n, Avoids m f (· ∉ Finset.Icc 1 n) →
      m.count f n = .ok (modelsOver (Finset.Icc 1 n) (m.eval · f)).card ∧ HalvesExactly m f n) ∧
      ∀ vars : List Nat, (∀ v ∈ vars, 0 < v) → Avoids m f (· ∉ vars) →
        m.countOver f vars = .ok (modelsOver vars.toFinset (m.eval · f)).card ∧
          Ends m (models f vars) fun l _ => m.countOver f vars = .ok l.length := by
  have hm := h.ordered
  refine ⟨fun n havoids => ?_, fun vars hpos havoids => ?_⟩
  · have hdep : ∀ v, v ∉ Finset.Icc 1 n → Ignores (m.eval · f) v := fun v hv => havoids.ignores hm hf hv
    have hdep' : ∀ v, ¬ (1 ≤ v ∧ v ≤ n) → Ignores (m.eval · f) v := fun v hv => hdep v (mt Finset.mem_Icc.1 hv)
    exact ⟨modelCount_eq_card_modelsOver hdep hm hf.denotes ▸ count_eq hm hf hdep', halvesExactly hm hf hdep'⟩
  · have hdep : ∀ v, v ∉ vars → Ignores (m.eval · f) v := fun v hv => havoids.ignores hm hf hv
    have hcount := countOver_modelList hm hpos hf.denotes hdep
    obtain ⟨support, hsupport, -⟩ := support_spec hm hf
    obtain ⟨g, m', hrun, hafter, hg⟩ := computes_existsOver h hf.denotes (unlisted vars support)
    rw [someSetting_unlisted hdep] at hg
    refine ⟨card_modelsOver_sortedSet vars _ ▸ hcount, _, m',
      models_eq hpos hsupport hrun hafter.reached.ordered hg hdep, hafter, ?_⟩
    show m.countOver f vars = .ok (modelsOf vars (m.eval · f)).length
    rw [hcount, modelsOf, List.length_mergeSort, List.length_map]

theorem counting_spec_difference :
    ∃ m f, Reached m ∧ m.Denotes f (fun a => a 1 != a 2) ∧ m.count f 3 = .ok 4 ∧ HalvesExactly m f 3 ∧
      m.countOver f [7, 2, 1, 2] = .ok 4 ∧ Ends m (models f [7, 2, 1, 2]) fun l _ => l.length = 4 := by
  obtain ⟨m, f, hm, hf⟩ := exists_reached_difference
  obtain ⟨hcount, hover⟩ := counting_spec hm hf.holds
  obtain ⟨hthree, hhalves⟩ := hcount 3 (avoids_difference hm.ordered hf fun v hv => by rw [Finset.mem_Icc] at hv; omega)
  obtain ⟨hfour, l, m', hok, hafter, hlen⟩ := hover [7, 2, 1, 2] (by decide)
    (avoids_difference hm.ordered hf fun v hv => by simp only [List.mem_cons, not_or] at hv; omega)
  rw [hf.eval_eq] at hthree hfour
  have hfour' : m.countOver f [7, 2, 1, 2] = .ok 4 := hfour.trans (by decide)
  refine ⟨m, f, hm, hf, hthree.trans (by decide), hhalves, hfour', l, m', hok, hafter, ?_⟩
  rw [hfour'] at hlen
  exact (Except.ok.inj hlen).symm

end ReversibleLogic.Bdd
