import Mathlib.Data.List.Sort
import ReversibleLogic.Bdd.Reachable
import ReversibleLogic.Proofs.Bdd.Reached

/-!
# Support

* `Adds m seen seen'` — what a walk adds to the nodes met so far: with each new node its children (`visit_spec`);
* `exists_reachable` — the nodes below a reference depend on no more variables than the reference; the support and the
  inner nodes are read off them (`exists_support`, `exists_innerNodes`);
* `support_spec` — it lists the variables that the function depends on, in ascending order;
* `Avoids m r P` — no variable with the property `P` is in the support of `r`;
* `support_of_reached` — in a reachable manager these are the variables whose flip changes some value.
-/

namespace ReversibleLogic.Bdd

variable {m : Manager} {f r : Ref} {F : Assignment → Bool} {S : Nat → Prop} {seen seen₁ seen₂ : Visited} {i v : Nat}

/-! ### walks over nodes -/

def Visited.Consistent (seen : Visited) : Prop := ∀ j, seen.set.contains j = true ↔ j ∈ seen.order

theorem consistent_empty : Visited.Consistent ⟨[], ∅⟩ := by
  intro j
  simp

theorem Visited.Consistent.insert (h : seen.Consistent) (i : Nat) :
    Visited.Consistent ⟨i :: seen.order, seen.set.insert i⟩ := by
  intro j
  show (seen.set.insert i).contains j = true ↔ j ∈ i :: seen.order
  rw [Std.TreeSet.contains_insert, Bool.or_eq_true, beq_iff_eq, Std.LawfulEqCmp.compare_eq_iff_eq, h j, List.mem_cons,
    eq_comm]

def ChildrenMet (m : Manager) (seen : Visited) (i : Nat) : Prop :=
  i ≠ 1 → ∀ n, m.nodes.value? i = some n → n.low.index ∈ seen.order ∧ n.high.index ∈ seen.order

/-- what a walk adds to the nodes met so far: with each new node its children. -/
structure Adds (m : Manager) (seen seen' : Visited) : Prop where
  consistent : seen'.Consistent
  sub : ∀ j ∈ seen.order, j ∈ seen'.order
  closed : ∀ j ∈ seen'.order, j ∉ seen.order → ChildrenMet m seen' j

theorem ChildrenMet.mono (h : ChildrenMet m seen₁ i) (hsub : ∀ j ∈ seen₁.order, j ∈ seen₂.order) :
    ChildrenMet m seen₂ i := by
  intro hi n hn
  obtain ⟨hlow, hhigh⟩ := h hi n hn
  exact ⟨hsub _ hlow, hsub _ hhigh⟩

theorem adds_refl (h : seen.Consistent) : Adds m seen seen := ⟨h, fun _ hj => hj, fun _ hj hnot => absurd hj hnot⟩

theorem Adds.trans (h : Adds m seen seen₁) (h' : Adds m seen₁ seen₂) : Adds m seen seen₂ := by
  refine ⟨h'.consistent, fun j hj => h'.sub j (h.sub j hj), fun j hj hnot => ?_⟩
  by_cases hmem : j ∈ seen₁.order
  · exact (h.closed j hmem hnot).mono h'.sub
  · exact h'.closed j hj hmem

/-- node `i` in front of a walk that meets its children. -/
theorem Adds.cons (h : Adds m ⟨i :: seen.order, seen.set.insert i⟩ seen₂) (hi : ChildrenMet m seen₂ i) :
    Adds m seen seen₂ ∧ i ∈ seen₂.order := by
  refine ⟨⟨h.consistent, fun j hj => h.sub j (List.mem_cons_of_mem _ hj), fun j hj hnot => ?_⟩,
    h.sub i List.mem_cons_self⟩
  by_cases hji : j = i
  · exact hji ▸ hi
  · exact h.closed j hj fun hmem => (List.mem_cons.1 hmem).elim hji hnot

/-- **A walk** from a node with a property that children inherit meets such nodes only, and with each new node its
children. -/
theorem visit_spec (m : Manager) {P : Nat → Prop} (hnode : ∀ i, P i → ∃ n, m.nodes.value? i = some n)
    (hchild : ∀ i n, P i → i ≠ 1 → m.nodes.value? i = some n →
      (P n.low.index ∧ n.low.index < i) ∧ P n.high.index ∧ n.high.index < i) {fuel i : Nat} {seen : Visited}
    (hi : P i) (hfuel : i < fuel) (hseen : ∀ j ∈ seen.order, P j) (hcons : seen.Consistent) :
    ∃ seen', m.visit fuel i seen = .ok seen' ∧ (∀ j ∈ seen'.order, P j) ∧ Adds m seen seen' ∧ i ∈ seen'.order := by
  induction fuel generalizing i seen with
  | zero => omega
  | succ fuel ih =>
    rw [Manager.visit]
    split
    · next hmet => exact ⟨seen, rfl, hseen, adds_refl hcons, (hcons i).1 hmet⟩
    · have hseen₀ : ∀ j ∈ (⟨i :: seen.order, seen.set.insert i⟩ : Visited).order, P j :=
        List.forall_mem_cons.2 ⟨hi, hseen⟩
      have hcons₀ := hcons.insert i
      simp only
      split
      · next hone => exact ⟨_, rfl, hseen₀, (adds_refl hcons₀).cons fun hne => absurd hone hne⟩
      · next hone =>
        obtain ⟨n, hn⟩ := hnode i hi
        obtain ⟨⟨hlow, hlt⟩, hhigh, hlt'⟩ := hchild i n hi hone hn
        obtain ⟨s₁, hs₁, hP₁, hadds₁, hlow₁⟩ := ih hlow (by omega) hseen₀ hcons₀
        obtain ⟨s₂, hs₂, hP₂, hadds₂, hhigh₂⟩ := ih hhigh (by omega) hP₁ hadds₁.consistent
        refine ⟨s₂, ?_, hP₂, (hadds₁.trans hadds₂).cons fun _ k hk => ?_⟩
        · have hnode' : m.node (.ofIndex i) = .ok n := node_of_value? hn
          simp [bind, Except.bind, hnode', hs₁, hs₂]
        · rw [hn] at hk
          cases hk
          exact ⟨hadds₂.sub _ hlow₁, hhigh₂⟩

/-! ### support -/

/-- node `i` is one of those that depend on variables with the property `S` only. -/
def DependsOnly (m : Manager) (S : Nat → Prop) (i : Nat) : Prop :=
  ∃ r : Ref, r.index = i ∧ m.Holds r ∧ ∀ v, ¬ S v → Ignores (m.eval · r) v

theorem DependsOnly.exists_node (h : DependsOnly m S i) : ∃ n, m.nodes.value? i = some n := by
  obtain ⟨r, rfl, hr, -⟩ := h
  exact hr

/-- the variable of node `i`, 0 for the terminal and where there is no node. -/
def Manager.variableAt (m : Manager) (i : Nat) : Nat := ((m.nodes.value? i).map Node.var).getD 0

theorem DependsOnly.variableAt (h : DependsOnly m S i) (hm : m.Ordered) (hne : m.variableAt i ≠ 0) :
    S (m.variableAt i) := by
  obtain ⟨r, rfl, ⟨n, hn⟩, hS⟩ := h
  have hvar : m.variableAt r.index = n.var := by rw [Manager.variableAt, hn]; rfl
  rw [hvar] at hne ⊢
  by_cases hi : r.index = 1
  · rw [hi, hm.terminal] at hn
    cases hn
    exact absurd rfl hne
  · by_contra hnot
    rw [← Manager.level_of_node hi hn] at hnot
    exact Manager.not_ignores_level hm ⟨n, hn⟩ hi (hS _ hnot)

/-- the nodes below a reference depend on no more variables than the reference. -/
theorem exists_reachable (hm : m.Ordered) (hf : m.Holds f) (hS : ∀ v, ¬ S v → Ignores (m.eval · f) v) :
    ∃ seen, (∀ i ∈ seen.order, DependsOnly m S i) ∧ Adds m ⟨[], ∅⟩ seen ∧ f.index ∈ seen.order ∧
      m.reachable f = .ok seen.order.reverse := by
  have hchild : ∀ i n, DependsOnly m S i → i ≠ 1 → m.nodes.value? i = some n →
      (DependsOnly m S n.low.index ∧ n.low.index < i) ∧ DependsOnly m S n.high.index ∧ n.high.index < i := by
    rintro i n ⟨r, rfl, hr, hrS⟩ hi hn
    have hin := hm.inner _ n hi hn
    exact ⟨⟨⟨n.low, rfl, hin.low_holds, fun v hv => Manager.ignores_child hm hi hn (hrS v hv) false⟩, hin.low_index⟩,
      ⟨n.high, rfl, hin.high_holds, fun v hv => Manager.ignores_child hm hi hn (hrS v hv) true⟩, hin.high_index⟩
  have hnone : ∀ i ∈ (⟨[], ∅⟩ : Visited).order, DependsOnly m S i := List.forall_mem_nil _
  obtain ⟨seen, hvisit, hP, hadds, hmem⟩ := visit_spec m (fun _ => DependsOnly.exists_node) hchild
    (⟨f, rfl, hf, hS⟩ : DependsOnly m S f.index) (Nat.lt_succ_self _) hnone consistent_empty
  exact ⟨seen, hP, hadds, hmem, by simp [Manager.reachable, bind, Except.bind, hvisit, pure, Except.pure]⟩

/-- the support is read off the nodes below a reference. -/
theorem exists_support (hm : m.Ordered) (hf : m.Holds f) (hS : ∀ v, ¬ S v → Ignores (m.eval · f) v) :
    ∃ seen, (∀ i ∈ seen.order, DependsOnly m S i) ∧ Adds m ⟨[], ∅⟩ seen ∧ f.index ∈ seen.order ∧
      m.support f = .ok (sortedSet ((seen.order.reverse.map m.variableAt).filter (· ≠ 0))) := by
  obtain ⟨seen, hP, hadds, hmem, hreach⟩ := exists_reachable hm hf hS
  have hvars : seen.order.reverse.mapM (fun i => m.variableOf (.ofIndex i)) =
      .ok (seen.order.reverse.map m.variableAt) := by
    refine mapM_eq_ok fun i hi => ?_
    obtain ⟨n, hn⟩ := (hP i (List.mem_reverse.1 hi)).exists_node
    rw [variableOf_of_value? (r := .ofIndex i) hn, Manager.variableAt, hn]
    rfl
  refine ⟨seen, hP, hadds, hmem, ?_⟩
  simp [Manager.support, bind, Except.bind, hreach, hvars, pure, Except.pure]

/-- the inner nodes below a reference are nodes that depend on no more variables than the reference. -/
theorem exists_innerNodes (hm : m.Ordered) (hf : m.Holds f) (hS : ∀ v, ¬ S v → Ignores (m.eval · f) v) :
    ∃ inner, m.innerNodes f = .ok inner ∧
      ∀ i n, (i, n) ∈ inner → i ≠ 1 ∧ m.nodes.value? i = some n ∧ DependsOnly m S i := by
  obtain ⟨seen, hP, -, -, hreach⟩ := exists_reachable hm hf hS
  have hnodes : (seen.order.reverse.filter (· ≠ 1)).mapM (fun i => return (i, ← m.node (.ofIndex i))) =
      .ok ((seen.order.reverse.filter (· ≠ 1)).map fun i => (i, (m.nodes.value? i).getD default)) := by
    refine mapM_eq_ok fun i hi => ?_
    obtain ⟨n, hn⟩ := (hP i (List.mem_reverse.1 (List.mem_filter.1 hi).1)).exists_node
    rw [node_of_value? (r := .ofIndex i) hn, hn]
    rfl
  refine ⟨_, by rw [Manager.innerNodes, hreach, ok_bind]; exact hnodes, fun i n hin => ?_⟩
  obtain ⟨j, hj, he⟩ := List.mem_map.1 hin
  obtain ⟨rfl, rfl⟩ := Prod.mk.inj he
  obtain ⟨hj, hne⟩ := List.mem_filter.1 hj
  have hdep := hP j (List.mem_reverse.1 hj)
  obtain ⟨n, hn⟩ := hdep.exists_node
  exact ⟨by simpa using hne, by rw [hn]; rfl, hdep⟩

/-- a reference ignores a variable that is on none of the nodes below it. -/
theorem ignores_of_closed (hm : m.Ordered) (hclosed : ∀ i ∈ seen.order, ChildrenMet m seen i)
    (hv : ∀ i ∈ seen.order, i ≠ 1 → m.variableAt i ≠ v) (hr : m.Holds r) (hmem : r.index ∈ seen.order) :
    Ignores (m.eval · r) v := by
  induction hk : r.index using Nat.strongRecOn generalizing r with
  | _ k ih =>
    subst hk
    intro a b
    by_cases hi : r.index = 1
    · simp only [Manager.eval_terminal hi]
    · obtain ⟨n, hn, hin, -⟩ := hm.exists_inner hr hi
      obtain ⟨hlow, hhigh⟩ := hclosed _ hmem hi n hn
      have hne : n.var ≠ v := by
        have := hv _ hmem hi
        rwa [Manager.variableAt, hn] at this
      have hl : m.eval (Function.update a v b) n.low = m.eval a n.low :=
        ih _ hin.low_index hin.low_holds hlow rfl a b
      have hh : m.eval (Function.update a v b) n.high = m.eval a n.high :=
        ih _ hin.high_index hin.high_holds hhigh rfl a b
      simp only [Manager.eval_node hm hi hn, Function.update_of_ne hne, hl, hh]

/-- **The support** lists exactly the variables that the function depends on, in ascending order. -/
theorem support_spec (hm : m.Ordered) (hf : m.Holds f) :
    ∃ vars, m.support f = .ok vars ∧ vars.Pairwise (· < ·) ∧ ∀ v, v ∈ vars ↔ ¬ Ignores (m.eval · f) v := by
  obtain ⟨seen, hP, hadds, hmem, hok⟩ := exists_support (S := fun v => ¬ Ignores (m.eval · f) v) hm hf
    fun v hv => not_not.1 hv
  refine ⟨_, hok, sortedSet_pairwise _, fun v => ?_⟩
  rw [mem_sortedSet, List.mem_filter]
  constructor
  · rintro ⟨hv, hne⟩
    obtain ⟨i, hi, rfl⟩ := List.mem_map.1 hv
    exact (hP i (List.mem_reverse.1 hi)).variableAt hm (by simpa using hne)
  · intro hdep
    by_contra hnot
    refine hdep (ignores_of_closed hm (fun i hi => hadds.closed i hi List.not_mem_nil) (fun i hi hone he => ?_) hf hmem)
    -- the variable of an inner node is not 0, so it is in the list
    obtain ⟨r, rfl, hr, -⟩ := hP i hi
    obtain ⟨n, hn, hin, -⟩ := hm.exists_inner hr hone
    have hpos : m.variableAt r.index ≠ 0 := by
      rw [Manager.variableAt, hn]
      exact Nat.ne_of_gt hin.var_pos
    exact hnot ⟨List.mem_map.2 ⟨_, List.mem_reverse.2 hi, he⟩, by simpa [← he] using hpos⟩

/-- the support lies within any set of variables outside of which all are ignored. -/
theorem support_sub (hm : m.Ordered) (hf : m.Holds f) (hS : ∀ v, ¬ S v → Ignores (m.eval · f) v) :
    ∃ vars, m.support f = .ok vars ∧ vars.Pairwise (· < ·) ∧ ∀ v ∈ vars, S v := by
  obtain ⟨vars, hok, hsorted, hvars⟩ := support_spec hm hf
  exact ⟨vars, hok, hsorted, fun v hv => not_not.1 (mt (hS v) ((hvars v).1 hv))⟩

/-- no variable with the property `P` is in the support of `r`. -/
def Avoids (m : Manager) (r : Ref) (P : Nat → Prop) : Prop :=
  ∃ vars, m.support r = .ok vars ∧ ∀ v ∈ vars, ¬ P v

theorem Manager.Denotes.avoids {P : Nat → Prop} (h : m.Denotes r F) (hm : m.Ordered) (hP : ∀ v, P v → Ignores F v) :
    Avoids m r P := by
  obtain ⟨vars, hok, -, hvars⟩ := support_sub hm h.holds (S := fun v => ¬ P v)
    fun v hv => h.ignores_iff.1 (hP v (not_not.1 hv))
  exact ⟨vars, hok, hvars⟩

theorem Avoids.ignores {P : Nat → Prop} (h : Avoids m r P) (hm : m.Ordered) (hr : m.Holds r) (hv : P v) :
    Ignores (m.eval · r) v := by
  obtain ⟨vars, hok, hvars⟩ := h
  obtain ⟨vars', hok', -, hmem⟩ := support_spec hm hr
  rw [hok] at hok'
  cases hok'
  exact not_not.1 (mt (hmem v).2 fun hin => hvars v hin hv)

theorem avoids_difference {P : Nat → Prop} (hm : m.Ordered) (hr : m.Denotes r fun a => a 1 != a 2)
    (hP : ∀ v, P v → v ≠ 1 ∧ v ≠ 2) : Avoids m r P := by
  refine hr.avoids hm fun v hv a b => ?_
  obtain ⟨hone, htwo⟩ := hP v hv
  show (Function.update a v b 1 != Function.update a v b 2) = (a 1 != a 2)
  rw [Function.update_of_ne hone.symm, Function.update_of_ne htwo.symm]

/-! ### reachable managers -/

theorem not_ignores_iff : ¬ Ignores F v ↔ ∃ a : Assignment, F (Function.update a v (!a v)) ≠ F a := by
  constructor
  · intro hdep
    by_contra hnone
    push Not at hnone
    refine hdep fun a b => ?_
    by_cases hb : b = a v
    · rw [hb, Function.update_eq_self]
    · rw [Bool.eq_not_of_ne hb, hnone]
  · rintro ⟨a, ha⟩ hignores
    exact ha (hignores a _)

/-- **The support in a reachable manager** is the ascending list of exactly the variables whose flip changes the value
of the function under some assignment. Assignments that agree on them give the same value. -/
theorem support_of_reached (h : Reached m) (hf : m.Holds f) :
    ∃ vars, m.support f = .ok vars ∧ vars.Pairwise (· < ·) ∧
      (∀ v, v ∈ vars ↔ ∃ a : Assignment, m.eval (Function.update a v (!a v)) f ≠ m.eval a f) ∧
      ∀ a b : Assignment, (∀ v ∈ vars, a v = b v) → m.eval a f = m.eval b f := by
  obtain ⟨vars, hok, hsorted, hmem⟩ := support_spec h.ordered hf
  refine ⟨vars, hok, hsorted, fun v => (hmem v).trans not_ignores_iff, fun a b hab => ?_⟩
  exact Manager.eval_congr_of_ignores h.ordered hf (fun v hv => not_not.1 (mt (hmem v).2 hv)) hab

/-- the difference of two variables depends on both. -/
theorem support_of_reached_difference :
    ∃ m f, Reached m ∧ m.Denotes f (fun a => a 1 != a 2) ∧ m.support f = .ok [1, 2] := by
  obtain ⟨m, f, hm, hf⟩ := exists_reached_difference
  obtain ⟨vars, hok, hsorted, hmem, -⟩ := support_of_reached hm hf.holds
  refine ⟨m, f, hm, hf, ?_⟩
  have hvars : vars = [1, 2] := by
    refine hsorted.eq_of_mem_iff (by decide) fun v => (hmem v).trans ?_
    simp only [hf.eval, List.mem_cons, List.not_mem_nil, or_false]
    constructor
    · rintro ⟨a, ha⟩
      by_contra hv
      obtain ⟨hone, htwo⟩ := not_or.1 hv
      rw [Function.update_of_ne (Ne.symm hone), Function.update_of_ne (Ne.symm htwo)] at ha
      exact ha rfl
    · rintro (rfl | rfl) <;> exact ⟨fun _ => false, by decide⟩
  rw [hok, hvars]

end ReversibleLogic.Bdd
