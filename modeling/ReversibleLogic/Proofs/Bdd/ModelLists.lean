import Mathlib.Data.List.Sort
import ReversibleLogic.Proofs.Bdd.Models

/-!
# Lists of models

* `DependsOn vars F` — the value of `F` is a matter of the variables `vars`;
* `modelList vars F` — the settings of `vars` under which `F` holds, in ascending order (`mem_modelList`,
  `modelList_pairwise`);
* `modelsFrom_eq` — they are the models of a reference that depends on `vars` only;
* `countOver_modelList` — their number;
* `head?_modelList` — the smallest one.
-/

namespace ReversibleLogic.Bdd

variable {m : Manager} {f : Ref} {F G : Assignment → Bool} {v n : Nat} {vars : List Nat} {bits : List Bool}

/-! ### settings -/

/-- assignments that agree on the variables have the same value. -/
def DependsOn {α : Type} (vars : List Nat) (F : Assignment → α) : Prop := ∀ a b, (∀ v ∈ vars, a v = b v) → F a = F b

theorem DependsOn.ignores (h : DependsOn vars F) (hv : v ∉ vars) : Ignores F v := fun a b => by
  refine h _ _ fun u hu => Function.update_of_ne ?_ b a
  rintro rfl
  exact hv hu

theorem Manager.Denotes.dependsOn (h : m.Denotes f F) (hm : m.Ordered) (hdep : ∀ v, v ∉ vars → Ignores F v) :
    DependsOn vars F := fun a b hab => by
  rw [← h.eval, ← h.eval]
  exact Manager.eval_congr_of_ignores hm h.holds (fun v hv => h.ignores_iff.1 (hdep v hv)) hab

theorem map_setting (hvars : vars.Nodup) (h : bits.length = vars.length) (a : Assignment) :
    vars.map (setting vars bits a) = bits := by
  refine List.ext_getElem (by rw [List.length_map, h]) fun i hi hi' => ?_
  rw [List.getElem_map, setting_getElem hvars]

theorem setting_map (hvars : vars.Nodup) (hv : v ∈ vars) (a b : Assignment) : setting vars (vars.map a) b v = a v := by
  obtain ⟨i, hi, rfl⟩ := List.getElem_of_mem hv
  rw [setting_getElem hvars b hi (by rwa [List.length_map]), List.getElem_map]

theorem getD_idxOf (hvars : vars.Nodup) (h : bits.length = vars.length) (hv : v ∈ vars) (a : Assignment) :
    bits.getD (vars.idxOf v) false = setting vars bits a v := by
  have hi := List.idxOf_lt_length_iff.2 hv
  have hget := setting_getElem hvars a hi (h ▸ hi)
  rw [List.getElem_idxOf hi] at hget
  rw [hget, List.getD_eq_getElem?_getD, List.getElem?_eq_getElem (h ▸ hi), Option.getD_some]

/-- the settings of `vars`, ascending, under which `F` holds; all other variables are clear. -/
def modelList : List Nat → (Assignment → Bool) → List (List Bool)
  | [], F => if F (fun _ => false) then [[]] else []
  | v :: vars, F =>
    (modelList vars fun a => F (Function.update a v false)).map (false :: ·) ++
      (modelList vars fun a => F (Function.update a v true)).map (true :: ·)

theorem mem_modelList :
    bits ∈ modelList vars F ↔ bits.length = vars.length ∧ F (setting vars bits fun _ => false) = true := by
  induction vars generalizing F bits with
  | nil =>
    rw [modelList]
    cases bits with
    | nil => simp [setting]
    | cons b bits => split <;> simp
  | cons v vars ih =>
    rw [modelList, List.mem_append, List.mem_map, List.mem_map]
    cases bits with
    | nil => simp
    | cons b bits => cases b <;> simp [ih, setting]

theorem modelList_pairwise (vars : List Nat) (F : Assignment → Bool) :
    (modelList vars F).Pairwise (bitsValue · < bitsValue ·) := by
  induction vars generalizing F with
  | nil =>
    rw [modelList]
    split
    · exact List.pairwise_singleton _ _
    · exact List.Pairwise.nil
  | cons v vars ih =>
    have hcons : ∀ b G, ((modelList vars G).map (b :: ·)).Pairwise (bitsValue · < bitsValue ·) := by
      intro b G
      refine List.pairwise_map.2 ((ih G).imp_of_mem fun {bits bits'} hbits hbits' hlt => ?_)
      rw [bitsValue_cons, bitsValue_cons, (mem_modelList.1 hbits).1, (mem_modelList.1 hbits').1]
      exact Nat.add_lt_add_right hlt _
    refine List.pairwise_append.2 ⟨hcons false _, hcons true _, fun l hl l' hl' => ?_⟩
    obtain ⟨bits, hbits, rfl⟩ := List.mem_map.1 hl
    obtain ⟨bits', hbits', rfl⟩ := List.mem_map.1 hl'
    have hlt := bitsValue_lt bits
    rw [(mem_modelList.1 hbits).1] at hlt
    rw [bitsValue_cons, bitsValue_cons, (mem_modelList.1 hbits').1, Bool.toNat_false, Bool.toNat_true]
    omega

theorem modelList_nodup (vars : List Nat) (F : Assignment → Bool) : (modelList vars F).Nodup := by
  refine (modelList_pairwise vars F).imp fun {bits bits'} hlt he => ?_
  subst he
  exact Nat.lt_irrefl _ hlt

theorem modelList_eq_nil (hF : ∀ a, F a = false) : modelList vars F = [] := by
  refine List.eq_nil_iff_forall_not_mem.2 fun bits hbits => ?_
  have hmodel := (mem_modelList.1 hbits).2
  rw [hF] at hmodel
  cases hmodel

/-! ### all models -/

theorem exists_cofactors_of_le (hm : m.Ordered) (hf : m.Holds f) (hpos : 0 < v) (hv : f.index ≠ 1 → v ≤ m.level f) :
    ∃ low high, cofactors f v m = .ok (low, high) m ∧ m.Denotes low (fun a => m.eval (Function.update a v false) f) ∧
      m.Denotes high fun a => m.eval (Function.update a v true) f := by
  by_cases hi : f.index = 1
  · -- a constant is its own cofactor, even for variables that no node has
    have hself : ∀ b, m.Denotes f fun a => m.eval (Function.update a v b) f := fun b =>
      ⟨hf, fun a => by rw [Manager.eval_terminal hi, Manager.eval_terminal hi]⟩
    refine ⟨f, f, ?_, hself false, hself true⟩
    rw [cofactors, if_neg (Nat.ne_of_gt hpos), if_pos (Ref.isTerminal_iff.2 hi)]
    rfl
  · obtain ⟨n, -, hin, hl⟩ := hm.exists_inner hf hi
    have hle := hv hi
    obtain ⟨low, high, hok, hlow, hhigh⟩ := exists_cofactors hm hf hpos hle (by have := hin.var_lt; omega)
    exact ⟨low, high, hok, hlow.denotes, hhigh.denotes⟩

/-- **All models** of a reference that depends on `vars` only, in ascending order. -/
theorem modelsFrom_eq (hm : m.Ordered) (hvars : vars.Pairwise (· < ·)) (hpos : ∀ v ∈ vars, 0 < v)
    (hf : m.Denotes f F) (hdep : ∀ v, v ∉ vars → Ignores F v) : modelsFrom vars f m = .ok (modelList vars F) m := by
  induction vars generalizing f F with
  | nil =>
    have hi : f.index = 1 := by
      by_contra hi
      exact List.not_mem_nil (level_mem_of_ignores hm hf.holds hi fun v hv => hf.ignores_iff.1 (hdep v hv))
    have hvalue := hf.eval fun _ => false
    rw [modelsFrom, modelList]
    rcases Ref.eq_one_or_eq_zero hi with rfl | rfl
    · rw [Manager.eval_one] at hvalue
      rw [← hvalue]
      rfl
    · rw [Manager.eval_zero] at hvalue
      rw [← hvalue]
      rfl
  | cons v vars ih =>
    rw [modelsFrom]
    split
    · next hzero =>
      subst hzero
      rw [modelList_eq_nil fun a => by rw [← hf.eval, Manager.eval_zero]]
      rfl
    · obtain ⟨hv, hpos'⟩ := List.forall_mem_cons.1 hpos
      have hle := le_level_of_ignores hm hf.holds hvars fun u hu => hf.ignores_iff.1 (hdep u hu)
      obtain ⟨low, high, hcofactors, hlow, hhigh⟩ := exists_cofactors_of_le hm hf.holds hv hle
      have hsub : ∀ b u, u ∉ vars → Ignores (fun a => F (Function.update a v b)) u := fun b u hu =>
        ignores_of_not_mem_tail hdep (fun _ h => h.update v b) (ignores_update F v b) hu
      have hclear := ih (List.pairwise_cons.1 hvars).2 hpos' (hlow.congr fun a => hf.eval _) (hsub false)
      have hset := ih (List.pairwise_cons.1 hvars).2 hpos' (hhigh.congr fun a => hf.eval _) (hsub true)
      rw [bind_of_ok hcofactors]
      dsimp only
      rw [bind_of_ok hclear, bind_of_ok hset]
      rfl

/-! ### their number -/

/-- **Models are settings**, each with all values of the variables that are not listed. -/
theorem modelCount_eq_modelList (hvars : ∀ v ∈ vars, 1 ≤ v ∧ v ≤ n) (hlen : vars.length ≤ n)
    (hF : DependsOn vars F) : modelCount n F = 2 ^ (n - vars.length) * (modelList vars F).length := by
  induction vars generalizing F with
  | nil =>
    have hconst : ∀ a, F a = F fun _ => false := fun a => hF a _ (List.forall_mem_nil _)
    rw [modelList, modelCount_congr n hconst]
    cases F fun _ => false with
    | false => rw [modelCount_false]; rfl
    | true => rw [modelCount_true]; simp
  | cons v vars ih =>
    obtain ⟨⟨hpos, hle⟩, hvars'⟩ := List.forall_mem_cons.1 hvars
    obtain ⟨k, rfl⟩ : ∃ k, v = k + 1 := ⟨v - 1, by omega⟩
    have hcofactor : ∀ c, ∀ a b : Assignment, (∀ u ∈ vars, a u = b u) →
        F (Function.update a (k + 1) c) = F (Function.update b (k + 1) c) := by
      intro c a b hab
      refine hF _ _ fun u hu => ?_
      by_cases huv : u = k + 1
      · rw [huv, Function.update_self, Function.update_self]
      · rw [Function.update_of_ne huv, Function.update_of_ne huv]
        exact hab u ((List.mem_cons.1 hu).resolve_left huv)
    rw [List.length_cons] at hlen
    have hsplit := two_mul_modelCount (n := n) hle (fun a => (shannon F (k + 1) a).symm) (ignores_update F _ false)
      (ignores_update F _ true)
    rw [ih hvars' (by omega) (hcofactor false), ih hvars' (by omega) (hcofactor true)] at hsplit
    have hpow : 2 ^ (n - vars.length) = 2 * 2 ^ (n - (vars.length + 1)) := by
      obtain ⟨d, hd⟩ : ∃ d, n - vars.length = d + 1 := ⟨n - vars.length - 1, by omega⟩
      have hd' : n - (vars.length + 1) = d := by omega
      rw [hd, hd', Nat.pow_succ, Nat.mul_comm]
    rw [hpow, ← Nat.mul_add, Nat.mul_assoc] at hsplit
    rw [modelList, List.length_append, List.length_map, List.length_map, List.length_cons]
    exact Nat.eq_of_mul_eq_mul_left (by decide) hsplit

/-- variables that are listed in ascending order are at most the last one, and no more than that. -/
theorem le_getLastD (hvars : vars.Pairwise (· < ·)) (hpos : ∀ v ∈ vars, 0 < v) :
    (∀ v ∈ vars, v ≤ vars.getLastD 0) ∧ vars.length ≤ vars.getLastD 0 := by
  induction vars using List.reverseRecOn with
  | nil => exact ⟨List.forall_mem_nil _, Nat.le_refl _⟩
  | append_singleton vars v ih =>
    obtain ⟨hinit, -, hlast⟩ := List.pairwise_append.1 hvars
    have hlast : ∀ u ∈ vars, u < v := fun u hu => hlast u hu v List.mem_cons_self
    have hv := hpos v (by simp)
    obtain ⟨-, hlen⟩ := ih hinit fun u hu => hpos u (List.mem_append_left _ hu)
    have he : (vars ++ [v]).getLastD 0 = v := by simp
    rw [he]
    refine ⟨fun u hu => ?_, ?_⟩
    · rcases List.mem_append.1 hu with hu | hu
      · exact Nat.le_of_lt (hlast u hu)
      · exact Nat.le_of_eq (List.mem_singleton.1 hu)
    · rw [List.length_append, List.length_singleton]
      cases vars using List.reverseRecOn with
      | nil => exact hv
      | append_singleton vars u =>
        have hlt := hlast u (by simp)
        have hu : (vars ++ [u]).getLastD 0 = u := by simp
        rw [hu] at hlen
        omega

/-- **Counting over a list of variables** outside of which the reference has none. -/
theorem countOver_modelList (hm : m.Ordered) (hpos : ∀ v ∈ vars, 0 < v) (hf : m.Denotes f F)
    (hdep : ∀ v, v ∉ vars → Ignores F v) :
    m.countOver f vars = .ok (modelList (sortedSet vars) F).length := by
  have hdep' : ∀ v, v ∉ sortedSet vars → Ignores (m.eval · f) v := fun v hv =>
    hf.ignores_iff.1 (hdep v (mt mem_sortedSet.2 hv))
  obtain ⟨hle, hlen⟩ := le_getLastD (sortedSet_pairwise vars) fun v hv => hpos v (mem_sortedSet.1 hv)
  obtain ⟨support, hsupport, -, hmem⟩ := support_sub hm hf.holds hdep'
  have hall : support.all (sortedSet vars).contains = true :=
    List.all_eq_true.2 fun v hv => List.contains_iff_mem.2 (hmem v hv)
  have hbetween : ∀ v ∈ sortedSet vars, 1 ≤ v ∧ v ≤ (sortedSet vars).getLastD 0 := fun v hv =>
    ⟨hpos v (mem_sortedSet.1 hv), hle v hv⟩
  have hcount := count_eq (n := (sortedSet vars).getLastD 0) hm hf.holds
    fun v hv => hdep' v fun hmem => hv (hbetween v hmem)
  have hmodels := modelCount_eq_modelList hbetween hlen (F := (m.eval · f)) fun a b hab =>
    Manager.eval_congr_of_ignores hm hf.holds hdep' hab
  rw [hmodels, hf.eval_eq] at hcount
  unfold Manager.countOver
  dsimp only
  generalize (sortedSet vars).getLastD 0 = last at hcount hlen ⊢
  simp [bind, Except.bind, hsupport, hall, hcount, pure, Except.pure, Nat.not_lt.2 hlen,
    Nat.mul_div_cancel_left _ (Nat.two_pow_pos _)]

/-! ### the smallest one -/

theorem IsLeast.head?_modelList (h : IsLeast vars F bits) : (modelList vars F).head? = some bits := by
  have hmem : bits ∈ modelList vars F := mem_modelList.2 ⟨h.length, h.model _⟩
  have hsorted := modelList_pairwise vars F
  cases hl : modelList vars F with
  | nil => rw [hl] at hmem; cases hmem
  | cons first rest =>
    have hfirst := mem_modelList.1 (hl ▸ List.mem_cons_self : first ∈ modelList vars F)
    rw [hl] at hmem hsorted
    rcases List.mem_cons.1 hmem with rfl | hmem
    · rfl
    · have hlt := (List.pairwise_cons.1 hsorted).1 bits hmem
      have hle := h.least first hfirst.1 _ hfirst.2
      omega

/-- the walk for the smallest model finds the first one, if there is one. -/
theorem least?_eq_head? (hm : m.Ordered) (hvars : vars.Pairwise (· < ·)) (hf : m.Denotes f F)
    (hdep : ∀ v, v ∉ vars → Ignores F v) : m.least? f vars = .ok (modelList vars F).head? := by
  rcases least?_spec hm hvars hf hdep with ⟨hnone, hF⟩ | ⟨bits, hok, hleast⟩
  · rw [hnone, modelList_eq_nil hF]
    rfl
  · rw [hok, hleast.head?_modelList]

end ReversibleLogic.Bdd
