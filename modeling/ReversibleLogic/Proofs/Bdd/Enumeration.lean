import Mathlib.Data.Bool.Basic
import Mathlib.Data.List.Lex
import ReversibleLogic.Proofs.Bdd.ModelLists
import ReversibleLogic.Proofs.Bdd.Quantification

/-!
# All models, in the order of the caller

* `leBits_iff` — value lists are compared lexicographically;
* `modelsOf vars G` — the values of `vars` in the models of `G`, in ascending order (`modelsOf_pairwise`,
  `mem_modelsOf`), where `vars` may be in any order;
* `models_eq` — `models` finds them after it has quantified the variables that are not listed;
* `enumeration_spec` — in a reachable manager, and what the low-first walk finds among them.
-/

namespace ReversibleLogic.Bdd

variable {m m' : Manager} {f g : Ref} {F G : Assignment → Bool} {v : Nat} {vars support : List Nat}
  {bits bits' bits'' : List Bool}

/-! ### the order of value lists -/

/-- value lists are compared lexicographically, false before true. -/
theorem leBits_iff : leBits bits bits' = true ↔ bits = bits' ∨ bits < bits' := by
  induction bits generalizing bits' with
  | nil => cases bits' <;> simp [leBits]
  | cons b bits ih =>
    cases bits' with
    | nil => simp [leBits]
    | cons b' bits' =>
      rw [leBits, List.cons_lt_cons_iff, List.cons.injEq]
      cases b <;> cases b' <;> simp [ih]

theorem leBits_trans (h : leBits bits bits' = true) (h' : leBits bits' bits'' = true) : leBits bits bits'' = true := by
  rw [leBits_iff] at *
  rcases h with rfl | hlt
  · exact h'
  · rcases h' with rfl | hlt'
    · exact Or.inr hlt
    · exact Or.inr (lt_trans hlt hlt')

theorem leBits_total (bits bits' : List Bool) : (leBits bits bits' || leBits bits' bits) = true := by
  rw [Bool.or_eq_true, leBits_iff, leBits_iff]
  rcases lt_trichotomy bits bits' with hlt | he | hlt
  · exact Or.inl (Or.inr hlt)
  · exact Or.inl (Or.inl he)
  · exact Or.inr (Or.inr hlt)

theorem lt_iff_bitsValue_lt (h : bits.length = bits'.length) : bits < bits' ↔ bitsValue bits < bitsValue bits' := by
  induction bits generalizing bits' with
  | nil =>
    obtain rfl := List.length_eq_zero_iff.1 h.symm
    simp
  | cons b bits ih =>
    cases bits' with
    | nil => cases h
    | cons b' bits' =>
      have hlen : bits.length = bits'.length := Nat.succ.inj h
      have hlt := bitsValue_lt bits
      have hlt' := bitsValue_lt bits'
      rw [← hlen] at hlt'
      rw [List.cons_lt_cons_iff, bitsValue_cons, bitsValue_cons, ← hlen, ih hlen]
      have hnot : ¬ true < false := by decide
      cases b <;> cases b' <;> simp [hnot] <;> omega

/-! ### values in the order of the caller -/

/-- the values of `vars` in the models of `G`, in ascending order; `vars` may be in any order. -/
def modelsOf (vars : List Nat) (G : Assignment → Bool) : List (List Bool) :=
  ((modelList (sortedSet vars) G).map fun model =>
    vars.map (setting (sortedSet vars) model fun _ => false)).mergeSort leBits

theorem sortedSet_nodup (vars : List Nat) : (sortedSet vars).Nodup := (sortedSet_pairwise vars).imp Nat.ne_of_lt

/-- **Members** are the value lists of models. -/
theorem mem_modelsOf (hG : DependsOn vars G) : bits ∈ modelsOf vars G ↔ ∃ a, G a = true ∧ vars.map a = bits := by
  rw [modelsOf, List.mem_mergeSort, List.mem_map]
  constructor
  · rintro ⟨model, hmodel, rfl⟩
    exact ⟨_, (mem_modelList.1 hmodel).2, rfl⟩
  · rintro ⟨a, ha, rfl⟩
    have hsame : ∀ v ∈ vars, setting (sortedSet vars) ((sortedSet vars).map a) (fun _ => false) v = a v :=
      fun v hv => setting_map (sortedSet_nodup vars) (mem_sortedSet.2 hv) a _
    refine ⟨(sortedSet vars).map a, mem_modelList.2 ⟨List.length_map _, ?_⟩, List.map_congr_left hsame⟩
    rw [hG _ a hsame, ha]

theorem modelsOf_nodup (vars : List Nat) (G : Assignment → Bool) : (modelsOf vars G).Nodup := by
  rw [modelsOf, (List.mergeSort_perm _ _).nodup_iff]
  refine (modelList_nodup _ _).map_on fun bits hbits bits' hbits' he => ?_
  rw [← map_setting (sortedSet_nodup vars) (mem_modelList.1 hbits).1 fun _ => false,
    ← map_setting (sortedSet_nodup vars) (mem_modelList.1 hbits').1 fun _ => false]
  exact List.map_congr_left fun v hv => List.map_inj_left.1 he v (mem_sortedSet.1 hv)

/-- **The list is strictly ascending.** -/
theorem modelsOf_pairwise (vars : List Nat) (G : Assignment → Bool) : (modelsOf vars G).Pairwise (· < ·) := by
  have htrans : ∀ as bs cs, leBits as bs = true → leBits bs cs = true → leBits as cs = true :=
    fun _ _ _ => leBits_trans
  have hle : (modelsOf vars G).Pairwise fun bits bits' => leBits bits bits' = true :=
    List.pairwise_mergeSort htrans leBits_total _
  refine (List.pairwise_and_iff.2 ⟨hle, modelsOf_nodup vars G⟩).imp ?_
  rintro bits bits' ⟨hle, hne⟩
  exact (leBits_iff.1 hle).resolve_left hne

theorem modelsOf_of_pairwise (hvars : vars.Pairwise (· < ·)) (G : Assignment → Bool) :
    modelsOf vars G = modelList vars G := by
  have hsame : ((modelList vars G).map fun model => vars.map (setting vars model fun _ => false)) =
      modelList vars G := by
    conv_rhs => rw [← List.map_id (modelList vars G)]
    exact List.map_congr_left fun bits hbits =>
      map_setting (hvars.imp Nat.ne_of_lt) (mem_modelList.1 hbits).1 fun _ => false
  rw [modelsOf, sortedSet_of_pairwise hvars, hsame]
  refine List.mergeSort_of_pairwise ((modelList_pairwise vars G).imp_of_mem fun {bits bits'} hbits hbits' hlt => ?_)
  have hlen := (mem_modelList.1 hbits).1.trans (mem_modelList.1 hbits').1.symm
  exact leBits_iff.2 (Or.inr ((lt_iff_bitsValue_lt hlen).2 hlt))

/-! ### variables that are not listed -/

/-- the variables of the support that are not listed. -/
def unlisted (vars support : List Nat) : List Nat := support.filter fun v => !(sortedSet vars).contains v

theorem mem_unlisted : v ∈ unlisted vars support ↔ v ∈ support ∧ v ∉ vars := by
  rw [unlisted, List.mem_filter, Bool.not_eq_true', ← Bool.not_eq_true, List.contains_iff_mem, mem_sortedSet]

/-- what is left depends on the listed variables only. -/
theorem ignores_unlisted (hsupport : ∀ v, v ∉ support → Ignores F v) (hv : v ∉ vars) :
    Ignores (someSetting (unlisted vars support) F) v := by
  by_cases hmem : v ∈ support
  · exact ignores_someSetting_of_mem (mem_unlisted.2 ⟨hmem, hv⟩)
  · exact ignores_someSetting (hsupport v hmem)

theorem someSetting_unlisted (hdep : ∀ v, v ∉ vars → Ignores F v) (support : List Nat) :
    someSetting (unlisted vars support) F = F :=
  funext fun a => someSetting_of_ignores (fun v hv => hdep v (mem_unlisted.1 hv).2) a

/-- the listed variables have the same values in its models as in those of `F`. -/
theorem exists_someSetting_unlisted :
    (∃ a, someSetting (unlisted vars support) F a = true ∧ vars.map a = bits) ↔
      ∃ a, F a = true ∧ vars.map a = bits := by
  constructor
  · rintro ⟨a, ha, rfl⟩
    obtain ⟨b, hb, hF⟩ := someSetting_eq_true.1 ha
    exact ⟨b, hF, List.map_congr_left fun v hv => hb v fun hmem => (mem_unlisted.1 hmem).2 hv⟩
  · rintro ⟨a, ha, rfl⟩
    exact ⟨a, someSetting_eq_true.2 ⟨a, fun _ _ => rfl, ha⟩, rfl⟩

/-! ### all models -/

/-- `models` ends where the quantification of the variables that are not listed does. -/
theorem models_eq (hpos : ∀ v ∈ vars, 0 < v) (hsupport : m.support f = .ok support)
    (hrun : existsOver f (unlisted vars support) m = .ok g m') (hm' : m'.Ordered) (hg : m'.Denotes g G)
    (hG : ∀ v, v ∉ vars → Ignores G v) : models f vars m = .ok (modelsOf vars G) m' := by
  have hmodels := modelsFrom_eq hm' (sortedSet_pairwise vars) (fun v hv => hpos v (mem_sortedSet.1 hv)) hg
    fun v hv => hG v (mt mem_sortedSet.2 hv)
  have hpick : ((modelList (sortedSet vars) G).map fun model =>
      (vars.map (sortedSet vars).idxOf).map (model.getD · false)) =
        (modelList (sortedSet vars) G).map fun model =>
          vars.map (setting (sortedSet vars) model fun _ => false) := by
    refine List.map_congr_left fun model hmodel => ?_
    rw [List.map_map]
    exact List.map_congr_left fun v hv =>
      getD_idxOf (sortedSet_nodup vars) (mem_modelList.1 hmodel).1 (mem_sortedSet.2 hv) _
  unfold models
  dsimp only
  rw [bind_of_ok (ask_eq hsupport)]
  change (existsOver f (unlisted vars support) >>= _) m = _
  rw [bind_of_ok hrun, bind_of_ok hmodels, hpick]
  rfl

/-- **All models** of a reference that depends on `vars` only, in ascending order. -/
theorem yields_models (h : m.WellFormed) (hvars : vars.Pairwise (· < ·)) (hpos : ∀ v ∈ vars, 0 < v)
    (hf : m.Denotes f F) (hdep : ∀ v, v ∉ vars → Ignores F v) :
    Yields m (models f vars) fun l _ => l = modelList vars F := by
  obtain ⟨support, hsupport, -⟩ := support_spec h.toOrdered hf.holds
  obtain ⟨g, m', hrun, hm', hle, hg⟩ := yields_existsOver h hf (unlisted vars support)
  rw [someSetting_unlisted hdep] at hg
  exact ⟨_, m', models_eq hpos hsupport hrun hm'.toOrdered hg hdep, hm', hle, modelsOf_of_pairwise hvars F⟩

/-- **Enumeration.** In a reachable manager `models` ends without an error, with the strictly ascending list of the
values that the listed variables have in the models of `f`, in the order of the caller. Where the variables are listed
in ascending order, the low-first walk finds nothing exactly if `f` is the constant zero, otherwise a member of the
list, and the first one if `f` has no other variables. -/
theorem enumeration_spec (h : Reached m) (hf : m.Holds f) (hpos : ∀ v ∈ vars, 0 < v) :
    Ends m (models f vars) fun l _ =>
      l.Pairwise (· < ·) ∧ (∀ bits, bits ∈ l ↔ ∃ a, m.eval a f = true ∧ vars.map a = bits) ∧
        (vars.Pairwise (· < ·) →
          (m.least? f vars = .ok none ↔ f = .zero) ∧
            (f ≠ .zero → ∃ bits ∈ l, m.least? f vars = .ok (some bits)) ∧
            (Avoids m f (· ∉ vars) → m.least? f vars = .ok l.head?)) := by
  have hm := h.ordered
  obtain ⟨support, hsupport, -, hmem⟩ := support_spec hm hf
  obtain ⟨g, m', hrun, hafter, hg⟩ := computes_existsOver h hf.denotes (unlisted vars support)
  have hm' := hafter.reached.ordered
  have hignores : ∀ v, v ∉ vars → Ignores (someSetting (unlisted vars support) (m.eval · f)) v := fun v hv =>
    ignores_unlisted (fun u hu => not_not.1 (mt (hmem u).2 hu)) hv
  have hmodels : ∀ bits, bits ∈ modelsOf vars (someSetting (unlisted vars support) (m.eval · f)) ↔
      ∃ a, m.eval a f = true ∧ vars.map a = bits := fun bits =>
    (mem_modelsOf (hg.dependsOn hm' hignores)).trans exists_someSetting_unlisted
  refine ⟨_, m', models_eq hpos hsupport hrun hm' hg hignores, hafter, modelsOf_pairwise _ _, hmodels,
    fun hvars => ⟨least?_eq_none_iff hm hvars hf, fun hne => ?_, fun havoids => ?_⟩⟩
  · obtain ⟨bits, hok, hmodel⟩ := exists_least? hm hvars hf hne
    exact ⟨bits, (hmodels bits).2 hmodel, hok⟩
  · have hdep : ∀ v, v ∉ vars → Ignores (m.eval · f) v := fun v hv => havoids.ignores hm hf hv
    rw [someSetting_unlisted hdep, modelsOf_of_pairwise hvars]
    exact least?_eq_head? hm hvars hf.denotes hdep

theorem enumeration_spec_difference :
    ∃ m f, Reached m ∧ m.Denotes f (fun a => a 1 != a 2) ∧
      (Ends m (models f [2, 1]) fun l _ =>
        l.Pairwise (· < ·) ∧ ∀ bits, bits ∈ l ↔ bits = [false, true] ∨ bits = [true, false]) ∧
      Ends m (models f [1, 2]) fun l _ => m.least? f [1, 2] = .ok l.head? := by
  obtain ⟨m, f, hm, hf⟩ := exists_reached_difference
  have hpos : ∀ v ∈ [2, 1], 0 < v := by decide
  have hpos' : ∀ v ∈ [1, 2], 0 < v := by decide
  obtain ⟨l, m', hok, hafter, hsorted, hmem, -⟩ := enumeration_spec hm hf.holds hpos
  obtain ⟨l', m'', hok', hafter', -, -, hleast⟩ := enumeration_spec hm hf.holds hpos'
  have havoids : Avoids m f (· ∉ [1, 2]) := by
    refine hf.avoids hm.ordered fun v hv a b => ?_
    simp only [List.mem_cons, List.not_mem_nil, or_false, not_or] at hv
    show (Function.update a v b 1 != Function.update a v b 2) = (a 1 != a 2)
    rw [Function.update_of_ne (Ne.symm hv.1), Function.update_of_ne (Ne.symm hv.2)]
  refine ⟨m, f, hm, hf, ⟨l, m', hok, hafter, hsorted, fun bits => (hmem bits).trans ?_⟩,
    ⟨l', m'', hok', hafter', (hleast (by decide)).2.2 havoids⟩⟩
  simp only [hf.eval, List.map_cons, List.map_nil]
  constructor
  · rintro ⟨a, ha, rfl⟩
    cases h₁ : a 1 <;> cases h₂ : a 2 <;> simp [h₁, h₂] at ha ⊢
  · rintro (rfl | rfl)
    · exact ⟨fun v => v == 1, rfl, rfl⟩
    · exact ⟨fun v => v == 2, rfl, rfl⟩

end ReversibleLogic.Bdd
