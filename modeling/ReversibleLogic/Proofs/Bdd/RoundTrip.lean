import ReversibleLogic.Proofs.Bdd.Reached
import ReversibleLogic.Proofs.Bdd.Tables

/-!
# Tables and diagrams

* `yields_toTable_ofTable` — the table of the diagrams of a table is that table;
* `yields_ofTable_toTable` — the diagrams of the table of a function are its outputs on the care set;
* `tables_of_functions` — both, in reachable managers and over variables that are positive as signed 32-bit words;
* `toTable_ofTable_without_sign` — the first variable that is not.
-/

namespace ReversibleLogic.Bdd

variable {m m' : Manager} {n first : Nat} {vars : List Nat} {W : Assignment → Nat} {C : Assignment → Bool}
  {t : BooleanFunction} {f : Function}

namespace Function

/-! ### from tables to tables -/

theorem tabular_rows (ht : t.Valid) (hvars : vars.Nodup) :
    Tabular vars t.outputs (fun a => t.rows[wordAt vars a]?.join.getD 0)
      fun a => t.rows[wordAt vars a]?.join.isSome := by
  have hword : DependsOn vars (wordAt vars) := fun a b hab => congrArg Word.ofBits (List.map_congr_left hab)
  refine ⟨hvars, fun a b hab => ?_, fun a b hab => ?_, fun a => ?_⟩
  · simp only [hword a b hab]
  · simp only [hword a b hab]
  · cases hrow : t.rows[wordAt vars a]?.join with
    | none => exact Nat.two_pow_pos _
    | some y => exact ht.lt _ y (Option.join_eq_some_iff.1 hrow)

theorem tableOf_rows (ht : t.Valid) (hvars : vars.Nodup) (hlen : vars.length = t.inputs) :
    tableOf vars t.outputs (fun a => t.rows[wordAt vars a]?.join.getD 0)
      (fun a => t.rows[wordAt vars a]?.join.isSome) = t := by
  have hrows : ((List.range (2 ^ vars.length)).map (rowOf vars (fun a => t.rows[wordAt vars a]?.join.getD 0)
      fun a => t.rows[wordAt vars a]?.join.isSome)).toArray = t.rows := by
    refine Array.ext (by simp [ht.size, hlen]) fun x hx hx' => ?_
    have hlt : x < 2 ^ vars.length := by simpa using hx
    rw [List.getElem_toArray, List.getElem_map, List.getElem_range, rowOf, wordAt_spelling hvars hlt,
      Array.getElem?_eq_getElem hx']
    cases t.rows[x] <;> rfl
  rw [tableOf, hrows, hlen]

theorem nodup_variables (first n : Nat) : ((List.range n).map (first + ·)).Nodup :=
  List.nodup_range.map fun _ _ hij => Nat.add_left_cancel hij

/-- **Tables** are recovered from their diagrams. -/
theorem yields_toTable_ofTable (h : m.WellFormed) (ht : t.Valid) (hfirst : 0 < first) (hmax : first ≤ maxVariable)
    (hlt : ∀ i < t.inputs, first + i < 2 ^ 31) : Yields m (do (← ofTable t first).toTable) fun t' _ => t' = t := by
  have hvars := nodup_variables first t.inputs
  have hlen : ((List.range t.inputs).map (first + ·)).length = t.inputs := by simp
  refine (yields_ofTable h (Nat.le_of_eq ht.size) hfirst hmax hlt).bind fun f m' h' _ hf => ?_
  have htable := yields_toTable hf (tabular_rows ht hvars) h' (hlen.trans_le ht.inputs_le) ht.outputs_le
  exact htable.imp fun t' _ _ _ he => he.trans (tableOf_rows ht hvars hlen)

/-! ### from functions to functions -/

theorem yields_conj_care (h : m.WellFormed) (hf : Denotes m f vars n W C) :
    Yields m (f.outputs.mapM (conj · f.care)) fun rs m' => DenotesWord m' n rs fun a => if C a then W a else 0 := by
  refine (yields_mapM h (P := fun r s m' => m'.Denotes s fun a => m.eval a r && C a)
    (fun _ _ _ _ h' hle hs => hs.mono h'.toOrdered hle) fun r hr m' h' hle => ?_).imp fun rs m' _ _ hrs => ?_
  · obtain ⟨j, hj⟩ := List.mem_iff_getElem?.1 hr
    have hr := (hf.outputs.bit j r hj).holds.denotes.mono h.toOrdered hle
    exact yields_conj h' hr (hf.care.mono h.toOrdered hle)
  · refine ⟨hrs.length_eq.symm.trans hf.outputs.length, fun j s hs => ?_⟩
    obtain ⟨hj, rfl⟩ := List.getElem?_eq_some_iff.1 hs
    have hj' : j < f.outputs.length := hrs.length_eq ▸ hj
    refine ((List.forall₂_iff_get.1 hrs).2 j hj' hj).congr fun a => ?_
    rw [List.get_eq_getElem, (hf.outputs.bit j _ (List.getElem?_eq_getElem hj')).eval]
    cases C a <;> simp

/-- **Functions** are recovered from their tables, with outputs that are false outside the care set. -/
theorem yields_ofTable_toTable (h : m.WellFormed) (hf : Denotes m f vars n W C) (ht : Tabular vars n W C)
    (hvars : vars = (List.range vars.length).map (first + ·)) (hlen : vars.length ≤ maxTableLines)
    (hn : n ≤ maxTableLines) (hfirst : 0 < first) (hmax : first ≤ maxVariable)
    (hlt : ∀ i < vars.length, first + i < 2 ^ 31) :
    Yields m (do ofTable (← f.toTable) first) fun f' m' => f'.inputs = f.inputs ∧ f'.care = f.care ∧
      Yields m' (f.outputs.mapM (conj · f.care)) fun rs _ => rs = f'.outputs := by
  refine (yields_toTable hf ht h hlen hn).bind fun t m₁ h₁ hle₁ he => ?_
  subst he
  have hrows : (tableOf vars n W C).rows.size ≤ 2 ^ (tableOf vars n W C).inputs := by simp [tableOf]
  refine (yields_ofTable h₁ hrows hfirst hmax hlt).imp fun f' m₂ h₂ hle₂ hf' => ?_
  have hinputs : (List.range (tableOf vars n W C).inputs).map (first + ·) = vars := hvars.symm
  rw [hinputs] at hf'
  simp only [rows_tableOf ht] at hf'
  have hf₂ := hf.mono h.toOrdered (Manager.le_trans hle₁ hle₂)
  refine ⟨hf'.inputs.trans hf.inputs.symm, ?_, (yields_conj_care h₂ hf₂).imp fun rs m₃ h₃ hle₃ hrs => ?_⟩
  · refine hf'.care.unique h₂.toOrdered (hf₂.care.congr fun a => ?_)
    cases C a <;> rfl
  · refine hrs.unique h₃.toOrdered ((hf'.outputs.mono h₂.toOrdered hle₃).congr fun a => ?_)
    cases C a <;> rfl

/-- **Tables and diagrams.** In a reachable manager, over variables that are positive as signed 32-bit words, a table is
recovered from its diagrams, with its unspecified rows. A function of consecutive variables is recovered from its table:
it has the same inputs and the same care set, and its outputs are the old ones on the care set. -/
theorem tables_of_functions (hm : Reached m) (hfirst : 0 < first) (hmax : first ≤ maxVariable) :
    (∀ t : BooleanFunction, t.Valid → (∀ i < t.inputs, first + i < 2 ^ 31) →
      Yields m (do (← ofTable t first).toTable) fun t' _ => t' = t) ∧
      ∀ f : Function, (∀ r ∈ f.outputs ++ [f.care], m.Holds r ∧ DependsOn f.inputs (m.eval · r)) →
        f.inputs = (List.range f.inputs.length).map (first + ·) → f.inputs.length ≤ maxTableLines →
        f.outputs.length ≤ maxTableLines → (∀ i < f.inputs.length, first + i < 2 ^ 31) →
        Yields m (do ofTable (← f.toTable) first) fun f' m' => f'.inputs = f.inputs ∧ f'.care = f.care ∧
          Yields m' (f.outputs.mapM (conj · f.care)) fun rs _ => rs = f'.outputs := by
  have h := wellFormed_of_reached hm
  refine ⟨fun t ht hlt => yields_toTable_ofTable h ht hfirst hmax hlt, fun f hf hinputs hlen hn hlt => ?_⟩
  have hnodup : f.inputs.Nodup := hinputs ▸ nodup_variables first _
  have hdenotes := denotes_self (hf f.care (by simp)).1 fun r hr => (hf r (List.mem_append_left _ hr)).1
  exact yields_ofTable_toTable h hdenotes (tabular_self hnodup fun r hr => (hf r hr).2) hinputs hlen hn hfirst hmax hlt

theorem tables_of_functions_difference : ∃ m r, Reached m ∧ (m.Denotes r fun a => a 1 != a 2) ∧
    (Yields m (do (← ofTable ⟨2, 1, #[some 0, none, some 1, none]⟩ 1).toTable) fun t _ =>
      t = ⟨2, 1, #[some 0, none, some 1, none]⟩) ∧
      Yields m (do ofTable (← toTable ⟨[1, 2], [.one], r⟩) 1) fun f' m' => f'.inputs = [1, 2] ∧ f'.care = r ∧
        Yields m' ([.one].mapM (conj · r)) fun rs _ => rs = f'.outputs := by
  obtain ⟨m, r, hm, hr⟩ := exists_reached_difference
  have hone := (wellFormed_of_reached hm).denotes_one
  obtain ⟨htable, hfunction⟩ := tables_of_functions hm Nat.one_pos (by decide : 1 ≤ maxVariable)
  refine ⟨m, r, hm, hr, htable _ ⟨by decide, by decide, rfl, ?_⟩ (by decide), ?_⟩
  · rintro (_ | _ | _ | _ | x) y hx <;> simp at hx <;> subst hx <;> decide
  · refine hfunction ⟨[1, 2], [.one], r⟩ ?_ rfl (by show 2 ≤ maxTableLines; decide) (by show 1 ≤ maxTableLines; decide)
      (by show ∀ i < 2, 1 + i < 2 ^ 31; decide)
    simp only [List.cons_append, List.nil_append, List.forall_mem_cons]
    refine ⟨⟨hone.holds, fun a b _ => ?_⟩, ⟨hr.holds, fun a b hab => ?_⟩, List.forall_mem_nil _⟩
    · exact (hone.eval a).trans (hone.eval b).symm
    · refine (hr.eval a).trans (Eq.trans ?_ (hr.eval b).symm)
      rw [hab 1 (by decide), hab 2 (by decide)]

/-- the first variable that is negative as a signed word: its literal is that of the complement. -/
theorem yields_cubeOfBits_without_sign (h : m.WellFormed) :
    Yields m (cubeOfBits [2 ^ 31] (Word.toBits 1 1)) fun r m' => m'.Denotes r fun a => !a (2 ^ 31) := by
  have hls : ∀ l ∈ [(-2 ^ 31 : Int)], l ≠ 0 ∧ l.natAbs < lastLevel :=
    List.forall_mem_singleton.2 ⟨by decide, by decide⟩
  refine yields_bind_of_eq (ask_eq rfl) ((yields_cube h hls (by decide)).imp fun r m' _ _ hr => hr.congr fun a => ?_)
  simp [literalHolds]

/-- over this variable, the table is not recovered: the row changes its place. -/
theorem toTable_ofTable_without_sign : ∃ m, Reached m ∧ BooleanFunction.Valid ⟨1, 1, #[none, some 1]⟩ ∧
    Yields m (do (← ofTable ⟨1, 1, #[none, some 1]⟩ (2 ^ 31)).toTable) fun t _ => t = ⟨1, 1, #[some 1, none]⟩ := by
  obtain ⟨m, hm⟩ : ∃ m, Manager.empty 4 = .ok m := ⟨_, rfl⟩
  have h := wellFormed_of_reached (.empty hm)
  refine ⟨m, .empty hm, ⟨by decide, by decide, rfl, ?_⟩, ?_⟩
  · rintro (_ | _ | x) y hx <;> simp at hx
    subst hx
    decide
  have hstart : Denotes m ⟨[2 ^ 31], [.zero], .zero⟩ [2 ^ 31] 1 (fun _ => 0) fun _ => false :=
    ⟨rfl, denotesWord_zero h 1, h.denotes_zero⟩
  have hadd := yields_addRow_of_cube (y := 1) h hstart (yields_cubeOfBits_without_sign h)
  have htabular : Tabular [2 ^ 31] 1 (fun a => if (!a (2 ^ 31)) = true then 0 ||| 1 else 0)
      fun a => false || !a (2 ^ 31) := by
    refine ⟨List.nodup_singleton _, fun a b hab => ?_, fun a b hab => ?_, fun a => ?_⟩
    · simp only [hab _ (List.mem_singleton_self _)]
    · simp only [hab _ (List.mem_singleton_self _)]
    · split <;> decide
  have htable : Yields m (ofTable ⟨1, 1, #[none, some 1]⟩ (2 ^ 31)) fun f m' => Denotes m' f [2 ^ 31] 1 _ _ :=
    yields_bind_of_eq (ask_eq rfl) hadd
  refine htable.bind fun f m' h' _ hf => ?_
  exact (yields_toTable hf htabular h' (by decide) (by decide)).imp fun t _ _ _ ht => ht.trans (by decide)

end Function

end ReversibleLogic.Bdd
