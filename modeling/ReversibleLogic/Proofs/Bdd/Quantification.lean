import ReversibleLogic.Proofs.Bdd.Functions
import ReversibleLogic.Proofs.Bdd.Reached
import ReversibleLogic.Proofs.Bdd.Support

/-!
# Quantified variables

* `someSetting_congr_mem`, `someSetting_someSetting` — the order of the variables and repetitions do not matter, and
  lists are quantified one after the other or at once; the same for `everySetting`;
* `quantifiers_spec` — what the two quantifiers compute in a reachable manager.
-/

namespace ReversibleLogic.Bdd

variable {m : Manager} {f : Ref} {F : Assignment → Bool} {vars us : List Nat}

/-! ### their functions -/

/-- a list of variables is quantified as the set of its members. -/
theorem someSetting_congr_mem (h : ∀ v, v ∈ us ↔ v ∈ vars) : someSetting us F = someSetting vars F := by
  funext a
  rw [Bool.eq_iff_iff, someSetting_eq_true, someSetting_eq_true]
  simp only [h]

/-- **One list after the other.** -/
theorem someSetting_someSetting (vars us : List Nat) (F : Assignment → Bool) :
    someSetting us (someSetting vars F) = someSetting (vars ++ us) F := by
  funext a
  rw [Bool.eq_iff_iff, someSetting_eq_true, someSetting_eq_true]
  constructor
  · rintro ⟨b, hb, hF⟩
    obtain ⟨c, hc, hF⟩ := someSetting_eq_true.1 hF
    refine ⟨c, fun v hv => ?_, hF⟩
    rw [List.mem_append, not_or] at hv
    rw [hc v hv.1, hb v hv.2]
  · rintro ⟨c, hc, hF⟩
    -- the assignment between the two has the new values of `us` only
    refine ⟨fun v => if v ∈ us then c v else a v, fun v hv => if_neg hv, someSetting_eq_true.2 ⟨c, fun v hv => ?_, hF⟩⟩
    split
    · rfl
    · next hu => exact hc v fun hmem => (List.mem_append.1 hmem).elim hv hu

theorem everySetting_congr_mem (h : ∀ v, v ∈ us ↔ v ∈ vars) : everySetting us F = everySetting vars F := by
  funext a
  rw [everySetting, everySetting, someSetting_congr_mem h]

theorem everySetting_everySetting (vars us : List Nat) (F : Assignment → Bool) :
    everySetting us (everySetting vars F) = everySetting (vars ++ us) F := by
  funext a
  simp only [everySetting, Bool.not_not]
  rw [← someSetting_someSetting]

theorem ignores_everySetting_of_mem {v : Nat} (hv : v ∈ vars) : Ignores (everySetting vars F) v := by
  intro a b
  exact congrArg (!·) (ignores_someSetting_of_mem hv a b)

/-! ### reachable managers -/

theorem computes_existsOver (h : Reached m) (hf : m.Denotes f F) (vars : List Nat) :
    Computes m (existsOver f vars) (someSetting vars F) :=
  hf.eval_eq ▸ computes_op h (.existsOver f vars) hf.holds

theorem computes_forallOver (h : Reached m) (hf : m.Denotes f F) (vars : List Nat) :
    Computes m (forallOver f vars) (everySetting vars F) :=
  hf.eval_eq ▸ computes_op h (.forallOver f vars) hf.holds

/-- **Quantification.** In a reachable manager both quantifiers end without an error, with a reference that is true
where some or every setting of the listed variables makes `f` true, and with none of them in its support. Lists with the
same members give the same reference, and so do two lists one after the other and both together. -/
theorem quantifiers_spec (h : Reached m) (hf : m.Holds f) (vars us : List Nat) :
    (Ends m (existsOver f vars) fun r m' =>
        Expresses m' r (fun a => ∃ b : Assignment, (∀ v, v ∉ vars → b v = a v) ∧ m.eval b f = true) ∧
          Avoids m' r (· ∈ vars)) ∧
      (Ends m (forallOver f vars) fun r m' =>
        Expresses m' r (fun a => ∀ b : Assignment, (∀ v, v ∉ vars → b v = a v) → m.eval b f = true) ∧
          Avoids m' r (· ∈ vars)) ∧
      ((∀ v, v ∈ us ↔ v ∈ vars) →
        SameResult m (existsOver f us) (existsOver f vars) ∧ SameResult m (forallOver f us) (forallOver f vars)) ∧
      SameResult m (existsOver f vars >>= (existsOver · us)) (existsOver f (vars ++ us)) ∧
      SameResult m (forallOver f vars >>= (forallOver · us)) (forallOver f (vars ++ us)) := by
  have hsome : ∀ vars m', After m m' → Computes m' (existsOver f vars) (someSetting vars (m.eval · f)) :=
    fun vars m' hafter => computes_existsOver hafter.reached (hafter.keeps f hf) vars
  have hevery : ∀ vars m', After m m' → Computes m' (forallOver f vars) (everySetting vars (m.eval · f)) :=
    fun vars m' hafter => computes_forallOver hafter.reached (hafter.keeps f hf) vars
  refine ⟨?_, ?_, fun hmem => ⟨?_, ?_⟩, ?_, ?_⟩
  · refine (hsome vars m (.refl h)).ends fun r m' hafter hr => ⟨hr.expresses fun a => someSetting_eq_true, ?_⟩
    exact hr.avoids hafter.reached.ordered fun v hv => ignores_someSetting_of_mem hv
  · refine (hevery vars m (.refl h)).ends fun r m' hafter hr => ⟨hr.expresses fun a => everySetting_eq_true, ?_⟩
    exact hr.avoids hafter.reached.ordered fun v hv => ignores_everySetting_of_mem hv
  · exact sameResult_of_computes h (hsome us) (someSetting_congr_mem hmem ▸ hsome vars)
  · exact sameResult_of_computes h (hevery us) (everySetting_congr_mem hmem ▸ hevery vars)
  · refine sameResult_of_computes h (fun m' hafter => ?_) (hsome (vars ++ us))
    rw [← someSetting_someSetting]
    exact (hsome vars m' hafter).bind fun r m'' hafter' hr => computes_existsOver hafter'.reached hr us
  · refine sameResult_of_computes h (fun m' hafter => ?_) (hevery (vars ++ us))
    rw [← everySetting_everySetting]
    exact (hevery vars m' hafter).bind fun r m'' hafter' hr => computes_forallOver hafter'.reached hr us

theorem quantifiers_spec_difference :
    ∃ m f, Reached m ∧ m.Denotes f (fun a => a 1 != a 2) ∧
      (Ends m (existsOver f [2, 2]) fun r m' =>
        Expresses m' r (fun a => ∃ b : Assignment, (∀ v, v ∉ [2, 2] → b v = a v) ∧ m.eval b f = true) ∧
          Avoids m' r (· ∈ [2, 2])) ∧
      SameResult m (existsOver f [2, 1]) (existsOver f [1, 2]) ∧
      SameResult m (forallOver f [2] >>= (forallOver · [1])) (forallOver f [2, 1]) := by
  obtain ⟨m, f, hm, hf⟩ := exists_reached_difference
  obtain ⟨hsome, -⟩ := quantifiers_spec hm hf.holds [2, 2] []
  obtain ⟨-, -, hsame, -⟩ := quantifiers_spec hm hf.holds [1, 2] [2, 1]
  obtain ⟨-, -, -, -, htwo⟩ := quantifiers_spec hm hf.holds [2] [1]
  exact ⟨m, f, hm, hf, hsome, (hsame fun v => by simp [or_comm]).1, htwo⟩

end ReversibleLogic.Bdd
