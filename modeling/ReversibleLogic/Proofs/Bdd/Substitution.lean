import ReversibleLogic.Proofs.Bdd.Reached
import ReversibleLogic.Proofs.Bdd.Support

/-!
# Substituted variables

* `constants values` — the substitution that fixes variables; it is the substitution of constant functions
  (`substituted_constants`);
* `substitution_spec` — what `compose` and `restrict` compute in a reachable manager, and where they agree.
-/

namespace ReversibleLogic.Bdd

variable {m : Manager} {f : Ref} {F : Assignment → Bool} {map : Binding Ref} {values : Binding Bool}

/-! ### constants -/

def constants (values : Binding Bool) : Binding Ref := values.map fun _ b => if b then .one else .zero

theorem getElem?_constants (values : Binding Bool) (v : Nat) :
    (constants values)[v]? = values[v]?.map fun b => if b then Ref.one else .zero := Std.TreeMap.getElem?_map

theorem holdsAll_constants (hm : m.Ordered) (values : Binding Bool) : HoldsAll m (constants values) := by
  intro v g hg
  rw [getElem?_constants] at hg
  obtain ⟨b, -, rfl⟩ := Option.map_eq_some_iff.1 hg
  split
  · exact hm.holds_one
  · exact hm.holds_zero

theorem substituted_constants (m : Manager) (values : Binding Bool) (a : Assignment) :
    substituted m (constants values) a = override values a := by
  funext v
  rw [substituted, override, getElem?_constants]
  rcases values[v]? with _ | b
  · rfl
  · cases b with
    | false => exact Manager.eval_zero m a
    | true => exact Manager.eval_one m a

/-! ### reachable managers -/

theorem computes_compose (h : Reached m) (hf : m.Denotes f F) (hmap : HoldsAll m map) :
    Computes m (compose f map) fun a => F (substituted m map a) :=
  hf.eval_eq ▸ computes_op h (.compose f map) ⟨hf.holds, hmap⟩

theorem computes_restrict (h : Reached m) (hf : m.Denotes f F) (values : Binding Bool) :
    Computes m (restrict f values) fun a => F (override values a) :=
  hf.eval_eq ▸ computes_op h (.restrict f values) hf.holds

/-- **Substitution.** In a reachable manager `compose` ends without an error, with `f` under the assignment that gives
every mapped variable the value of its function, all at once; `restrict` ends with `f` where the listed variables are
fixed, and with none of them in its support. To fix variables is to substitute constants, down to the reference. -/
theorem substitution_spec (h : Reached m) (hf : m.Holds f) (hmap : HoldsAll m map) (values : Binding Bool) :
    (Computes m (compose f map) fun a => m.eval (substituted m map a) f) ∧
      (Ends m (restrict f values) fun r m' =>
        m'.Denotes r (fun a => m.eval (override values a) f) ∧ Avoids m' r (· ∈ values)) ∧
      SameResult m (restrict f values) (compose f (constants values)) := by
  refine ⟨computes_compose h hf.denotes hmap, ?_, ?_⟩
  · refine (computes_restrict h hf.denotes values).ends fun r m' hafter hr => ⟨hr, ?_⟩
    exact hr.avoids hafter.reached.ordered fun v hv => ignores_override_of_mem (m.eval · f) hv
  · refine sameResult_of_computes h (F := fun a => m.eval (override values a) f)
      (fun m' hafter => computes_restrict hafter.reached (hafter.keeps f hf) values) fun m' hafter => ?_
    have hconst := holdsAll_constants hafter.reached.ordered values
    refine (computes_compose hafter.reached (hafter.keeps f hf) hconst).congr fun a => ?_
    rw [substituted_constants]

/-- the difference in place of its own first variable gives that variable back. -/
theorem substitution_spec_difference :
    ∃ m f, Reached m ∧ m.Denotes f (fun a => a 1 != a 2) ∧
      (Computes m (compose f (.ofEntries [(1, f)])) fun a => a 1) ∧
      (Ends m (restrict f (.ofEntries [(2, true)])) fun r m' =>
        m'.Denotes r (fun a => !a 1) ∧ Avoids m' r (· ∈ Binding.ofEntries [(2, true)])) ∧
      SameResult m (restrict f (.ofEntries [(2, true)])) (compose f (constants (.ofEntries [(2, true)]))) := by
  obtain ⟨m, f, hm, hf⟩ := exists_reached_difference
  have hmap : HoldsAll m (.ofEntries ([] ++ [(1, f)])) := (holdsAll_nil m).concat hf.holds
  obtain ⟨hcompose, hrestrict, hsame⟩ := substitution_spec hm hf.holds hmap (.ofEntries [(2, true)])
  refine ⟨m, f, hm, hf, hcompose.congr fun a => ?_, ?_, hsame⟩
  · have h₁ := substituted_concat (m := m) [] 1 f a 1
    have h₂ := substituted_concat (m := m) [] 1 f a 2
    rw [if_pos rfl] at h₁
    rw [if_neg (by decide), substituted_nil] at h₂
    rw [hf.eval, h₁, h₂, hf.eval]
    cases a 1 <;> cases a 2 <;> rfl
  · obtain ⟨r, m', hok, hafter, hr, havoids⟩ := hrestrict
    refine ⟨r, m', hok, hafter, hr.congr fun a => ?_, havoids⟩
    have h₁ : override (.ofEntries [(2, true)]) a 1 = a 1 := rfl
    have h₂ : override (.ofEntries [(2, true)]) a 2 = true := rfl
    rw [hf.eval, h₁, h₂]
    cases a 1 <;> rfl

end ReversibleLogic.Bdd
