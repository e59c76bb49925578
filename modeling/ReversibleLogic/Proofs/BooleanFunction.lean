import Mathlib.Data.Nat.Count
import Mathlib.Tactic.Common
import ReversibleLogic.BooleanFunction
import ReversibleLogic.Proofs.Permutation

/-!
# Tables of Boolean functions

* `BooleanFunction.Valid` — what the check of the rows accepts, no more and no less (`ofRows_eq_ok`);
* `multiplicity`, `earlier` — the number of rows with an output word, and of those before a given row;
* `IsMaxMultiplicity` — the largest multiplicity, 0 if no row is specified.
-/

namespace ReversibleLogic.BooleanFunction

variable {f : BooleanFunction} {inputs outputs x y z : Nat} {rows : Array (Option Nat)}

/-! ### checked tables -/

/-- one row for each input word, with outputs that fit, and no more inputs and outputs than a table can have. -/
structure Valid (f : BooleanFunction) : Prop where
  inputs_le : f.inputs ≤ maxTableLines
  outputs_le : f.outputs ≤ maxTableLines
  size : f.rows.size = 2 ^ f.inputs
  lt : ∀ x y : Nat, f.rows[x]? = some (some y) → y < 2 ^ f.outputs

theorem oversized?_eq_none :
    oversized? outputs rows = none ↔ ∀ x y : Nat, rows[x]? = some (some y) → y < 2 ^ outputs := by
  unfold oversized?
  cases hfind : rows.findIdx? fun row => row.any (2 ^ outputs ≤ ·) with
  | none =>
    have hall := Array.findIdx?_eq_none_iff.1 hfind
    refine ⟨fun _ x y hxy => ?_, fun _ => by simp [hfind]⟩
    have := hall _ (Array.mem_of_getElem? hxy)
    simpa using this
  | some i =>
    obtain ⟨hi, hany, -⟩ := Array.findIdx?_eq_some_iff_getElem.1 hfind
    obtain ⟨y, hy, hle⟩ := Option.any_eq_true _ _ |>.1 hany
    have hrow : rows[i]? = some (some y) := by rw [Array.getElem?_eq_getElem hi, hy]
    have hle : 2 ^ outputs ≤ y := of_decide_eq_true hle
    constructor
    · intro h
      simp [hfind, hrow] at h
    · intro h
      have := h i y hrow
      omega

/-- **Checked tables.** The check accepts exactly the valid ones. -/
theorem ofRows_eq_ok : ofRows inputs outputs rows = .ok f ↔ f = ⟨inputs, outputs, rows⟩ ∧ f.Valid := by
  unfold ofRows
  dsimp only
  split
  · next hcap =>
    simp only [reduceCtorEq, false_iff]
    rintro ⟨rfl, hf⟩
    have h₁ := hf.inputs_le
    have h₂ := hf.outputs_le
    dsimp only at h₁ h₂
    omega
  · next hcap =>
    split
    · next hsize =>
      simp only [reduceCtorEq, false_iff]
      rintro ⟨rfl, hf⟩
      exact hsize hf.size
    · next hsize =>
      cases hover : oversized? outputs rows with
      | some p =>
        simp only [reduceCtorEq, false_iff]
        rintro ⟨rfl, hf⟩
        rw [oversized?_eq_none.2 hf.lt] at hover
        cases hover
      | none =>
        rw [not_not] at hsize
        have hlt := oversized?_eq_none.1 hover
        constructor
        · intro h
          cases h
          exact ⟨rfl, by dsimp only; omega, by dsimp only; omega, hsize, hlt⟩
        · rintro ⟨rfl, -⟩
          rfl

/-! ### multiplicities -/

def multiplicity (f : BooleanFunction) (y : Nat) : Nat := f.rows.toList.count (some y)

/-- number of rows before row `x` with the output word `y`. -/
def earlier (f : BooleanFunction) (x y : Nat) : Nat := (f.rows.toList.take x).count (some y)

theorem earlier_succ (h : f.rows[x]? = some (some y)) : f.earlier (x + 1) y = f.earlier x y + 1 := by
  rw [earlier, List.take_add_one, Array.getElem?_toList, h, List.count_append]
  simp [earlier]

theorem earlier_mono (f : BooleanFunction) (h : x ≤ z) (y : Nat) : f.earlier x y ≤ f.earlier z y :=
  (List.take_sublist_take_left h).count_le _

theorem earlier_eq_count (f : BooleanFunction) (x y : Nat) :
    f.earlier x y = Nat.count (fun z => f.rows[z]? = some (some y)) x := by
  induction x with
  | zero => rfl
  | succ x ih =>
    rw [Nat.count_succ, ← ih, earlier, List.take_add_one, List.count_append, Array.getElem?_toList, ← earlier]
    rcases f.rows[x]? with _ | _ | z
    · simp
    · simp
    · simp [List.count_singleton]

/-- all rows with an output word, as a set. -/
theorem multiplicity_eq_card (f : BooleanFunction) (y : Nat) :
    f.multiplicity y = ((Finset.range f.rows.size).filter fun x => f.rows[x]? = some (some y)).card := by
  rw [← Nat.count_eq_card_filter_range, ← earlier_eq_count, earlier, multiplicity, List.take_of_length_le]
  simp

theorem earlier_lt_multiplicity (h : f.rows[x]? = some (some y)) : f.earlier x y < f.multiplicity y := by
  have hle : f.earlier (x + 1) y ≤ f.multiplicity y := (List.take_sublist _ _).count_le _
  have := earlier_succ h
  omega

/-- rows with the same output word have different numbers of predecessors. -/
theorem eq_of_earlier_eq (hx : f.rows[x]? = some (some y)) (hz : f.rows[z]? = some (some y))
    (h : f.earlier x y = f.earlier z y) : x = z := by
  have hsx := earlier_succ hx
  have hsz := earlier_succ hz
  rcases Nat.lt_trichotomy x z with hlt | he | hgt
  · have : f.earlier (x + 1) y ≤ f.earlier z y := f.earlier_mono hlt y
    omega
  · exact he
  · have : f.earlier (z + 1) y ≤ f.earlier x y := f.earlier_mono hgt y
    omega

/-- no output word has more than `μ` rows, and some output word has `μ` rows unless `μ` is 0. -/
structure IsMaxMultiplicity (f : BooleanFunction) (μ : Nat) : Prop where
  le : ∀ y, f.multiplicity y ≤ μ
  attained : μ = 0 ∨ ∃ y, f.multiplicity y = μ

theorem IsMaxMultiplicity.eq {μ ν : Nat} (hμ : f.IsMaxMultiplicity μ) (hν : f.IsMaxMultiplicity ν) : μ = ν := by
  apply Nat.le_antisymm
  · rcases hμ.attained with rfl | ⟨y, rfl⟩
    · exact Nat.zero_le _
    · exact hν.le y
  · rcases hν.attained with rfl | ⟨y, rfl⟩
    · exact Nat.zero_le _
    · exact hμ.le y

end ReversibleLogic.BooleanFunction
