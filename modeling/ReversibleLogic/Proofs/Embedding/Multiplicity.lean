import ReversibleLogic.Embedding
import ReversibleLogic.Proofs.BooleanFunction
import ReversibleLogic.Proofs.Words

/-!
# Additional lines

* `getElem?_occurrences` — the counted occurrences are the multiplicities;
* `additionalLines_eq`, `additionalLines_le_iff` — so many bits as it takes to number the rows of any output word;
* `multiplicity_le_two_pow` — what a bijection on `L` lines leaves for the rows of one output word.
-/

namespace ReversibleLogic

variable {f : BooleanFunction} {k μ : Nat}

/-! ### occurrences -/

theorem getElem?_foldl_count (rows : List (Option Nat)) (counts : Std.TreeMap Nat Nat) (y : Nat) :
    (rows.foldl (fun counts row => match row with
      | some y => counts.insert y (counts.getD y 0 + 1)
      | none => counts) counts)[y]? =
      if rows.count (some y) = 0 then counts[y]? else some (counts.getD y 0 + rows.count (some y)) := by
  induction rows generalizing counts with
  | nil => simp
  | cons row rows ih =>
    rw [List.foldl_cons, ih]
    cases row with
    | none => simp
    | some z =>
      dsimp only
      rw [Std.TreeMap.getElem?_insert, Std.TreeMap.getD_insert, List.count_cons]
      by_cases hz : z = y
      · subst hz
        by_cases hrest : rows.count (some z) = 0
        · simp [hrest]
        · simp [hrest]
          omega
      · simp [hz]

/-- the counted occurrences are the multiplicities. -/
theorem getElem?_occurrences (f : BooleanFunction) (y : Nat) :
    f.occurrences[y]? = if f.multiplicity y = 0 then none else some (f.multiplicity y) := by
  rw [BooleanFunction.occurrences, ← Array.foldl_toList]
  refine (getElem?_foldl_count f.rows.toList ∅ y).trans ?_
  simp [BooleanFunction.multiplicity]

theorem le_foldl_max {ns : List Nat} {n : Nat} (h : n ∈ ns) : n ≤ ns.foldl max 0 := by
  rw [List.foldl_max]
  exact Nat.le_trans (List.le_max?_getD_of_mem h) (Nat.le_max_right _ _)

theorem foldl_max_mem (ns : List Nat) : ns.foldl max 0 = 0 ∨ ns.foldl max 0 ∈ ns := by
  rw [List.foldl_max]
  cases hmax : ns.max? with
  | none => exact Or.inl (by simp)
  | some n => exact Or.inr (by simpa using List.max?_mem hmax)

/-- a list of multiplicities in which no positive one is missing has the largest one as its maximum. -/
theorem isMaxMultiplicity_foldl {ns : List Nat} (hmem : ∀ n ∈ ns, ∃ y, f.multiplicity y = n)
    (hall : ∀ y, f.multiplicity y ≠ 0 → f.multiplicity y ∈ ns) : f.IsMaxMultiplicity (ns.foldl max 0) := by
  refine ⟨fun y => ?_, (foldl_max_mem ns).imp_right (hmem _)⟩
  by_cases hy : f.multiplicity y = 0
  · omega
  · exact le_foldl_max (hall y hy)

theorem isMaxMultiplicity_occurrences (f : BooleanFunction) :
    f.IsMaxMultiplicity (f.occurrences.foldl (fun μ _ n => max μ n) 0) := by
  rw [Std.TreeMap.foldl_eq_foldl_toList, ← List.foldl_map (f := Prod.snd) (g := max)]
  refine isMaxMultiplicity_foldl (fun n hn => ?_) fun y hy => ?_
  · obtain ⟨⟨y, n⟩, hentry, rfl⟩ := List.mem_map.1 hn
    rw [Std.TreeMap.mem_toList_iff_getElem?_eq_some, getElem?_occurrences] at hentry
    split at hentry
    · cases hentry
    · exact ⟨y, Option.some.inj hentry⟩
  · refine List.mem_map.2 ⟨(y, f.multiplicity y), ?_, rfl⟩
    rw [Std.TreeMap.mem_toList_iff_getElem?_eq_some, getElem?_occurrences, if_neg hy]

theorem additionalLines_eq (h : f.IsMaxMultiplicity μ) : additionalLines f = Word.bitsFor μ := by
  rw [additionalLines, (isMaxMultiplicity_occurrences f).eq h]

/-- **Additional lines.** They are enough lines to number the rows of each output word, and no more than that. -/
theorem additionalLines_le_iff : additionalLines f ≤ k ↔ ∀ y, f.multiplicity y ≤ 2 ^ k := by
  have hμ := isMaxMultiplicity_occurrences f
  rw [additionalLines, Word.bitsFor_le_iff]
  refine ⟨fun h y => Nat.le_trans (hμ.le y) h, fun h => ?_⟩
  rcases hμ.attained with h0 | ⟨y, hy⟩
  · rw [h0]
    exact Nat.zero_le _
  · rw [← hy]
    exact h y

/-! ### the bound -/

/-- **A bijection needs room.** The rows of one output word have different images that agree in the output bits, so
there are at most as many of them as there are words of the other bits. -/
theorem multiplicity_le_two_pow {lines : Nat} {p : Nat → Nat}
    (hp : Set.BijOn p (Set.Iio (2 ^ lines)) (Set.Iio (2 ^ lines))) (hsize : f.rows.size ≤ 2 ^ lines)
    (houtputs : f.outputs ≤ lines)
    (hout : ∀ x y : Nat, f.rows[x]? = some (some y) → embeddedOutput (p x) f.outputs = y) (y : Nat) :
    f.multiplicity y ≤ 2 ^ (lines - f.outputs) := by
  rw [BooleanFunction.multiplicity_eq_card, ← Finset.card_range (2 ^ (lines - f.outputs))]
  have hrow : ∀ x ∈ (Finset.range f.rows.size).filter fun x => f.rows[x]? = some (some y),
      x < 2 ^ lines ∧ p x % 2 ^ f.outputs = y := by
    intro x hx
    obtain ⟨hlt, hx⟩ := Finset.mem_filter.1 hx
    exact ⟨Nat.lt_of_lt_of_le (Finset.mem_range.1 hlt) hsize, hout x y hx⟩
  refine Finset.card_le_card_of_injOn (fun x => p x / 2 ^ f.outputs) (fun x hx => ?_) fun x hx z hz he => ?_
  · have hlt : p x < 2 ^ lines := hp.mapsTo (hrow x hx).1
    rw [Finset.coe_range, Set.mem_Iio, Nat.div_lt_iff_lt_mul (Nat.two_pow_pos _), ← Nat.pow_add,
      Nat.sub_add_cancel houtputs]
    exact hlt
  · obtain ⟨hxlt, hxout⟩ := hrow x hx
    obtain ⟨hzlt, hzout⟩ := hrow z hz
    dsimp only at he
    refine hp.injOn hxlt hzlt ?_
    rw [← Nat.div_add_mod (p x) (2 ^ f.outputs), ← Nat.div_add_mod (p z) (2 ^ f.outputs), he, hxout, hzout]

end ReversibleLogic
