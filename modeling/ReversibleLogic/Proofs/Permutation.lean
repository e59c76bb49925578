import Mathlib.Data.Finset.Card
import Mathlib.Data.Set.Function
import Mathlib.Order.Interval.Set.Defs
import Mathlib.Tactic.Common
import ReversibleLogic.Permutation
import ReversibleLogic.Proofs.Computation

/-!
# Tables of bijections

* `Bijection n t` — the table `t` is a bijection on the words below `2 ^ n`;
* `writeRows` — the rows of a table, written at their images; on a bijection this is the inverse (`getD_writeRows`);
* `Permutation.Valid` — what the check of a table accepts, no more and no less (`ofTable_eq_ok`).
-/

namespace ReversibleLogic

/-! ### bijections -/

/-- `t` maps the words below `2 ^ n` to each other, one to one. -/
structure Bijection (n : Nat) (t : Array Nat) : Prop where
  size : t.size = 2 ^ n
  lt : ∀ x < 2 ^ n, t.getD x 0 < 2 ^ n
  inj : ∀ x < 2 ^ n, ∀ y < 2 ^ n, t.getD x 0 = t.getD y 0 → x = y

theorem getD_map_range (f : Nat → Nat) {k x : Nat} (hx : x < k) : ((Array.range k).map f).getD x 0 = f x := by
  rw [Array.getD_eq_getD_getElem?, Array.getElem?_map, Array.getElem?_range, if_pos hx]
  rfl

theorem eq_of_getD {t u : Array Nat} {k : Nat} (ht : t.size = k) (hu : u.size = k)
    (h : ∀ x < k, t.getD x 0 = u.getD x 0) : t = u := by
  refine Array.ext (ht.trans hu.symm) fun x hx hx' => ?_
  have hrow := h x (ht ▸ hx)
  rwa [Array.getD_eq_getD_getElem?, Array.getD_eq_getD_getElem?, Array.getElem?_eq_getElem hx,
    Array.getElem?_eq_getElem hx'] at hrow

namespace Bijection

variable {n : Nat} {t : Array Nat}

theorem of_map_range {f : Nat → Nat} (hlt : ∀ x < 2 ^ n, f x < 2 ^ n)
    (hinj : ∀ x < 2 ^ n, ∀ y < 2 ^ n, f x = f y → x = y) : Bijection n ((Array.range (2 ^ n)).map f) := by
  refine ⟨by simp, fun x hx => ?_, fun x hx y hy he => hinj x hx y hy ?_⟩
  · rw [getD_map_range f hx]
    exact hlt x hx
  · rwa [getD_map_range f hx, getD_map_range f hy] at he

theorem getElem? (h : Bijection n t) {x : Nat} (hx : x < 2 ^ n) : t[x]? = some (t.getD x 0) := by
  have hlt : x < t.size := by rw [h.size]; exact hx
  rw [Array.getD_eq_getD_getElem?, Array.getElem?_eq_getElem hlt]
  rfl

theorem getElem?_eq_none (h : Bijection n t) {x : Nat} (hx : 2 ^ n ≤ x) : t[x]? = none := by
  rw [Array.getElem?_eq_none_iff, h.size]
  exact hx

theorem getElem?_eq_some (h : Bijection n t) {x y : Nat} : t[x]? = some y ↔ x < 2 ^ n ∧ t.getD x 0 = y := by
  constructor
  · intro hx
    have hlt : x < 2 ^ n := h.size ▸ (Array.getElem?_eq_some_iff.1 hx).1
    rw [h.getElem? hlt] at hx
    exact ⟨hlt, Option.some.inj hx⟩
  · rintro ⟨hlt, rfl⟩
    exact h.getElem? hlt

theorem surj (h : Bijection n t) {y : Nat} (hy : y < 2 ^ n) : ∃ x < 2 ^ n, t.getD x 0 = y := by
  have himage : (Finset.range (2 ^ n)).image (t.getD · 0) = Finset.range (2 ^ n) := by
    refine Finset.eq_of_subset_of_card_le (fun z hz => ?_) ?_
    · obtain ⟨x, hx, rfl⟩ := Finset.mem_image.1 hz
      exact Finset.mem_range.2 (h.lt x (Finset.mem_range.1 hx))
    · rw [Finset.card_image_of_injOn]
      intro x hx x' hx' he
      exact h.inj x (by simpa using hx) x' (by simpa using hx') he
  rw [← Finset.mem_range, ← himage, Finset.mem_image] at hy
  obtain ⟨x, hx, he⟩ := hy
  exact ⟨x, Finset.mem_range.1 hx, he⟩

theorem bijOn (h : Bijection n t) : Set.BijOn (t.getD · 0) (Set.Iio (2 ^ n)) (Set.Iio (2 ^ n)) :=
  ⟨fun x hx => h.lt x hx, fun x hx y hy he => h.inj x hx y hy he, fun _ hy => h.surj hy⟩

/-- the image of an unfixed row is larger if all smaller rows are fixed. -/
theorem lt_of_fixed (h : Bijection n t) {x : Nat} (hx : x < 2 ^ n) (hne : t.getD x 0 ≠ x)
    (hfixed : ∀ z < x, t.getD z 0 = z) : x < t.getD x 0 := by
  by_contra hle
  have hlt : t.getD x 0 < x := by omega
  exact hne (h.inj _ (h.lt x hx) _ hx (hfixed _ hlt))

theorem toList_nodup (h : Bijection n t) : t.toList.Nodup := by
  rw [List.nodup_iff_injective_get]
  intro i j he
  have hget : ∀ k : Fin t.toList.length, t.toList.get k = t.getD k 0 := by
    intro k
    have hk : k.1 < t.size := k.2
    rw [Array.getD_eq_getD_getElem?, Array.getElem?_eq_getElem hk]
    simp
  have hlt : ∀ k : Fin t.toList.length, k.1 < 2 ^ n := by
    intro k
    rw [← h.size]
    exact k.2
  rw [hget, hget] at he
  exact Fin.ext (h.inj _ (hlt i) _ (hlt j) he)

theorem toList_lt (h : Bijection n t) : ∀ y ∈ t.toList, y < 2 ^ n := by
  intro y hy
  obtain ⟨x, hx⟩ := List.mem_iff_getElem?.1 hy
  rw [Array.getElem?_toList] at hx
  obtain ⟨hlt, rfl⟩ := h.getElem?_eq_some.1 hx
  exact h.lt x hlt

/-- a list of different words below `2 ^ n`, as many as there are, is a bijection. -/
theorem of_nodup (hsize : t.size = 2 ^ n) (hlt : ∀ y ∈ t.toList, y < 2 ^ n) (hnodup : t.toList.Nodup) :
    Bijection n t := by
  have hlen : t.toList.length = 2 ^ n := by rw [Array.length_toList, hsize]
  have hget : ∀ x (hx : x < 2 ^ n), t.getD x 0 = t.toList.get ⟨x, hlen ▸ hx⟩ := by
    intro x hx
    have hx' : x < t.size := by rw [hsize]; exact hx
    rw [Array.getD_eq_getD_getElem?, Array.getElem?_eq_getElem hx']
    simp
  refine ⟨hsize, fun x hx => ?_, fun x hx y hy he => ?_⟩
  · rw [hget x hx]
    exact hlt _ (List.get_mem _ _)
  · rw [hget x hx, hget y hy] at he
    exact congrArg Fin.val (List.nodup_iff_injective_get.1 hnodup he)

end Bijection

/-! ### writing rows at their images -/

def writeRows (rows : List (Nat × Nat)) (t : Array Nat) : Array Nat :=
  rows.foldl (fun t (y, x) => t.setIfInBounds y x) t

theorem size_writeRows (rows : List (Nat × Nat)) (t : Array Nat) : (writeRows rows t).size = t.size := by
  induction rows generalizing t with
  | nil => rfl
  | cons row rows ih =>
    show (writeRows rows _).size = _
    rw [ih, Array.size_setIfInBounds]

theorem getD_writeRows_of_not_mem {rows : List (Nat × Nat)} {y : Nat} (h : y ∉ rows.map Prod.fst) (t : Array Nat) :
    (writeRows rows t).getD y 0 = t.getD y 0 := by
  induction rows generalizing t with
  | nil => rfl
  | cons row rows ih =>
    rw [List.map_cons, List.mem_cons, not_or] at h
    show (writeRows rows _).getD y 0 = _
    rw [ih h.2, Array.getD_eq_getD_getElem?, Array.getElem?_setIfInBounds_ne (Ne.symm h.1),
      ← Array.getD_eq_getD_getElem?]

theorem getD_writeRows_of_mem {rows : List (Nat × Nat)} {x y : Nat} {t : Array Nat} (h : (y, x) ∈ rows)
    (hnodup : (rows.map Prod.fst).Nodup) (hy : y < t.size) : (writeRows rows t).getD y 0 = x := by
  induction rows generalizing t with
  | nil => cases h
  | cons row rows ih =>
    rw [List.map_cons, List.nodup_cons] at hnodup
    show (writeRows rows (t.setIfInBounds row.1 row.2)).getD y 0 = x
    rcases List.mem_cons.1 h with rfl | h
    · rw [getD_writeRows_of_not_mem hnodup.1, Array.getD_eq_getD_getElem?, Array.getElem?_setIfInBounds_self_of_lt hy]
      rfl
    · exact ih h hnodup.2 (by rwa [Array.size_setIfInBounds])

/-- **Rows written at their images are the inverse** of a bijection. -/
theorem getD_writeRows {n : Nat} {t : Array Nat} (h : Bijection n t) {u : Array Nat} (hu : u.size = 2 ^ n) {x : Nat}
    (hx : x < 2 ^ n) : (writeRows t.toList.zipIdx u).getD (t.getD x 0) 0 = x := by
  refine getD_writeRows_of_mem ?_ ?_ (by rw [hu]; exact h.lt x hx)
  · rw [List.mk_mem_zipIdx_iff_getElem?, Array.getElem?_toList]
    exact h.getElem? hx
  · have hfst : t.toList.zipIdx.map Prod.fst = t.toList := by simp
    rw [hfst]
    exact h.toList_nodup

/-! ### checked tables -/

namespace Permutation

/-- a bijection on at most as many lines as a table can have. -/
structure Valid (p : Permutation) : Prop where
  lines_le : p.lines ≤ maxTableLines
  bijection : Bijection p.lines p.table

/-- the check of the rows accepts different words that have not been met before. -/
theorem checkRows_eq_ok {lines : Nat} {rows : List Nat} {x : Nat} {preimage : Array (Option Nat)}
    (hsize : preimage.size = 2 ^ lines) :
    checkRows lines rows x preimage = .ok () ↔
      (∀ y ∈ rows, y < 2 ^ lines ∧ preimage[y]?.join = none) ∧ rows.Nodup := by
  induction rows generalizing x preimage with
  | nil => simp [checkRows]
  | cons y rows ih =>
    rw [checkRows, List.forall_mem_cons, List.nodup_cons]
    split
    · next hle => simp; omega
    · next hlt =>
      split
      · next first hfirst => simp [hfirst]
      · next hnone =>
        rw [ih (by rwa [Array.size_setIfInBounds])]
        -- the word `y` now counts as met
        have hset : ∀ z, (preimage.setIfInBounds y (some x))[z]?.join = none ↔ preimage[z]?.join = none ∧ z ≠ y := by
          intro z
          by_cases hz : z = y
          · subst hz
            have hz' : z < preimage.size := by omega
            rw [Array.getElem?_setIfInBounds_self_of_lt hz']
            simp
          · rw [Array.getElem?_setIfInBounds_ne (Ne.symm hz)]
            simp [hz]
        constructor
        · rintro ⟨hrows, hnodup⟩
          refine ⟨⟨⟨by omega, hnone⟩, fun z hz => ⟨(hrows z hz).1, ((hset z).1 (hrows z hz).2).1⟩⟩, ?_, hnodup⟩
          exact fun hy => ((hset y).1 (hrows y hy).2).2 rfl
        · rintro ⟨⟨-, hrows⟩, hy, hnodup⟩
          refine ⟨fun z hz => ⟨(hrows z hz).1, (hset z).2 ⟨(hrows z hz).2, ?_⟩⟩, hnodup⟩
          rintro rfl
          exact hy hz

/-- **Checked tables.** The check accepts a table exactly if it is a bijection on few enough lines. -/
theorem ofTable_eq_ok {lines : Nat} {table : Array Nat} {p : Permutation} :
    ofTable lines table = .ok p ↔ p = ⟨lines, table⟩ ∧ p.Valid := by
  have hcheck := @checkRows_eq_ok lines table.toList 0 (Array.replicate (2 ^ lines) none) (by simp)
  have hfresh : ∀ y : Nat, (Array.replicate (2 ^ lines) (none : Option Nat))[y]?.join = none := by
    intro y
    rw [Array.getElem?_replicate]
    split <;> rfl
  unfold ofTable
  split
  · next hcap =>
    simp only [reduceCtorEq, false_iff]
    rintro ⟨rfl, hv⟩
    exact absurd hv.lines_le (by simpa using hcap)
  · next hcap =>
    split
    · next hsize =>
      simp only [reduceCtorEq, false_iff]
      rintro ⟨rfl, hv⟩
      exact hsize hv.bijection.size
    · next hsize =>
      rw [not_not] at hsize
      constructor
      · intro h
        cases hc : checkRows lines table.toList 0 (Array.replicate (2 ^ lines) none) with
        | error e => rw [hc] at h; cases h
        | ok _ =>
          rw [hc] at h
          cases h
          obtain ⟨hrows, hnodup⟩ := hcheck.1 hc
          exact ⟨rfl, by simpa using hcap, .of_nodup hsize (fun y hy => (hrows y hy).1) hnodup⟩
      · rintro ⟨rfl, hv⟩
        have hb := hv.bijection
        rw [hcheck.2 ⟨fun y hy => ⟨hb.toList_lt y hy, hfresh y⟩, hb.toList_nodup⟩]
        rfl

theorem apply_eq {p : Permutation} (hp : p.Valid) {x : Nat} (hx : x < 2 ^ p.lines) :
    p.apply x = .ok (p.table.getD x 0) := by
  rw [apply, hp.bijection.getElem? hx]

theorem mem_rows {p : Permutation} (hp : p.Valid) {x y : Nat} :
    (x, y) ∈ p.rows ↔ x < 2 ^ p.lines ∧ p.apply x = .ok y := by
  have hmem : (x, y) ∈ p.rows ↔ p.table[x]? = some y := by simp [rows, List.mk_mem_zipIdx_iff_getElem?]
  rw [hmem, hp.bijection.getElem?_eq_some]
  exact and_congr_right fun hx => by rw [apply_eq hp hx, Except.ok.injEq]

theorem inverse_table (p : Permutation) :
    p.inverse.table = writeRows p.table.toList.zipIdx (Array.replicate p.size 0) := by
  rw [inverse, rows, List.foldl_map]
  rfl

theorem size_inverse (p : Permutation) : p.inverse.table.size = p.table.size := by
  rw [inverse_table, size_writeRows, Array.size_replicate, size]

theorem getD_inverse {p : Permutation} (hp : Bijection p.lines p.table) {x : Nat} (hx : x < 2 ^ p.lines) :
    p.inverse.table.getD (p.table.getD x 0) 0 = x := by
  rw [inverse_table]
  exact getD_writeRows hp (by rw [Array.size_replicate, size, hp.size]) hx

theorem comp_eq {p q : Permutation} (hp : Bijection p.lines p.table) (hq : q.Valid) (hlines : q.lines = p.lines) :
    p.comp q = .ok ⟨p.lines, p.table.map fun y => q.table.getD y 0⟩ := by
  have hrows := mapM_eq_ok fun y hy => apply_eq hq (hlines ▸ hp.toList_lt y hy)
  rw [← Array.toList_map] at hrows
  rw [comp, if_neg (not_not.2 hlines.symm), Array.mapM_eq_mapM_toList, hrows]
  rfl

end Permutation

end ReversibleLogic
