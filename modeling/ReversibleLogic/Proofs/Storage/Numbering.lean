import Mathlib.Order.Bounds.Basic
import ReversibleLogic.Proofs.Storage

/-!
# Numbers of distinct values

* `Table.Walk` — the numbers met along the links of a table; `Lawful.exists_chain`: the chain of a slot ends, and holds
  the numbers of the values with the slot, each once;
* `Table.puts` — values stored one after the other; `Filled bits vs t`: what the values `vs` make of a new table with
  `2 ^ bits` buckets, which one more value preserves;
* `numbers_of_distinct_values` — values are numbered in order of their first insertion, whatever their hashes, and the
  number of buckets follows from the number of values.
-/

namespace ReversibleLogic.Storage.Table

variable {α : Type} {t : Table α} {i : Nat} {is : List Nat}

/-! ### chains -/

/-- the number behind number `i` in its chain. -/
def link (t : Table α) (i : Nat) : Nat := t.next[i - 1]?.getD 0

/-- the numbers met from number `i` on, up to the end of the chain. -/
inductive Walk (t : Table α) : Nat → List Nat → Prop
  | done : Walk t 0 []
  | step {i : Nat} {is : List Nat} (hi : i ≠ 0) (h : Walk t (t.link i) is) : Walk t i (i :: is)

section chains

variable [Hashed α]

/-- the walk from the latest number meets the numbers of the values with the slot. -/
theorem exists_walk (h : Linked t.bits t.values t.next t.heads) (slot : Nat) {k : Nat} (hk : k ≤ t.size) :
    ∃ is, t.Walk (latest t.bits t.values slot k) is ∧ is.length ≤ k ∧ is.Pairwise (· > ·) ∧
      ∀ i, i ∈ is ↔ i ≤ k ∧ ∃ v, t.value? i = some v ∧ slotOf t.bits v = slot := by
  induction k with
  | zero =>
    refine ⟨[], .done, Nat.le_refl 0, .nil, fun i => ⟨fun hi => (List.not_mem_nil hi).elim, ?_⟩⟩
    rintro ⟨hi, v, hv, -⟩
    obtain rfl : i = 0 := by omega
    cases hv
  | succ k ih =>
    obtain ⟨is, hwalk, hlen, hdesc, hmem⟩ := ih (by omega)
    obtain ⟨v, hget⟩ : ∃ v, t.values[k]? = some v := ⟨_, Array.getElem?_eq_getElem hk⟩
    have hvalue : t.value? (k + 1) = some v := hget
    rw [latest, hget]
    dsimp only
    by_cases hs : slotOf t.bits v = slot
    · have hlink : t.link (k + 1) = latest t.bits t.values slot k := by
        rw [link, Nat.add_sub_cancel, h.next k v hget, hs, Option.getD_some]
      rw [if_pos hs]
      refine ⟨(k + 1) :: is, .step (Nat.succ_ne_zero k) (hlink ▸ hwalk), Nat.succ_le_succ hlen,
        List.pairwise_cons.2 ⟨fun i hi => Nat.lt_succ_of_le ((hmem i).1 hi).1, hdesc⟩, fun i => ?_⟩
      rw [List.mem_cons, hmem i]
      constructor
      · rintro (rfl | ⟨hi, hv⟩)
        · exact ⟨Nat.le_refl _, v, hvalue, hs⟩
        · exact ⟨Nat.le_succ_of_le hi, hv⟩
      · rintro ⟨hi, hv⟩
        exact (Nat.le_succ_iff.1 hi).elim (fun hi => Or.inr ⟨hi, hv⟩) Or.inl
    · rw [if_neg hs]
      refine ⟨is, hwalk, Nat.le_succ_of_le hlen, hdesc, fun i => (hmem i).trans ?_⟩
      refine ⟨And.imp_left Nat.le_succ_of_le, ?_⟩
      rintro ⟨hi, u, hu, hslot⟩
      refine ⟨(Nat.le_succ_iff.1 hi).resolve_right ?_, u, hu, hslot⟩
      rintro rfl
      rw [hvalue] at hu
      cases hu
      exact hs hslot

variable [DecidableEq α]

omit [Hashed α] in
/-- a search along a chain that ends is a search in the list of its numbers. -/
theorem find_of_walk (hwalk : t.Walk i is) (hstored : ∀ j ∈ is, ∃ u, t.value? j = some u) (v : α) {fuel : Nat}
    (hfuel : is.length ≤ fuel) : t.find v fuel i = is.find? fun j => t.value? j = some v := by
  induction hwalk generalizing fuel with
  | done =>
    cases fuel with
    | zero => rfl
    | succ fuel => rfl
  | @step i is hi hwalk ih =>
    obtain ⟨⟨u, hu⟩, hstored⟩ := List.forall_mem_cons.1 hstored
    cases fuel with
    | zero => cases hfuel
    | succ fuel =>
      have hrest := ih hstored (Nat.le_of_succ_le_succ hfuel)
      rw [find, hu, List.find?_cons, hu]
      dsimp only
      by_cases huv : u = v
      · simp [huv]
      · rw [if_neg huv, decide_eq_false fun he => huv (Option.some.inj he)]
        exact hrest

/-- the chain of a slot ends. It holds the numbers of the values with the slot, latest first, and a search for one of
these values goes through them. -/
structure Chain (t : Table α) (slot : Nat) (is : List Nat) : Prop where
  walk : t.Walk (t.heads.getD slot 0) is
  descending : is.Pairwise (· > ·)
  mem : ∀ i, i ∈ is ↔ ∃ v, t.value? i = some v ∧ slotOf t.bits v = slot
  find : ∀ v, slotOf t.bits v = slot →
    t.find v t.size (t.heads.getD slot 0) = is.find? fun i => t.value? i = some v

/-- **Every chain ends.** -/
theorem Lawful.exists_chain (h : t.Lawful) (slot : Nat) : ∃ is, t.Chain slot is := by
  obtain ⟨is, hwalk, hlen, hdesc, hmem⟩ := exists_walk h.linked slot (Nat.le_refl t.size)
  have hhead : t.heads.getD slot 0 = latest t.bits t.values slot t.size := h.linked.heads slot
  have hmem' : ∀ i, i ∈ is ↔ ∃ v, t.value? i = some v ∧ slotOf t.bits v = slot := fun i =>
    (hmem i).trans ⟨And.right, fun ⟨v, hv, hs⟩ => ⟨le_size_of_value? hv, v, hv, hs⟩⟩
  refine ⟨is, hhead ▸ hwalk, hdesc, hmem', fun v _ => ?_⟩
  rw [hhead]
  exact find_of_walk hwalk (fun j hj => ((hmem' j).1 hj).imp fun _ hu => hu.1) v hlen

end chains

/-! ### growth -/

theorem values_grow [Hashed α] (t : Table α) : t.grow.values = t.values := rfl

/-- **Growth** keeps values and numbers, and builds complete chains. -/
theorem lawful_grow [Hashed α] (h : t.Lawful) : t.grow.Lawful := ⟨linked_chains _ _, h.distinct⟩

theorem bits_add [Hashed α] (t : Table α) (v : α) :
    (t.add v).bits = if 2 * 2 ^ t.bits < t.size + 1 then t.bits + 1 else t.bits := by
  unfold add
  dsimp only
  rw [apply_ite bits]
  rfl

/-! ### values one after the other -/

theorem value?_eq_some_iff {v : α} : t.value? i = some v ↔ 0 < i ∧ t.values.toList[i - 1]? = some v := by
  cases i with
  | zero => simp [value?]
  | succ k => simp [value?_succ]

theorem mem_values_iff {v : α} : v ∈ t.values.toList ↔ ∃ i, t.value? i = some v := by
  rw [List.mem_iff_getElem?]
  constructor
  · rintro ⟨k, hk⟩
    exact ⟨k + 1, value?_eq_some_iff.2 ⟨Nat.succ_pos k, hk⟩⟩
  · rintro ⟨i, hi⟩
    exact ⟨i - 1, (value?_eq_some_iff.1 hi).2⟩

variable [DecidableEq α] [Hashed α] {vs : List α} {bits : Nat}

def puts (t : Table α) (vs : List α) : Table α := vs.foldl (fun t v => (t.put v).2) t

omit [Hashed α] in
theorem eraseDups_concat (vs : List α) (v : α) :
    (vs ++ [v]).eraseDups = if v ∈ vs then vs.eraseDups else vs.eraseDups ++ [v] := by
  rw [List.eraseDups_append, List.removeAll]
  split <;> simp_all [List.eraseDups_cons]

/-- what the values `vs` make of a new table with `2 ^ bits` buckets. -/
structure Filled (bits : Nat) (vs : List α) (t : Table α) : Prop where
  lawful : t.Lawful
  values : t.values.toList = vs.eraseDups
  bits_le : bits ≤ t.bits
  size_le : t.size ≤ 2 * 2 ^ t.bits
  least : ∀ b, bits ≤ b → t.size ≤ 2 * 2 ^ b → t.bits ≤ b

theorem filled_empty (h : empty bits = .ok t) : t.Filled bits [] := by
  have hlawful := lawful_empty h
  obtain rfl := eq_of_empty h
  exact ⟨hlawful, rfl, Nat.le_refl _, Nat.zero_le _, fun b hb _ => hb⟩

theorem Filled.mem_iff (h : t.Filled bits vs) {v : α} : v ∈ vs ↔ ∃ i, t.value? i = some v := by
  rw [← mem_values_iff, h.values, List.mem_eraseDups]

/-- **One more value.** If it is new, it is added behind the others, and the buckets double if there is no more room. -/
theorem Filled.put (h : t.Filled bits vs) (v : α) : (t.put v).2.Filled bits (vs ++ [v]) := by
  by_cases hv : v ∈ vs
  · obtain ⟨i, hi⟩ := h.mem_iff.1 hv
    rw [put_of_value? h.lawful hi]
    exact ⟨h.lawful, by rw [eraseDups_concat, if_pos hv, h.values], h.bits_le, h.size_le, h.least⟩
  · have hnew : ∀ i, t.value? i ≠ some v := fun i hi => hv (h.mem_iff.2 ⟨i, hi⟩)
    have hroom := h.size_le
    have hpos := Nat.two_pow_pos t.bits
    rw [put_of_ne h.lawful hnew]
    refine ⟨lawful_add h.lawful hnew, ?_, ?_, ?_, fun b hb hfits => ?_⟩
    · rw [values_add, Array.toList_push, eraseDups_concat, if_neg hv, h.values]
    · rw [bits_add]
      split
      · exact Nat.le_succ_of_le h.bits_le
      · exact h.bits_le
    · rw [bits_add, size_add]
      split <;> omega
    · rw [size_add] at hfits
      have hle := h.least b hb (Nat.le_of_succ_le hfits)
      rw [bits_add]
      split
      · next hfull =>
        -- the old number of buckets does not suffice any more
        refine Nat.lt_of_le_of_ne hle ?_
        rintro rfl
        omega
      · exact hle

/-- **All values.** -/
theorem Filled.puts {us : List α} (h : t.Filled bits us) (vs : List α) : (t.puts vs).Filled bits (us ++ vs) := by
  induction vs generalizing t us with
  | nil =>
    rw [List.append_nil]
    exact h
  | cons v vs ih =>
    rw [List.append_cons]
    exact ih (h.put v)

/-- the number of a value is its place among the different values, counted from 1. -/
theorem Filled.put_eq_iff (h : t.Filled bits vs) {v : α} :
    (t.put v).1 = i ↔ 0 < i ∧ (vs ++ [v]).eraseDups[i - 1]? = some v := by
  have hput := h.put v
  rw [← hput.values, ← value?_eq_some_iff]
  constructor
  · rintro rfl
    exact value?_put t v
  · exact fun hi => hput.lawful.distinct _ _ v (value?_put t v) hi

theorem Filled.size_eq (h : t.Filled bits vs) : t.size = vs.eraseDups.length := by
  rw [← h.values, Array.length_toList, size]

theorem Filled.isLeast_numBuckets (h : t.Filled bits vs) :
    IsLeast {b | ∃ k, b = 2 ^ bits * 2 ^ k ∧ t.size ≤ 2 * b} t.numBuckets := by
  refine ⟨⟨t.bits - bits, ?_, h.size_le⟩, ?_⟩
  · rw [← Nat.pow_add, Nat.add_sub_cancel' h.bits_le]
    rfl
  · rintro b ⟨k, rfl, hfits⟩
    rw [← Nat.pow_add] at hfits ⊢
    exact Nat.pow_le_pow_right Nat.two_pos (h.least _ (Nat.le_add_right bits k) hfits)

/-- **Values are numbered in order of their first insertion.** Let a new table have `2 ^ bits` buckets, and store any
values in it, one after the other. The number that is given to a value is its place among the different values so far,
counted from 1, under which the table holds it from then on; the size is their number. Every chain ends, and holds the
values with its slot once each, in whichever way the hashes collide. The buckets are the least doubling of the first
ones that leaves at most two values per bucket, and growth keeps all values and all numbers. -/
theorem numbers_of_distinct_values (hbits : bits ≤ maxBits) :
    ∃ t₀ : Table α, empty bits = .ok t₀ ∧ ∀ vs : List α,
      let t := t₀.puts vs
      (∀ v i, (t.put v).1 = i ↔ 0 < i ∧ (vs ++ [v]).eraseDups[i - 1]? = some v) ∧
      (∀ v i u, t.value? i = some u → (t.put v).2.value? i = some u) ∧
      (∀ i v, t.value? i = some v ↔ 0 < i ∧ vs.eraseDups[i - 1]? = some v) ∧
      t.size = vs.eraseDups.length ∧
      (∀ slot, ∃ is, t.Chain slot is) ∧
      IsLeast {b | ∃ k, b = 2 ^ bits * 2 ^ k ∧ t.size ≤ 2 * b} t.numBuckets ∧
      t.grow.values = t.values ∧ (∀ slot, ∃ is, t.grow.Chain slot is) ∧ ∀ v, (t.grow.put v).1 = (t.put v).1 := by
  have hempty : empty bits = .ok (⟨bits, #[], #[], ∅⟩ : Table α) := if_neg (Nat.not_lt.2 hbits)
  refine ⟨_, hempty, fun vs => ?_⟩
  have h := (filled_empty hempty).puts vs
  rw [List.nil_append] at h
  have hgrow := lawful_grow h.lawful
  refine ⟨fun v i => h.put_eq_iff, fun v i u => value?_put_of_some v, fun i v => ?_, h.size_eq, h.lawful.exists_chain,
    h.isLeast_numBuckets, values_grow _, hgrow.exists_chain, fun v => (put_congr h.lawful hgrow rfl v).1⟩
  rw [value?_eq_some_iff, h.values]

theorem numbers_of_distinct_values_oneBucket :
    ∃ t₀ : Table UInt64, empty 0 = .ok t₀ ∧ (t₀.puts [5, 7, 5, 9]).numBuckets = 2 ∧
      ((t₀.puts [5, 7, 5, 9]).put 7).1 = 2 ∧ ((t₀.puts [5, 7, 5, 9]).put 4).1 = 4 := by
  have hbits : 0 ≤ maxBits := Nat.zero_le maxBits
  obtain ⟨t₀, hempty, h⟩ : ∃ t₀ : Table UInt64, _ := numbers_of_distinct_values hbits
  obtain ⟨hput, -, -, hsize, -, hbuckets, -⟩ := h [5, 7, 5, 9]
  have hdistinct : ([5, 7, 5, 9] : List UInt64).eraseDups = [5, 7, 9] := by decide
  refine ⟨t₀, hempty, ?_, (hput 7 2).2 (by decide), (hput 4 4).2 (by decide)⟩
  rw [hsize, hdistinct] at hbuckets
  refine hbuckets.unique ⟨⟨1, rfl, by decide⟩, ?_⟩
  rintro b ⟨k, rfl, hfits⟩
  rw [List.length_cons, List.length_cons, List.length_singleton] at hfits
  omega

end ReversibleLogic.Storage.Table
