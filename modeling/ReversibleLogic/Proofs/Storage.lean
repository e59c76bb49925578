import Mathlib.Tactic.Common
import ReversibleLogic.Proofs.Computation
import ReversibleLogic.Storage.Cache
import ReversibleLogic.Storage.Table

/-!
# Lookups in tables and caches

* `latest` — the largest number, up to some number, of a value with a given slot; the heads and links of a table are
  these numbers (`Table.Lawful`);
* `Table.find_head` — a chain holds every stored value of its slot;
* `Table.lawful_put`, `Table.value?_put_of_some` — storing keeps the values apart, and changes no number;
  `Table.put_of_ne` — a new value gets the next one;
* `Table.put_congr` — the number of a value depends on the stored values only, not on the buckets;
* `Cache.All` — a property of all entries of a cache; insertion and lookup keep it.
-/

namespace ReversibleLogic.Storage

/-! ### chains -/

section chains

variable {α : Type} [Hashed α]

/-- the largest number up to `k` of a value with the given slot, 0 if there is none. -/
def latest (bits : Nat) (values : Array α) (slot : Nat) : Nat → Nat
  | 0 => 0
  | k + 1 =>
    match values[k]? with
    | some v => if slotOf bits v = slot then k + 1 else latest bits values slot k
    | none => latest bits values slot k

theorem latest_push (bits : Nat) (values : Array α) (v : α) (slot : Nat) {k : Nat} (hk : k ≤ values.size) :
    latest bits (values.push v) slot k = latest bits values slot k := by
  induction k with
  | zero => rfl
  | succ k ih => rw [latest, latest, Array.getElem?_push_lt (by omega), ih (by omega), ← Array.getElem?_eq_getElem]

/-- heads and links name the latest values. -/
structure Linked (bits : Nat) (values : Array α) (next : Array Nat) (heads : Std.TreeMap Nat Nat) : Prop where
  size : next.size = values.size
  heads : ∀ slot, heads.getD slot 0 = latest bits values slot values.size
  next : ∀ k v, values[k]? = some v → next[k]? = some (latest bits values (slotOf bits v) k)

theorem linked_empty (bits : Nat) : Linked bits (#[] : Array α) #[] ∅ :=
  ⟨rfl, fun _ => rfl, fun k v h => by simp at h⟩

theorem Linked.push {bits : Nat} {values : Array α} {next : Array Nat} {heads : Std.TreeMap Nat Nat}
    (h : Linked bits values next heads) (v : α) :
    Linked bits (values.push v) (next.push (heads.getD (slotOf bits v) 0))
      (heads.insert (slotOf bits v) (values.size + 1)) := by
  refine ⟨by rw [Array.size_push, Array.size_push, h.size], fun slot => ?_, fun k u hk => ?_⟩
  · rw [Array.size_push, latest, Array.getElem?_push_size, latest_push _ _ _ _ (Nat.le_refl _), Std.TreeMap.getD_insert]
    by_cases hs : slotOf bits v = slot
    · simp [hs]
    · simp [hs, h.heads]
  · rcases Nat.lt_or_ge k values.size with hlt | hge
    · rw [Array.getElem?_push_lt hlt, ← Array.getElem?_eq_getElem] at hk
      rw [latest_push _ _ _ _ (by omega), Array.getElem?_push_lt (by rw [h.size]; exact hlt),
        ← Array.getElem?_eq_getElem]
      exact h.next k u hk
    · have hlt : k < (values.push v).size := (Array.getElem?_eq_some_iff.1 hk).1
      rw [Array.size_push] at hlt
      obtain rfl : k = values.size := by omega
      rw [Array.getElem?_push_size, Option.some.injEq] at hk
      subst hk
      rw [latest_push _ _ _ _ (Nat.le_refl _), ← h.size, Array.getElem?_push_size, h.heads, h.size]

theorem linked_chains (bits : Nat) (values : Array α) :
    Linked bits values (Table.chains bits values).1 (Table.chains bits values).2 := by
  -- the chains of the first values, one value after the other
  have hlist : ∀ (l : List α) (values : Array α) (next : Array Nat) (heads : Std.TreeMap Nat Nat),
      Linked bits values next heads →
      Linked bits (values ++ l.toArray)
        (l.foldl (fun (s : Array Nat × Std.TreeMap Nat Nat) v =>
          (s.1.push (s.2.getD (slotOf bits v) 0), s.2.insert (slotOf bits v) (s.1.size + 1))) (next, heads)).1
        (l.foldl (fun (s : Array Nat × Std.TreeMap Nat Nat) v =>
          (s.1.push (s.2.getD (slotOf bits v) 0), s.2.insert (slotOf bits v) (s.1.size + 1))) (next, heads)).2 := by
    intro l
    induction l with
    | nil => intro values next heads h; simpa using h
    | cons v l ih =>
      intro values next heads h
      have := ih (values.push v) _ _ (h.push v)
      rw [← h.size] at this
      simpa using this
  have := hlist values.toList #[] #[] ∅ (linked_empty bits)
  simpa [Table.chains, ← Array.foldl_toList] using this

end chains

/-! ### tables -/

namespace Table

variable {α : Type} {t : Table α}

theorem value?_succ (t : Table α) (k : Nat) : t.value? (k + 1) = t.values[k]? := rfl

theorem value?_eq_some {i : Nat} {v : α} : t.value? i = some v ↔ ∃ k, i = k + 1 ∧ t.values[k]? = some v := by
  cases i with
  | zero => simp [value?]
  | succ k => simp [value?_succ]

theorem le_size_of_value? {i : Nat} {v : α} (h : t.value? i = some v) : i ≤ t.size := by
  obtain ⟨k, rfl, hk⟩ := value?_eq_some.1 h
  exact (Array.getElem?_eq_some_iff.1 hk).1

theorem eq_of_empty {bits : Nat} (h : empty bits = .ok t) : t = ⟨bits, #[], #[], ∅⟩ :=
  (Except.ok.inj (ite_error_eq_ok.1 h).2).symm

theorem values_empty {bits : Nat} (h : empty bits = .ok t) : t.values = #[] := by
  rw [eq_of_empty h]

theorem size_empty {bits : Nat} (h : empty bits = .ok t) : t.size = 0 := congrArg Array.size (values_empty h)

variable [Hashed α]

/-- a table whose chains are complete and whose values are different. -/
structure Lawful (t : Table α) : Prop where
  linked : Linked t.bits t.values t.next t.heads
  distinct : ∀ i j v, t.value? i = some v → t.value? j = some v → i = j

theorem lawful_empty {bits : Nat} (h : empty bits = .ok t) : t.Lawful := by
  obtain rfl := eq_of_empty h
  exact ⟨linked_empty bits, fun i j v hi => by simp [value?] at hi⟩

theorem values_add (t : Table α) (v : α) : (t.add v).values = t.values.push v := by
  unfold add
  simp only
  split <;> rfl

theorem value?_add_of_some {i : Nat} {u : α} (v : α) (h : t.value? i = some u) : (t.add v).value? i = some u := by
  obtain ⟨k, rfl, hk⟩ := value?_eq_some.1 h
  have hlt := (Array.getElem?_eq_some_iff.1 hk).1
  rw [value?_succ, values_add, Array.getElem?_push_lt hlt, ← Array.getElem?_eq_getElem, hk]

theorem size_add (t : Table α) (v : α) : (t.add v).size = t.size + 1 := by
  rw [size, values_add, Array.size_push, size]

theorem value?_add (t : Table α) (v : α) : (t.add v).value? (t.size + 1) = some v := by
  rw [value?_succ, values_add, size, Array.getElem?_push_size]

/-- the values after an addition are those before it and the new one. -/
theorem value?_add_eq_some {i : Nat} {u v : α} (h : (t.add v).value? i = some u) :
    t.value? i = some u ∨ (i = t.size + 1 ∧ u = v) := by
  obtain ⟨k, rfl, hk⟩ := value?_eq_some.1 h
  rw [values_add] at hk
  rcases Nat.lt_or_ge k t.values.size with hlt | hge
  · rw [Array.getElem?_push_lt hlt, ← Array.getElem?_eq_getElem] at hk
    exact Or.inl hk
  · have hlt := (Array.getElem?_eq_some_iff.1 hk).1
    rw [Array.size_push] at hlt
    obtain rfl : k = t.values.size := by omega
    rw [Array.getElem?_push_size, Option.some.injEq] at hk
    exact Or.inr ⟨rfl, hk.symm⟩

theorem lawful_add (h : t.Lawful) {v : α} (hv : ∀ i, t.value? i ≠ some v) : (t.add v).Lawful := by
  refine ⟨?_, fun i j u hi hj => ?_⟩
  · unfold add
    simp only
    split
    · exact linked_chains _ _
    · exact h.linked.push v
  · rcases value?_add_eq_some hi with hi | ⟨rfl, rfl⟩ <;> rcases value?_add_eq_some hj with hj | ⟨rfl, hu⟩
    · exact h.distinct i j u hi hj
    · rw [hu] at hi
      exact absurd hi (hv i)
    · exact absurd hj (hv j)
    · rfl

variable [DecidableEq α]

/-- the chain of a slot holds its values from the latest on. -/
theorem find_latest (h : Linked t.bits t.values t.next t.heads) (v : α) {fuel k : Nat} (hk : k ≤ fuel)
    (hsize : k ≤ t.size) :
    (∃ i ≤ k, t.find v fuel (latest t.bits t.values (slotOf t.bits v) k) = some i ∧ t.value? i = some v) ∨
      (t.find v fuel (latest t.bits t.values (slotOf t.bits v) k) = none ∧ ∀ i ≤ k, t.value? i ≠ some v) := by
  induction fuel generalizing k with
  | zero =>
    obtain rfl : k = 0 := by omega
    refine Or.inr ⟨rfl, fun i hi => ?_⟩
    obtain rfl : i = 0 := by omega
    simp [value?]
  | succ fuel ih =>
    induction k with
    | zero =>
      refine Or.inr ⟨rfl, fun i hi => ?_⟩
      obtain rfl : i = 0 := by omega
      simp [value?]
    | succ k ihk =>
      obtain ⟨u, hget⟩ : ∃ u, t.values[k]? = some u := ⟨_, Array.getElem?_eq_getElem hsize⟩
      rw [latest, hget]
      simp only
      by_cases hs : slotOf t.bits u = slotOf t.bits v
      · rw [if_pos hs, find, value?_succ, hget]
        simp only
        by_cases hu : u = v
        · rw [if_pos hu]
          exact Or.inl ⟨k + 1, Nat.le_refl _, rfl, by rw [value?_succ, hget, hu]⟩
        · rw [if_neg hu, Nat.add_sub_cancel, h.next k u hget, hs, Option.getD_some]
          rcases ih (by omega : k ≤ fuel) (by omega) with ⟨i, hi, hfind, hval⟩ | ⟨hfind, hnone⟩
          · exact Or.inl ⟨i, by omega, hfind, hval⟩
          · refine Or.inr ⟨hfind, fun i hi => ?_⟩
            rcases Nat.lt_or_eq_of_le hi with hlt | rfl
            · exact hnone i (by omega)
            · rw [value?_succ, hget]
              exact fun e => hu (Option.some.inj e)
      · rw [if_neg hs]
        rcases ihk (by omega) (by omega) with ⟨i, hi, hfind, hval⟩ | ⟨hfind, hnone⟩
        · exact Or.inl ⟨i, by omega, hfind, hval⟩
        · refine Or.inr ⟨hfind, fun i hi => ?_⟩
          rcases Nat.lt_or_eq_of_le hi with hlt | rfl
          · exact hnone i (by omega)
          · rw [value?_succ, hget]
            rintro ⟨⟩
            exact hs rfl

/-- **A table finds a value** exactly if it holds it. -/
theorem find_head (h : t.Lawful) (v : α) :
    (∃ i, t.find v t.size (t.heads.getD (slotOf t.bits v) 0) = some i ∧ t.value? i = some v) ∨
      (t.find v t.size (t.heads.getD (slotOf t.bits v) 0) = none ∧ ∀ i, t.value? i ≠ some v) := by
  rw [h.linked.heads]
  rcases find_latest h.linked v (Nat.le_refl t.size) (Nat.le_refl _) with ⟨i, -, hi⟩ | ⟨hfind, hnone⟩
  · exact Or.inl ⟨i, hi⟩
  · exact Or.inr ⟨hfind, fun i hi => hnone i (le_size_of_value? hi) hi⟩

omit [Hashed α] in
theorem value?_of_find {v : α} {fuel i j : Nat} (h : t.find v fuel i = some j) : t.value? j = some v := by
  induction fuel generalizing i with
  | zero => cases h
  | succ fuel ih =>
    rw [find] at h
    cases hi : t.value? i with
    | none => rw [hi] at h; cases h
    | some u =>
      rw [hi] at h
      dsimp only at h
      split at h
      · next hu =>
        cases h
        rw [hi, hu]
      · exact ih h

theorem value?_put (t : Table α) (v : α) : (t.put v).2.value? (t.put v).1 = some v := by
  unfold put
  split
  · next i hfind => exact value?_of_find hfind
  · exact value?_add t v

/-- **Storing a value** gives its number in a table that is still lawful. -/
theorem lawful_put (h : t.Lawful) (v : α) : (t.put v).2.Lawful ∧ (t.put v).2.value? (t.put v).1 = some v := by
  refine ⟨?_, value?_put t v⟩
  unfold put
  rcases find_head h v with ⟨i, hfind, -⟩ | ⟨hfind, hnone⟩
  · rw [hfind]
    exact h
  · rw [hfind]
    exact lawful_add h hnone

theorem value?_put_of_some {i : Nat} {u : α} (v : α) (h : t.value? i = some u) : (t.put v).2.value? i = some u := by
  unfold put
  split
  · exact h
  · exact value?_add_of_some v h

/-- at most the stored value is new, and a new value has the largest number. -/
theorem value?_put_eq_some {i : Nat} {u v : α} (h : (t.put v).2.value? i = some u) :
    t.value? i = some u ∨ (i = t.size + 1 ∧ u = v) := by
  unfold put at h
  split at h
  · exact Or.inl h
  · exact value?_add_eq_some h

/-- storing a value for a second time changes nothing. -/
theorem put_of_value? (h : t.Lawful) {i : Nat} {v : α} (hv : t.value? i = some v) : t.put v = (i, t) := by
  unfold put
  rcases find_head h v with ⟨j, hfind, hj⟩ | ⟨-, hnone⟩
  · rw [hfind, h.distinct i j v hv hj]
  · exact absurd hv (hnone i)

/-- a value that is not stored gets the next number. -/
theorem put_of_ne (h : t.Lawful) {v : α} (hv : ∀ i, t.value? i ≠ some v) : t.put v = (t.size + 1, t.add v) := by
  unfold put
  rcases find_head h v with ⟨j, -, hj⟩ | ⟨hfind, -⟩
  · exact absurd hj (hv j)
  · rw [hfind]

/-- **Numbers are independent of the buckets**: tables with the same values number a value alike. -/
theorem put_congr {t' : Table α} (h : t.Lawful) (h' : t'.Lawful) (hvalues : t'.values = t.values) (v : α) :
    (t'.put v).1 = (t.put v).1 ∧ (t'.put v).2.values = (t.put v).2.values := by
  have hvalue : ∀ i, t'.value? i = t.value? i := fun i => by rw [value?, value?, hvalues]
  rcases find_head h v with ⟨i, -, hi⟩ | ⟨hfind, hnone⟩
  · rw [put_of_value? h hi, put_of_value? h' ((hvalue i).trans hi)]
    exact ⟨rfl, hvalues⟩
  · have hfind' : t'.find v t'.size (t'.heads.getD (slotOf t'.bits v) 0) = none := by
      rcases find_head h' v with ⟨i, -, hi⟩ | ⟨hfind', -⟩
      · exact absurd ((hvalue i).symm.trans hi) (hnone i)
      · exact hfind'
    rw [put, put, hfind, hfind', values_add, values_add, size, size, hvalues]
    exact ⟨rfl, rfl⟩

end Table

/-! ### caches -/

namespace Cache

variable {κ β : Type} {P Q : κ → β → Prop} {c : Cache κ β}

def All (P : κ → β → Prop) (c : Cache κ β) : Prop := ∀ (slot : Nat) k v, c.entries[slot]? = some (k, v) → P k v

theorem All.imp (h : c.All P) (himp : ∀ k v, P k v → Q k v) : c.All Q := fun slot k v he => himp k v (h slot k v he)

theorem all_empty {bits : Nat} (h : empty bits = .ok c) : c.All P := by
  unfold empty at h
  split at h
  · cases h
  · cases h
    intro slot k v he
    simp at he

variable [Hashed κ]

theorem All.insert (h : c.All P) {key : κ} {v : β} (hv : P key v) : (c.insert key v).All P := by
  intro slot k u he
  rw [Cache.insert, Std.TreeMap.getElem?_insert] at he
  split at he
  · cases he
    exact hv
  · exact h slot k u he

variable [DecidableEq κ]

/-- **A lookup answers for its own key.** -/
theorem All.lookup (h : c.All P) {key : κ} {v : β} (hv : c.lookup key = some v) : P key v := by
  unfold Cache.lookup at hv
  split at hv
  · next k u he =>
    split at hv
    · next hk =>
      cases hv
      cases hk
      exact h _ _ _ he
    · cases hv
  · cases hv

theorem All.get (h : c.All P) (key : κ) :
    (c.get key).2.All P ∧ ∀ v, (c.get key).1 = some v → P key v := by
  unfold Cache.get
  split
  · next v hv => exact ⟨h, fun u hu => by cases hu; exact h.lookup hv⟩
  · exact ⟨h, fun u hu => nomatch hu⟩

end Cache

end ReversibleLogic.Storage
