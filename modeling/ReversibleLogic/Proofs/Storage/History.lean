import Mathlib.Data.List.DropRight
import ReversibleLogic.Proofs.Storage
import ReversibleLogic.Proofs.Words

/-!
# Histories of caches

* `Use` — what can be done with a cache, `insertions` — what has been inserted since it was cleared;
* `Agree bits k k'` — the hashes of two keys agree in the lowest bits, so that they share a slot (`slotOf_eq_iff`);
* `lastInto bits us k` — the last of the insertions with a key that agrees with `k`;
* `Cache.Records bits us c` — what the uses `us` make of a new cache with `2 ^ bits` slots; one more use preserves it;
* `Cache.get_of_history` — a lookup answers with the last insertion into the slot of its key, if it was one of its key.
-/

namespace ReversibleLogic.Storage

/-! ### uses -/

inductive Use (κ β : Type) where
  | insert (key : κ) (v : β)
  | get (key : κ)
  | clear

variable {κ β : Type} {bits : Nat} {us : List (Use κ β)} {key : κ} {v : β}

namespace Use

def isGet : Use κ β → Bool
  | get _ => true
  | _ => false

def isClear : Use κ β → Bool
  | clear => true
  | _ => false

/-- the entry of an insertion. -/
def entry? : Use κ β → Option (κ × β)
  | insert key v => some (key, v)
  | _ => none

end Use

/-- the entries that have been inserted since the cache was last cleared, in order. -/
def insertions (us : List (Use κ β)) : List (κ × β) := (us.rtakeWhile (!·.isClear)).filterMap Use.entry?

theorem insertions_concat (us : List (Use κ β)) (u : Use κ β) :
    insertions (us ++ [u]) = if u.isClear then [] else insertions us ++ u.entry?.toList := by
  unfold insertions
  rw [List.rtakeWhile_concat]
  cases u <;> simp [Use.isClear, Use.entry?]

theorem insert_mem_of_mem_insertions (h : (key, v) ∈ insertions us) : .insert key v ∈ us := by
  obtain ⟨u, hu, he⟩ := List.mem_filterMap.1 h
  cases u with
  | insert key' v' =>
    cases he
    exact (List.rtakeWhile_suffix _ _).subset hu
  | get _ => cases he
  | clear => cases he

/-! ### slots -/

section slots

variable [Hashed κ]

/-- the hashes of two keys agree in the lowest bits. -/
def Agree (bits : Nat) (k k' : κ) : Prop :=
  ∀ i < bits, (Hashed.hashOf k).toNat.testBit i = (Hashed.hashOf k').toNat.testBit i

instance (bits : Nat) (k k' : κ) : Decidable (Agree bits k k') :=
  inferInstanceAs (Decidable (∀ i < bits, (Hashed.hashOf k).toNat.testBit i = (Hashed.hashOf k').toNat.testBit i))

/-- keys share a slot exactly if their hashes agree in the bits that number the slots. -/
theorem slotOf_eq_iff {k k' : κ} : slotOf bits k = slotOf bits k' ↔ Agree bits k k' := by
  have hpos := Nat.two_pow_pos bits
  have hbit : ∀ x i : Nat, i < bits → (x % 2 ^ bits).testBit i = x.testBit i := by
    intro x i hi
    rw [Nat.testBit_mod_two_pow, decide_eq_true hi, Bool.true_and]
  unfold slotOf Agree
  constructor
  · intro h i hi
    rw [← hbit _ i hi, h, hbit _ i hi]
  · intro h
    refine Word.eq_of_testBit_lt (Nat.mod_lt _ hpos) (Nat.mod_lt _ hpos) fun i hi => ?_
    rw [hbit _ i hi, hbit _ i hi, h i hi]

/-- the last entry, of those inserted since the cache was cleared, whose key agrees with the given one. -/
def lastInto (bits : Nat) (us : List (Use κ β)) (key : κ) : Option (κ × β) :=
  ((insertions us).filter fun e => decide (Agree bits e.1 key)).getLast?

theorem mem_insertions_of_lastInto {e : κ × β} (h : lastInto bits us key = some e) : e ∈ insertions us :=
  List.mem_of_mem_filter (List.mem_of_getLast? h)

end slots

/-! ### caches -/

namespace Cache

variable [DecidableEq κ] [Hashed κ] {c : Cache κ β}

def use (c : Cache κ β) : Use κ β → Cache κ β
  | .insert key v => c.insert key v
  | .get key => (c.get key).2
  | .clear => c.clear

def after (c : Cache κ β) (us : List (Use κ β)) : Cache κ β := us.foldl use c

/-- what the uses make of a new cache with `2 ^ bits` slots. -/
structure Records (bits : Nat) (us : List (Use κ β)) (c : Cache κ β) : Prop where
  bits_eq : c.bits = bits
  entries : ∀ slot, c.entries[slot]? = ((insertions us).filter fun e => slotOf bits e.1 = slot).getLast?
  counted : c.hits + c.misses = us.countP Use.isGet

omit [DecidableEq κ] in
theorem records_empty (h : empty bits = .ok c) : Records bits [] c := by
  obtain ⟨-, h⟩ := ite_error_eq_ok.1 h
  cases h
  exact ⟨rfl, fun slot => by simp [insertions], rfl⟩

/-- a lookup changes the counters only: one of them goes up. -/
theorem get_spec (c : Cache κ β) (key : κ) :
    (c.get key).1 = c.lookup key ∧ (c.get key).2.bits = c.bits ∧ (c.get key).2.entries = c.entries ∧
      (c.get key).2.hits = c.hits + (c.get key).1.isSome.toNat ∧
      (c.get key).2.misses = c.misses + (c.get key).1.isNone.toNat := by
  unfold get
  cases c.lookup key <;> exact ⟨rfl, rfl, rfl, rfl, rfl⟩

/-- **One more use.** -/
theorem Records.use (h : Records bits us c) (u : Use κ β) : Records bits (us ++ [u]) (c.use u) := by
  cases u with
  | insert key v =>
    refine ⟨h.bits_eq, fun slot => ?_, ?_⟩
    · have hconcat : insertions (us ++ [.insert key v]) = insertions us ++ [(key, v)] := insertions_concat _ _
      rw [Cache.use, Cache.insert, Std.TreeMap.getElem?_insert, h.bits_eq, h.entries, hconcat, List.filter_append]
      by_cases hs : slotOf bits key = slot
      · simp [hs]
      · simp [hs, Std.LawfulEqCmp.compare_eq_iff_eq]
    · rw [List.countP_append]
      exact h.counted
  | get key =>
    obtain ⟨-, hbits, hentries, hhits, hmisses⟩ := get_spec c key
    refine ⟨hbits.trans h.bits_eq, fun slot => ?_, ?_⟩
    · have hconcat : insertions (us ++ [.get key]) = insertions us :=
        (insertions_concat _ _).trans (List.append_nil _)
      rw [Cache.use, hentries, h.entries, hconcat]
    · have hone : (c.get key).1.isSome.toNat + (c.get key).1.isNone.toNat = 1 := by cases (c.get key).1 <;> rfl
      have hcounted := h.counted
      rw [Cache.use, hhits, hmisses, List.countP_append]
      simp only [List.countP_singleton, Use.isGet, if_true]
      omega
  | clear =>
    have hconcat : insertions (us ++ [.clear]) = [] := insertions_concat _ _
    refine ⟨h.bits_eq, fun slot => ?_, ?_⟩
    · rw [hconcat]
      exact Std.TreeMap.getElem?_emptyc
    · rw [List.countP_append]
      exact h.counted

/-- **All uses.** -/
theorem Records.after (h : Records bits us c) (us' : List (Use κ β)) :
    Records bits (us ++ us') (c.after us') := by
  induction us' generalizing us c with
  | nil =>
    rw [List.append_nil]
    exact h
  | cons u us' ih =>
    rw [List.append_cons]
    exact ih (h.use u)

omit [DecidableEq κ] in
/-- the slot of a key holds the last entry that was inserted into it. -/
theorem Records.entry_eq (h : Records bits us c) (key : κ) : c.entries[slotOf bits key]? = lastInto bits us key := by
  rw [h.entries, lastInto]
  simp only [slotOf_eq_iff]

theorem Records.get_eq_some_iff (h : Records bits us c) :
    (c.get key).1 = some v ↔ lastInto bits us key = some (key, v) := by
  rw [(get_spec c key).1, lookup, h.bits_eq, h.entry_eq]
  cases lastInto bits us key with
  | none => simp
  | some e =>
    obtain ⟨key', v'⟩ := e
    by_cases hk : key' = key
    · simp [hk]
    · simp [hk]

/-- **Lookups.** Use a new cache with `2 ^ bits` slots in any way, whatever the hashes of the keys are. A lookup gives
a value exactly if the last entry, of those inserted since the cache was last cleared with a key whose hash agrees in
the lowest bits, is that of the key and the value; so it never gives a value that was inserted for another key. Every
lookup counts, as a hit if it gives a value and else as a miss, nothing else does, and clearing keeps both counters. -/
theorem get_of_history (hbits : bits ≤ maxBits) :
    ∃ c₀ : Cache κ β, empty bits = .ok c₀ ∧ ∀ us : List (Use κ β),
      let c := c₀.after us
      (∀ key v, (c.get key).1 = some v ↔ lastInto bits us key = some (key, v)) ∧
      (∀ key v, (c.get key).1 = some v → .insert key v ∈ us) ∧
      c.hits + c.misses = us.countP Use.isGet ∧
      (∀ key, (c.get key).2.hits = c.hits + (c.get key).1.isSome.toNat) ∧
      c.clear.hits = c.hits ∧ c.clear.misses = c.misses := by
  have hempty : empty bits = .ok (⟨bits, ∅, 0, 0⟩ : Cache κ β) := if_neg (Nat.not_lt.2 hbits)
  refine ⟨_, hempty, fun us => ?_⟩
  have h := (records_empty hempty).after us
  rw [List.nil_append] at h
  refine ⟨fun key v => h.get_eq_some_iff, fun key v hv => ?_, h.counted, fun key => (get_spec _ key).2.2.2.1, rfl, rfl⟩
  exact insert_mem_of_mem_insertions (mem_insertions_of_lastInto (h.get_eq_some_iff.1 hv))

/-- with two slots, a key is lost when another one with the same lowest bit is inserted. -/
theorem get_of_history_twoSlots :
    ∃ c₀ : Cache UInt64 Nat, empty 1 = .ok c₀ ∧
      let c := c₀.after [.insert 4 40, .clear, .insert 1 10, .insert 2 20, .get 1, .insert 3 30]
      (c.get 3).1 = some 30 ∧ (c.get 2).1 = some 20 ∧ (∀ v, (c.get 1).1 ≠ some v) ∧ (∀ v, (c.get 4).1 ≠ some v) ∧
        c.hits + c.misses = 1 := by
  have hbits : 1 ≤ maxBits := by decide
  obtain ⟨c₀, hempty, h⟩ : ∃ c₀ : Cache UInt64 Nat, _ := get_of_history hbits
  obtain ⟨hget, -, hcounted, -⟩ := h [.insert 4 40, .clear, .insert 1 10, .insert 2 20, .get 1, .insert 3 30]
  have hone : lastInto 1 [.insert 4 40, .clear, .insert 1 10, .insert 2 20, .get 1, .insert 3 30] (1 : UInt64) =
      some (3, 30) := by decide
  have hfour : lastInto 1 [.insert 4 40, .clear, .insert 1 10, .insert 2 20, .get 1, .insert 3 30] (4 : UInt64) =
      some (2, 20) := by decide
  refine ⟨c₀, hempty, (hget 3 30).2 (by decide), (hget 2 20).2 (by decide), fun v hv => ?_, fun v hv => ?_, hcounted⟩
  · have he := hone.symm.trans ((hget 1 v).1 hv)
    simp at he
  · have he := hfour.symm.trans ((hget 4 v).1 hv)
    simp at he

end Cache

end ReversibleLogic.Storage
