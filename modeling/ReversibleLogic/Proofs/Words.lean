import Mathlib.Data.List.Nodup
import Mathlib.Data.List.Perm.Subperm
import Mathlib.Tactic.Common
import ReversibleLogic.Word

/-!
# Bits of a word

* `ones w` is strictly ascending, and `weight w` counts its members; flipping a set bit takes one away
  (`weight_flip`), and a word below `2 ^ n` has at most `n` of them (`weight_le`);
* `le_of_subset`: a word that has all bits of `x` is at least `x`;
* `ofBits_append`, `toBits_ofBits`: bits read as a word, and back;
* `ones_eq_pair`: a word of weight two is a lowest and a highest bit.
-/

namespace ReversibleLogic.Word

/-! ### set positions -/

theorem ones_pairwise (w : Nat) : (ones w).Pairwise (· < ·) :=
  List.Pairwise.filter _ List.pairwise_lt_range

theorem ones_nodup (w : Nat) : (ones w).Nodup := (ones_pairwise w).imp Nat.ne_of_lt

theorem ones_ne_nil {w : Nat} (h : w ≠ 0) : ones w ≠ [] := by
  obtain ⟨i, hi⟩ := Nat.exists_testBit_of_ne_zero h
  exact List.ne_nil_of_mem (mem_ones.2 hi)

theorem testBit_lowest {w : Nat} (h : w ≠ 0) : w.testBit (lowest w) = true := by
  unfold lowest
  obtain ⟨i, is, he⟩ := List.exists_cons_of_ne_nil (ones_ne_nil h)
  rw [← mem_ones, he]
  simp

theorem testBit_highest {w : Nat} (h : w ≠ 0) : w.testBit (highest w) = true := Nat.testBit_log2 h

theorem le_highest {w i : Nat} (h : w.testBit i = true) : i ≤ highest w := by
  have hw : w ≠ 0 := by rintro rfl; simp at h
  exact (Nat.le_log2 hw).2 (Nat.ge_two_pow_of_testBit h)

theorem without_eq_zero {x y : Nat} : without x y = 0 ↔ ∀ i, x.testBit i = true → y.testBit i = true := by
  constructor
  · intro h i hx
    have hi := testBit_without x y i
    rwa [h, Nat.zero_testBit, hx, Bool.true_and, eq_comm, Bool.not_eq_false'] at hi
  · intro h
    refine Nat.eq_of_testBit_eq fun i => ?_
    rw [testBit_without, Nat.zero_testBit]
    cases hx : x.testBit i with
    | false => rfl
    | true => rw [h i hx]; rfl

theorem testBit_lowest_without {x y : Nat} (h : without x y ≠ 0) :
    x.testBit (lowest (without x y)) = true ∧ y.testBit (lowest (without x y)) = false := by
  have hlow := testBit_lowest h
  rwa [testBit_without, Bool.and_eq_true, Bool.not_eq_true'] at hlow

/-! ### order -/

/-- **Order by bits.** A word that has all bits of another one is at least as large. -/
theorem le_of_subset {x w : Nat} (h : ∀ i, x.testBit i = true → w.testBit i = true) : x ≤ w := by
  have hand : x &&& w = x := by
    apply Nat.eq_of_testBit_eq
    intro i
    rw [Nat.testBit_and]
    cases hi : x.testBit i with
    | false => rfl
    | true => rw [h i hi]; rfl
  rw [← hand]
  exact Nat.and_le_right

/-- the same, for a word that agrees with the other one on two bits. -/
theorem le_of_subset_off {x w a b : Nat} (ha : x.testBit a = w.testBit a) (hb : x.testBit b = w.testBit b)
    (h : ∀ i, i ≠ a → i ≠ b → x.testBit i = true → w.testBit i = true) : x ≤ w := by
  refine le_of_subset fun i hi => ?_
  by_cases hia : i = a
  · rwa [hia, ← ha, ← hia]
  · by_cases hib : i = b
    · rwa [hib, ← hb, ← hib]
    · exact h i hia hib hi

theorem lt_of_testBit {w n i : Nat} (hw : w < 2 ^ n) (h : w.testBit i = true) : i < n := by
  by_contra hi
  have : w < 2 ^ i := Nat.lt_of_lt_of_le hw (Nat.pow_le_pow_right (by decide) (by omega))
  rw [Nat.testBit_lt_two_pow this] at h
  cases h

theorem lt_of_testBit_ne {x y n i : Nat} (hx : x < 2 ^ n) (hy : y < 2 ^ n) (h : x.testBit i ≠ y.testBit i) : i < n := by
  cases hxi : x.testBit i with
  | true => exact lt_of_testBit hx hxi
  | false =>
    rw [hxi] at h
    exact lt_of_testBit hy (eq_true_of_ne_false h.symm)

theorem flip_lt {w n i : Nat} (hw : w < 2 ^ n) (hi : i < n) : flip w i < 2 ^ n := by
  refine Nat.xor_lt_two_pow hw ?_
  rw [Nat.one_shiftLeft]
  exact Nat.pow_lt_pow_right (by decide) hi

theorem flip_flip (w i : Nat) : flip (flip w i) i = w := by
  rw [flip, flip, Nat.xor_assoc, Nat.xor_self, Nat.xor_zero]

/-! ### words from bits -/

theorem ofBits_lt (bs : List Bool) : ofBits bs < 2 ^ bs.length := by
  induction bs with
  | nil => decide
  | cons b bs ih =>
    have hb := b.toNat_lt
    rw [ofBits, List.length_cons, Nat.pow_succ]
    omega

theorem ofBits_append (bs cs : List Bool) : ofBits (bs ++ cs) = ofBits bs + 2 ^ bs.length * ofBits cs := by
  induction bs with
  | nil => simp [ofBits]
  | cons b bs ih =>
    rw [List.cons_append, ofBits, ofBits, ih, List.length_cons, Nat.pow_succ, Nat.mul_comm (2 ^ bs.length) 2,
      Nat.mul_assoc]
    omega

theorem toBits_ofBits (bs : List Bool) : toBits (ofBits bs) bs.length = bs := by
  apply List.ext_getElem
  · simp
  · intro i hi hi'
    simp [toBits, hi']

theorem eq_of_testBit_lt {x y n : Nat} (hx : x < 2 ^ n) (hy : y < 2 ^ n)
    (h : ∀ i < n, x.testBit i = y.testBit i) : x = y := by
  apply Nat.eq_of_testBit_eq
  intro i
  rcases Nat.lt_or_ge i n with hi | hi
  · exact h i hi
  · have hpow : 2 ^ n ≤ 2 ^ i := Nat.pow_le_pow_right (by decide) hi
    rw [Nat.testBit_lt_two_pow (by omega), Nat.testBit_lt_two_pow (by omega)]

/-- **Exactness.** `k` bits are enough for `n` values if and only if they have `n` values. -/
theorem bitsFor_le_iff {n k : Nat} : bitsFor n ≤ k ↔ n ≤ 2 ^ k := by
  have hpos : 0 < 2 ^ k := Nat.two_pow_pos k
  unfold bitsFor
  split
  · omega
  · next hn =>
    have hlog : (n - 1).log2 < k ↔ n - 1 < 2 ^ k := Nat.log2_lt (by omega)
    omega

/-- the values below `n` fit the bits that are kept for them. -/
theorem lt_two_pow_bitsFor {i n : Nat} (h : i < n) : i < 2 ^ bitsFor n :=
  Nat.lt_of_lt_of_le h (bitsFor_le_iff.1 (Nat.le_refl _))

/-! ### weight and distance -/

theorem weight_zero : weight 0 = 0 := by decide

theorem weight_eq_zero {w : Nat} : weight w = 0 ↔ w = 0 := by
  constructor
  · intro h
    by_contra hw
    exact ones_ne_nil hw (List.length_eq_zero_iff.1 h)
  · rintro rfl
    exact weight_zero

/-- flipping a set bit lowers the weight by one. -/
theorem weight_flip {w i : Nat} (h : w.testBit i = true) : weight (flip w i) + 1 = weight w := by
  have hperm : (ones (flip w i)).Perm ((ones w).erase i) := by
    rw [List.perm_ext_iff_of_nodup (ones_nodup _) ((ones_nodup w).erase i)]
    intro j
    rw [(ones_nodup w).mem_erase_iff, mem_ones, mem_ones, testBit_flip]
    by_cases hij : i = j
    · subst hij
      simp [h]
    · have : j ≠ i := fun e => hij e.symm
      simp [hij, this]
  have hmem : i ∈ ones w := mem_ones.2 h
  unfold weight
  rw [hperm.length_eq, List.length_erase_of_mem hmem]
  have := List.length_pos_of_mem hmem
  omega

theorem weight_le {w n : Nat} (hw : w < 2 ^ n) : weight w ≤ n := by
  have hsub : ones w ⊆ List.range n := fun i hi => List.mem_range.2 (lt_of_testBit hw (mem_ones.1 hi))
  simpa [weight] using ((ones_nodup w).subperm hsub).length_le

theorem distance_eq_zero {x y : Nat} : distance x y = 0 ↔ x = y := by
  rw [distance, weight_eq_zero]
  constructor
  · intro h
    have := congrArg (· ^^^ y) h
    simpa [Nat.xor_assoc] using this
  · rintro rfl
    exact Nat.xor_self x

theorem distance_le {x y n : Nat} (hx : x < 2 ^ n) (hy : y < 2 ^ n) : distance x y ≤ n :=
  weight_le (Nat.xor_lt_two_pow hx hy)

/-- changing a differing bit brings two words one step closer. -/
theorem distance_flip {x y i : Nat} (h : x.testBit i ≠ y.testBit i) : distance x (flip y i) + 1 = distance x y := by
  have hi : (x ^^^ y).testBit i = true := by
    rw [Nat.testBit_xor]
    cases hx : x.testBit i <;> cases hy : y.testBit i <;> simp_all
  have hxor : x ^^^ flip y i = flip (x ^^^ y) i := by simp only [flip, Nat.xor_assoc]
  rw [distance, hxor]
  exact weight_flip hi

/-! ### words of small weight -/

/-- the weight counts the set bits, in whatever order they are listed. -/
theorem weight_eq_length {w : Nat} {is : List Nat} (hnodup : is.Nodup) (h : ∀ i, w.testBit i = true ↔ i ∈ is) :
    weight w = is.length := by
  have hperm : (ones w).Perm is := (List.perm_ext_iff_of_nodup (ones_nodup w) hnodup).2 fun i => mem_ones.trans (h i)
  exact hperm.length_eq

/-- a word of weight two has exactly a lowest and a highest bit. -/
theorem ones_eq_pair {w : Nat} (h : weight w = 2) :
    lowest w < highest w ∧ ∀ i, w.testBit i = true ↔ i = lowest w ∨ i = highest w := by
  obtain ⟨a, b, he⟩ := List.length_eq_two.1 h
  have hab : a < b := by
    have := ones_pairwise w
    rw [he] at this
    simpa using this
  have hmem : ∀ i, w.testBit i = true ↔ i = a ∨ i = b := by
    intro i
    rw [← mem_ones, he]
    simp
  have hlow : lowest w = a := by unfold lowest; rw [he]; rfl
  have hw : w ≠ 0 := by rintro rfl; simp [weight_zero] at h
  have hhigh : highest w = b := by
    rcases (hmem _).1 (testBit_highest hw) with h1 | h1
    · have := le_highest ((hmem b).2 (Or.inr rfl))
      omega
    · exact h1
  rw [hlow, hhigh]
  exact ⟨hab, hmem⟩

theorem exists_of_weight_one {w : Nat} (h : weight w = 1) : ∃ a, ∀ i, w.testBit i = true ↔ i = a := by
  obtain ⟨a, he⟩ := List.length_eq_one_iff.1 h
  refine ⟨a, fun i => ?_⟩
  rw [← mem_ones, he]
  simp

end ReversibleLogic.Word
