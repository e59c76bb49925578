import Mathlib.Data.Nat.Bitwise
import Mathlib.Tactic.Common
import ReversibleLogic.Aig.Signal
import ReversibleLogic.Word

/-!
# What signals stand for

* `source_eq` — the source of a signal by the number above its complement bit;
* `source_ofNode`, `source_ofInput` — fewer than `2 ^ 30` nodes and inputs have signals of their own;
* `value w v s` — the value of a signal on the input word `w` if the nodes have the values `v`;
* `Within inputs nodes s` — the signal refers to one of the first inputs and nodes.
-/

namespace ReversibleLogic.Signal

variable {s t : Signal} {n i w inputs inputs' nodes nodes' : Nat} {v v' : Nat → Bool}

/-! ### parts of the word -/

/-- the word without its complement bit. -/
def half (s : Signal) : Nat := s.word.toNat / 2

theorem half_lt (s : Signal) : s.half < 2 ^ 31 := by
  have h : s.word.toNat < 2 ^ 32 := s.word.toNat_lt
  unfold half
  omega

theorem isNegated_eq (s : Signal) : s.isNegated = decide (s.word.toNat % 2 = 1) := by
  have hand : (s.word &&& 1).toNat = s.word.toNat % 2 := by
    rw [UInt32.toNat_and]
    exact Nat.and_one_is_mod _
  rw [isNegated, Bool.eq_iff_iff, bne_iff_ne, ne_eq, ← UInt32.toNat_inj, hand, decide_eq_true_iff, UInt32.toNat_zero]
  omega

theorem isConst_eq (s : Signal) : s.isConst = decide (s.half = 0) := by
  have hshift : (s.word >>> 1).toNat = s.word.toNat / 2 := by
    rw [UInt32.toNat_shiftRight]
    exact Nat.shiftRight_eq_div_pow _ 1
  rw [isConst, Bool.eq_iff_iff, beq_iff_eq, ← UInt32.toNat_inj, hshift, decide_eq_true_iff, UInt32.toNat_zero, half]

theorem isInput_eq (s : Signal) : s.isInput = decide (2 ^ 30 ≤ s.half) := by
  have hlt := s.half_lt
  have hbit : s.word.toNat.testBit 31 = decide (2 ^ 30 ≤ s.half) := by
    rw [Nat.testBit_eq_decide_div_mod_eq, decide_eq_decide]
    unfold half at hlt ⊢
    omega
  have hand : (s.word &&& inputMark).toNat = (s.word.toNat.testBit 31).toNat * 2 ^ 31 := by
    rw [UInt32.toNat_and]
    exact Nat.and_two_pow _ 31
  rw [isInput, Bool.eq_iff_iff, bne_iff_ne, ne_eq, ← UInt32.toNat_inj, hand, hbit, UInt32.toNat_zero]
  cases decide (2 ^ 30 ≤ s.half) <;> simp

theorem field_eq (s : Signal) : s.field = s.half % 2 ^ 30 := by
  have hmark : ~~~inputMark = 0x7fffffff := by decide
  have hand : (s.word &&& 0x7fffffff).toNat = s.word.toNat % 2 ^ 31 := by
    rw [UInt32.toNat_and]
    exact Nat.and_two_pow_sub_one_eq_mod _ 31
  have hshift : ((s.word &&& 0x7fffffff) >>> 1).toNat = (s.word &&& 0x7fffffff).toNat / 2 := by
    rw [UInt32.toNat_shiftRight]
    exact Nat.shiftRight_eq_div_pow _ 1
  rw [field, hmark, hshift, hand, half]
  omega

theorem source_eq (s : Signal) : s.source =
    if s.half = 0 then .constant else if 2 ^ 30 ≤ s.half then .input (s.half - 2 ^ 30) else .node (s.half - 1) := by
  have hlt := s.half_lt
  rw [source, isConst_eq, isInput_eq, field_eq]
  simp only [decide_eq_true_iff]
  split
  · rfl
  · split
    · next h => exact congrArg Source.input (by omega)
    · next h => exact congrArg (fun k => Source.node (k - 1)) (Nat.mod_eq_of_lt (by omega))

theorem lt_or_lt (h : s ≠ t) : s.lt t = true ∨ t.lt s = true := by
  have hword : s.word.toNat ≠ t.word.toNat := fun he => h (congrArg Signal.mk (UInt32.toNat_inj.1 he))
  simp only [lt, decide_eq_true_iff, UInt32.lt_iff_toNat_lt]
  omega

theorem isConst_eq_false (hzero : s ≠ zero) (hone : s ≠ one) : s.isConst = false := by
  have hword : ∀ {t : Signal}, s ≠ t → s.word.toNat ≠ t.word.toNat := fun h he =>
    h (congrArg Signal.mk (UInt32.toNat_inj.1 he))
  have hzero : s.word.toNat ≠ 0 := hword hzero
  have hone : s.word.toNat ≠ 1 := hword hone
  rw [isConst_eq, decide_eq_false_iff_not, half]
  omega

/-! ### constructors -/

theorem not_toNat (s : Signal) : s.not.word.toNat = s.word.toNat ^^^ 1 := by
  rw [not, UInt32.toNat_xor]
  rfl

@[simp] theorem source_not (s : Signal) : s.not.source = s.source := by
  have hhalf : s.not.half = s.half := by
    rw [half, not_toNat, Nat.xor_div_two]
    exact Nat.xor_zero _
  rw [source_eq, source_eq, hhalf]

@[simp] theorem isNegated_not (s : Signal) : s.not.isNegated = !s.isNegated := by
  rw [isNegated_eq, isNegated_eq, not_toNat, ← decide_not, decide_eq_decide, Nat.xor_mod_two_eq_one]
  simp

@[simp] theorem source_zero : zero.source = .constant := by decide

@[simp] theorem isNegated_zero : zero.isNegated = false := by decide

@[simp] theorem source_one : one.source = .constant := by decide

@[simp] theorem isNegated_one : one.isNegated = true := by decide

theorem shiftLeft_one_toNat {a : UInt32} (h : a.toNat < 2 ^ 31) : (a <<< 1).toNat = 2 * a.toNat := by
  have hpow : 2 ^ (UInt32.toNat 1 % 32) = 2 := by decide
  rw [UInt32.toNat_shiftLeft, Nat.shiftLeft_eq, hpow]
  omega

theorem ofNode_toNat (h : n + 1 < 2 ^ 30) : (ofNode n).word.toNat = 2 * (n + 1) := by
  have hn : (UInt32.ofNat n + 1).toNat = n + 1 := by
    rw [UInt32.toNat_add, UInt32.toNat_ofNat', UInt32.toNat_one]
    omega
  rw [ofNode, shiftLeft_one_toNat (by omega), hn]

theorem ofInput_toNat (h : i < 2 ^ 30) : (ofInput i).word.toNat = 2 ^ 31 + 2 * i := by
  have hi : (UInt32.ofNat i).toNat = i := by
    rw [UInt32.toNat_ofNat']
    omega
  have hor : 2 ^ 31 + 2 * i = 2 ^ 31 ||| 2 * i := by
    have h := Nat.two_pow_add_eq_or_of_lt (b := 2 * i) (i := 31) (by omega) 1
    rwa [Nat.mul_one] at h
  rw [ofInput, UInt32.toNat_or, shiftLeft_one_toNat (by omega), hi, hor]
  rfl

theorem source_ofNode (h : n + 1 < 2 ^ 30) : (ofNode n).source = .node n := by
  have hhalf : (ofNode n).half = n + 1 := by
    rw [half, ofNode_toNat h]
    omega
  rw [source_eq, hhalf, if_neg (Nat.succ_ne_zero n), if_neg (Nat.not_le.2 h), Nat.add_sub_cancel]

theorem isNegated_ofNode (h : n + 1 < 2 ^ 30) : (ofNode n).isNegated = false := by
  rw [isNegated_eq, ofNode_toNat h]
  simp

theorem source_ofInput (h : i < 2 ^ 30) : (ofInput i).source = .input i := by
  have hhalf : (ofInput i).half = 2 ^ 30 + i := by
    rw [half, ofInput_toNat h]
    omega
  rw [source_eq, hhalf, if_neg (by omega), if_pos (Nat.le_add_right _ _), Nat.add_sub_cancel_left]

theorem isNegated_ofInput (h : i < 2 ^ 30) : (ofInput i).isNegated = false := by
  rw [isNegated_eq, ofInput_toNat h, decide_eq_false_iff_not]
  omega

/-! ### values -/

def Source.value (w : Nat) (v : Nat → Bool) : Source → Bool
  | .constant => false
  | .input i => w.testBit i
  | .node n => v n

/-- the value of a signal on the input word `w`, the nodes having the values `v`. -/
def value (w : Nat) (v : Nat → Bool) (s : Signal) : Bool := s.source.value w v ^^ s.isNegated

@[simp] theorem value_not (w : Nat) (v : Nat → Bool) (s : Signal) : s.not.value w v = !s.value w v := by
  rw [value, value, source_not, isNegated_not, Bool.xor_not]

@[simp] theorem value_zero (w : Nat) (v : Nat → Bool) : zero.value w v = false := by
  simp [value, Source.value]

@[simp] theorem value_one (w : Nat) (v : Nat → Bool) : one.value w v = true := by
  simp [value, Source.value]

theorem value_ofNode (h : n + 1 < 2 ^ 30) (w : Nat) (v : Nat → Bool) : (ofNode n).value w v = v n := by
  rw [value, source_ofNode h, isNegated_ofNode h, Bool.xor_false, Source.value]

theorem value_ofInput (h : i < 2 ^ 30) (w : Nat) (v : Nat → Bool) : (ofInput i).value w v = w.testBit i := by
  rw [value, source_ofInput h, isNegated_ofInput h, Bool.xor_false, Source.value]

/-- the signal refers to one of the first inputs or nodes, or to none. -/
def Within (inputs nodes : Nat) (s : Signal) : Prop :=
  (∀ i, s.source = .input i → i < inputs) ∧ ∀ n, s.source = .node n → n < nodes

theorem Within.mono (h : s.Within inputs nodes) (hi : inputs ≤ inputs') (hn : nodes ≤ nodes') :
    s.Within inputs' nodes' :=
  ⟨fun i hs => (h.1 i hs).trans_le hi, fun n hs => (h.2 n hs).trans_le hn⟩

theorem within_of_constant (h : s.source = .constant) : s.Within inputs nodes := by simp [Within, h]

theorem Within.not (h : s.Within inputs nodes) : s.not.Within inputs nodes := by
  rwa [Within, source_not]

theorem within_ofNode (h : n + 1 < 2 ^ 30) (hn : n < nodes) : (ofNode n).Within inputs nodes := by
  rw [Within, source_ofNode h]
  simpa using hn

theorem within_ofInput (h : i < 2 ^ 30) (hi : i < inputs) : (ofInput i).Within inputs nodes := by
  rw [Within, source_ofInput h]
  simpa using hi

/-- only the nodes in range count. -/
theorem Within.value_congr (h : s.Within inputs nodes) (hv : ∀ n < nodes, v n = v' n) : s.value w v = s.value w v' := by
  unfold value
  cases hs : s.source with
  | constant => rfl
  | input i => rfl
  | node n => rw [Source.value, Source.value, hv n (h.2 n hs)]

end ReversibleLogic.Signal
