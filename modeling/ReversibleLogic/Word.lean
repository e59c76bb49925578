/-!
# Pattern words

A word is a natural number whose bit `i` is the value of line `i`.

* `ones w` — the set positions of `w`, lowest first;
* `flip`, `without` — changes of bits;
* `weight`, `distance` — number of set bits, number of differing bits;
* `toBits`, `ofBits` — the bits of a word as a list, line 0 first, and back;
* `bitsFor n` — the number of bits that tell `n` values apart.
-/

-- powers of two count words and rows; they stay the powers of the core library next to powers in monoids
attribute [instance (20000), default_instance (20000)] instPowNat

namespace ReversibleLogic.Word

/-- positions of the set bits of `w`, lowest first. -/
def ones (w : Nat) : List Nat := (List.range (w.log2 + 1)).filter w.testBit

theorem mem_ones {w i : Nat} : i ∈ ones w ↔ w.testBit i = true := by
  simp only [ones, List.mem_filter, List.mem_range, and_iff_right_iff_imp]
  intro h
  have hw : w ≠ 0 := by intro h0; simp [h0] at h
  exact Nat.lt_succ_of_le ((Nat.le_log2 hw).2 (Nat.ge_two_pow_of_testBit h))

/-- number of set bits. -/
def weight (w : Nat) : Nat := (ones w).length

/-- number of positions in which two words differ. -/
def distance (x y : Nat) : Nat := weight (x ^^^ y)

/-- the lowest set position of a non-zero word. -/
def lowest (w : Nat) : Nat := (ones w).headD 0

/-- the highest set position of a non-zero word. -/
def highest (w : Nat) : Nat := w.log2

/-- the set bits of `x` that are clear in `y`. -/
def without (x y : Nat) : Nat := x ^^^ (x &&& y)

@[simp] theorem testBit_without (x y i : Nat) : (without x y).testBit i = (x.testBit i && !y.testBit i) := by
  simp only [without, Nat.testBit_xor, Nat.testBit_and]
  cases x.testBit i <;> cases y.testBit i <;> rfl

/-- the word with bit `i` changed. -/
def flip (w i : Nat) : Nat := w ^^^ (1 <<< i)

@[simp] theorem testBit_flip (w i j : Nat) : (flip w i).testBit j = (w.testBit j ^^ decide (i = j)) := by
  rw [flip, Nat.testBit_xor, Nat.one_shiftLeft, Nat.testBit_two_pow]

/-- bits `0, …, width - 1` of `w`. -/
def toBits (w width : Nat) : List Bool := (List.range width).map w.testBit

/-- the word with the given bits, line 0 first. -/
def ofBits : List Bool → Nat
  | [] => 0
  | b :: bs => b.toNat + 2 * ofBits bs

@[simp] theorem length_toBits (w width : Nat) : (toBits w width).length = width := by simp [toBits]

@[simp] theorem testBit_ofBits (bs : List Bool) (i : Nat) : (ofBits bs).testBit i = bs.getD i false := by
  induction bs generalizing i with
  | nil => simp [ofBits]
  | cons b bs ih =>
    cases i with
    | zero => cases b <;> simp [ofBits, Nat.testBit_zero]
    | succ i =>
      have hb : b.toNat < 2 := b.toNat_lt
      have : (b.toNat + 2 * ofBits bs) / 2 = ofBits bs := by omega
      simp [ofBits, Nat.testBit_succ, this, ih]

theorem ofBits_toBits (w width : Nat) : ofBits (toBits w width) = w % 2 ^ width := by
  apply Nat.eq_of_testBit_eq
  intro i
  by_cases h : i < width <;> simp [toBits, Nat.testBit_mod_two_pow, h]

/-- number of bits needed to write the values `0, …, n - 1` in binary. -/
def bitsFor (n : Nat) : Nat := if n ≤ 1 then 0 else (n - 1).log2 + 1

/-- lower-case hexadecimal text with the base mark `0x`. -/
def hexadecimal (n : Nat) : String := "0x" ++ String.ofList (Nat.toDigits 16 n)

end ReversibleLogic.Word
