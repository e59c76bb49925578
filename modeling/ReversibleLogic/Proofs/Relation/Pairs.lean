import Mathlib.Data.Finset.Prod
import Mathlib.Data.Set.Function
import ReversibleLogic.Proofs.Bdd.Models
import ReversibleLogic.Proofs.Permutation
import ReversibleLogic.Relation

/-!
# Pairs of words as assignments

* `pairAssignment n x y` — the variables of the lines hold the bits of `x` and `y`; `inputWord` and `outputWord` read
  them back;
* `Over n F` — the function depends on the variables of `n` lines only, so on pairs of words (`Over.eq_pair`);
* `Represents m r R` — the relation `r` contains the pairs with `R x y`;
* `modelCount_eq_card` — its models are counted by these pairs; `unique_of_card` tells a bijection by their number.
-/

namespace ReversibleLogic

open Bdd

namespace Relation

variable {n x y v l : Nat} {a b : Assignment} {F : Assignment → Bool}

/-! ### pairs and assignments -/

/-- the variables of `n` lines hold the bits of the input word `x` and of the output word `y`. -/
def pairAssignment (n x y : Nat) : Assignment := fun v =>
  if v = 0 ∨ 2 * n < v then false
  else if v % 2 = 1 then x.testBit (n - 1 - v / 2) else y.testBit (n - v / 2)

def inputWord (n : Nat) (a : Assignment) : Nat := Word.ofBits ((List.range n).map fun l => a (2 * (n - 1 - l) + 1))

def outputWord (n : Nat) (a : Assignment) : Nat := Word.ofBits ((List.range n).map fun l => a (2 * (n - 1 - l) + 2))

theorem inputWord_lt (n : Nat) (a : Assignment) : inputWord n a < 2 ^ n := by
  simpa [inputWord] using Word.ofBits_lt ((List.range n).map fun l => a (2 * (n - 1 - l) + 1))

theorem outputWord_lt (n : Nat) (a : Assignment) : outputWord n a < 2 ^ n := by
  simpa [outputWord] using Word.ofBits_lt ((List.range n).map fun l => a (2 * (n - 1 - l) + 2))

theorem testBit_inputWord (hl : l < n) : (inputWord n a).testBit l = a (2 * (n - 1 - l) + 1) := by
  simp [inputWord, hl]

theorem testBit_outputWord (hl : l < n) : (outputWord n a).testBit l = a (2 * (n - 1 - l) + 2) := by
  simp [outputWord, hl]

theorem pairAssignment_input (hl : l < n) : pairAssignment n x y (2 * (n - 1 - l) + 1) = x.testBit l := by
  have hline : n - 1 - (2 * (n - 1 - l) + 1) / 2 = l := by omega
  unfold pairAssignment
  rw [if_neg (by omega), if_pos (by omega), hline]

theorem pairAssignment_output (hl : l < n) : pairAssignment n x y (2 * (n - 1 - l) + 2) = y.testBit l := by
  have hline : n - (2 * (n - 1 - l) + 2) / 2 = l := by omega
  unfold pairAssignment
  rw [if_neg (by omega), if_neg (by omega), hline]

theorem exists_line (hv : 1 ≤ v ∧ v ≤ 2 * n) :
    ∃ l < n, v = 2 * (n - 1 - l) + 1 ∨ v = 2 * (n - 1 - l) + 2 := by
  obtain ⟨h, h'⟩ := hv
  refine ⟨n - 1 - (v - 1) / 2, by omega, ?_⟩
  omega

/-- assignments with the same bits on the variables of the lines. -/
def Agree (n : Nat) (a b : Assignment) : Prop := ∀ v, 1 ≤ v ∧ v ≤ 2 * n → a v = b v

theorem agree_of_lines (h : ∀ l < n, a (2 * (n - 1 - l) + 1) = b (2 * (n - 1 - l) + 1) ∧
    a (2 * (n - 1 - l) + 2) = b (2 * (n - 1 - l) + 2)) : Agree n a b := by
  intro v hv
  obtain ⟨l, hl, rfl | rfl⟩ := exists_line hv
  · exact (h l hl).1
  · exact (h l hl).2

theorem agree_words (n : Nat) (a : Assignment) : Agree n (pairAssignment n (inputWord n a) (outputWord n a)) a :=
  agree_of_lines fun l hl => by
    rw [pairAssignment_input hl, pairAssignment_output hl, testBit_inputWord hl, testBit_outputWord hl]
    exact ⟨rfl, rfl⟩

theorem Agree.inputWord_eq (h : Agree n a b) : inputWord n a = inputWord n b :=
  Word.eq_of_testBit_lt (inputWord_lt n _) (inputWord_lt n _) fun l hl => by
    rw [testBit_inputWord hl, testBit_inputWord hl]
    exact h _ ⟨by omega, by omega⟩

theorem Agree.outputWord_eq (h : Agree n a b) : outputWord n a = outputWord n b :=
  Word.eq_of_testBit_lt (outputWord_lt n _) (outputWord_lt n _) fun l hl => by
    rw [testBit_outputWord hl, testBit_outputWord hl]
    exact h _ ⟨by omega, by omega⟩

theorem inputWord_pair (hx : x < 2 ^ n) : inputWord n (pairAssignment n x y) = x :=
  Word.eq_of_testBit_lt (inputWord_lt n _) hx fun l hl => by rw [testBit_inputWord hl, pairAssignment_input hl]

theorem outputWord_pair (hy : y < 2 ^ n) : outputWord n (pairAssignment n x y) = y :=
  Word.eq_of_testBit_lt (outputWord_lt n _) hy fun l hl => by rw [testBit_outputWord hl, pairAssignment_output hl]

/-! ### functions of the lines -/

/-- the function depends on the variables of `n` lines only. -/
def Over (n : Nat) (F : Assignment → Bool) : Prop := ∀ a b, Agree n a b → F a = F b

theorem Over.eq_pair (h : Over n F) (a : Assignment) : F a = F (pairAssignment n (inputWord n a) (outputWord n a)) :=
  (h _ _ (agree_words n a)).symm

theorem Over.ignores (h : Over n F) (hv : ¬ (1 ≤ v ∧ v ≤ 2 * n)) : Ignores F v := by
  intro a c
  refine h _ _ fun u hu => Function.update_of_ne ?_ _ _
  rintro rfl
  exact hv hu

theorem over_eval {m : Manager} {f : Ref} (hm : m.Ordered) (hf : m.Holds f)
    (h : ∀ v, ¬ (1 ≤ v ∧ v ≤ 2 * n) → Ignores (m.eval · f) v) : Over n (m.eval · f) := fun _ _ hab =>
  Manager.eval_congr_of_ignores hm hf h hab

/-- a function of the lines is constantly true if it is true on pairs of words. -/
theorem Over.forall_iff (h : Over n F) :
    (∀ a, F a = true) ↔ ∀ x < 2 ^ n, ∀ y < 2 ^ n, F (pairAssignment n x y) = true := by
  constructor
  · exact fun hF x _ y _ => hF _
  · intro hF a
    rw [h.eq_pair]
    exact hF _ (inputWord_lt n a) _ (outputWord_lt n a)

/-- the relation contains exactly the pairs with `R x y`. -/
structure Represents (m : Manager) (r : Relation) (R : Nat → Nat → Bool) : Prop where
  holds : m.Holds r.root
  onLines : Over r.lines (m.eval · r.root)
  value : ∀ x < 2 ^ r.lines, ∀ y < 2 ^ r.lines, m.eval (pairAssignment r.lines x y) r.root = R x y

variable {m m' : Manager} {r : Relation} {R S : Nat → Nat → Bool}

theorem Represents.mono (h : Represents m r R) (hm : m.Ordered) (hle : m ≤ m') : Represents m' r R := by
  have heval := Manager.eval_mono hm hle h.holds
  refine ⟨h.holds.mono hle, fun a b hab => ?_, fun x hx y hy => ?_⟩
  · simp only [heval]
    exact h.onLines a b hab
  · rw [heval]
    exact h.value x hx y hy

theorem Represents.congr (h : Represents m r R) (hRS : ∀ x < 2 ^ r.lines, ∀ y < 2 ^ r.lines, R x y = S x y) :
    Represents m r S :=
  ⟨h.holds, h.onLines, fun x hx y hy => (h.value x hx y hy).trans (hRS x hx y hy)⟩

/-! ### numbers of pairs -/

def pairs (n : Nat) (R : Nat → Nat → Bool) : Finset (Nat × Nat) :=
  (Finset.range (2 ^ n) ×ˢ Finset.range (2 ^ n)).filter fun p => R p.1 p.2 = true

theorem mem_pairs {p : Nat × Nat} : p ∈ pairs n R ↔ p.1 < 2 ^ n ∧ p.2 < 2 ^ n ∧ R p.1 p.2 = true := by
  simp [pairs, and_assoc]

/-- the word that holds the values of the variables `1, …, k`. -/
def wordOfAssignment (k : Nat) (a : Assignment) : Nat := Word.ofBits ((List.range k).map fun i => a (i + 1))

theorem wordOfAssignment_lt (k : Nat) (a : Assignment) : wordOfAssignment k a < 2 ^ k := by
  simpa [wordOfAssignment] using Word.ofBits_lt ((List.range k).map fun i => a (i + 1))

theorem wordAssignment_wordOfAssignment {k : Nat} (hv : 1 ≤ v ∧ v ≤ k) :
    wordAssignment (wordOfAssignment k a) v = a v := by
  obtain ⟨i, rfl⟩ : ∃ i, v = i + 1 := ⟨v - 1, by omega⟩
  have hi : i < k := by omega
  show (wordOfAssignment k a).testBit i = _
  simp [wordOfAssignment, hi]

theorem wordOfAssignment_wordAssignment {k w : Nat} (hw : w < 2 ^ k) : wordOfAssignment k (wordAssignment w) = w :=
  Word.eq_of_testBit_lt (wordOfAssignment_lt k _) hw fun i hi => by
    have hone := wordAssignment_wordOfAssignment (a := wordAssignment w) (v := i + 1) (k := k) ⟨by omega, by omega⟩
    exact hone

/-- **Models are pairs.** -/
theorem modelCount_eq_card (hF : Over n F) (hR : ∀ x < 2 ^ n, ∀ y < 2 ^ n, F (pairAssignment n x y) = R x y) :
    modelCount (2 * n) F = (pairs n R).card := by
  -- a word over all variables and the pair of words on the lines hold the same values
  have hback : ∀ a : Assignment, Agree n (wordAssignment (wordOfAssignment (2 * n) a)) a :=
    fun a v hv => wordAssignment_wordOfAssignment hv
  refine Finset.card_nbij' (fun w => (inputWord n (wordAssignment w), outputWord n (wordAssignment w)))
    (fun p => wordOfAssignment (2 * n) (pairAssignment n p.1 p.2)) ?_ ?_ ?_ ?_
  · intro w hw
    have hmodel : F (wordAssignment w) = true := (Finset.mem_filter.1 hw).2
    rw [hF.eq_pair, hR _ (inputWord_lt n _) _ (outputWord_lt n _)] at hmodel
    exact mem_pairs.2 ⟨inputWord_lt n _, outputWord_lt n _, hmodel⟩
  · intro p hp
    obtain ⟨hx, hy, hp⟩ := mem_pairs.1 hp
    refine Finset.mem_filter.2 ⟨Finset.mem_range.2 (wordOfAssignment_lt _ _), ?_⟩
    rw [hF _ _ (hback _), hR _ hx _ hy]
    exact hp
  · intro w hw
    have hlt : w < 2 ^ (2 * n) := Finset.mem_range.1 (Finset.mem_filter.1 hw).1
    have hsame : ∀ a b : Assignment, Agree n a b → wordOfAssignment (2 * n) a = wordOfAssignment (2 * n) b := by
      intro a b hab
      unfold wordOfAssignment
      congr 1
      refine List.map_congr_left fun i hi => hab _ ?_
      have := List.mem_range.1 hi
      omega
    simp only
    rw [hsame _ _ (agree_words n _), wordOfAssignment_wordAssignment hlt]
  · intro p hp
    obtain ⟨hx, hy, -⟩ := mem_pairs.1 hp
    refine Prod.ext ?_ ?_
    · simp only
      rw [(hback _).inputWord_eq, inputWord_pair hx]
    · simp only
      rw [(hback _).outputWord_eq, outputWord_pair hy]

/-! ### bijections -/

/-- every word has exactly one image and exactly one preimage. -/
structure Bijective (n : Nat) (R : Nat → Nat → Bool) : Prop where
  total : ∀ x < 2 ^ n, ∃ y < 2 ^ n, R x y = true
  onto : ∀ y < 2 ^ n, ∃ x < 2 ^ n, R x y = true
  right_unique : ∀ x < 2 ^ n, ∀ y < 2 ^ n, ∀ y' < 2 ^ n, R x y = true → R x y' = true → y = y'
  left_unique : ∀ y < 2 ^ n, ∀ x < 2 ^ n, ∀ x' < 2 ^ n, R x y = true → R x' y = true → x = x'

/-- **A total and onto relation is a bijection** exactly if it has as many pairs as there are words. -/
theorem bijective_iff_card (htotal : ∀ x < 2 ^ n, ∃ y < 2 ^ n, R x y = true)
    (honto : ∀ y < 2 ^ n, ∃ x < 2 ^ n, R x y = true) : Bijective n R ↔ (pairs n R).card = 2 ^ n := by
  have hfst : (pairs n R).image Prod.fst = Finset.range (2 ^ n) := by
    ext x
    rw [Finset.mem_image, Finset.mem_range]
    constructor
    · rintro ⟨p, hp, rfl⟩
      exact (mem_pairs.1 hp).1
    · intro hx
      obtain ⟨y, hy, h⟩ := htotal x hx
      exact ⟨(x, y), mem_pairs.2 ⟨hx, hy, h⟩, rfl⟩
  have hsnd : (pairs n R).image Prod.snd = Finset.range (2 ^ n) := by
    ext y
    rw [Finset.mem_image, Finset.mem_range]
    constructor
    · rintro ⟨p, hp, rfl⟩
      exact (mem_pairs.1 hp).2.1
    · intro hy
      obtain ⟨x, hx, h⟩ := honto y hy
      exact ⟨(x, y), mem_pairs.2 ⟨hx, hy, h⟩, rfl⟩
  constructor
  · intro h
    rw [← Finset.card_range (2 ^ n), ← hfst, Finset.card_image_of_injOn]
    rintro ⟨x, y⟩ hp ⟨x', y'⟩ hp' rfl
    obtain ⟨hx, hy, hxy⟩ := mem_pairs.1 hp
    obtain ⟨-, hy', hxy'⟩ := mem_pairs.1 hp'
    rw [h.right_unique x hx y hy y' hy' hxy hxy']
  · intro hcard
    have hinj : Set.InjOn Prod.fst (pairs n R : Set (Nat × Nat)) := by
      rw [← Finset.card_image_iff, hfst, hcard, Finset.card_range]
    have hinj' : Set.InjOn Prod.snd (pairs n R : Set (Nat × Nat)) := by
      rw [← Finset.card_image_iff, hsnd, hcard, Finset.card_range]
    refine ⟨htotal, honto, fun x hx y hy y' hy' h h' => ?_, fun y hy x hx x' hx' h h' => ?_⟩
    · have hp : (x, y) ∈ pairs n R := mem_pairs.2 ⟨hx, hy, h⟩
      have hp' : (x, y') ∈ pairs n R := mem_pairs.2 ⟨hx, hy', h'⟩
      exact congrArg Prod.snd (hinj hp hp' rfl)
    · have hp : (x, y) ∈ pairs n R := mem_pairs.2 ⟨hx, hy, h⟩
      have hp' : (x', y) ∈ pairs n R := mem_pairs.2 ⟨hx', hy, h'⟩
      exact congrArg Prod.fst (hinj' hp hp' rfl)

end Relation

end ReversibleLogic
