import Mathlib.Data.Finset.Card
import ReversibleLogic.Bdd.Models
import ReversibleLogic.Proofs.Bdd.Support
import ReversibleLogic.Proofs.Words

/-!
# Models of a reference

* `modelCount n F` — the number of models of `F` over the variables `1, …, n`; a variable splits them in halves
  (`two_mul_modelCount`), and `count_eq` counts them;
* `setting vars bits` — the assignment with the given bits;
* `leastFrom_model` — a low-first walk ends at a model, whatever variables it passes (`Descends`);
* `least?_spec` — it finds the smallest setting that is a model.
-/

namespace ReversibleLogic.Bdd

variable {m : Manager} {f : Ref} {F G H L : Assignment → Bool} {v n : Nat}

/-! ### numbers of models -/

/-- the assignment in which variable `v + 1` has bit `v` of the word. -/
def wordAssignment (w : Nat) : Assignment
  | 0 => false
  | v + 1 => w.testBit v

def modelCount (n : Nat) (F : Assignment → Bool) : Nat :=
  ((Finset.range (2 ^ n)).filter fun w => F (wordAssignment w) = true).card

theorem wordAssignment_flip (w k : Nat) :
    wordAssignment (Word.flip w k) = Function.update (wordAssignment w) (k + 1) (!w.testBit k) := by
  funext v
  cases v with
  | zero => rw [Function.update_of_ne (Nat.succ_ne_zero k).symm]; rfl
  | succ v =>
    show (Word.flip w k).testBit v = _
    rw [Word.testBit_flip]
    by_cases hv : v = k
    · subst hv
      rw [Function.update_self]
      simp
    · rw [Function.update_of_ne (by omega), decide_eq_false (by omega), Bool.xor_false]
      rfl

theorem modelCount_congr (n : Nat) (h : ∀ a, F a = G a) : modelCount n F = modelCount n G := by
  unfold modelCount
  simp only [h]

theorem modelCount_true (n : Nat) : modelCount n (fun _ => true) = 2 ^ n := by
  simp [modelCount]

theorem modelCount_false (n : Nat) : modelCount n (fun _ => false) = 0 := by
  simp [modelCount]

theorem modelCount_not (n : Nat) (F : Assignment → Bool) : modelCount n (fun a => !F a) = 2 ^ n - modelCount n F := by
  have hsum := Finset.card_filter_add_card_filter_not (s := Finset.range (2 ^ n))
    (fun w => F (wordAssignment w) = true)
  rw [Finset.card_range] at hsum
  unfold modelCount
  simp only [Bool.not_eq_true', Bool.not_eq_true] at *
  omega

def modelsWith (n k : Nat) (b : Bool) (F : Assignment → Bool) : Finset Nat :=
  (Finset.range (2 ^ n)).filter fun w => w.testBit k = b ∧ F (wordAssignment w) = true

theorem modelCount_eq_add (n k : Nat) (F : Assignment → Bool) :
    modelCount n F = (modelsWith n k false F).card + (modelsWith n k true F).card := by
  have hsum := Finset.card_filter_add_card_filter_not
    (s := (Finset.range (2 ^ n)).filter fun w => F (wordAssignment w) = true) (fun w => w.testBit k = true)
  rw [Finset.filter_filter, Finset.filter_filter] at hsum
  unfold modelCount modelsWith
  rw [← hsum, Nat.add_comm]
  simp only [Bool.not_eq_true, and_comm]

/-- flipping an ignored variable is a bijection between the two halves of the models. -/
theorem card_modelsWith {k : Nat} (hk : k < n) (hF : Ignores F (k + 1)) :
    (modelsWith n k false F).card = (modelsWith n k true F).card := by
  have hflip : ∀ b, ∀ w ∈ modelsWith n k b F, Word.flip w k ∈ modelsWith n k (!b) F := by
    intro b w hw
    obtain ⟨hlt, hb, hmodel⟩ := Finset.mem_filter.1 hw
    refine Finset.mem_filter.2 ⟨Finset.mem_range.2 (Word.flip_lt (Finset.mem_range.1 hlt) hk), ?_, ?_⟩
    · rw [Word.testBit_flip, hb, decide_eq_true rfl, Bool.xor_true]
    · rw [wordAssignment_flip, hF]
      exact hmodel
  exact Finset.card_nbij' (Word.flip · k) (Word.flip · k) (hflip false) (hflip true)
    (fun w _ => Word.flip_flip w k) fun w _ => Word.flip_flip w k

/-- **A variable splits the models in halves.** -/
theorem two_mul_modelCount {k : Nat} (hk : k < n) (hF : ∀ a, F a = if a (k + 1) then H a else L a)
    (hL : Ignores L (k + 1)) (hH : Ignores H (k + 1)) : 2 * modelCount n F = modelCount n L + modelCount n H := by
  have hlow : modelsWith n k false F = modelsWith n k false L := by
    refine Finset.filter_congr fun w _ => and_congr_right ?_
    intro hw
    have : wordAssignment w (k + 1) = false := hw
    rw [hF, this, if_neg Bool.false_ne_true]
  have hhigh : modelsWith n k true F = modelsWith n k true H := by
    refine Finset.filter_congr fun w _ => and_congr_right ?_
    intro hw
    have : wordAssignment w (k + 1) = true := hw
    rw [hF, this, if_pos rfl]
  have hL' := card_modelsWith hk hL
  have hH' := card_modelsWith hk hH
  rw [modelCount_eq_add n k F, modelCount_eq_add n k L, modelCount_eq_add n k H, hlow, hhigh]
  omega

def CountsRight (m : Manager) (n : Nat) (counts : Manager.Counts) : Prop :=
  ∀ (f : Ref) k, counts[f.value]? = some k → k = modelCount n (m.eval · f)

theorem counts_bind {α β : Type} {x : StateT Manager.Counts (Except Error) α} {s s' : Manager.Counts} {a : α}
    (h : x s = .ok (a, s')) (f : α → StateT Manager.Counts (Except Error) β) : (x >>= f) s = f a s' := by
  show (x s >>= fun p => f p.1 p.2) = _
  rw [h]
  rfl

theorem CountsRight.insert {counts : Manager.Counts} (h : CountsRight m n counts) (f : Ref) :
    CountsRight m n (counts.insert f.value (modelCount n (m.eval · f))) := by
  intro g c hget
  rw [Std.TreeMap.getElem?_insert] at hget
  split at hget
  · next he =>
    have hfg : f = g := congrArg Ref.mk (Std.LawfulEqCmp.eq_of_compare he)
    rw [← hfg, ← Option.some.inj hget]
  · exact h g c hget

/-- the models of a reference are those of the uncomplemented one, or all others. -/
theorem modelCount_eq_regular (hf : m.Holds f) :
    modelCount n (m.eval · f) =
      if f.isNegated then 2 ^ n - modelCount n (m.eval · f.regular) else modelCount n (m.eval · f.regular) := by
  split
  · next hneg =>
    rw [← modelCount_not]
    refine modelCount_congr n ?_
    intro a
    rw [Manager.eval_regular hf, hneg, Bool.true_xor, Bool.not_not]
  · next hneg =>
    rw [Bool.not_eq_true] at hneg
    refine modelCount_congr n ?_
    intro a
    rw [Manager.eval_regular hf, hneg, Bool.false_xor]

/-- **No bit is lost**: the models of the children are twice as many as those of the inner reference. -/
theorem Children.two_mul_modelCount {k : Node} (hc : Children m f k) (hm : m.Ordered) (hf : m.Holds f)
    (hdep : ∀ v, ¬ (1 ≤ v ∧ v ≤ n) → Ignores (m.eval · f) v) (hi : f.index ≠ 1) :
    2 * modelCount n (m.eval · f) =
      modelCount n (m.eval · (childOf f k false)) + modelCount n (m.eval · (childOf f k true)) := by
  -- the variable of the node is one of those that are counted
  have hvar : 1 ≤ k.var ∧ k.var ≤ n := by
    by_contra hout
    exact Manager.not_ignores_level hm hf hi (hc.level ▸ hdep _ hout)
  obtain ⟨j, hj⟩ : ∃ j, k.var = j + 1 := ⟨k.var - 1, by omega⟩
  have hignores : ∀ b, Ignores (m.eval · (childOf f k b)) (j + 1) := hj ▸ hc.ignores_of_le hm (Nat.le_refl _)
  exact Bdd.two_mul_modelCount (by omega) (hj ▸ hc.eval_eq) (hignores false) (hignores true)

theorem Children.modelCount_eq {k : Node} (hc : Children m f k) (hm : m.Ordered) (hf : m.Holds f)
    (hdep : ∀ v, ¬ (1 ≤ v ∧ v ≤ n) → Ignores (m.eval · f) v) (hi : f.index ≠ 1) :
    (modelCount n (m.eval · (childOf f k false)) + modelCount n (m.eval · (childOf f k true))) / 2 =
      modelCount n (m.eval · f) := by
  have htwo := hc.two_mul_modelCount hm hf hdep hi
  omega

/-- **Counting.** -/
theorem countWithin_spec (hm : m.Ordered) (hf : m.Holds f) (hdep : ∀ v, ¬ (1 ≤ v ∧ v ≤ n) → Ignores (m.eval · f) v)
    {fuel : Nat} (hfuel : f.index < fuel) {counts : Manager.Counts} (hcounts : CountsRight m n counts) :
    ∃ counts', m.countWithin (2 ^ n) fuel f counts = .ok (modelCount n (m.eval · f), counts') ∧
      CountsRight m n counts' := by
  induction fuel generalizing f counts with
  | zero => omega
  | succ fuel ih =>
    rw [Manager.countWithin]
    by_cases hzero : f = .zero
    · subst hzero
      have hnone : modelCount n (m.eval · .zero) = 0 := by simp [modelCount_false]
      refine ⟨counts, ?_, hcounts⟩
      rw [if_pos rfl, hnone]
      rfl
    rw [if_neg hzero]
    by_cases hone : f = .one
    · subst hone
      have hall : modelCount n (m.eval · .one) = 2 ^ n := by simp [modelCount_true]
      refine ⟨counts, ?_, hcounts⟩
      rw [if_pos rfl, hall]
      rfl
    rw [if_neg hone]
    cases hget : counts[f.value]? with
    | some c =>
      refine ⟨counts, ?_, hcounts⟩
      rw [← hcounts f c hget]
      rw [counts_bind (x := get) (s := counts) rfl, hget]
      rfl
    | none =>
      have hi : f.index ≠ 1 := fun hi => (Ref.eq_one_or_eq_zero hi).elim hone hzero
      have hg : m.Holds f.regular := hf
      obtain ⟨k, hc⟩ := exists_children hm hg hi
      have hdep' : ∀ v, ¬ (1 ≤ v ∧ v ≤ n) → Ignores (m.eval · f.regular) v := by
        intro v hv
        exact Manager.ignores_regular hf (hdep v hv)
      have hindex : ∀ b, (childOf f.regular k b).index < fuel := fun b => by
        have hlt : (childOf f.regular k b).index < f.index := hc.index_lt b
        omega
      obtain ⟨counts₁, hlow, hcounts₁⟩ :=
        ih (hc.holds false) (fun v hv => hc.ignores (hdep' v hv) false) (hindex false) hcounts
      obtain ⟨counts₂, hhigh, hcounts₂⟩ :=
        ih (hc.holds true) (fun v hv => hc.ignores (hdep' v hv) true) (hindex true) hcounts₁
      have hlift : ∀ (c : Ref) (s : Manager.Counts),
          (liftM (Except.ok c : Except Error Ref) : StateT Manager.Counts (Except Error) Ref) s = .ok (c, s) :=
        fun _ _ => rfl
      refine ⟨_, ?_, hcounts₂.insert f⟩
      rw [counts_bind (x := get) (s := counts) rfl, hget, hc.low_eq m.le_refl, hc.high_eq m.le_refl]
      dsimp only
      rw [counts_bind (hlift _ _), counts_bind hlow, counts_bind (hlift _ _), counts_bind hhigh,
        hc.modelCount_eq hm hg hdep' hi, ← modelCount_eq_regular hf]
      rfl

theorem count_eq (hm : m.Ordered) (hf : m.Holds f) (hdep : ∀ v, ¬ (1 ≤ v ∧ v ≤ n) → Ignores (m.eval · f) v) :
    m.count f n = .ok (modelCount n (m.eval · f)) := by
  have hempty : CountsRight m n ∅ := fun g k h => by simp at h
  obtain ⟨counts, hok, -⟩ := countWithin_spec hm hf hdep (Nat.lt_succ_self _) hempty
  show (·.1) <$> m.countWithin (2 ^ n) (f.index + 1) f ∅ = _
  rw [hok]
  rfl

theorem sortedSet_of_pairwise {vars : List Nat} (h : vars.Pairwise (· < ·)) : sortedSet vars = vars := by
  induction vars with
  | nil => rfl
  | cons v vars ih =>
    obtain ⟨hv, hvars⟩ := List.pairwise_cons.1 h
    show insertVariable v (sortedSet vars) = _
    rw [ih hvars]
    cases vars with
    | nil => rfl
    | cons u us => rw [insertVariable, if_pos (hv u List.mem_cons_self)]

theorem countOver_eq (hm : m.Ordered) (hf : m.Holds f) (hdep : ∀ v, ¬ (1 ≤ v ∧ v ≤ n) → Ignores (m.eval · f) v) :
    m.countOver f ((List.range n).map (· + 1)) = .ok (modelCount n (m.eval · f)) := by
  have hsorted : sortedSet ((List.range n).map (· + 1)) = (List.range n).map (· + 1) := by
    refine sortedSet_of_pairwise (List.pairwise_map.2 ?_)
    exact List.pairwise_lt_range.imp fun h => Nat.succ_lt_succ h
  have hlast : ((List.range n).map (· + 1)).getLastD 0 = n := by
    cases n with
    | zero => rfl
    | succ n => rw [List.range_succ, List.map_append, List.map_singleton]; simp
  obtain ⟨vars, hsupport, -, hmem⟩ := support_sub hm hf hdep
  have hall : vars.all ((List.range n).map (· + 1)).contains = true := by
    refine List.all_eq_true.2 ?_
    intro v hv
    obtain ⟨hpos, hle⟩ := hmem v hv
    rw [List.contains_iff_mem, List.mem_map]
    exact ⟨v - 1, List.mem_range.2 (by omega), by omega⟩
  have hcount := count_eq hm hf hdep
  unfold Manager.countOver
  rw [hsorted]
  simp only [hlast]
  simp [bind, Except.bind, hsupport, hall, hcount, pure, Except.pure]

/-! ### settings -/

/-- the assignment in which the variables have the given bits. -/
def setting : List Nat → List Bool → Assignment → Assignment
  | v :: vars, b :: bits, a => Function.update (setting vars bits a) v b
  | _, _, a => a

theorem setting_of_not_mem {vars : List Nat} (hv : v ∉ vars) (bits : List Bool) (a : Assignment) :
    setting vars bits a v = a v := by
  induction vars generalizing bits with
  | nil => rfl
  | cons u vars ih =>
    rw [List.mem_cons, not_or] at hv
    cases bits with
    | nil => rfl
    | cons b bits => rw [setting, Function.update_of_ne hv.1, ih hv.2]

theorem setting_getElem {vars : List Nat} (hvars : vars.Nodup) {bits : List Bool} (a : Assignment) {i : Nat}
    (hi : i < vars.length) (hi' : i < bits.length) : setting vars bits a vars[i] = bits[i] := by
  induction vars generalizing bits i with
  | nil => cases hi
  | cons u vars ih =>
    cases bits with
    | nil => cases hi'
    | cons b bits =>
      obtain ⟨hu, hvars⟩ := List.nodup_cons.1 hvars
      cases i with
      | zero => simp [setting]
      | succ i =>
        have hi : i < vars.length := Nat.lt_of_succ_lt_succ hi
        have hne : vars[i] ≠ u := fun he => hu (he ▸ List.getElem_mem hi)
        simp only [List.getElem_cons_succ, setting]
        rw [Function.update_of_ne hne]
        exact ih hvars hi (Nat.lt_of_succ_lt_succ hi')

/-- bits that are read from the most significant one on. -/
def bitsValue (bits : List Bool) : Nat := Word.ofBits bits.reverse

theorem bitsValue_cons (b : Bool) (bits : List Bool) :
    bitsValue (b :: bits) = bitsValue bits + 2 ^ bits.length * b.toNat := by
  rw [bitsValue, List.reverse_cons, Word.ofBits_append, List.length_reverse, bitsValue]
  cases b <;> rfl

theorem bitsValue_lt (bits : List Bool) : bitsValue bits < 2 ^ bits.length := by
  rw [← List.length_reverse]
  exact Word.ofBits_lt _

/-! ### walks to a model -/

theorem exists_model (hm : m.Ordered) (hf : m.Holds f) (hne : f ≠ .zero) : ∃ a, m.eval a f = true := by
  by_contra hnone
  refine hne ((hf.denotes.eq_zero_iff hm).2 fun a => ?_)
  rw [← Bool.not_eq_true]
  exact fun ha => hnone ⟨a, ha⟩

theorem ignores_of_absent (hm : m.Ordered) (hf : m.Holds f) (hv : f.index ≠ 1 → v < m.level f) :
    Ignores (m.eval · f) v := by
  by_cases hi : f.index = 1
  · intro a b
    simp only [Manager.eval_terminal hi]
  · exact Manager.ignores_of_lt_level hm hf (hv hi)

theorem level_mem_of_ignores (hm : m.Ordered) (hf : m.Holds f) (hi : f.index ≠ 1) {vars : List Nat}
    (hdep : ∀ u, u ∉ vars → Ignores (m.eval · f) u) : m.level f ∈ vars := by
  by_contra hnot
  exact Manager.not_ignores_level hm hf hi (hdep _ hnot)

/-- no variable of the reference comes before the first one of those that it depends on. -/
theorem le_level_of_ignores (hm : m.Ordered) (hf : m.Holds f) {vars : List Nat} (hvars : (v :: vars).Pairwise (· < ·))
    (hdep : ∀ u, u ∉ v :: vars → Ignores (m.eval · f) u) (hi : f.index ≠ 1) : v ≤ m.level f := by
  rcases List.mem_cons.1 (level_mem_of_ignores hm hf hi hdep) with he | hmem
  · exact Nat.le_of_eq he.symm
  · exact Nat.le_of_lt ((List.pairwise_cons.1 hvars).1 _ hmem)

theorem absent_or_top (hm : m.Ordered) (hf : m.Holds f) (hv : f.index ≠ 1 → v ≤ m.level f) :
    (f.index ≠ 1 → v < m.level f) ∨ f.index ≠ 1 ∧ ∃ n, Children m f n ∧ n.var = v := by
  refine or_iff_not_imp_left.2 fun habsent => ?_
  obtain ⟨hi, hle⟩ := Classical.not_imp.1 habsent
  obtain ⟨n, hc⟩ := exists_children hm hf hi
  have hge := hv hi
  rw [hc.level] at hge hle
  exact ⟨hi, n, hc, by omega⟩

/-- whether a walk takes the high child of `f`: it takes the low one, unless that is zero. -/
def takesHigh (f : Ref) (n : Node) : Bool := decide (childOf f n false = .zero)

theorem takesHigh_of_eq {n : Node} (h : childOf f n false = .zero) : takesHigh f n = true := decide_eq_true h

theorem takesHigh_of_ne {n : Node} (h : childOf f n false ≠ .zero) : takesHigh f n = false := decide_eq_false h

/-- the children of a reference with a model are not both zero. -/
theorem Children.ne_zero_of_sibling {k : Node} {b : Bool} (hc : Children m f k) (hm : m.Ordered) (hf : m.Holds f)
    (hne : f ≠ .zero) (hb : childOf f k b = .zero) : childOf f k (!b) ≠ .zero := by
  intro hb'
  have hboth : ∀ c, childOf f k c = .zero := by
    intro c
    obtain rfl | rfl := Bool.eq_or_eq_not c b
    · exact hb
    · exact hb'
  refine hne ((hf.denotes.eq_zero_iff hm).2 fun a => ?_)
  rw [hc.eval_eq, hboth, hboth, ite_self, Manager.eval_zero]

theorem Children.ne_zero {k : Node} (hc : Children m f k) (hm : m.Ordered) (hf : m.Holds f) (hne : f ≠ .zero) :
    childOf f k (takesHigh f k) ≠ .zero := by
  by_cases hlow : childOf f k false = .zero
  · rw [takesHigh_of_eq hlow]
    exact hc.ne_zero_of_sibling hm hf hne hlow
  · rw [takesHigh_of_ne hlow]
    exact hlow

theorem Children.lowOrHigh_eq {k : Node} (hc : Children m f k) : m.lowOrHigh f = .ok (childOf f k (takesHigh f k)) := by
  rw [Manager.lowOrHigh, hc.low_eq m.le_refl, hc.high_eq m.le_refl, ok_bind]
  by_cases hlow : childOf f k false = .zero
  · rw [if_pos hlow, takesHigh_of_eq hlow]
  · rw [if_neg hlow, takesHigh_of_ne hlow]
    rfl

/-- a walk that is to reach `v` stays where nothing smaller is on top. -/
theorem descendTo_eq (hm : m.Ordered) (hf : m.Holds f) (hv : f.index ≠ 1 → v ≤ m.level f) {fuel : Nat} :
    m.descendTo v (fuel + 1) f = .ok f := by
  rw [Manager.descendTo]
  split
  · rfl
  · next hi =>
    rw [Ref.isTerminal_iff] at hi
    obtain ⟨n, hc⟩ := exists_children hm hf hi
    have hle := hv hi
    rw [hc.level] at hle
    rw [hc.variableOf_eq m.le_refl, ok_bind, if_neg (Nat.not_lt.2 hle)]
    rfl

/-- what is left of `f` when a walk has passed the variables before `v`: its models are models of `f`, but for the
variables that have been passed. -/
structure Descends (m : Manager) (v : Nat) (f g : Ref) : Prop where
  holds : m.Holds g
  ne_zero : g ≠ .zero
  level : g.index ≠ 1 → v ≤ m.level g
  extend : ∀ a, m.eval a g = true → ∃ b : Assignment, (∀ u, v ≤ u → b u = a u) ∧ m.eval b f = true

theorem descendTo_spec (hm : m.Ordered) (hf : m.Holds f) (hne : f ≠ .zero) {fuel : Nat} (hfuel : f.index < fuel) :
    ∃ g, m.descendTo v fuel f = .ok g ∧ Descends m v f g := by
  induction fuel generalizing f with
  | zero => omega
  | succ fuel ih =>
    by_cases hv : f.index ≠ 1 → v ≤ m.level f
    · exact ⟨f, descendTo_eq hm hf hv, hf, hne, hv, fun a ha => ⟨a, fun _ _ => rfl, ha⟩⟩
    · obtain ⟨hi, hlt⟩ := Classical.not_imp.1 hv
      obtain ⟨n, hc⟩ := exists_children hm hf hi
      rw [hc.level, Nat.not_le] at hlt
      have hindex := hc.index_lt (takesHigh f n)
      obtain ⟨g, hok, hg⟩ := ih (hc.holds _) (hc.ne_zero hm hf hne) (by omega)
      refine ⟨g, ?_, hg.holds, hg.ne_zero, hg.level, fun a ha => ?_⟩
      · rw [Manager.descendTo, if_neg (mt Ref.isTerminal_iff.1 hi), hc.variableOf_eq m.le_refl, ok_bind, if_pos hlt,
          hc.lowOrHigh_eq, ok_bind, hok]
      · -- the variable of the node gets the value of the child that is taken
        obtain ⟨b, hb, hmodel⟩ := hg.extend a ha
        refine ⟨Function.update b n.var (takesHigh f n), fun u hu => ?_, ?_⟩
        · rw [Function.update_of_ne (by omega), hb u hu]
        · rw [← (hc.cofactor _).denotes.eval, hmodel]

section walk

variable {g : Ref} {vars : List Nat} {bits : List Bool}

theorem leastFrom_of_absent (hdescend : m.descendTo v (f.index + 1) f = .ok g) (hg : m.Holds g)
    (hv : g.index ≠ 1 → v < m.level g) (hok : m.leastFrom vars g = .ok bits) :
    m.leastFrom (v :: vars) f = .ok (false :: bits) := by
  obtain ⟨k, hk⟩ := hg
  have hvar := variableOf_of_value? hk
  have hif : ¬ ((!g.isTerminal && decide (k.var = v)) = true) := by
    cases ht : g.isTerminal with
    | true => simp
    | false =>
      have hi : g.index ≠ 1 := mt Ref.isTerminal_iff.2 (by simp [ht])
      have hlt := hv hi
      rw [Manager.level_of_node hi hk] at hlt
      simp [Nat.ne_of_gt hlt]
  rw [Manager.leastFrom]
  simp only [bind, Except.bind, hdescend, hvar, hok, pure, Except.pure]
  rw [if_neg hif]

/-- a variable on top is set only if it has to be. -/
theorem Children.leastFrom_eq {k : Node} (hc : Children m g k) (hi : g.index ≠ 1)
    (hdescend : m.descendTo k.var (f.index + 1) f = .ok g)
    (hok : m.leastFrom vars (childOf g k (takesHigh g k)) = .ok bits) :
    m.leastFrom (k.var :: vars) f = .ok (takesHigh g k :: bits) := by
  have hif : (!g.isTerminal && decide True) = true := by
    have ht : g.isTerminal = false := Bool.eq_false_iff.2 (mt Ref.isTerminal_iff.1 hi)
    rw [ht]
    rfl
  rw [Manager.leastFrom]
  simp only [bind, Except.bind, hdescend, hc.variableOf_eq m.le_refl, hc.low_eq m.le_refl, hc.high_eq m.le_refl,
    pure, Except.pure]
  rw [if_pos hif]
  by_cases hlow : childOf g k false = .zero
  · rw [takesHigh_of_eq hlow] at hok ⊢
    rw [if_pos hlow, hok]
  · rw [takesHigh_of_ne hlow] at hok ⊢
    rw [if_neg hlow, hok]

/-- **A walk ends at a model**, whatever variables it passes on the way. -/
theorem leastFrom_model (hm : m.Ordered) (hvars : vars.Pairwise (· < ·)) (hf : m.Holds f) (hne : f ≠ .zero) :
    ∃ bits, m.leastFrom vars f = .ok bits ∧ ∃ a, m.eval a f = true ∧ vars.map a = bits := by
  induction vars generalizing f with
  | nil =>
    obtain ⟨a, ha⟩ := exists_model hm hf hne
    exact ⟨[], rfl, a, ha, rfl⟩
  | cons v vars ih =>
    obtain ⟨hv, hrest⟩ := List.pairwise_cons.1 hvars
    obtain ⟨g, hdescend, hg⟩ := descendTo_spec (v := v) hm hf hne (Nat.lt_succ_self _)
    -- a model with the value of `v` that the walk takes
    have hextend : ∀ b a, m.eval (Function.update a v b) g = true →
        ∃ c, m.eval c f = true ∧ (v :: vars).map c = b :: vars.map a := by
      intro b a ha
      obtain ⟨c, hc, hmodel⟩ := hg.extend _ ha
      refine ⟨c, hmodel, ?_⟩
      rw [List.map_cons, hc v (Nat.le_refl v), Function.update_self]
      refine congrArg _ (List.map_congr_left fun u hu => ?_)
      rw [hc u (Nat.le_of_lt (hv u hu)), Function.update_of_ne (Nat.ne_of_gt (hv u hu))]
    rcases absent_or_top hm hg.holds hg.level with habsent | ⟨hi, n, hc, rfl⟩
    · obtain ⟨bits, hok, a, ha, rfl⟩ := ih hrest hg.holds hg.ne_zero
      have hsame : m.eval (Function.update a v false) g = m.eval a g := ignores_of_absent hm hg.holds habsent a false
      exact ⟨_, leastFrom_of_absent hdescend hg.holds habsent hok, hextend false a (hsame.trans ha)⟩
    · obtain ⟨bits, hok, a, ha, rfl⟩ := ih hrest (hc.holds _) (hc.ne_zero hm hg.holds hg.ne_zero)
      rw [(hc.cofactor _).denotes.eval] at ha
      exact ⟨_, hc.leastFrom_eq hi hdescend hok, hextend _ a ha⟩

theorem exists_least? (hm : m.Ordered) (hvars : vars.Pairwise (· < ·)) (hf : m.Holds f) (hne : f ≠ .zero) :
    ∃ bits, m.least? f vars = .ok (some bits) ∧ ∃ a, m.eval a f = true ∧ vars.map a = bits := by
  obtain ⟨bits, hok, hmodel⟩ := leastFrom_model hm hvars hf hne
  refine ⟨bits, ?_, hmodel⟩
  rw [Manager.least?, if_neg hne, hok]
  rfl

theorem least?_eq_none_iff (hm : m.Ordered) (hvars : vars.Pairwise (· < ·)) (hf : m.Holds f) :
    m.least? f vars = .ok none ↔ f = .zero := by
  constructor
  · intro hnone
    by_contra hne
    obtain ⟨bits, hok, -⟩ := exists_least? hm hvars hf hne
    rw [hok] at hnone
    cases hnone
  · intro hzero
    rw [Manager.least?, if_pos hzero]

end walk

/-! ### the smallest model -/

/-- `bits` is the smallest setting of `vars` that is a model. -/
structure IsLeast (vars : List Nat) (F : Assignment → Bool) (bits : List Bool) : Prop where
  length : bits.length = vars.length
  model : ∀ a, F (setting vars bits a) = true
  least : ∀ bits', bits'.length = vars.length → ∀ a, F (setting vars bits' a) = true → bitsValue bits ≤ bitsValue bits'

/-- the first variable is clear in the smallest model if it can be. -/
theorem IsLeast.cons_false {vars : List Nat} {bits : List Bool}
    (hG : ∀ b a, G (setting vars b a) = F (setting (v :: vars) (false :: b) a)) (h : IsLeast vars G bits) :
    IsLeast (v :: vars) F (false :: bits) := by
  refine ⟨by rw [List.length_cons, List.length_cons, h.length], fun a => by rw [← hG, h.model],
    fun bits' hlen a hF => ?_⟩
  cases bits' with
  | nil => cases hlen
  | cons b bits' =>
    have hlen' : bits'.length = vars.length := by simpa using hlen
    rw [bitsValue_cons, bitsValue_cons, Bool.toNat_false, Nat.mul_zero, Nat.add_zero]
    cases b with
    | false => exact (h.least bits' hlen' a (by rw [hG, hF])).trans (Nat.le_add_right _ _)
    | true =>
      have := bitsValue_lt bits
      rw [h.length, ← hlen'] at this
      rw [Bool.toNat_true, Nat.mul_one]
      omega

/-- the first variable is set in the smallest model if it has to be. -/
theorem IsLeast.cons_true {vars : List Nat} {bits : List Bool}
    (hG : ∀ b a, G (setting vars b a) = F (setting (v :: vars) (true :: b) a))
    (hnone : ∀ b a, F (setting (v :: vars) (false :: b) a) = false) (h : IsLeast vars G bits) :
    IsLeast (v :: vars) F (true :: bits) := by
  refine ⟨by rw [List.length_cons, List.length_cons, h.length], fun a => by rw [← hG, h.model],
    fun bits' hlen a hF => ?_⟩
  cases bits' with
  | nil => cases hlen
  | cons b bits' =>
    have hlen' : bits'.length = vars.length := by simpa using hlen
    cases b with
    | false =>
      rw [hnone] at hF
      cases hF
    | true =>
      have := h.least bits' hlen' a (by rw [hG, hF])
      rw [bitsValue_cons, bitsValue_cons, h.length, hlen']
      omega

theorem ignores_of_not_mem_tail {vars : List Nat} (hdep : ∀ u, u ∉ v :: vars → Ignores F u)
    (hG : ∀ u, Ignores F u → Ignores G u) (hv : Ignores G v) {u : Nat} (hu : u ∉ vars) : Ignores G u := by
  by_cases huv : u = v
  · exact huv ▸ hv
  · exact hG u (hdep u (by simp [huv, hu]))

theorem leastFrom_spec (hm : m.Ordered) {vars : List Nat} (hvars : vars.Pairwise (· < ·)) (hf : m.Holds f)
    (hne : f ≠ .zero) (hdep : ∀ v, v ∉ vars → Ignores (m.eval · f) v) :
    ∃ bits, m.leastFrom vars f = .ok bits ∧ IsLeast vars (m.eval · f) bits := by
  induction vars generalizing f with
  | nil =>
    have hi : f.index = 1 := by
      by_contra hi
      exact List.not_mem_nil (level_mem_of_ignores hm hf hi hdep)
    have hone : f = .one := (Ref.eq_one_or_eq_zero hi).resolve_right hne
    subst hone
    refine ⟨[], rfl, rfl, fun a => Manager.eval_one m _, fun bits' hlen _ _ => ?_⟩
    exact Nat.le_of_eq (congrArg bitsValue (List.length_eq_zero_iff.1 hlen).symm)
  | cons v vars ih =>
    have hrest := (List.pairwise_cons.1 hvars).2
    have hlevel := le_level_of_ignores hm hf hvars hdep
    have hdescend : m.descendTo v (f.index + 1) f = .ok f := descendTo_eq hm hf hlevel
    have hcofactor : ∀ {b c}, m.Denotes c (fun a => m.eval (Function.update a v b) f) → ∀ bits a,
        m.eval (setting vars bits a) c = m.eval (setting (v :: vars) (b :: bits) a) f :=
      fun hc bits a => hc.eval _
    rcases absent_or_top hm hf hlevel with habsent | ⟨hi, n, hc, rfl⟩
    · have hignores := ignores_of_absent hm hf habsent
      obtain ⟨bits, hok, hleast⟩ :=
        ih hrest hf hne fun u hu => ignores_of_not_mem_tail hdep (fun _ h => h) hignores hu
      exact ⟨_, leastFrom_of_absent hdescend hf habsent hok,
        hleast.cons_false (hcofactor ⟨hf, fun a => (hignores a false).symm⟩)⟩
    · have hdep' : ∀ b u, u ∉ vars → Ignores (m.eval · (childOf f n b)) u := fun b u hu =>
        ignores_of_not_mem_tail hdep (fun _ h => hc.ignores h b) (hc.ignores_of_le hm (Nat.le_refl _) b) hu
      obtain ⟨bits, hok, hleast⟩ := ih hrest (hc.holds _) (hc.ne_zero hm hf hne) (hdep' _)
      refine ⟨_, hc.leastFrom_eq hi hdescend hok, ?_⟩
      by_cases hlow : childOf f n false = .zero
      · rw [takesHigh_of_eq hlow] at hleast ⊢
        refine hleast.cons_true (hcofactor (hc.cofactor true).denotes) ?_
        intro b a
        rw [← hcofactor (hc.cofactor false).denotes, hlow, Manager.eval_zero]
      · rw [takesHigh_of_ne hlow] at hleast ⊢
        exact hleast.cons_false (hcofactor (hc.cofactor false).denotes)

/-- **The smallest model** is found if there is one. -/
theorem least?_spec (hm : m.Ordered) {vars : List Nat} (hvars : vars.Pairwise (· < ·)) (hf : m.Denotes f F)
    (hdep : ∀ v, v ∉ vars → Ignores F v) :
    (m.least? f vars = .ok none ∧ ∀ a, F a = false) ∨
      ∃ bits, m.least? f vars = .ok (some bits) ∧ IsLeast vars F bits := by
  unfold Manager.least?
  by_cases hzero : f = .zero
  · rw [if_pos hzero]
    exact Or.inl ⟨rfl, (hf.eq_zero_iff hm).1 hzero⟩
  · rw [if_neg hzero]
    obtain ⟨bits, hok, hleast⟩ := leastFrom_spec hm hvars hf.holds hzero fun v hv => hf.ignores_iff.1 (hdep v hv)
    rw [hf.eval_eq] at hleast
    exact Or.inr ⟨bits, by rw [hok]; rfl, hleast⟩

end ReversibleLogic.Bdd
