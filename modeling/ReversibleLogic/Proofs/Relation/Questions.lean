import Mathlib.Order.Interval.Finset.Nat
import ReversibleLogic.Proofs.Bdd.Reached
import ReversibleLogic.Proofs.Bdd.Support
import ReversibleLogic.Proofs.Relation.Gates

/-!
# Questions about relations

* `yields_isPermutation` — the check for a bijection is exact;
* `yields_smallestMismatch?` — the smallest word with an image other than itself;
* `yields_image?` — the smallest image of a word;
* `yields_toPermutation` — the table of a bijection;
* `questions_spec` — the answers for every relation of a reachable manager, be it a function or not.
-/

namespace ReversibleLogic

open Bdd

namespace Relation

variable {m : Manager} {r : Relation} {n l v x y : Nat} {a b : Assignment} {F : Assignment → Bool}
  {R : Nat → Nat → Bool}

/-! ### the two halves of the variables -/

theorem lineVars_lt (hn : n ≤ maxRelationLines) : 2 * n < lastLevel := by
  have : 2 * maxRelationLines < lastLevel := by decide
  omega

theorem mem_inputVars : v ∈ r.inputVars ↔ ∃ l < r.lines, r.inputVar l = v := by simp [inputVars]

theorem mem_outputVars : v ∈ r.outputVars ↔ ∃ l < r.lines, r.outputVar l = v := by simp [outputVars]

theorem inputVars_pairwise (r : Relation) : r.inputVars.Pairwise (· < ·) := by
  refine List.pairwise_map.2 (List.pairwise_reverse.2 (List.pairwise_lt_range.imp_of_mem fun {k l} hk hl hlt => ?_))
  rw [List.mem_range] at hk hl
  unfold inputVar
  omega

theorem outputVars_pairwise (r : Relation) : r.outputVars.Pairwise (· < ·) := by
  refine List.pairwise_map.2 (List.pairwise_reverse.2 (List.pairwise_lt_range.imp_of_mem fun {k l} hk hl hlt => ?_))
  rw [List.mem_range] at hk hl
  unfold outputVar inputVar
  omega

theorem length_inputVars (r : Relation) : r.inputVars.length = r.lines := by simp [inputVars]

theorem length_outputVars (r : Relation) : r.outputVars.length = r.lines := by simp [outputVars]

theorem inputVar_ne_outputVar (r : Relation) (l k : Nat) : r.inputVar l ≠ r.outputVar k := by
  unfold outputVar inputVar
  omega

/-- pairs with the same input word differ on output variables only. -/
theorem pair_of_not_mem_outputVars (hv : v ∉ r.outputVars) (y y' : Nat) :
    pairAssignment r.lines x y v = pairAssignment r.lines x y' v := by
  by_cases hin : 1 ≤ v ∧ v ≤ 2 * r.lines
  · obtain ⟨l, hl, rfl | rfl⟩ := exists_line hin
    · rw [pairAssignment_input hl, pairAssignment_input hl]
    · exact absurd (mem_outputVars.2 ⟨l, hl, rfl⟩) hv
  · have hout : v = 0 ∨ 2 * r.lines < v := by omega
    rw [pairAssignment, pairAssignment, if_pos hout, if_pos hout]

/-- pairs with the same output word differ on input variables only. -/
theorem pair_of_not_mem_inputVars (hv : v ∉ r.inputVars) (x x' : Nat) :
    pairAssignment r.lines x y v = pairAssignment r.lines x' y v := by
  by_cases hin : 1 ≤ v ∧ v ≤ 2 * r.lines
  · obtain ⟨l, hl, rfl | rfl⟩ := exists_line hin
    · exact absurd (mem_inputVars.2 ⟨l, hl, rfl⟩) hv
    · rw [pairAssignment_output hl, pairAssignment_output hl]
  · have hout : v = 0 ∨ 2 * r.lines < v := by omega
    rw [pairAssignment, pairAssignment, if_pos hout, if_pos hout]

theorem over_someSetting (hF : Over n F) (vars : List Nat) : Over n (someSetting vars F) := by
  induction vars with
  | nil => exact hF
  | cons v vars ih =>
    intro a b hab
    have hupdate : ∀ c, Agree n (Function.update a v c) (Function.update b v c) := by
      intro c u hu
      by_cases huv : u = v
      · rw [huv, Function.update_self, Function.update_self]
      · rw [Function.update_of_ne huv, Function.update_of_ne huv, hab u hu]
    exact congrArg₂ (· || ·) (ih _ _ (hupdate false)) (ih _ _ (hupdate true))

theorem someSetting_outputVars (hF : Over r.lines F) (x y : Nat) :
    someSetting r.outputVars F (pairAssignment r.lines x y) = true ↔
      ∃ y' < 2 ^ r.lines, F (pairAssignment r.lines x y') = true := by
  rw [someSetting_eq_true]
  constructor
  · rintro ⟨b, hb, h⟩
    refine ⟨outputWord r.lines b, outputWord_lt _ _, ?_⟩
    rw [← h]
    refine hF _ _ (agree_of_lines fun l hl => ⟨?_, ?_⟩)
    · have hnot : r.inputVar l ∉ r.outputVars := fun hmem => by
        obtain ⟨k, -, hk⟩ := mem_outputVars.1 hmem
        exact inputVar_ne_outputVar r l k hk.symm
      have := hb _ hnot
      rw [pair_inputVar hl] at this
      rw [pairAssignment_input hl]
      exact this.symm
    · rw [pairAssignment_output hl, testBit_outputWord hl]
  · rintro ⟨y', -, h⟩
    exact ⟨_, fun v hv => pair_of_not_mem_outputVars hv y' y, h⟩

theorem someSetting_inputVars (hF : Over r.lines F) (x y : Nat) :
    someSetting r.inputVars F (pairAssignment r.lines x y) = true ↔
      ∃ x' < 2 ^ r.lines, F (pairAssignment r.lines x' y) = true := by
  rw [someSetting_eq_true]
  constructor
  · rintro ⟨b, hb, h⟩
    refine ⟨inputWord r.lines b, inputWord_lt _ _, ?_⟩
    rw [← h]
    refine hF _ _ (agree_of_lines fun l hl => ⟨?_, ?_⟩)
    · rw [pairAssignment_input hl, testBit_inputWord hl]
    · have hnot : r.outputVar l ∉ r.inputVars := fun hmem => by
        obtain ⟨k, hk, he⟩ := mem_inputVars.1 hmem
        exact inputVar_ne_outputVar r k l he
      have := hb _ hnot
      rw [pair_outputVar hl] at this
      rw [pairAssignment_output hl]
      exact this.symm
  · rintro ⟨x', -, h⟩
    exact ⟨_, fun v hv => pair_of_not_mem_inputVars hv x' x, h⟩

theorem ignores_someSetting_outputVars (hF : Over r.lines F) (hv : v ∉ r.inputVars) :
    Ignores (someSetting r.outputVars F) v := by
  by_cases hin : 1 ≤ v ∧ v ≤ 2 * r.lines
  · obtain ⟨l, hl, rfl | rfl⟩ := exists_line hin
    · exact absurd (mem_inputVars.2 ⟨l, hl, rfl⟩) hv
    · exact ignores_someSetting_of_mem (mem_outputVars.2 ⟨l, hl, rfl⟩)
  · exact (over_someSetting hF _).ignores hin

/-! ### bijections -/

theorem yields_isTotal (h : m.WellFormed) (hr : Represents m r R) :
    Yields m r.isTotal fun b _ => b = true ↔ ∀ x < 2 ^ r.lines, ∃ y < 2 ^ r.lines, R x y = true := by
  refine (yields_existsOver h hr.holds.denotes r.outputVars).bind fun e m' h' _ he => yields_pure h' ?_
  rw [decide_eq_true_iff, he.eq_one_iff h'.toOrdered, (over_someSetting hr.onLines _).forall_iff]
  refine forall_congr' fun x => forall_congr' ?_
  intro hx
  simp only [someSetting_outputVars hr.onLines]
  constructor
  · intro hall
    obtain ⟨y, hy, hxy⟩ := hall 0 (Nat.two_pow_pos _)
    exact ⟨y, hy, by rwa [← hr.value x hx y hy]⟩
  · rintro ⟨y, hy, hxy⟩ _ _
    exact ⟨y, hy, by rwa [hr.value x hx y hy]⟩

theorem yields_isOnto (h : m.WellFormed) (hr : Represents m r R) :
    Yields m r.isOnto fun b _ => b = true ↔ ∀ y < 2 ^ r.lines, ∃ x < 2 ^ r.lines, R x y = true := by
  refine (yields_existsOver h hr.holds.denotes r.inputVars).bind fun e m' h' _ he => yields_pure h' ?_
  rw [decide_eq_true_iff, he.eq_one_iff h'.toOrdered, (over_someSetting hr.onLines _).forall_iff]
  simp only [someSetting_inputVars hr.onLines]
  constructor
  · intro hall y hy
    obtain ⟨x, hx, hxy⟩ := hall 0 (Nat.two_pow_pos _) y hy
    exact ⟨x, hx, by rwa [← hr.value x hx y hy]⟩
  · intro hall _ _ y hy
    obtain ⟨x, hx, hxy⟩ := hall y hy
    exact ⟨x, hx, by rwa [hr.value x hx y hy]⟩

/-- **The check for a bijection is exact.** -/
theorem yields_isPermutation (h : m.WellFormed) (hr : Represents m r R) :
    Yields m r.isPermutation fun b _ => b = true ↔ Bijective r.lines R := by
  unfold isPermutation
  refine (yields_isTotal h hr).bind fun t m₁ h₁ hle₁ ht => ?_
  cases t with
  | false =>
    refine yields_pure h₁ ⟨fun h => absurd h Bool.false_ne_true, fun hb => ?_⟩
    exact absurd (ht.2 hb.total) Bool.false_ne_true
  | true =>
    have htotal := ht.1 rfl
    refine (yields_isOnto h₁ (hr.mono h.toOrdered hle₁)).bind fun o m₂ h₂ hle₂ ho => ?_
    cases o with
    | false =>
      refine yields_pure h₂ ⟨fun h => absurd h Bool.false_ne_true, fun hb => ?_⟩
      exact absurd (ho.2 hb.onto) Bool.false_ne_true
    | true =>
      have honto := ho.1 rfl
      have hr₂ := (hr.mono h.toOrdered hle₁).mono h₁.toOrdered hle₂
      have hcount := countOver_eq h₂.toOrdered hr₂.holds fun v hv => hr₂.onLines.ignores hv
      refine yields_bind_of_eq (ask_eq hcount) (yields_pure h₂ ?_)
      rw [beq_iff_eq, modelCount_eq_card hr₂.onLines hr₂.value, bijective_iff_card htotal honto]

/-! ### smallest words -/

theorem length_bitsOf (r : Relation) (w : Nat) : (r.bitsOf w).length = r.lines := by simp [bitsOf]

theorem bitsValue_bitsOf {w : Nat} (hw : w < 2 ^ r.lines) : bitsValue (r.bitsOf w) = w := by
  rw [bitsValue, bitsOf, List.reverse_reverse, Word.ofBits_toBits, Nat.mod_eq_of_lt hw]

/-- the smallest model as a word, where `P w` is an assignment whose variables hold the word `w`. -/
theorem least?_word (hm : m.Ordered) {f : Ref} {vars : List Nat} (hvars : vars.Pairwise (· < ·))
    (hlen : vars.length = r.lines) (hf : m.Denotes f F) (hdep : ∀ v, v ∉ vars → Ignores F v) {P : Nat → Assignment}
    (hP : ∀ bits : List Bool, bits.length = r.lines →
      F (setting vars bits (P (bitsValue bits))) = F (P (bitsValue bits))) :
    (m.least? f vars = .ok none ∧ ∀ a, F a = false) ∨
      ∃ bits, m.least? f vars = .ok (some bits) ∧ wordOf bits < 2 ^ r.lines ∧ F (P (wordOf bits)) = true ∧
        ∀ w < 2 ^ r.lines, F (P w) = true → wordOf bits ≤ w := by
  rcases least?_spec hm hvars hf hdep with hnone | ⟨bits, hok, hleast⟩
  · exact Or.inl hnone
  · have hlength : bits.length = r.lines := hleast.length.trans hlen
    refine Or.inr ⟨bits, hok, ?_, ?_, fun w hw hFw => ?_⟩
    · have := bitsValue_lt bits
      rwa [hlength] at this
    · exact (hP bits hlength).symm.trans (hleast.model _)
    · have hbits := hP (r.bitsOf w) (r.length_bitsOf w)
      rw [bitsValue_bitsOf hw] at hbits
      have := hleast.least (r.bitsOf w) ((r.length_bitsOf w).trans hlen.symm) (P w) (hbits.trans hFw)
      rwa [bitsValue_bitsOf hw] at this

/-- bits on the variables `g (n - 1), …, g 0` are those of their value. -/
theorem setting_lines {g : Nat → Nat} {vars : List Nat} (hvars : vars = (List.range n).reverse.map g)
    (hnodup : vars.Nodup) {bits : List Bool} (hlen : bits.length = n) (a : Assignment) (hl : l < n) :
    setting vars bits a (g l) = (bitsValue bits).testBit l := by
  have hi : n - 1 - l < vars.length := by rw [hvars]; simp; omega
  have hi' : n - 1 - l < bits.length := by omega
  have hvar : vars[n - 1 - l] = g l := by
    subst hvars
    rw [List.getElem_map, List.getElem_reverse, List.getElem_range]
    congr 1
    simp
    omega
  have hbit : (bitsValue bits).testBit l = bits[n - 1 - l] := by
    have hl' : l < bits.reverse.length := by simp; omega
    rw [bitsValue, Word.testBit_ofBits, List.getD_eq_getElem?_getD,
      List.getElem?_eq_getElem hl', Option.getD_some, List.getElem_reverse]
    congr 1
    omega
  rw [hbit, ← setting_getElem hnodup a hi hi', hvar]

theorem agree_setting_inputVars {bits : List Bool} (hlen : bits.length = r.lines) (y : Nat) :
    Agree r.lines (setting r.inputVars bits (pairAssignment r.lines (bitsValue bits) y))
      (pairAssignment r.lines (bitsValue bits) y) := by
  have hnodup : r.inputVars.Nodup := r.inputVars_pairwise.imp Nat.ne_of_lt
  refine agree_of_lines fun l hl => ⟨?_, ?_⟩
  · rw [pairAssignment_input hl]
    exact setting_lines rfl hnodup hlen _ hl
  · refine setting_of_not_mem (fun hmem => ?_) _ _
    obtain ⟨k, hk, he⟩ := mem_inputVars.1 hmem
    exact inputVar_ne_outputVar r k l he

theorem agree_setting_outputVars {bits : List Bool} (hlen : bits.length = r.lines) (x : Nat) :
    Agree r.lines (setting r.outputVars bits (pairAssignment r.lines x (bitsValue bits)))
      (pairAssignment r.lines x (bitsValue bits)) := by
  have hnodup : r.outputVars.Nodup := r.outputVars_pairwise.imp Nat.ne_of_lt
  refine agree_of_lines fun l hl => ⟨?_, ?_⟩
  · refine setting_of_not_mem (fun hmem => ?_) _ _
    obtain ⟨k, hk, he⟩ := mem_outputVars.1 hmem
    exact inputVar_ne_outputVar r l k he.symm
  · rw [pairAssignment_output hl]
    exact setting_lines rfl hnodup hlen _ hl

/-- **The smallest word with an image other than itself.** -/
theorem yields_smallestMismatch? (h : m.WellFormed) (hn : 2 * r.lines < lastLevel) (hr : Represents m r R) :
    Yields m r.smallestMismatch? fun o _ =>
      (o = none ∧ ∀ x < 2 ^ r.lines, ∀ y < 2 ^ r.lines, R x y = true → x = y) ∨
        ∃ x < 2 ^ r.lines, o = some x ∧ (∃ y < 2 ^ r.lines, R x y = true ∧ x ≠ y) ∧
          ∀ x' < 2 ^ r.lines, (∃ y < 2 ^ r.lines, R x' y = true ∧ x' ≠ y) → x ≤ x' := by
  unfold smallestMismatch?
  refine (yields_diagonal h hn).bind fun d m₁ h₁ hle₁ hd => ?_
  have hr₁ := hr.mono h.toOrdered hle₁
  refine (yields_conj h₁ hr₁.holds.denotes hd.neg).bind fun f m₂ h₂ _ hf => ?_
  have hover : Over r.lines fun a => m₁.eval a r.root && !r.equalOn a := fun a b hab => by
    have hroot : m₁.eval a r.root = m₁.eval b r.root := hr₁.onLines a b hab
    simp only [hroot, r.over_equalOn a b hab]
  have hvalue : ∀ x < 2 ^ r.lines, ∀ y < 2 ^ r.lines, (m₁.eval (pairAssignment r.lines x y) r.root &&
      !r.equalOn (pairAssignment r.lines x y)) = true ↔ R x y = true ∧ x ≠ y := fun x hx y hy => by
    rw [hr₁.value x hx y hy, equalOn_pair hx hy]
    simp
  refine (yields_existsOver h₂ hf r.outputVars).bind fun rows m₃ h₃ _ hrows => ?_
  have hpair : ∀ x < 2 ^ r.lines, (someSetting r.outputVars (fun a => m₁.eval a r.root && !r.equalOn a)
      (pairAssignment r.lines x 0) = true ↔ ∃ y < 2 ^ r.lines, R x y = true ∧ x ≠ y) := fun x hx => by
    rw [someSetting_outputVars hover]
    exact exists_congr fun y => and_congr_right fun hy => hvalue x hx y hy
  rcases least?_word h₃.toOrdered r.inputVars_pairwise r.length_inputVars hrows
    (fun v => ignores_someSetting_outputVars hover)
    (P := fun x => pairAssignment r.lines x 0) (fun bits hlen => over_someSetting hover _ _ _
      (agree_setting_inputVars hlen 0)) with ⟨hok, hnone⟩ | ⟨bits, hok, hlt, hmodel, hleast⟩
  · refine yields_bind_of_eq (ask_eq hok) (yields_pure h₃ (Or.inl ⟨rfl, fun x hx y hy hxy => ?_⟩))
    by_contra hne
    have := (hpair x hx).2 ⟨y, hy, hxy, hne⟩
    rw [hnone] at this
    cases this
  · refine yields_bind_of_eq (ask_eq hok) (yields_pure h₃ (Or.inr ⟨_, hlt, rfl, (hpair _ hlt).1 hmodel, ?_⟩))
    exact fun x' hx' hex => hleast x' hx' ((hpair x' hx').2 hex)

theorem getElem?_inputValues (r : Relation) (x v : Nat) :
    (Binding.ofEntries ((List.range r.lines).map fun line => (r.inputVar line, x.testBit line)))[v]? =
      if v ∈ r.inputVars then some (pairAssignment r.lines x 0 v) else none := by
  have hnodup : (((List.range r.lines).map fun line => (r.inputVar line, x.testBit line)).map Prod.fst).Nodup := by
    rw [List.map_map]
    have := r.inputVars_pairwise.imp Nat.ne_of_lt
    rwa [← List.Nodup, inputVars, List.map_reverse, List.nodup_reverse] at this
  split
  · next hmem =>
    obtain ⟨l, hl, rfl⟩ := mem_inputVars.1 hmem
    rw [pair_inputVar hl]
    exact Binding.getElem?_ofEntries_of_mem (List.mem_map.2 ⟨l, List.mem_range.2 hl, rfl⟩) hnodup
  · next hnot =>
    refine Binding.getElem?_ofEntries_of_not_mem fun hmem => hnot ?_
    obtain ⟨e, he, rfl⟩ := List.mem_map.1 hmem
    obtain ⟨l, hl, rfl⟩ := List.mem_map.1 he
    exact mem_inputVars.2 ⟨l, List.mem_range.1 hl, rfl⟩

/-- **The smallest image** of a word. -/
theorem yields_image? (h : m.WellFormed) (hr : Represents m r R) (hx : x < 2 ^ r.lines) :
    Yields m (r.image? x) fun o _ => (o = none ∧ ∀ y < 2 ^ r.lines, R x y = false) ∨
      ∃ y < 2 ^ r.lines, o = some y ∧ R x y = true ∧ ∀ y' < 2 ^ r.lines, R x y' = true → y ≤ y' := by
  unfold image?
  have hget := r.getElem?_inputValues x
  generalize Binding.ofEntries ((List.range r.lines).map fun line => (r.inputVar line, x.testBit line)) = values at hget
  refine (yields_restrict h hr.holds.denotes values).bind fun f m₁ h₁ _ hf => ?_
  -- the input variables hold `x`, the output variables are free
  have hinput : ∀ a l, l < r.lines → override values a (r.inputVar l) = x.testBit l := fun a l hl => by
    rw [override, hget, if_pos (mem_inputVars.2 ⟨l, hl, rfl⟩), Option.getD_some, pair_inputVar hl]
  have houtput : ∀ a l, override values a (r.outputVar l) = a (r.outputVar l) := fun a l => by
    have hnot : r.outputVar l ∉ r.inputVars := fun hmem => by
      obtain ⟨k, -, he⟩ := mem_inputVars.1 hmem
      exact inputVar_ne_outputVar r k l he
    rw [override, hget, if_neg hnot, Option.getD_none]
  have hagree : ∀ a b : Assignment, (∀ l < r.lines, a (r.outputVar l) = b (r.outputVar l)) →
      m.eval (override values a) r.root = m.eval (override values b) r.root := fun a b hab =>
    hr.onLines _ _ (agree_of_lines fun l hl => by
      refine ⟨(hinput a l hl).trans (hinput b l hl).symm, ?_⟩
      exact ((houtput a l).trans (hab l hl)).trans (houtput b l).symm)
  have hpair : ∀ y < 2 ^ r.lines, m.eval (override values (pairAssignment r.lines 0 y)) r.root = R x y := fun y hy => by
    rw [← hr.value x hx y hy]
    refine hr.onLines _ _ (agree_of_lines fun l hl => ⟨?_, ?_⟩)
    · rw [pairAssignment_input hl]
      exact hinput _ l hl
    · rw [pairAssignment_output hl]
      exact (houtput _ l).trans (pair_outputVar hl)
  have hdep : ∀ v, v ∉ r.outputVars → Ignores (fun a => m.eval (override values a) r.root) v := by
    intro v hv a c
    refine hagree _ _ fun l hl => Function.update_of_ne ?_ _ _
    rintro rfl
    exact hv (mem_outputVars.2 ⟨l, hl, rfl⟩)
  rcases least?_word h₁.toOrdered r.outputVars_pairwise r.length_outputVars hf hdep
    (P := fun y => pairAssignment r.lines 0 y) (fun bits hlen => hagree _ _ fun l hl =>
      agree_setting_outputVars hlen 0 _ (r.outputVar_bounds hl)) with ⟨hok, hnone⟩ | ⟨bits, hok, hlt, hmodel, hleast⟩
  · exact yields_bind_of_eq (ask_eq hok) (yields_pure h₁ (Or.inl ⟨rfl, fun y hy => (hpair y hy).symm.trans (hnone _)⟩))
  · refine yields_bind_of_eq (ask_eq hok) (yields_pure h₁ (Or.inr ⟨_, hlt, rfl, ?_, fun y' hy' hxy => ?_⟩))
    · exact (hpair _ hlt).symm.trans hmodel
    · exact hleast y' hy' ((hpair y' hy').trans hxy)

/-! ### graphs of tables -/

def graph (t : Array Nat) (x y : Nat) : Bool := t.getD x 0 == y

theorem graph_iff {t : Array Nat} : graph t x y = true ↔ t.getD x 0 = y := beq_iff_eq

theorem bijective_graph {t : Array Nat} (ht : Bijection n t) : Bijective n (graph t) := by
  refine ⟨fun x hx => ⟨_, ht.lt x hx, graph_iff.2 rfl⟩, fun y hy => ?_, fun x _ y _ y' _ h h' => ?_,
    fun y _ x hx x' hx' h h' => ?_⟩
  · obtain ⟨x, hx, he⟩ := ht.surj hy
    exact ⟨x, hx, graph_iff.2 he⟩
  · exact (graph_iff.1 h).symm.trans (graph_iff.1 h')
  · exact ht.inj x hx x' hx' ((graph_iff.1 h).trans (graph_iff.1 h').symm)

theorem exists_table (h : Bijective n R) :
    ∃ t, Bijection n t ∧ ∀ x < 2 ^ n, ∀ y < 2 ^ n, R x y = graph t x y := by
  have himage : ∀ x : Nat, ∃ y, x < 2 ^ n → y < 2 ^ n ∧ R x y = true := fun x => by
    by_cases hx : x < 2 ^ n
    · obtain ⟨y, hy, hxy⟩ := h.total x hx
      exact ⟨y, fun _ => ⟨hy, hxy⟩⟩
    · exact ⟨0, fun hx' => absurd hx' hx⟩
  choose f hf using himage
  refine ⟨(Array.range (2 ^ n)).map f, .of_map_range (fun x hx => (hf x hx).1) fun x hx x' hx' he => ?_,
    fun x hx y hy => ?_⟩
  · have hx'R := (hf x' hx').2
    rw [← he] at hx'R
    exact h.left_unique _ (hf x hx).1 x hx x' hx' (hf x hx).2 hx'R
  · rw [Bool.eq_iff_iff, graph_iff, getD_map_range f hx]
    constructor
    · exact fun hxy => h.right_unique x hx _ (hf x hx).1 y hy (hf x hx).2 hxy
    · rintro rfl
      exact (hf x hx).2

theorem yields_image?_graph (h : m.WellFormed) {t : Array Nat} (ht : Bijection r.lines t)
    (hr : Represents m r (graph t)) (hx : x < 2 ^ r.lines) :
    Yields m (r.image? x) fun o _ => o = some (t.getD x 0) := by
  refine (yields_image? h hr hx).imp fun o _ _ _ ho => ?_
  rcases ho with ⟨-, hnone⟩ | ⟨y, -, ho, hxy, -⟩
  · have := hnone _ (ht.lt x hx)
    rw [graph_iff.2 rfl] at this
    cases this
  · rw [ho, graph_iff.1 hxy]

/-- **The table of a relation** that is the graph of a bijection. -/
theorem yields_toPermutation (h : m.WellFormed) (hlines : r.lines ≤ maxTableLines) {t : Array Nat}
    (ht : Bijection r.lines t) (hr : Represents m r (graph t)) :
    Yields m r.toPermutation fun p _ => p = ⟨r.lines, t⟩ := by
  unfold toPermutation
  rw [if_neg (by omega)]
  refine Yields.bind (Q := fun table _ => table = t.toList) ?_ fun table m₁ h₁ hle₁ htable => ?_
  · refine (yields_mapM h (P := fun x y _ => y = t.getD x 0) (fun _ _ _ _ _ _ hy => hy) fun x hx m' h' hle' => ?_).imp
      fun table _ _ _ htable => ?_
    · refine (yields_image?_graph h' ht (hr.mono h.toOrdered hle') (List.mem_range.1 hx)).bind
        fun o m₂ h₂ _ ho => ?_
      subst ho
      exact yields_pure h₂ rfl
    · have hlen : 2 ^ r.lines = table.length := by simpa using htable.length_eq
      refine List.ext_getElem (by rw [← hlen, Array.length_toList, ht.size]) ?_
      intro i hi hi'
      have he := (List.forall₂_iff_get.1 htable).2 i (by simpa [hlen] using hi) hi
      have hi' : i < t.size := by simpa using hi'
      simpa [Array.getD_eq_getD_getElem?, hi'] using he
  · have hok : Permutation.ofTable r.lines table.toArray = .ok ⟨r.lines, t⟩ := by
      rw [htable, Array.toArray_toList]
      exact Permutation.ofTable_eq_ok.2 ⟨rfl, hlines, ht⟩
    exact ⟨_, m₁, ask_eq hok, h₁, m₁.le_refl, rfl⟩

/-! ### answers in a reachable manager -/

/-- the answer is the least number with the property, and there is none only if no number has it. -/
def LeastWith (P : Nat → Prop) : Option Nat → Prop
  | some x => P x ∧ ∀ x', P x' → x ≤ x'
  | none => ∀ x, ¬ P x

def Relates (m : Manager) (r : Relation) (x y : Nat) : Prop := m.eval (pairAssignment r.lines x y) r.root = true

theorem bijective_iff_existsUnique :
    Bijective n R ↔ (∀ x < 2 ^ n, ∃! y, y < 2 ^ n ∧ R x y = true) ∧ ∀ y < 2 ^ n, ∃! x, x < 2 ^ n ∧ R x y = true := by
  constructor
  · intro h
    refine ⟨fun x hx => ?_, fun y hy => ?_⟩
    · obtain ⟨y, hy, hxy⟩ := h.total x hx
      exact ⟨y, ⟨hy, hxy⟩, fun y' ⟨hy', hxy'⟩ => h.right_unique x hx y' hy' y hy hxy' hxy⟩
    · obtain ⟨x, hx, hxy⟩ := h.onto y hy
      exact ⟨x, ⟨hx, hxy⟩, fun x' ⟨hx', hxy'⟩ => h.left_unique y hy x' hx' x hx hxy' hxy⟩
  · rintro ⟨himages, hpreimages⟩
    refine ⟨fun x hx => (himages x hx).exists, fun y hy => (hpreimages y hy).exists, ?_, ?_⟩
    · exact fun x hx y hy y' hy' h h' => (himages x hx).unique ⟨hy, h⟩ ⟨hy', h'⟩
    · exact fun y hy x hx x' hx' h h' => (hpreimages y hy).unique ⟨hx, h⟩ ⟨hx', h'⟩

/-- **Questions about any relation.** In a reachable manager, for a relation over the variables of at most 63 lines,
total or partial, with one image or many: the check for a bijection holds exactly if every word has one image and one
preimage; the smallest mismatch is the least word with an image other than itself; and the image of a word is its least
one. -/
theorem questions_spec (h : Reached m) (hn : r.lines ≤ maxRelationLines) (hroot : m.Holds r.root)
    (hvars : Avoids m r.root (· ∉ Finset.Icc 1 (2 * r.lines))) :
    (Yields m r.isPermutation fun b _ => b = true ↔
      (∀ x < 2 ^ r.lines, ∃! y, y < 2 ^ r.lines ∧ Relates m r x y) ∧
        ∀ y < 2 ^ r.lines, ∃! x, x < 2 ^ r.lines ∧ Relates m r x y) ∧
      (Yields m r.smallestMismatch? fun o _ =>
        LeastWith (fun x => x < 2 ^ r.lines ∧ ∃ y < 2 ^ r.lines, y ≠ x ∧ Relates m r x y) o) ∧
      ∀ x < 2 ^ r.lines, Yields m (r.image? x) fun o _ =>
        LeastWith (fun y => y < 2 ^ r.lines ∧ Relates m r x y) o := by
  have hm := wellFormed_of_reached h
  have hover : Over r.lines (m.eval · r.root) := over_eval h.ordered hroot fun v hv =>
    hvars.ignores h.ordered hroot (mt Finset.mem_Icc.1 hv)
  have hr : Represents m r fun x y => m.eval (pairAssignment r.lines x y) r.root := ⟨hroot, hover, fun _ _ _ _ => rfl⟩
  refine ⟨?_, ?_, fun x hx => ?_⟩
  · exact (yields_isPermutation hm hr).imp fun b _ _ _ hb => hb.trans bijective_iff_existsUnique
  · refine (yields_smallestMismatch? hm (lineVars_lt hn) hr).imp fun o _ _ _ ho => ?_
    rcases ho with ⟨rfl, hnone⟩ | ⟨x, hx, rfl, ⟨y, hy, hxy, hne⟩, hleast⟩
    · rintro x ⟨hx, y, hy, hne, hxy⟩
      exact hne (hnone x hx y hy hxy).symm
    · refine ⟨⟨hx, y, hy, hne.symm, hxy⟩, ?_⟩
      rintro x' ⟨hx', y', hy', hne', hxy'⟩
      exact hleast x' hx' ⟨y', hy', hxy', hne'.symm⟩
  · refine (yields_image? hm hr hx).imp fun o _ _ _ ho => ?_
    rcases ho with ⟨rfl, hnone⟩ | ⟨y, hy, rfl, hxy, hleast⟩
    · rintro y ⟨hy, hxy⟩
      exact Bool.false_ne_true ((hnone y hy).symm.trans hxy)
    · exact ⟨⟨hy, hxy⟩, fun y' ⟨hy', hxy'⟩ => hleast y' hy' hxy'⟩

theorem questions_spec_difference :
    ∃ m root, Reached m ∧ m.Denotes root (fun a => a 1 != a 2) ∧
      Yields m (Relation.isPermutation ⟨1, root⟩) (fun b _ => b = true) ∧
      Yields m (smallestMismatch? ⟨1, root⟩) (fun o _ => o = some 0) ∧
      Yields m (image? ⟨1, root⟩ 0) fun o _ => o = some 1 := by
  obtain ⟨m, root, hm, hroot⟩ := exists_reached_difference
  have hvars : Avoids m root (· ∉ Finset.Icc 1 (2 * 1)) := avoids_difference hm.ordered hroot fun v hv => by
    rw [Finset.mem_Icc] at hv
    omega
  -- the relation of different words on one line
  have hpairs : ∀ x < 2, ∀ y < 2, (pairAssignment 1 x y 1 != pairAssignment 1 x y 2) = true ↔ x ≠ y := by decide
  have hother : ∀ x < 2, ∃ y < 2, x ≠ y ∧ ∀ y' < 2, x ≠ y' → y' = y := by decide
  have hrelates : ∀ x < 2, ∀ y < 2, Relates m ⟨1, root⟩ x y ↔ x ≠ y := fun x hx y hy => by
    rw [Relates, hroot.eval]
    exact hpairs x hx y hy
  have hlines : 1 ≤ maxRelationLines := by decide
  have hfirst : 0 < 2 ^ 1 := by decide
  have hone : 1 < 2 ^ 1 ∧ Relates m ⟨1, root⟩ 0 1 := ⟨by decide, (hrelates 0 (by decide) 1 (by decide)).2 (by decide)⟩
  have hzero : 0 < 2 ^ 1 ∧ ∃ y < 2 ^ 1, y ≠ 0 ∧ Relates m ⟨1, root⟩ 0 y := ⟨hfirst, 1, hone.1, by decide, hone.2⟩
  obtain ⟨hperm, hmismatch, himage⟩ := questions_spec (r := ⟨1, root⟩) hm hlines hroot.holds hvars
  refine ⟨m, root, hm, hroot, hperm.imp fun b _ _ _ hb => hb.2 ⟨fun x hx => ?_, fun y hy => ?_⟩,
    hmismatch.imp fun o _ _ _ ho => ?_, (himage 0 hfirst).imp fun o _ _ _ ho => ?_⟩
  · obtain ⟨y, hy, hne, hunique⟩ := hother x hx
    exact ⟨y, ⟨hy, (hrelates x hx y hy).2 hne⟩, fun y' ⟨hy', h⟩ => hunique y' hy' ((hrelates x hx y' hy').1 h)⟩
  · obtain ⟨x, hx, hne, hunique⟩ := hother y hy
    exact ⟨x, ⟨hx, (hrelates x hx y hy).2 hne.symm⟩, fun x' ⟨hx', h⟩ =>
      hunique x' hx' ((hrelates x' hx' y hy).1 h).symm⟩
  · cases o with
    | none => exact absurd hzero (ho 0)
    | some x => rw [Nat.le_zero.1 (ho.2 0 hzero)]
  · cases o with
    | none => exact absurd hone (ho 1)
    | some y =>
      obtain ⟨⟨hy, hxy⟩, -⟩ := ho
      have hne := (hrelates 0 (by decide) y hy).1 hxy
      have hy : y < 2 := hy
      rw [show y = 1 by omega]

end Relation

end ReversibleLogic
