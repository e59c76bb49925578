import ReversibleLogic.Circuit
import ReversibleLogic.Proofs.Gate.Normal

/-!
# The action of gates and cascades

* `testBit_act` — the bits of a word after an active gate;
* `apply_apply` — a gate in normal form is its own inverse, so a cascade is undone by the reversed one
  (`applyAll_reverse`);
* `apply_lt` — a gate within `n` lines maps words below `2 ^ n` to such words.
-/

namespace ReversibleLogic.Gate

/-! ### one gate -/

def allSatisfied (cs : List Control) (w : Nat) : Bool := cs.all (·.isSatisfied w)

theorem allSatisfied_iff {cs : List Control} {w : Nat} :
    allSatisfied cs w = true ↔ ∀ c ∈ cs, c.isSatisfied w = true := List.all_eq_true

theorem allSatisfied_sortControls (cs : List Control) (w : Nat) :
    allSatisfied (sortControls cs) w = allSatisfied cs w := (sortControls_perm cs).all_eq

theorem allSatisfied_congr {cs : List Control} {v w : Nat} (h : ∀ c ∈ cs, v.testBit c.line = w.testBit c.line) :
    allSatisfied cs v = allSatisfied cs w := by
  rw [Bool.eq_iff_iff, allSatisfied_iff, allSatisfied_iff]
  exact forall_congr' fun c => forall_congr' fun hc => by rw [Control.isSatisfied, Control.isSatisfied, h c hc]

theorem testBit_act_toffoli (cs : List Control) (t w i : Nat) :
    ((toffoli cs t).act w).testBit i = (w.testBit i ^^ decide (t = i)) := by
  simp [act]

theorem testBit_act_fredkin (cs : List Control) (a b w i : Nat) :
    ((fredkin cs a b).act w).testBit i =
      if i = a then w.testBit b else if i = b then w.testBit a else w.testBit i := by
  simp only [act, beq_iff_eq]
  split
  · next h =>
    by_cases ha : i = a
    · rw [if_pos ha, ha, h]
    · by_cases hb : i = b
      · rw [if_neg ha, if_pos hb, hb, h]
      · rw [if_neg ha, if_neg hb]
  · next h =>
    have hab : a ≠ b := fun e => h (by rw [e])
    rw [Word.testBit_flip, Word.testBit_flip]
    by_cases ha : i = a
    · subst ha
      have hb : b ≠ i := Ne.symm hab
      cases hi : w.testBit i <;> cases hj : w.testBit b <;> simp_all
    · by_cases hb : i = b
      · subst hb
        cases hi : w.testBit i <;> cases hj : w.testBit a <;> simp_all
      · simp [ha, hb, Ne.symm ha, Ne.symm hb]

theorem act_act (g : Gate) (w : Nat) : g.act (g.act w) = w := by
  apply Nat.eq_of_testBit_eq
  intro i
  cases g with
  | toffoli cs t => simp [testBit_act_toffoli]
  | fredkin cs a b =>
    simp only [testBit_act_fredkin]
    split
    · next ha =>
      subst ha
      split
      · next hb => rw [hb]
      · simp
    · split
      · next hb => simp [hb]
      · rfl

theorem act_eq_of_sameKind {g k : Gate} (hkind : g.isToffoli = k.isToffoli) (htargets : g.targets = k.targets)
    (w : Nat) :
    g.act w = k.act w := by
  cases g <;> cases k <;> simp_all [isToffoli, targets, act]

theorem apply_of_isActive {g : Gate} {w : Nat} (h : g.isActive w = true) : g.apply w = g.act w := by
  rw [apply, if_pos h]

theorem apply_of_not_isActive {g : Gate} {w : Nat} (h : g.isActive w = false) : g.apply w = w := by
  rw [apply, h]
  rfl

theorem testBit_apply_toffoli (cs : List Control) (t w i : Nat) :
    ((toffoli cs t).apply w).testBit i = (w.testBit i ^^ (decide (t = i) && allSatisfied cs w)) := by
  have ha : (toffoli cs t).isActive w = allSatisfied cs w := rfl
  cases h : allSatisfied cs w <;> rw [h] at ha
  · rw [apply_of_not_isActive ha, Bool.and_false, Bool.xor_false]
  · rw [apply_of_isActive ha, testBit_act_toffoli, Bool.and_true]

theorem testBit_apply_fredkin (cs : List Control) (a b w i : Nat) :
    ((fredkin cs a b).apply w).testBit i =
      if allSatisfied cs w then (if i = a then w.testBit b else if i = b then w.testBit a else w.testBit i)
      else w.testBit i := by
  have ha : (fredkin cs a b).isActive w = allSatisfied cs w := rfl
  cases h : allSatisfied cs w <;> rw [h] at ha
  · rw [apply_of_not_isActive ha, if_neg Bool.false_ne_true]
  · rw [apply_of_isActive ha, testBit_act_fredkin, if_pos rfl]

theorem Normal.isActive_apply {g : Gate} (h : g.Normal) (w : Nat) : g.isActive (g.apply w) = g.isActive w :=
  Gate.isActive_apply h.off_targets w

/-- **A gate in normal form is its own inverse.** -/
theorem apply_apply {g : Gate} (h : g.Normal) (w : Nat) : g.apply (g.apply w) = w := by
  cases ha : g.isActive w with
  | false => rw [apply_of_not_isActive ha, apply_of_not_isActive ha]
  | true =>
    have ha' : g.isActive (g.act w) = true := by rw [← apply_of_isActive ha, h.isActive_apply, ha]
    rw [apply_of_isActive ha, apply_of_isActive ha', act_act]

theorem apply_lt {g : Gate} {n w : Nat} (h : g.Within n) (hw : w < 2 ^ n) : g.apply w < 2 ^ n := by
  apply Nat.lt_pow_two_of_testBit
  intro i hi
  have ht : i ∉ g.targets := fun hmem => by have := h.2 i hmem; omega
  rw [testBit_apply ht]
  exact Nat.testBit_lt_two_pow (Nat.lt_of_lt_of_le hw (Nat.pow_le_pow_right (by decide) hi))

/-! ### cascades -/

def applyAll (gs : List Gate) (w : Nat) : Nat := gs.foldl (fun w g => g.apply w) w

@[simp] theorem applyAll_nil (w : Nat) : applyAll [] w = w := rfl

@[simp] theorem applyAll_cons (g : Gate) (gs : List Gate) (w : Nat) :
    applyAll (g :: gs) w = applyAll gs (g.apply w) := rfl

@[simp] theorem applyAll_append (gs hs : List Gate) (w : Nat) :
    applyAll (gs ++ hs) w = applyAll hs (applyAll gs w) := List.foldl_append

theorem simulate_eq_applyAll (c : Circuit) (w : Nat) : c.simulate w = applyAll c.gates w := rfl

theorem applyAll_reverse {gs : List Gate} (h : ∀ g ∈ gs, g.Normal) (w : Nat) :
    applyAll gs.reverse (applyAll gs w) = w := by
  induction gs generalizing w with
  | nil => rfl
  | cons g gs ih =>
    have ih := ih (fun g hg => h g (List.mem_cons_of_mem _ hg)) (g.apply w)
    rw [List.reverse_cons, applyAll_append, applyAll_cons g gs, ih]
    exact apply_apply (h g List.mem_cons_self) w

theorem applyAll_lt {gs : List Gate} {n w : Nat} (h : ∀ g ∈ gs, g.Within n) (hw : w < 2 ^ n) :
    applyAll gs w < 2 ^ n := by
  induction gs generalizing w with
  | nil => exact hw
  | cons g gs ih =>
    exact ih (fun g hg => h g (List.mem_cons_of_mem _ hg)) (apply_lt (h g List.mem_cons_self) hw)

/-- two cascades that compute the same function have the same inverse. -/
theorem applyAll_reverse_congr {gs hs : List Gate} (hg : ∀ g ∈ gs, g.Normal) (hh : ∀ g ∈ hs, g.Normal)
    (h : ∀ w, applyAll gs w = applyAll hs w) (w : Nat) : applyAll gs.reverse w = applyAll hs.reverse w := by
  have hw : w = applyAll hs (applyAll hs.reverse w) := by
    have := @applyAll_reverse hs.reverse (fun g hmem => hh g (List.mem_reverse.1 hmem)) w
    rw [List.reverse_reverse] at this
    exact this.symm
  calc applyAll gs.reverse w
      = applyAll gs.reverse (applyAll gs (applyAll hs.reverse w)) := by rw [h, ← hw]
    _ = applyAll hs.reverse w := applyAll_reverse hg _

end ReversibleLogic.Gate
