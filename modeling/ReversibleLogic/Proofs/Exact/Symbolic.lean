import ReversibleLogic.Proofs.Bdd.Functions
import ReversibleLogic.Proofs.Bdd.ModelLists
import ReversibleLogic.Proofs.Exact.Descriptors

/-!
# Gates of all descriptors at once

* `Layout.blockAt k a`, `Layout.gatesAt depth a` — the values of a block, and the cascade of several ones, under an
  assignment;
* `yields_performGate` — the line functions after the gate that the descriptors of a block describe;
* `yields_wellFormed` — the descriptors of a block that describe a usable gate.
-/

namespace ReversibleLogic.Exact.Layout

open Gate
open Bdd (Manager Ref Assignment Yields Expresses DenotesWord yields_pure)

variable {l : Layout} {m : Manager} {k i : Nat} {W : Assignment → Nat} {P : Assignment → Prop} {a : Assignment}

/-! ### the variables of a block -/

def blockAt (l : Layout) (k : Nat) (a : Assignment) : List Bool :=
  (List.range l.blockSize).map fun j => a (l.block k + j)

/-- the variables of block `k` can be used in cubes. -/
def Fits (l : Layout) (k : Nat) : Prop := l.block k + l.blockSize ≤ 2 ^ 31

theorem length_blockAt (l : Layout) (k : Nat) (a : Assignment) : (l.blockAt k a).length = l.blockSize := by
  simp [blockAt]

theorem getD_blockAt {j : Nat} (hj : j < l.blockSize) : (l.blockAt k a).getD j false = a (l.block k + j) := by
  simp [blockAt, hj]

def targetVars (l : Layout) (k : Nat) : List Nat := (List.range l.targetBits).map (l.block k + l.controlBits + ·)

theorem targetOf_blockAt (l : Layout) (k : Nat) (a : Assignment) :
    l.targetOf (l.blockAt k a) = Bdd.wordAt (l.targetVars k) a := by
  have hdrop : (l.blockAt k a).drop l.controlBits = (l.targetVars k).map a := by
    unfold blockAt targetVars blockSize
    rw [List.range_add, List.map_append, List.drop_left' (by simp), List.map_map, List.map_map]
    refine List.map_congr_left fun j _ => ?_
    show a (l.block k + (l.controlBits + j)) = a (l.block k + l.controlBits + j)
    rw [Nat.add_assoc]
  rw [targetOf, hdrop, Bdd.wordAt]

/-- the variables of a block are neither 0 nor too large. -/
theorem Fits.var_bounds (h : l.Fits k) {j : Nat} (hj : j < l.blockSize) :
    0 < l.block k + j ∧ l.block k + j < 2 ^ 31 := by
  have hblock : 0 < l.block k := Nat.succ_pos _
  unfold Fits at h
  omega

theorem Fits.yields_var (hfits : l.Fits k) (h : m.WellFormed) {j : Nat} (hj : j < l.blockSize) :
    Yields m (Bdd.var (l.block k + j)) fun r m' => Expresses m' r fun a => (l.blockAt k a).getD j false = true := by
  obtain ⟨hpos, hlt⟩ := hfits.var_bounds hj
  exact (Expresses.var h hpos (hlt.trans (by decide))).imp fun r m' _ _ hr => hr.congr fun a => by rw [getD_blockAt hj]

theorem yields_positive (h : m.WellFormed) (hfits : l.Fits k) (hi : i < l.lines) :
    Yields m (Bdd.var (l.positive k i)) fun r m' =>
      Expresses m' r fun a => l.selects (l.blockAt k a) ⟨i, true⟩ = true :=
  hfits.yields_var h (by unfold blockSize controlBits; split <;> omega)

theorem yields_negated (h : m.WellFormed) (hfits : l.Fits k) (hi : i < l.lines) (hnegative : l.negative = true) :
    Yields m (Bdd.var (l.negated k i)) fun r m' =>
      Expresses m' r fun a => l.selects (l.blockAt k a) ⟨i, false⟩ = true :=
  (hfits.yields_var h (by unfold blockSize controlBits; rw [if_pos hnegative]; omega)).imp fun r m' _ _ hr =>
    hr.congr fun a => by rw [selects, hnegative, Bool.true_and]

theorem yields_isTarget (h : m.WellFormed) (hfits : l.Fits k) (hi : i < l.lines) :
    Yields m (l.isTarget k i) fun r m' => Expresses m' r fun a => l.targetOf (l.blockAt k a) = i := by
  have hlen : (l.targetVars k).length = l.targetBits := by simp [targetVars]
  have hvars : ∀ v ∈ l.targetVars k, 0 < v ∧ v < 2 ^ 31 := by
    intro v hv
    obtain ⟨j, hj, rfl⟩ := List.mem_map.1 hv
    have hj' : l.controlBits + j < l.blockSize := Nat.add_lt_add_left (List.mem_range.1 hj) _
    rw [Nat.add_assoc]
    exact hfits.var_bounds hj'
  have hnodup : (l.targetVars k).Nodup := List.nodup_range.map fun i j hij => Nat.add_left_cancel hij
  refine (Bdd.yields_cubeOfBits h (by simp [targetVars]) hvars hnodup).imp fun r m' _ _ hr => hr.expresses fun a => ?_
  have hi' : i < 2 ^ (l.targetVars k).length := by rw [hlen]; exact Word.lt_two_pow_bitsFor hi
  rw [decide_eq_true_iff, ← hlen, Bdd.map_eq_toBits hi', targetOf_blockAt]

/-! ### the variables of several blocks -/

theorem mem_inputs {v : Nat} : v ∈ l.inputs ↔ 0 < v ∧ v < l.block 0 := by
  have hblock : l.block 0 = l.lines + 1 := by simp [block]
  rw [inputs, hblock, List.mem_map]
  simp only [List.mem_range]
  exact ⟨fun ⟨i, hi, he⟩ => by omega, fun h => ⟨v - 1, by omega, by omega⟩⟩

theorem mem_descriptors {v depth : Nat} : v ∈ l.descriptors depth ↔ l.block 0 ≤ v ∧ v < l.block depth := by
  have hblock : l.block depth = l.block 0 + depth * l.blockSize := by unfold block; omega
  rw [descriptors, hblock, List.mem_map]
  simp only [List.mem_range]
  exact ⟨fun ⟨i, hi, he⟩ => by omega, fun h => ⟨v - l.block 0, by omega, by omega⟩⟩

theorem inputs_nodup (l : Layout) : l.inputs.Nodup := List.nodup_range.map fun _ _ h => Nat.succ.inj h

theorem descriptors_pairwise (l : Layout) (depth : Nat) : (l.descriptors depth).Pairwise (· < ·) :=
  List.pairwise_map.2 (List.pairwise_lt_range.imp fun h => Nat.add_lt_add_left h _)

theorem length_inputs (l : Layout) : l.inputs.length = l.lines := by simp [inputs]

theorem length_descriptors (l : Layout) (depth : Nat) : (l.descriptors depth).length = depth * l.blockSize := by
  simp [descriptors]

/-- the cascade that the first blocks describe. -/
def gatesAt (l : Layout) (depth : Nat) (a : Assignment) : List Gate := l.gatesOf depth ((l.descriptors depth).map a)

theorem length_gatesAt (l : Layout) (depth : Nat) (a : Assignment) : (l.gatesAt depth a).length = depth :=
  length_gatesOf depth _

theorem gatesAt_congr {depth : Nat} {b : Assignment} (h : ∀ v ∈ l.descriptors depth, a v = b v) :
    l.gatesAt depth a = l.gatesAt depth b := by
  rw [gatesAt, List.map_congr_left h, gatesAt]

theorem gatesAt_succ (l : Layout) (depth : Nat) (a : Assignment) :
    l.gatesAt (depth + 1) a = l.gatesAt depth a ++ [l.gateOf (l.blockAt depth a)] := by
  have hvalues : (l.descriptors (depth + 1)).map a = (l.descriptors depth).map a ++ l.blockAt depth a := by
    unfold descriptors blockAt
    rw [Nat.succ_mul, List.range_add, List.map_append, List.map_append]
    simp only [List.map_map]
    congr 1
    refine List.map_congr_left fun j _ => congrArg a ?_
    show l.block 0 + (depth * l.blockSize + j) = l.block depth + j
    unfold block
    omega
  rw [gatesAt, hvalues, gatesOf_append (by rw [List.length_map, length_descriptors]) (length_blockAt l depth a)]
  rfl

theorem gatesAt_setting {depth : Nat} {bits : List Bool} (h : bits.length = depth * l.blockSize) (a : Assignment) :
    l.gatesAt depth (Bdd.setting (l.descriptors depth) bits a) = l.gatesOf depth bits := by
  rw [gatesAt, Bdd.map_setting ((l.descriptors_pairwise depth).imp Nat.ne_of_lt)]
  rw [h, length_descriptors]

/-! ### one gate -/

theorem allSatisfied_controlsAt {bits : List Bool} {w : Nat} :
    allSatisfied (l.controlsAt bits i) w = true ↔
      (l.selects bits ⟨i, true⟩ = true → w.testBit i = true) ∧
        (l.selects bits ⟨i, false⟩ = true → ¬ w.testBit i = true) := by
  rw [allSatisfied_iff]
  simp only [mem_controlsAt]
  constructor
  · intro h
    refine ⟨fun hp => ?_, fun hn => ?_⟩
    · simpa [Control.isSatisfied] using h ⟨i, true⟩ ⟨rfl, hp⟩
    · simpa [Control.isSatisfied] using h ⟨i, false⟩ ⟨rfl, hn⟩
  · rintro ⟨hp, hn⟩ ⟨j, positive⟩ ⟨rfl, hs⟩
    cases positive with
    | true => simpa [Control.isSatisfied] using hp hs
    | false => simpa [Control.isSatisfied] using hn hs

/-- **Step lemma.** One line joins the condition on the controls. -/
theorem yields_satisfyControls (h : m.WellFormed) (hfits : l.Fits k) (hi : i < l.lines) {active x : Ref}
    (hactive : Expresses m active P) (hx : m.Denotes x fun a => (W a).testBit i) :
    Yields m (l.satisfyControls k active (x, i)) fun r m' =>
      Expresses m' r fun a => P a ∧ allSatisfied (l.controlsAt (l.blockAt k a) i) (W a) = true := by
  have hx : Expresses m x fun a => (W a).testBit i = true := hx.expresses fun _ => Iff.rfl
  simp only [allSatisfied_controlsAt]
  unfold satisfyControls
  refine (yields_positive h hfits hi).bind fun p m₁ h₁ hle₁ hp => ?_
  have hx₁ := hx.mono h.toOrdered hle₁
  refine (Expresses.imply h₁ hp hx₁).bind fun asks m₂ h₂ hle₂ hasks => ?_
  refine (Expresses.conj h₂ (hactive.mono h.toOrdered (Manager.le_trans hle₁ hle₂)) hasks).bind
    fun active m₃ h₃ hle₃ hactive => ?_
  split
  · next hnegative =>
    have hx₃ := (hx₁.mono h₁.toOrdered (Manager.le_trans hle₂ hle₃)).neg
    refine (yields_negated h₃ hfits hi hnegative).bind fun q m₄ h₄ hle₄ hq => ?_
    refine (Expresses.imply h₄ hq (hx₃.mono h₃.toOrdered hle₄)).bind fun forbids m₅ h₅ hle₅ hforbids => ?_
    refine (Expresses.conj h₅ (hactive.mono h₃.toOrdered (Manager.le_trans hle₄ hle₅)) hforbids).imp
      fun r m' _ _ hr => hr.congr fun a => and_assoc
  · next hnegative =>
    rw [Bool.not_eq_true] at hnegative
    refine yields_pure h₃ (hactive.congr fun a => ?_)
    simp [selects, hnegative]

theorem yields_active (h : m.WellFormed) (hfits : l.Fits k) {lines : List Ref}
    (hlines : DenotesWord m l.lines lines W) :
    Yields m (lines.zipIdx.foldlM (l.satisfyControls k) Ref.one) fun r m' =>
      Expresses m' r fun a => allSatisfied (l.controlsOf (l.blockAt k a)) (W a) = true := by
  refine (Bdd.yields_foldlM h (I := fun i r m' =>
    Expresses m' r fun a => ∀ j < i, allSatisfied (l.controlsAt (l.blockAt k a) j) (W a) = true) ?_
    fun i line hline active m' h' hle' hactive => ?_).imp fun r m' _ _ hr => hr.congr fun a => ?_
  · exact h.denotes_one.expresses fun a => by simp
  · obtain ⟨x, hx, rfl⟩ := Option.map_eq_some_iff.1 ((List.getElem?_zipIdx ..).symm.trans hline)
    have hi : i < l.lines := hlines.length ▸ (List.getElem?_eq_some_iff.1 hx).1
    rw [Nat.zero_add]
    refine (yields_satisfyControls h' hfits hi hactive ((hlines.bit i x hx).mono h.toOrdered hle')).imp
      fun r _ _ _ hr => hr.congr fun a => ?_
    exact Nat.forall_lt_succ_right.symm
  · rw [List.length_zipIdx, hlines.length, controlsOf, allSatisfied, List.all_flatMap, List.all_eq_true]
    simp [allSatisfied]

/-- **The gate of a block** on the words of the lines. -/
theorem yields_performGate (h : m.WellFormed) (hfits : l.Fits k) {lines : List Ref}
    (hlines : DenotesWord m l.lines lines W) :
    Yields m (l.performGate k lines) fun lines' m' =>
      DenotesWord m' l.lines lines' fun a => (l.gateOf (l.blockAt k a)).apply (W a) := by
  unfold performGate
  refine (yields_active h hfits hlines).bind fun active m₁ h₁ hle₁ hactive => ?_
  refine (hlines.mono h.toOrdered hle₁).yields_mapM h₁ fun i hi x m' h' hle' hx => ?_
  refine (yields_isTarget h' hfits hi).bind fun target m₂ h₂ hle₂ htarget => ?_
  refine (Expresses.conj h₂ (hactive.mono h₁.toOrdered (Manager.le_trans hle' hle₂)) htarget).bind
    fun flips m₃ h₃ hle₃ hflips => ?_
  refine (Bdd.yields_xor h₃ (hx.mono h'.toOrdered (Manager.le_trans hle₂ hle₃)) hflips.holds.denotes).imp
    fun r m' _ _ hr => hr.congr fun a => ?_
  have hbit := testBit_apply_toffoli (l.controlsOf (l.blockAt k a)) (l.targetOf (l.blockAt k a)) (W a) i
  have hflip : m₃.eval a flips =
      (decide (l.targetOf (l.blockAt k a) = i) && allSatisfied (l.controlsOf (l.blockAt k a)) (W a)) := by
    rw [Bool.eq_iff_iff, hflips.eval_iff, Bool.and_eq_true, decide_eq_true_iff, and_comm]
  rw [hflip]
  exact hbit.symm

/-! ### well-formed blocks -/

/-- **Step lemma.** One line joins the constraint on the block. -/
theorem yields_constrainLine (h : m.WellFormed) (hfits : l.Fits k) (hi : i < l.lines) {acc : Ref × Ref}
    (hacc : Expresses m acc.1 (fun a => l.targetOf (l.blockAt k a) < i) ∧
      Expresses m acc.2 fun a => ∀ j < i, l.Consistent (l.blockAt k a) j) :
    Yields m (l.constrainLine k acc i) fun r m' =>
      Expresses m' r.1 (fun a => l.targetOf (l.blockAt k a) < i + 1) ∧
        Expresses m' r.2 fun a => ∀ j < i + 1, l.Consistent (l.blockAt k a) j := by
  obtain ⟨targets, constraint⟩ := acc
  obtain ⟨htargets, hconstraint⟩ := hacc
  unfold constrainLine
  refine (yields_isTarget h hfits hi).bind fun target m₁ h₁ hle₁ htarget => ?_
  refine (Expresses.disj h₁ (htargets.mono h.toOrdered hle₁) htarget).bind fun targets m₂ h₂ hle₂ htargets => ?_
  refine (yields_positive h₂ hfits hi).bind fun p m₃ h₃ hle₃ hp => ?_
  have hconstraint := hconstraint.mono h.toOrdered (Manager.le_trans hle₁ (Manager.le_trans hle₂ hle₃))
  -- what is done with the two conditions that depend on the polarities
  have hfinish : ∀ uncontrolled constraint m₄, m₄.WellFormed → m₃ ≤ m₄ →
      Expresses m₄ uncontrolled (fun a => ¬ l.selects (l.blockAt k a) ⟨i, true⟩ = true ∧
        ¬ l.selects (l.blockAt k a) ⟨i, false⟩ = true) →
      Expresses m₄ constraint (fun a => (∀ j < i, l.Consistent (l.blockAt k a) j) ∧
        ¬ (l.selects (l.blockAt k a) ⟨i, true⟩ = true ∧ l.selects (l.blockAt k a) ⟨i, false⟩ = true)) →
      Yields m₄ (do
          let free ← Bdd.imply target uncontrolled
          return (targets, ← Bdd.conj constraint free)) fun r m' =>
        Expresses m' r.1 (fun a => l.targetOf (l.blockAt k a) < i + 1) ∧
          Expresses m' r.2 fun a => ∀ j < i + 1, l.Consistent (l.blockAt k a) j := by
    intro uncontrolled constraint m₄ h₄ hle₄ huncontrolled hconstraint
    have hle₁₄ := Manager.le_trans hle₂ (Manager.le_trans hle₃ hle₄)
    refine (Expresses.imply h₄ (htarget.mono h₁.toOrdered hle₁₄) huncontrolled).bind fun free m₅ h₅ hle₅ hfree => ?_
    refine (Expresses.conj h₅ (hconstraint.mono h₄.toOrdered hle₅) hfree).bind
      fun constraint m₆ h₆ hle₆ hconstraint => ?_
    have hle₂₆ := Manager.le_trans hle₃ (Manager.le_trans hle₄ (Manager.le_trans hle₅ hle₆))
    refine yields_pure h₆ ⟨(htargets.mono h₂.toOrdered hle₂₆).congr fun a => ?_, hconstraint.congr fun a => ?_⟩
    · exact Nat.lt_succ_iff_lt_or_eq.symm
    · rw [and_assoc]
      exact Nat.forall_lt_succ_right.symm
  dsimp only
  split
  · next hnegative =>
    refine (yields_negated h₃ hfits hi hnegative).bind fun q m₄ h₄ hle₄ hq => ?_
    have hp₄ := hp.mono h₃.toOrdered hle₄
    refine (Expresses.conj h₄ hp₄.neg hq.neg).bind fun uncontrolled m₅ h₅ hle₅ huncontrolled => ?_
    refine (Expresses.conj h₅ (hp₄.mono h₄.toOrdered hle₅) (hq.mono h₄.toOrdered hle₅)).bind
      fun both m₆ h₆ hle₆ hboth => ?_
    have hle₃₆ := Manager.le_trans hle₄ (Manager.le_trans hle₅ hle₆)
    refine (Expresses.conj h₆ (hconstraint.mono h₃.toOrdered hle₃₆) hboth.neg).bind
      fun constraint m₇ h₇ hle₇ hconstraint => ?_
    rw [pure_bind]
    exact hfinish uncontrolled constraint m₇ h₇ (Manager.le_trans hle₃₆ hle₇)
      (huncontrolled.mono h₅.toOrdered (Manager.le_trans hle₆ hle₇)) hconstraint
  · next hnegative =>
    rw [Bool.not_eq_true] at hnegative
    have hnone : ∀ a, l.selects (l.blockAt k a) ⟨i, false⟩ = false := fun a => by
      rw [selects, hnegative, Bool.false_and]
    rw [pure_bind]
    exact hfinish (-p) constraint m₃ h₃ m₃.le_refl (hp.neg.congr fun a => by simp [hnone])
      (hconstraint.congr fun a => by simp [hnone])

/-- **Well-formed descriptors** describe a usable gate. -/
theorem yields_wellFormed (h : m.WellFormed) (hfits : l.Fits k) :
    Yields m (l.wellFormed k) fun r m' =>
      Expresses m' r fun a => Usable l.lines l.negative (l.gateOf (l.blockAt k a)) := by
  unfold wellFormed
  have hstart : Expresses m Ref.zero (fun a => l.targetOf (l.blockAt k a) < 0) ∧
      Expresses m Ref.one fun a => ∀ j < 0, l.Consistent (l.blockAt k a) j :=
    ⟨h.denotes_zero.expresses fun a => by simp, h.denotes_one.expresses fun a => by simp⟩
  refine (Bdd.yields_foldlM h (I := fun i (r : Ref × Ref) m' =>
    Expresses m' r.1 (fun a => l.targetOf (l.blockAt k a) < i) ∧
      Expresses m' r.2 fun a => ∀ j < i, l.Consistent (l.blockAt k a) j) hstart
    fun i x hx acc m' h' _ hacc => ?_).bind fun r m₁ h₁ _ hr => ?_
  · obtain ⟨hi, rfl⟩ := List.getElem?_eq_some_iff.1 hx
    rw [List.length_range] at hi
    rw [List.getElem_range]
    exact yields_constrainLine h' hfits hi hacc
  · rw [List.length_range] at hr
    exact (Expresses.conj h₁ hr.1 hr.2).imp fun r m' _ _ hr => hr.congr fun a => usable_gateOf_iff.symm

end ReversibleLogic.Exact.Layout
