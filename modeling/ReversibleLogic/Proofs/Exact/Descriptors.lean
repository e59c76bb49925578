import Mathlib.Data.List.GetD
import Mathlib.Data.List.Sort
import ReversibleLogic.Exact.Descriptor
import ReversibleLogic.Proofs.Computation
import ReversibleLogic.Proofs.Exact.Cascades

/-!
# Blocks of descriptors and their gates

* `Layout.gateOf` — the gate that the values of a block describe; `usable_gateOf_iff` says when the search may use it;
* `Layout.gatesOf` — the cascade of several blocks, which is what `decode` reads (`decode_eq`);
* `gatesOf_injective`, `exists_gatesOf` — the values of the blocks and the cascades correspond to each other.
-/

namespace ReversibleLogic.Exact.Layout

open Gate

variable {l : Layout} {bits bits' : List Bool} {depth : Nat} {c : Control} {cs : List Control} {t : Nat}
  {gs : List Gate}

/-! ### one block -/

def selects (l : Layout) (bits : List Bool) : Control → Bool
  | ⟨i, true⟩ => bits.getD i false
  | ⟨i, false⟩ => l.negative && bits.getD (l.lines + i) false

def controlsAt (l : Layout) (bits : List Bool) (i : Nat) : List Control :=
  (if l.selects bits ⟨i, true⟩ then [⟨i, true⟩] else []) ++ (if l.selects bits ⟨i, false⟩ then [⟨i, false⟩] else [])

def controlsOf (l : Layout) (bits : List Bool) : List Control := (List.range l.lines).flatMap (l.controlsAt bits)

def targetOf (l : Layout) (bits : List Bool) : Nat := Word.ofBits (bits.drop l.controlBits)

/-- line `i` does not have both controls, and has none if it is the target. -/
def Consistent (l : Layout) (bits : List Bool) (i : Nat) : Prop :=
  ¬ (l.selects bits ⟨i, true⟩ = true ∧ l.selects bits ⟨i, false⟩ = true) ∧
    (l.targetOf bits = i → ¬ l.selects bits ⟨i, true⟩ = true ∧ ¬ l.selects bits ⟨i, false⟩ = true)

/-- the gate of a block, with the controls as they are listed. -/
def gateOf (l : Layout) (bits : List Bool) : Gate := .toffoli (l.controlsOf bits) (l.targetOf bits)

theorem decodeGate_eq (l : Layout) (bits : List Bool) :
    l.decodeGate bits = toffoli? (l.controlsOf bits) (l.targetOf bits) := rfl

theorem mem_controlsAt {i : Nat} : c ∈ l.controlsAt bits i ↔ c.line = i ∧ l.selects bits c = true := by
  obtain ⟨j, positive⟩ := c
  unfold controlsAt
  rw [List.mem_append]
  constructor
  · rintro (h | h) <;> split at h
    · next hs => rw [List.mem_singleton] at h; cases h; exact ⟨rfl, hs⟩
    · cases h
    · next hs => rw [List.mem_singleton] at h; cases h; exact ⟨rfl, hs⟩
    · cases h
  · rintro ⟨rfl, hs⟩
    cases positive with
    | true => exact Or.inl (by rw [if_pos hs]; exact List.mem_singleton_self _)
    | false => exact Or.inr (by rw [if_pos hs]; exact List.mem_singleton_self _)

theorem mem_controlsOf : c ∈ l.controlsOf bits ↔ c.line < l.lines ∧ l.selects bits c = true := by
  unfold controlsOf
  rw [List.mem_flatMap]
  simp only [mem_controlsAt, List.mem_range]
  exact ⟨fun ⟨_, hi, hc, hs⟩ => ⟨hc ▸ hi, hs⟩, fun ⟨hi, hs⟩ => ⟨_, hi, rfl, hs⟩⟩

/-- the controls stand on ascending lines if no line has both. -/
theorem controlsOf_pairwise
    (h : ∀ i < l.lines, ¬ (l.selects bits ⟨i, true⟩ = true ∧ l.selects bits ⟨i, false⟩ = true)) :
    (l.controlsOf bits).Pairwise (fun c d => c.line < d.line) := by
  unfold controlsOf
  refine List.pairwise_flatMap.2 ⟨fun i hi => ?_, List.pairwise_lt_range.imp fun hij c hc d hd => ?_⟩
  · have hone := h i (List.mem_range.1 hi)
    unfold controlsAt
    split
    · next hp =>
      rw [if_neg fun hn => hone ⟨hp, hn⟩, List.append_nil]
      exact List.pairwise_singleton _ _
    · split
      · exact List.pairwise_singleton _ _
      · exact List.Pairwise.nil
  · rw [(mem_controlsAt.1 hc).1, (mem_controlsAt.1 hd).1]
    exact hij

/-- **Well-formed blocks.** The target is a line, no line has both controls, and the target has none. -/
theorem usable_gateOf_iff :
    Usable l.lines l.negative (l.gateOf bits) ↔ l.targetOf bits < l.lines ∧ ∀ i < l.lines, l.Consistent bits i := by
  constructor
  · intro h
    obtain ⟨hnormal, hwithin⟩ := h.proper
    have hnodup : ((l.controlsOf bits).map Control.line).Nodup := lines_nodup hnormal.controls_lt
    have hoff : ∀ c ∈ l.controlsOf bits, c.line ≠ l.targetOf bits := fun c hc he =>
      hnormal.off_targets c hc (he ▸ List.mem_singleton_self _)
    refine ⟨hwithin.2 _ (List.mem_singleton_self _), fun i hi =>
      ⟨fun ⟨hp, hn⟩ => ?_, fun he => ⟨fun hp => ?_, fun hn => ?_⟩⟩⟩
    · have hsame := List.inj_on_of_nodup_map hnodup (mem_controlsOf.2 ⟨hi, hp⟩) (mem_controlsOf.2 ⟨hi, hn⟩) rfl
      cases hsame
    · exact hoff _ (mem_controlsOf.2 ⟨hi, hp⟩) he.symm
    · exact hoff _ (mem_controlsOf.2 ⟨hi, hn⟩) he.symm
  · rintro ⟨htarget, hlines⟩
    have hnormal : (l.gateOf bits).Normal := by
      refine normal_toffoli (controlsOf_pairwise fun i hi => (hlines i hi).1) fun c hc he => ?_
      obtain ⟨hi, hs⟩ := mem_controlsOf.1 hc
      obtain ⟨hp, hn⟩ := (hlines _ hi).2 he.symm
      obtain ⟨i, positive⟩ := c
      cases positive with
      | true => exact hp hs
      | false => exact hn hs
    refine ⟨built_iff_normal.2 hnormal, ⟨fun c hc => (mem_controlsOf.1 hc).1, fun i hi => ?_⟩, rfl, ?_⟩
    · rw [List.mem_singleton.1 hi]
      exact htarget
    · cases hnegative : l.negative with
      | true => exact Or.inl rfl
      | false =>
        refine Or.inr fun c hc => ?_
        obtain ⟨i, positive⟩ := c
        cases positive with
        | true => rfl
        | false => simpa [selects, hnegative] using (mem_controlsOf.1 hc).2

/-! ### cascades -/

def gatesOf (l : Layout) : Nat → List Bool → List Gate
  | 0, _ => []
  | depth + 1, bits => l.gateOf (bits.take l.blockSize) :: l.gatesOf depth (bits.drop l.blockSize)

theorem length_gatesOf (depth : Nat) (bits : List Bool) : (l.gatesOf depth bits).length = depth := by
  induction depth generalizing bits with
  | zero => rfl
  | succ depth ih => rw [gatesOf, List.length_cons, ih]

theorem gatesOf_append (h : bits.length = depth * l.blockSize) (h' : bits'.length = l.blockSize) :
    l.gatesOf (depth + 1) (bits ++ bits') = l.gatesOf depth bits ++ [l.gateOf bits'] := by
  induction depth generalizing bits with
  | zero =>
    obtain rfl : bits = [] := List.length_eq_zero_iff.1 (by rw [h, Nat.zero_mul])
    simp [gatesOf, ← h']
  | succ depth ih =>
    have hle : l.blockSize ≤ bits.length := by rw [h]; exact Nat.le_mul_of_pos_left _ (Nat.succ_pos depth)
    have hdrop : (bits.drop l.blockSize).length = depth * l.blockSize := by
      rw [List.length_drop, h, Nat.succ_mul, Nat.add_sub_cancel]
    rw [gatesOf, List.take_append_of_le_length hle, List.drop_append_of_le_length hle, ih hdrop]
    rfl

/-- **Decoding** reads the gates off the blocks. -/
theorem decodeFrom_eq {circuit : Circuit} (h : ∀ g ∈ l.gatesOf depth bits, Usable l.lines l.negative g)
    (hlines : circuit.lines = l.lines) :
    l.decodeFrom depth bits circuit = .ok { circuit with gates := circuit.gates ++ l.gatesOf depth bits } := by
  induction depth generalizing bits circuit with
  | zero => rw [decodeFrom, gatesOf, List.append_nil]
  | succ depth ih =>
    obtain ⟨hg, hgs⟩ := List.forall_mem_cons.1 h
    have hgate : l.decodeGate (bits.take l.blockSize) = .ok (l.gateOf (bits.take l.blockSize)) := by
      rw [decodeGate_eq]
      exact toffoli?_of_normal hg.proper.1
    have happend : circuit.append (l.gateOf (bits.take l.blockSize)) =
        .ok { circuit with gates := circuit.gates ++ [l.gateOf (bits.take l.blockSize)] } :=
      Circuit.append_eq_ok.2 ⟨hlines ▸ hg.within, rfl⟩
    have hlines' : ({ circuit with gates := circuit.gates ++ [l.gateOf (bits.take l.blockSize)] } : Circuit).lines =
        l.lines := hlines
    rw [decodeFrom, hgate, ok_bind, happend, ok_bind, ih hgs hlines', gatesOf, List.append_assoc]
    rfl

theorem decode_eq (h : ∀ g ∈ l.gatesOf depth bits, Usable l.lines l.negative g) :
    l.decode depth bits = .ok { Circuit.empty l.lines with gates := l.gatesOf depth bits } :=
  decodeFrom_eq h rfl

/-! ### different blocks describe different gates -/

theorem gateOf_injective (h : bits.length = l.blockSize) (h' : bits'.length = l.blockSize)
    (he : l.gateOf bits = l.gateOf bits') : bits = bits' := by
  obtain ⟨hcontrols, htarget⟩ := Gate.toffoli.inj he
  have hlen : bits.length = bits'.length := h.trans h'.symm
  have hselects : ∀ c : Control, c.line < l.lines → l.selects bits c = l.selects bits' c := by
    intro c hc
    have hmem : c ∈ l.controlsOf bits ↔ c ∈ l.controlsOf bits' := by rw [hcontrols]
    rw [mem_controlsOf, mem_controlsOf] at hmem
    exact Bool.eq_iff_iff.2 ⟨fun hs => (hmem.1 ⟨hc, hs⟩).2, fun hs => (hmem.2 ⟨hc, hs⟩).2⟩
  have hdrop : bits.drop l.controlBits = bits'.drop l.controlBits := by
    have hwords := congrArg (Word.toBits · (bits.drop l.controlBits).length) htarget
    have hlen' : (bits.drop l.controlBits).length = (bits'.drop l.controlBits).length := by
      rw [List.length_drop, List.length_drop, hlen]
    have hbits' := Word.toBits_ofBits (bits'.drop l.controlBits)
    rw [← hlen'] at hbits'
    rw [← Word.toBits_ofBits (bits.drop l.controlBits), ← hbits']
    exact hwords
  have hget : ∀ i < l.controlBits, bits.getD i false = bits'.getD i false := by
    intro i hi
    by_cases hline : i < l.lines
    · exact hselects ⟨i, true⟩ hline
    · unfold controlBits at hi
      split at hi
      · next hnegative =>
        have hone := hselects ⟨i - l.lines, false⟩ (show i - l.lines < l.lines by omega)
        have hi' : l.lines + (i - l.lines) = i := by omega
        simpa [selects, hnegative, hi'] using hone
      · exact absurd hi hline
  have htake : bits.take l.controlBits = bits'.take l.controlBits := by
    refine List.ext_getElem (by rw [List.length_take, List.length_take, hlen]) fun i hi hi' => ?_
    rw [List.length_take] at hi hi'
    have hone := hget i (by omega)
    rw [List.getD_eq_getElem _ _ (by omega), List.getD_eq_getElem _ _ (by omega)] at hone
    simpa using hone
  rw [← List.take_append_drop l.controlBits bits, htake, hdrop, List.take_append_drop]

/-- **Different values describe different cascades.** -/
theorem gatesOf_injective (h : bits.length = depth * l.blockSize) (h' : bits'.length = depth * l.blockSize)
    (he : l.gatesOf depth bits = l.gatesOf depth bits') : bits = bits' := by
  induction depth generalizing bits bits' with
  | zero =>
    rw [Nat.zero_mul, List.length_eq_zero_iff] at h h'
    rw [h, h']
  | succ depth ih =>
    rw [Nat.succ_mul] at h h'
    obtain ⟨hgate, hgates⟩ := List.cons.inj he
    have htake := gateOf_injective (by rw [List.length_take, h]; omega) (by rw [List.length_take, h']; omega) hgate
    have hdrop := ih (by rw [List.length_drop, h]; omega) (by rw [List.length_drop, h']; omega) hgates
    rw [← List.take_append_drop l.blockSize bits, htake, hdrop, List.take_append_drop]

/-! ### every cascade has blocks -/

def describe (l : Layout) (cs : List Control) (t : Nat) : List Bool :=
  (List.range l.lines).map (fun i => decide (⟨i, true⟩ ∈ cs)) ++
    (if l.negative then (List.range l.lines).map fun i => decide (⟨i, false⟩ ∈ cs) else []) ++
      Word.toBits t l.targetBits

theorem length_describe (l : Layout) (cs : List Control) (t : Nat) : (l.describe cs t).length = l.blockSize := by
  unfold describe blockSize controlBits
  split
  · simp
    omega
  · simp

theorem selects_describe (h : l.negative = true ∨ ∀ c ∈ cs, c.positive = true) (hc : c.line < l.lines) :
    l.selects (l.describe cs t) c = decide (c ∈ cs) := by
  obtain ⟨i, positive⟩ := c
  have hi : i < l.lines := hc
  cases positive with
  | true =>
    simp [selects, describe, List.getElem?_append_left, hi]
  | false =>
    cases hnegative : l.negative with
    | true => simp [selects, describe, hnegative, List.getElem?_append_left, List.getElem?_append_right, hi]
    | false =>
      have hnot : (⟨i, false⟩ : Control) ∉ cs := fun hmem => by
        have hpositive := h.resolve_left (by rw [hnegative]; exact Bool.false_ne_true) _ hmem
        cases hpositive
      simp [selects, hnegative, hnot]

theorem targetOf_describe (ht : t < l.lines) : l.targetOf (l.describe cs t) = t := by
  have hdrop : (l.describe cs t).drop l.controlBits = Word.toBits t l.targetBits := by
    unfold describe
    refine List.drop_left' ?_
    unfold controlBits
    split
    · simp
      omega
    · simp
  rw [targetOf, hdrop, Word.ofBits_toBits]
  exact Nat.mod_eq_of_lt (Word.lt_two_pow_bitsFor ht)

theorem gateOf_describe (h : Usable l.lines l.negative (.toffoli cs t)) :
    l.gateOf (l.describe cs t) = .toffoli cs t := by
  obtain ⟨hnormal, hwithin⟩ := h.proper
  have hsorted : cs.Pairwise (fun c d => c.line < d.line) := hnormal.controls_lt
  have hpolarity : l.negative = true ∨ ∀ c ∈ cs, c.positive = true := h.positive
  have hmem : ∀ c, c ∈ l.controlsOf (l.describe cs t) ↔ c ∈ cs := by
    intro c
    rw [mem_controlsOf]
    constructor
    · rintro ⟨hc, hs⟩
      rwa [selects_describe hpolarity hc, decide_eq_true_iff] at hs
    · intro hc
      have hline := hwithin.1 c hc
      exact ⟨hline, by rw [selects_describe hpolarity hline, decide_eq_true_iff]; exact hc⟩
  have hpairwise : (l.controlsOf (l.describe cs t)).Pairwise (fun c d => c.line < d.line) := by
    refine controlsOf_pairwise fun i hi => ?_
    rw [selects_describe hpolarity hi, selects_describe hpolarity hi, decide_eq_true_iff, decide_eq_true_iff]
    rintro ⟨hp, hn⟩
    have hsame := List.inj_on_of_nodup_map (lines_nodup hsorted) hp hn rfl
    cases hsame
  have hne : ∀ {ds : List Control}, ds.Pairwise (fun c d => c.line < d.line) → ds.Nodup := fun hds =>
    hds.imp fun {c d} hlt he => absurd (congrArg Control.line he) (Nat.ne_of_lt hlt)
  have hperm := (List.perm_ext_iff_of_nodup (hne hpairwise) (hne hsorted)).2 hmem
  have hcontrols : l.controlsOf (l.describe cs t) = cs :=
    hperm.eq_of_pairwise (fun c d _ _ hlt hgt => absurd hlt (Nat.not_lt_of_gt hgt)) hpairwise hsorted
  rw [gateOf, hcontrols, targetOf_describe (hwithin.2 t (List.mem_singleton_self t))]

/-- **Every cascade of usable gates is described** by some values of its blocks. -/
theorem exists_gatesOf (h : ∀ g ∈ gs, Usable l.lines l.negative g) :
    ∃ bits, bits.length = gs.length * l.blockSize ∧ l.gatesOf gs.length bits = gs := by
  induction gs with
  | nil => exact ⟨[], by simp, rfl⟩
  | cons g gs ih =>
    obtain ⟨hg, hgs⟩ := List.forall_mem_cons.1 h
    obtain ⟨bits, hlen, hbits⟩ := ih hgs
    cases g with
    | fredkin cs a b => exact absurd hg.isToffoli (by simp [isToffoli])
    | toffoli cs t =>
      have hlen' := length_describe l cs t
      refine ⟨l.describe cs t ++ bits, ?_, ?_⟩
      · rw [List.length_append, hlen', hlen, List.length_cons, Nat.succ_mul, Nat.add_comm]
      · rw [List.length_cons, gatesOf, List.take_left' hlen', List.drop_left' hlen', hbits, gateOf_describe hg]

end ReversibleLogic.Exact.Layout
