import ReversibleLogic.Proofs.Gate.Cascade
import ReversibleLogic.Proofs.Relation.Pairs

/-!
# Gates on relations

* `yields_diagonal` — the pairs of equal words;
* `gateOn r g` — a gate as a change of the output variables; on a pair of words it applies the gate to the second one
  (`agree_gateOn`);
* `yields_applyGate` — the relation after a gate contains `(x, y)` where the relation before it contains `(x, g y)`.
-/

namespace ReversibleLogic

open Bdd

namespace Relation

variable {m : Manager} {r : Relation} {n l x y : Nat} {a b : Assignment} {F : Assignment → Bool}
  {R : Nat → Nat → Bool}

theorem represents_of_denotes {root : Ref} (hroot : m.Denotes root F) (hF : Over n F)
    (hR : ∀ x < 2 ^ n, ∀ y < 2 ^ n, F (pairAssignment n x y) = R x y) : Represents m ⟨n, root⟩ R :=
  ⟨hroot.holds, fun a b hab => by simp only [hroot.eval]; exact hF a b hab, fun x hx y hy =>
    (hroot.eval _).trans (hR x hx y hy)⟩

/-! ### variables of lines -/

theorem inputVar_bounds (r : Relation) (hl : l < r.lines) : 0 < r.inputVar l ∧ r.inputVar l < 2 * r.lines := by
  unfold inputVar
  omega

theorem outputVar_bounds (r : Relation) (hl : l < r.lines) : 0 < r.outputVar l ∧ r.outputVar l ≤ 2 * r.lines := by
  unfold outputVar inputVar
  omega

theorem outputVar_inj {k : Nat} (hk : k < r.lines) (hl : l < r.lines) (h : r.outputVar k = r.outputVar l) : k = l := by
  unfold outputVar inputVar at h
  omega

theorem Agree.inputVar (h : Agree r.lines a b) (hl : l < r.lines) : a (r.inputVar l) = b (r.inputVar l) :=
  h _ ⟨(r.inputVar_bounds hl).1, Nat.le_of_lt (r.inputVar_bounds hl).2⟩

theorem Agree.outputVar (h : Agree r.lines a b) (hl : l < r.lines) : a (r.outputVar l) = b (r.outputVar l) :=
  h _ (r.outputVar_bounds hl)

theorem pair_inputVar (hl : l < r.lines) : pairAssignment r.lines x y (r.inputVar l) = x.testBit l :=
  pairAssignment_input hl

theorem pair_outputVar (hl : l < r.lines) : pairAssignment r.lines x y (r.outputVar l) = y.testBit l :=
  pairAssignment_output hl

/-! ### equal words -/

def equalOn (r : Relation) (a : Assignment) : Bool :=
  (List.range r.lines).all fun l => a (r.inputVar l) == a (r.outputVar l)

theorem over_equalOn (r : Relation) : Over r.lines r.equalOn := by
  intro a b hab
  unfold equalOn
  rw [Bool.eq_iff_iff, List.all_eq_true, List.all_eq_true]
  refine forall_congr' fun l => forall_congr' ?_
  intro hl
  rw [hab.inputVar (List.mem_range.1 hl), hab.outputVar (List.mem_range.1 hl)]

theorem equalOn_pair (hx : x < 2 ^ r.lines) (hy : y < 2 ^ r.lines) :
    r.equalOn (pairAssignment r.lines x y) = (x == y) := by
  rw [Bool.eq_iff_iff, beq_iff_eq, equalOn, List.all_eq_true]
  constructor
  · intro h
    refine Word.eq_of_testBit_lt hx hy ?_
    intro l hl
    have := h l (List.mem_range.2 hl)
    rwa [pair_inputVar hl, pair_outputVar hl, beq_iff_eq] at this
  · rintro rfl l hl
    rw [pair_inputVar (List.mem_range.1 hl), pair_outputVar (List.mem_range.1 hl)]
    exact beq_self_eq_true _

theorem yields_diagonal (h : m.WellFormed) (hn : 2 * r.lines < lastLevel) :
    Yields m r.diagonal fun d m' => m'.Denotes d r.equalOn := by
  refine (yields_conjAll h (yieldsEach_map (F := fun l a => a (r.inputVar l) == a (r.outputVar l))
    fun l hl m' h' _ => ?_)).imp fun d m' _ _ hd => hd.congr fun a => ?_
  · have hl := List.mem_range.1 hl
    have hin := r.inputVar_bounds hl
    have hout := r.outputVar_bounds hl
    refine (yields_var h' hin.1 (by omega)).bind fun x m₁ h₁ _ hx => ?_
    refine (yields_var h₁ hout.1 (by omega)).bind fun y m₂ h₂ hle₂ hy => ?_
    exact yields_iff h₂ (hx.mono h₁.toOrdered hle₂) hy
  · rw [List.all_map]
    rfl

/-! ### gates -/

def activeOn (r : Relation) (cs : List Control) (a : Assignment) : Bool :=
  cs.all fun c => a (r.outputVar c.line) == c.positive

def gateOn (r : Relation) (g : Gate) (a : Assignment) : Assignment := fun v =>
  match g with
  | .toffoli cs t => if r.outputVar t = v then a v ^^ r.activeOn cs a else a v
  | .fredkin cs s t =>
    if r.outputVar t = v then (if r.activeOn cs a then a (r.outputVar s) else a v)
    else if r.outputVar s = v then (if r.activeOn cs a then a (r.outputVar t) else a v)
    else a v

theorem activeOn_congr {cs : List Control} (hcs : ∀ c ∈ cs, c.line < r.lines) (hab : Agree r.lines a b) :
    r.activeOn cs a = r.activeOn cs b := by
  unfold activeOn
  rw [Bool.eq_iff_iff, List.all_eq_true, List.all_eq_true]
  refine forall_congr' fun c => forall_congr' ?_
  intro hc
  rw [hab.outputVar (hcs c hc)]

theorem activeOn_pair {cs : List Control} (hcs : ∀ c ∈ cs, c.line < r.lines) :
    r.activeOn cs (pairAssignment r.lines x y) = Gate.allSatisfied cs y := by
  unfold activeOn Gate.allSatisfied
  rw [Bool.eq_iff_iff, List.all_eq_true, List.all_eq_true]
  refine forall_congr' fun c => forall_congr' ?_
  intro hc
  rw [pair_outputVar (hcs c hc)]
  rfl

theorem agree_gateOn_congr {g : Gate} (hg : g.Within r.lines) (hab : Agree r.lines a b) :
    Agree r.lines (r.gateOn g a) (r.gateOn g b) := by
  intro v hv
  unfold gateOn
  cases g with
  | toffoli cs t =>
    have hactive : r.activeOn cs a = r.activeOn cs b := activeOn_congr hg.1 hab
    simp only [hab v hv, hactive]
  | fredkin cs s t =>
    have hactive : r.activeOn cs a = r.activeOn cs b := activeOn_congr hg.1 hab
    have hs : s < r.lines := hg.2 s (by simp [Gate.targets])
    have ht : t < r.lines := hg.2 t (by simp [Gate.targets])
    simp only [hab v hv, hactive, hab.outputVar hs, hab.outputVar ht]

/-- **A gate on the output variables** applies to the output word. -/
theorem agree_gateOn {g : Gate} (hg : g.Proper r.lines) :
    Agree r.lines (r.gateOn g (pairAssignment r.lines x y)) (pairAssignment r.lines x (g.apply y)) := by
  have hinput : ∀ k l, l < r.lines → r.outputVar k ≠ r.inputVar l := by
    intro k l hl
    unfold outputVar inputVar
    omega
  have houtput : ∀ {k l}, k < r.lines → l < r.lines → (r.outputVar k = r.outputVar l ↔ l = k) := fun hk hl =>
    ⟨fun h => (outputVar_inj hk hl h).symm, fun h => by rw [h]⟩
  obtain ⟨hnormal, hcs, hts⟩ := hg
  refine agree_of_lines fun l hl => ⟨?_, ?_⟩
  · show r.gateOn g _ (r.inputVar l) = pairAssignment _ _ _ (r.inputVar l)
    unfold gateOn
    cases g with
    | toffoli cs t => simp only [if_neg (hinput t l hl), pair_inputVar hl]
    | fredkin cs s t => simp only [if_neg (hinput t l hl), if_neg (hinput s l hl), pair_inputVar hl]
  · show r.gateOn g _ (r.outputVar l) = pairAssignment _ _ _ (r.outputVar l)
    rw [pair_outputVar hl]
    unfold gateOn
    cases g with
    | toffoli cs t =>
      have ht : t < r.lines := hts t (by simp [Gate.targets])
      have hactive : r.activeOn cs (pairAssignment r.lines x y) = Gate.allSatisfied cs y := activeOn_pair hcs
      simp only [Gate.testBit_apply_toffoli, houtput ht hl, pair_outputVar hl, hactive, eq_comm (a := t)]
      by_cases hlt : l = t <;> simp [hlt]
    | fredkin cs s t =>
      have hs : s < r.lines := hts s (by simp [Gate.targets])
      have ht : t < r.lines := hts t (by simp [Gate.targets])
      have hactive : r.activeOn cs (pairAssignment r.lines x y) = Gate.allSatisfied cs y := activeOn_pair hcs
      have hst : s < t := by simpa [Gate.targets] using hnormal.targets_lt
      simp only [Gate.testBit_apply_fredkin, houtput ht hl, houtput hs hl, pair_outputVar hl, pair_outputVar hs,
        pair_outputVar ht, hactive]
      by_cases hlt : l = t
      · have hls : l ≠ s := by omega
        simp [hlt, hlt ▸ hls]
      · by_cases hls : l = s
        · have hst' : s ≠ t := Nat.ne_of_lt hst
          simp [hls, hst']
        · simp [hlt, hls]

theorem yields_active (h : m.WellFormed) (hn : 2 * r.lines < lastLevel) {cs : List Control}
    (hcs : ∀ c ∈ cs, c.line < r.lines) :
    Yields m (conjAll (cs.map fun c => literal (r.outputVar c.line) c.positive)) fun f m' =>
      m'.Denotes f (r.activeOn cs) := by
  refine (yields_conjAll h (yieldsEach_map (F := fun c a => a (r.outputVar c.line) == c.positive)
    fun c hc m' h' _ => ?_)).imp fun f m' _ _ hf => hf.congr fun a => ?_
  · have hout := r.outputVar_bounds (hcs c hc)
    exact yields_literal h' hout.1 (by omega) c.positive
  · rw [List.all_map]
    rfl

/-- the substitution of a gate is the gate on the output variables. -/
theorem yields_substitution (h : m.WellFormed) (hn : 2 * r.lines < lastLevel) {g : Gate}
    (hg : g.Proper r.lines) :
    Yields m (r.substitution g) fun map m' => HoldsAll m' map ∧ ∀ a, substituted m' map a = r.gateOn g a := by
  obtain ⟨hnormal, hcs, hts⟩ := hg
  have hvar : ∀ t ∈ g.targets, ∀ m' : Manager, m'.WellFormed →
      Yields m' (var (r.outputVar t)) fun f m'' => m''.Denotes f fun a => a (r.outputVar t) := fun t ht m' h' =>
    yields_var h' (r.outputVar_bounds (hts t ht)).1 (by have := (r.outputVar_bounds (hts t ht)).2; omega)
  unfold substitution
  refine (yields_active h hn hcs).bind fun f m₁ h₁ hle₁ hf => ?_
  cases g with
  | toffoli cs t =>
    refine (hvar t (by simp [Gate.targets]) m₁ h₁).bind fun y m₂ h₂ hle₂ hy => ?_
    refine (yields_xor h₂ hy (hf.mono h₁.toOrdered hle₂)).bind fun e m₃ h₃ hle₃ he => ?_
    refine yields_pure h₃ ⟨(holdsAll_nil _).concat he.holds, fun a => funext fun v => ?_⟩
    refine (substituted_concat [] _ _ a v).trans ?_
    rw [substituted_nil]
    by_cases hv : r.outputVar t = v
    · subst hv
      rw [if_pos rfl, he.eval]
      exact (if_pos rfl).symm
    · rw [if_neg hv]
      exact (if_neg hv).symm
  | fredkin cs s t =>
    have hst : s < t := by simpa [Gate.targets] using hnormal.targets_lt
    refine (hvar s (by simp [Gate.targets]) m₁ h₁).bind fun ys m₂ h₂ hle₂ hys => ?_
    refine (hvar t (by simp [Gate.targets]) m₂ h₂).bind fun yt m₃ h₃ hle₃ hyt => ?_
    have hf₃ := (hf.mono h₁.toOrdered hle₂).mono h₂.toOrdered hle₃
    have hys₃ := hys.mono h₂.toOrdered hle₃
    refine (yields_ite h₃ hf₃ hyt hys₃).bind fun e m₄ h₄ hle₄ he => ?_
    refine (yields_ite h₄ (hf₃.mono h₃.toOrdered hle₄) (hys₃.mono h₃.toOrdered hle₄) (hyt.mono h₃.toOrdered hle₄)).bind
      fun d m₅ h₅ hle₅ hd => ?_
    have he := he.mono h₄.toOrdered hle₅
    refine yields_pure h₅ ⟨((holdsAll_nil _).concat he.holds).concat hd.holds, fun a => funext fun v => ?_⟩
    refine (substituted_concat [(r.outputVar s, e)] _ _ a v).trans ?_
    have hfirst := substituted_concat (m := m₅) [] (r.outputVar s) e a v
    rw [List.nil_append, substituted_nil] at hfirst
    rw [hfirst]
    by_cases hv : r.outputVar t = v
    · subst hv
      rw [if_pos rfl, hd.eval]
      exact (if_pos rfl).symm
    · by_cases hv' : r.outputVar s = v
      · subst hv'
        rw [if_neg hv, if_pos rfl, he.eval]
        exact ((if_neg hv).trans (if_pos rfl)).symm
      · rw [if_neg hv, if_neg hv']
        exact ((if_neg hv).trans (if_neg hv')).symm

/-- **A gate on a relation.** The relation after the gate contains `(x, y)` if the one before it contains `(x, g y)`. -/
theorem yields_applyGate (h : m.WellFormed) (hn : 2 * r.lines < lastLevel) (hr : Represents m r R) {g : Gate}
    (hg : g.Proper r.lines) :
    Yields m (r.applyGate g) fun s m' => s.lines = r.lines ∧ Represents m' s fun x y => R x (g.apply y) := by
  have hfits : ¬ r.lines ≤ g.maxLine := Nat.not_le.2 (Gate.maxLine_lt_iff.2 hg.2)
  unfold applyGate
  rw [if_neg hfits]
  refine (yields_substitution h hn hg).bind fun map m₁ h₁ hle₁ ⟨hmap, hsubst⟩ => ?_
  have hr₁ := hr.mono h.toOrdered hle₁
  refine (yields_compose h₁ hr₁.holds.denotes hmap).bind fun root m₂ h₂ hle₂ hroot => yields_pure h₂ ⟨rfl, ?_⟩
  refine represents_of_denotes (hroot.congr fun a => by rw [hsubst]) (fun a b hab => ?_) fun x hx y hy => ?_
  · exact hr₁.onLines _ _ (agree_gateOn_congr hg.2 hab)
  · exact (hr₁.onLines _ _ (agree_gateOn hg)).trans (hr₁.value x hx _ (Gate.apply_lt hg.2 hy))

end Relation

end ReversibleLogic
