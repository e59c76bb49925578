import ReversibleLogic.Proofs.Gate.Cubes
import ReversibleLogic.Proofs.Transform.Folding

/-!
# What two gates merge to

* `exists_xorControls?` — if the words that satisfy exactly one of two lists of controls are a cube, its controls are
  found;
* `Cancel n g h`, `Replaces n k g h` — `g` followed by `h` changes nothing, or what the single gate `k` does;
* `Replaces.sameAction_eq_true`, `Replaces.isActive_eq` — such a gate acts like the two, where exactly one of them is
  active;
* `merge_spec` — two gates with the same action are merged to nothing or to one gate whenever they amount to that.
-/

namespace ReversibleLogic

open Gate

namespace Transform

variable {a b c : List Control} {g h k : Gate} {n w : Nat}

/-! ### the three forms -/

/-- **The controls of a difference are found** if there are any. -/
theorem exists_xorControls? (ha : Ascending n a) (hb : Ascending n b) (hc : Ascending n c)
    (h : ∀ w < 2 ^ n, allSatisfied c w = (allSatisfied a w ^^ allSatisfied b w)) :
    ∃ cs, xorControls? a b = some cs := by
  obtain ⟨x, hs | hs | hs⟩ := exists_splits_of_xor ha hb hc h
  · -- the lists differ in the polarity of one line
    rw [xorControls?, hs.filter_halves ha.nodup, hs.symm.filter_halves hb.nodup]
    exact ⟨_, if_pos rfl⟩
  · -- the first list has one control more
    obtain ⟨hmore, hnone⟩ := hs.filter_whole ha.nodup
    rw [xorControls?, hmore, hnone]
    exact ⟨_, rfl⟩
  · -- the second list has one control more
    obtain ⟨hmore, hnone⟩ := hs.filter_whole hb.nodup
    rw [xorControls?, hmore, hnone]
    exact ⟨_, rfl⟩

/-! ### two gates that amount to one or to none -/

/-- `g` followed by `h` leaves the words of `n` lines as they are. -/
def Cancel (n : Nat) (g h : Gate) : Prop := ∀ w < 2 ^ n, h.apply (g.apply w) = w

/-- the built gate `k` does what `g` followed by `h` does with the words of `n` lines. -/
structure Replaces (n : Nat) (k g h : Gate) : Prop where
  built : k.Built
  within : k.Within n
  apply_eq : ∀ w < 2 ^ n, k.apply w = h.apply (g.apply w)

theorem Replaces.proper (hr : Replaces n k g h) : k.Proper n := ⟨built_iff_normal.1 hr.built, hr.within⟩

theorem sameAction_iff : sameAction g h = true ↔ g.isToffoli = h.isToffoli ∧ g.targets = h.targets := by
  rw [sameAction, Bool.and_eq_true, beq_iff_eq, beq_iff_eq]

/-- a gate that replaces two gates with the same action has this action too. -/
theorem Replaces.sameAction_eq_true (hr : Replaces n k g h) (hg : g.Normal) (hh : h.Normal)
    (hs : sameAction g h = true) : sameAction g k = true := by
  -- a word that `k` moves is moved alike by one of the two
  obtain ⟨w, hw, hactive⟩ := hr.proper.ascending.exists_satisfied
  obtain ⟨v, hv, hoff, hmoved⟩ := exists_moved hr.proper hw
  have happly := hr.apply_eq v hv
  rw [apply_of_isActive ((hr.proper.1.isActive_congr hoff).trans hactive), apply_apply_of_sameAction hh hs] at happly
  split at happly
  · exact sameAction_iff.2 (sameKind_of_act_eq hg hr.proper.1 happly.symm (happly ▸ hmoved))
  · exact absurd happly hmoved

/-- a gate that replaces two gates with the same action is active where exactly one of them is. -/
theorem Replaces.isActive_eq (hr : Replaces n k g h) (hg : g.Proper n) (hh : h.Normal)
    (hs : sameAction g h = true) (hw : w < 2 ^ n) : k.isActive w = (g.isActive w ^^ h.isActive w) := by
  have hsk := hr.sameAction_eq_true hg.1 hh hs
  obtain ⟨v, hv, hoff, hmoved⟩ := exists_moved hg hw
  have happly := hr.apply_eq v hv
  rw [apply, ← act_eq_of_sameAction hsk, apply_apply_of_sameAction hh hs] at happly
  have hactive := eq_of_ite_eq happly hmoved
  rwa [hr.proper.1.isActive_congr (targets_eq_of_sameAction hsk ▸ hoff), hg.1.isActive_congr hoff,
    hh.isActive_congr (targets_eq_of_sameAction hs ▸ hoff)] at hactive

theorem Cancel.controls_eq (hc : Cancel n g h) (hg : g.Proper n) (hh : h.Proper n)
    (hs : sameAction g h = true) : g.controls = h.controls := by
  refine eq_of_allSatisfied hg.ascending hh.ascending fun w hw => ?_
  obtain ⟨v, hv, hoff, hmoved⟩ := exists_moved hg hw
  have happly : (if g.isActive v ^^ h.isActive v then g.act v else v) = if false then g.act v else v := by
    rw [← apply_apply_of_sameAction hh.1 hs]
    exact hc v hv
  have hactive := eq_of_ite_eq happly hmoved
  rw [hg.1.isActive_congr hoff, hh.1.isActive_congr (targets_eq_of_sameAction hs ▸ hoff)] at hactive
  exact Bool.xor_left_inj.1 (hactive.trans (Bool.xor_self _).symm)

theorem merge_eq (hs : sameAction g h = true) :
    merge g h = if g.controls = h.controls then some .cancelled
      else (xorControls? g.controls h.controls).map fun cs => .single (g.withControls cs) := by
  rw [merge, hs]
  rfl

/-- **Merging is exact.** Gates of the checked constructors on `n` lines, of the same kind and with the same targets,
are cancelled exactly if one after the other they change nothing. They are merged to a single gate exactly if some gate
of the checked constructors on `n` lines, of whatever kind, does what both do, and the merged gate is such a gate.
Otherwise they are kept. -/
theorem merge_spec (hg : g.Built) (hgn : g.Within n) (hh : h.Built) (hhn : h.Within n)
    (hkind : g.isToffoli = h.isToffoli) (htargets : g.targets = h.targets) :
    (merge g h = some .cancelled ↔ Cancel n g h) ∧
      ((∃ k, merge g h = some (.single k)) ↔ ∃ k, Replaces n k g h) ∧
      (∀ k, merge g h = some (.single k) → Replaces n k g h) ∧
      (merge g h = none ↔ ¬ Cancel n g h ∧ ¬ ∃ k, Replaces n k g h) := by
  have hg' : g.Proper n := ⟨built_iff_normal.1 hg, hgn⟩
  have hh' : h.Proper n := ⟨built_iff_normal.1 hh, hhn⟩
  have hs := sameAction_iff.2 ⟨hkind, htargets⟩
  have hcancel : merge g h = some .cancelled ↔ Cancel n g h := by
    refine ⟨fun hm w _ => merge_cancelled hh'.1 hm w, fun hc => ?_⟩
    rw [merge_eq hs, if_pos (hc.controls_eq hg' hh' hs)]
  have hsound : ∀ k, merge g h = some (.single k) → Replaces n k g h := by
    intro k hm
    obtain ⟨hk, happly⟩ := merge_single hg' hh' hm
    exact ⟨built_iff_normal.2 hk.1, hk.2, fun w _ => happly w⟩
  have hsingle : (∃ k, merge g h = some (.single k)) ↔ ∃ k, Replaces n k g h := by
    refine ⟨fun ⟨k, hm⟩ => ⟨k, hsound k hm⟩, fun ⟨k, hr⟩ => ?_⟩
    have hactive : ∀ w < 2 ^ n, k.isActive w = (g.isActive w ^^ h.isActive w) := fun w hw =>
      hr.isActive_eq hg' hh'.1 hs hw
    have hne : g.controls ≠ h.controls := by
      intro he
      obtain ⟨w, hw, hsat⟩ := hr.proper.ascending.exists_satisfied
      have hxor := hactive w hw
      rw [isActive, isActive, isActive, he, Bool.xor_self] at hxor
      exact Bool.false_ne_true (hxor.symm.trans hsat)
    obtain ⟨cs, hcs⟩ := exists_xorControls? hg'.ascending hh'.ascending hr.proper.ascending hactive
    rw [merge_eq hs, if_neg hne, hcs]
    exact ⟨_, rfl⟩
  refine ⟨hcancel, hsingle, hsound, ?_⟩
  rw [← hcancel, ← hsingle]
  cases merge g h with
  | none => simp
  | some merged => cases merged <;> simp

theorem merge_spec_toffoli :
    Replaces 64 (.toffoli [⟨0, true⟩] 2) (.toffoli [⟨0, true⟩, ⟨1, true⟩] 2) (.toffoli [⟨0, true⟩, ⟨1, false⟩] 2) ∧
      ¬ ∃ k, Replaces 64 k (.toffoli [⟨0, true⟩] 2) (.toffoli [⟨1, true⟩] 2) := by
  have hbuilt : ∀ cs : List Control, cs.Pairwise (fun c d => c.line < d.line) → (∀ c ∈ cs, c.line < 2) →
      Built (.toffoli cs 2) ∧ Within (.toffoli cs 2) 64 := by
    intro cs hcs hlt
    have hnormal : Normal (.toffoli cs 2) := normal_toffoli hcs fun c hc => Nat.ne_of_lt (hlt c hc)
    exact ⟨built_iff_normal.2 hnormal, fun c hc => Nat.lt_trans (hlt c hc) (by decide), by simp [targets]⟩
  obtain ⟨hone, hwithin⟩ := hbuilt [⟨0, true⟩, ⟨1, true⟩] (by decide) (by decide)
  obtain ⟨htwo, hwithin'⟩ := hbuilt [⟨0, true⟩, ⟨1, false⟩] (by decide) (by decide)
  obtain ⟨hfirst, hwithin''⟩ := hbuilt [⟨0, true⟩] (by decide) (by decide)
  obtain ⟨hsecond, hwithin₃⟩ := hbuilt [⟨1, true⟩] (by decide) (by decide)
  obtain ⟨-, -, hsound, -⟩ := merge_spec hone hwithin htwo hwithin' rfl rfl
  obtain ⟨-, -, -, hkept⟩ := merge_spec hfirst hwithin'' hsecond hwithin₃ rfl rfl
  exact ⟨hsound _ (by decide), (hkept.1 (by decide)).2⟩

end Transform

end ReversibleLogic
