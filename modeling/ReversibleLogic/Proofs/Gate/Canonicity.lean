import ReversibleLogic.Proofs.Gate.Cubes

/-!
# Gates told apart by their action

* `exists_toffoli?_iff`, `exists_fredkin?_iff` — what the checked constructors accept: controls on different lines, off
  the targets;
* `sameKind_of_apply_eq` — gates with the same effect on all words are of the same kind, with the same targets;
* `eq_of_apply_eq` — they also have the same controls, so they are equal;
* `canonical_of_built` — the gates of the checked constructors undo themselves, change their targets only, and are equal
  exactly if they have the same effect.
-/

namespace ReversibleLogic.Gate

variable {cs : List Control} {g k : Gate} {n a b t : Nat}

/-! ### what the constructors accept -/

theorem sortControls_pairwise_iff :
    (sortControls cs).Pairwise (fun c d => c.line < d.line) ↔ (cs.map Control.line).Nodup :=
  ⟨fun h => (((sortControls_perm cs).map Control.line).nodup_iff).1 (lines_nodup h), sortControls_lines⟩

theorem exists_toffoli?_iff :
    (∃ g, toffoli? cs t = .ok g) ↔ (cs.map Control.line).Nodup ∧ ∀ c ∈ cs, c.line ≠ t := by
  simp only [toffoli?_eq_ok, exists_eq_left, sortControls_pairwise_iff, mem_sortControls, List.mem_singleton]

theorem exists_fredkin?_iff :
    (∃ g, fredkin? cs a b = .ok g) ↔
      (cs.map Control.line).Nodup ∧ (∀ c ∈ cs, c.line ≠ a ∧ c.line ≠ b) ∧ a ≠ b := by
  simp only [fredkin?_eq_ok, exists_and_left, exists_eq_left, sortControls_pairwise_iff, mem_sortControls,
    List.mem_cons, List.not_mem_nil, or_false, not_or]
  constructor
  · rintro ⟨hab, hlines, hoff⟩
    exact ⟨hlines, hoff, hab⟩
  · rintro ⟨hlines, hoff, hab⟩
    exact ⟨hab, hlines, hoff⟩

/-! ### what the action tells -/

theorem eq_of_parts (hkind : g.isToffoli = k.isToffoli) (htargets : g.targets = k.targets)
    (hcontrols : g.controls = k.controls) : g = k := by
  cases g <;> cases k <;> simp_all [isToffoli, targets, controls]

/-- **The kind and the targets** of a gate are those of any gate with the same effect. -/
theorem sameKind_of_apply_eq (hg : g.Proper n) (hk : k.Normal) (h : ∀ w < 2 ^ n, g.apply w = k.apply w) :
    g.isToffoli = k.isToffoli ∧ g.targets = k.targets := by
  -- a word that `g` moves: its controls are satisfied, and its action changes something
  obtain ⟨w, hw, hsat⟩ := hg.ascending.exists_satisfied
  obtain ⟨v, hv, hoff, hmoved⟩ := exists_moved hg hw
  have happly := h v hv
  rw [apply_of_isActive ((hg.1.isActive_congr hoff).trans hsat)] at happly
  cases hactive : k.isActive v with
  | false =>
    rw [apply_of_not_isActive hactive] at happly
    exact absurd happly hmoved
  | true =>
    rw [apply_of_isActive hactive] at happly
    exact sameKind_of_act_eq hg.1 hk happly hmoved

/-- **Gates in normal form with the same effect are equal.** -/
theorem eq_of_apply_eq (hg : g.Proper n) (hk : k.Proper n) (h : ∀ w < 2 ^ n, g.apply w = k.apply w) : g = k := by
  obtain ⟨hkind, htargets⟩ := sameKind_of_apply_eq hg hk.1 h
  refine eq_of_parts hkind htargets (eq_of_allSatisfied hg.ascending hk.ascending fun w hw => ?_)
  -- off the targets `w` is like a word that both gates move where they are active
  obtain ⟨v, hv, hoff, hmoved⟩ := exists_moved hg hw
  have happly := h v hv
  rw [apply, apply, ← act_eq_of_sameKind hkind htargets] at happly
  have hactive := eq_of_ite_eq happly hmoved
  rwa [hg.1.isActive_congr hoff, hk.1.isActive_congr (htargets ▸ hoff)] at hactive

/-- **Canonical gates.** A checked constructor accepts a gate exactly if its controls lie on different lines off its
targets, and these are different. A gate of the checked constructors on `n` lines undoes itself on the words of `n`
lines and changes no bit off its targets. Two of them, of whatever kinds, are equal exactly if they have the same effect
on all these words. -/
theorem canonical_of_built (n : Nat) :
    (∀ cs t, (∃ g, toffoli? cs t = .ok g) ↔ (cs.map Control.line).Nodup ∧ ∀ c ∈ cs, c.line ≠ t) ∧
      (∀ cs a b, (∃ g, fredkin? cs a b = .ok g) ↔
        (cs.map Control.line).Nodup ∧ (∀ c ∈ cs, c.line ≠ a ∧ c.line ≠ b) ∧ a ≠ b) ∧
      (∀ g : Gate, g.Built → g.Within n → ∀ w < 2 ^ n,
        g.apply w < 2 ^ n ∧ g.apply (g.apply w) = w ∧ ∀ i, i ∉ g.targets → (g.apply w).testBit i = w.testBit i) ∧
      ∀ g k : Gate, g.Built → g.Within n → k.Built → k.Within n →
        (g = k ↔ ∀ w < 2 ^ n, g.apply w = k.apply w) := by
  refine ⟨fun cs t => exists_toffoli?_iff, fun cs a b => exists_fredkin?_iff, fun g hg hgn w hw => ?_,
    fun g k hg hgn hk hkn => ⟨?_, fun h => ?_⟩⟩
  · exact ⟨apply_lt hgn hw, apply_apply (built_iff_normal.1 hg) w, fun i hi => testBit_apply hi w⟩
  · rintro rfl w hw
    rfl
  · exact eq_of_apply_eq ⟨built_iff_normal.1 hg, hgn⟩ ⟨built_iff_normal.1 hk, hkn⟩ h

/-- a Fredkin gate is no Toffoli gate on its lines, so the two tell some word apart. -/
theorem canonical_of_built_exchange :
    (∃ g, toffoli? [⟨2, false⟩, ⟨0, true⟩] 1 = .ok g) ∧ (¬ ∃ g, fredkin? [⟨2, true⟩] 2 0 = .ok g) ∧
      (∀ w < 2 ^ 64, (fredkin [⟨2, false⟩] 0 1).apply ((fredkin [⟨2, false⟩] 0 1).apply w) = w) ∧
      ¬ ∀ w < 2 ^ 64, (toffoli [⟨0, true⟩, ⟨2, false⟩] 1).apply w = (fredkin [⟨2, false⟩] 0 1).apply w := by
  obtain ⟨htoffoli, hfredkin, haction, hequal⟩ := canonical_of_built 64
  have ht : Built (toffoli [⟨0, true⟩, ⟨2, false⟩] 1) :=
    .toffoli (by decide : toffoli? [⟨2, false⟩, ⟨0, true⟩] 1 = .ok (toffoli [⟨0, true⟩, ⟨2, false⟩] 1))
  have hf : Built (fredkin [⟨2, false⟩] 0 1) :=
    .fredkin (by decide : fredkin? [⟨2, false⟩] 1 0 = .ok (fredkin [⟨2, false⟩] 0 1))
  have htn : Within (toffoli [⟨0, true⟩, ⟨2, false⟩] 1) 64 := maxLine_lt_iff.1 (by decide)
  have hfn : Within (fredkin [⟨2, false⟩] 0 1) 64 := maxLine_lt_iff.1 (by decide)
  refine ⟨(htoffoli _ _).2 (by decide), fun h => absurd ((hfredkin _ _ _).1 h) (by decide), fun w hw => ?_, fun h => ?_⟩
  · exact (haction _ hf hfn w hw).2.1
  · exact absurd ((hequal _ _ ht htn hf hfn).2 h) (by decide)

end ReversibleLogic.Gate
