import ReversibleLogic.Proofs.Gate.Cascade
import ReversibleLogic.Transform.Lookback

/-!
# Folding gates

Gates of a side are kept latest first, so a side computes the cascade of its reversed list.

* `apply_comm_of_commutes` — gates that pass the test for commuting commute;
* `merge_cancelled`, `merge_single` — what two merged gates amount to;
* `applyAll_placeBehind` — a side with a new gate folded in computes the side followed by the gate;
* `applyAll_mergeFredkin` — three Toffoli gates that exchange two lines are a Fredkin gate;
* `length_placeBehind`, `placeBehind_proper`, `length_mergeFredkin_le`, `mergeFredkin_proper` — folding adds at most one
  gate, and only gates in normal form.
-/

namespace ReversibleLogic

open Gate

namespace Transform

/-! ### commuting gates -/

theorem reads_eq_false {g : Gate} {line : Nat} (h : reads g line = false) : ∀ c ∈ g.controls, c.line ≠ line := by
  simpa [reads] using h

theorem act_eq_of_sameAction {g h : Gate} (hs : sameAction g h = true) (w : Nat) : g.act w = h.act w := by
  rw [sameAction, Bool.and_eq_true, beq_iff_eq, beq_iff_eq] at hs
  exact act_eq_of_sameKind hs.1 hs.2 w

theorem act_comm_of_disjoint {g h : Gate} (hd : ∀ t ∈ g.targets, t ∉ h.targets) (w : Nat) :
    h.act (g.act w) = g.act (h.act w) := by
  apply Nat.eq_of_testBit_eq
  intro i
  cases g with
  | toffoli cs t =>
    cases h with
    | toffoli ds u =>
      simp only [testBit_act_toffoli]
      cases w.testBit i <;> cases decide (t = i) <;> cases decide (u = i) <;> rfl
    | fredkin ds a b =>
      simp only [targets, forall_eq, List.mem_cons, List.not_mem_nil, or_false, not_or] at hd
      simp only [testBit_act_toffoli, testBit_act_fredkin]
      grind
  | fredkin cs a b =>
    cases h with
    | toffoli ds u =>
      simp only [targets, List.mem_cons, List.not_mem_nil, or_false, forall_eq_or_imp, forall_eq] at hd
      simp only [testBit_act_toffoli, testBit_act_fredkin]
      grind
    | fredkin ds c d =>
      simp only [targets, List.mem_cons, List.not_mem_nil, or_false, forall_eq_or_imp, forall_eq, not_or] at hd
      simp only [testBit_act_fredkin]
      grind

/-- a gate that does not write what another one reads leaves the other one as active as it was. -/
theorem isActive_apply_of_unread {g h : Gate} (hr : ∀ t ∈ g.targets, ∀ c ∈ h.controls, c.line ≠ t) (w : Nat) :
    h.isActive (g.apply w) = h.isActive w := by
  rw [Bool.eq_iff_iff]
  simp only [isActive, List.all_eq_true, Control.isSatisfied]
  refine forall_congr' fun c => forall_congr' ?_
  intro hc
  rw [testBit_apply fun hmem => hr c.line hmem c hc rfl]

/-- gates that read nothing of each other's targets commute if their actions do. -/
theorem apply_comm_of_unread {g h : Gate} (hg : ∀ t ∈ g.targets, ∀ c ∈ h.controls, c.line ≠ t)
    (hh : ∀ t ∈ h.targets, ∀ c ∈ g.controls, c.line ≠ t) (hact : ∀ w, h.act (g.act w) = g.act (h.act w)) (w : Nat) :
    h.apply (g.apply w) = g.apply (h.apply w) := by
  have h1 := isActive_apply_of_unread hg w
  have h2 := isActive_apply_of_unread hh w
  cases hga : g.isActive w <;> cases hha : h.isActive w <;> rw [hga] at h2 <;> rw [hha] at h1
  · rw [apply_of_not_isActive h1, apply_of_not_isActive h2, apply_of_not_isActive hga, apply_of_not_isActive hha]
  · rw [apply_of_isActive h1, apply_of_not_isActive h2, apply_of_not_isActive hga, apply_of_isActive hha]
  · rw [apply_of_not_isActive h1, apply_of_isActive h2, apply_of_isActive hga, apply_of_not_isActive hha]
  · rw [apply_of_isActive h1, apply_of_isActive h2, apply_of_isActive hga, apply_of_isActive hha]
    exact hact w

/-- gates with opposite controls on a line are never active on the same word, nor one after the other. -/
theorem apply_comm_of_exclusive {g h : Gate} (hg : g.Normal) (hh : h.Normal) (he : exclusive g h = true) (w : Nat) :
    h.apply (g.apply w) = g.apply (h.apply w) := by
  obtain ⟨c, hc, hflip⟩ : ∃ c ∈ g.controls, c.flip ∈ h.controls := by simpa [exclusive] using he
  have hexcl : ∀ v, g.isActive v = true → h.isActive v = false := by
    intro v hv
    have hcv := List.all_eq_true.1 hv c hc
    by_contra hhv
    rw [Bool.not_eq_false] at hhv
    have hfv := List.all_eq_true.1 hhv _ hflip
    rw [Control.isSatisfied_flip, hcv] at hfv
    cases hfv
  cases hga : g.isActive w with
  | true =>
    have hgw : g.isActive (g.apply w) = true := by rw [hg.isActive_apply, hga]
    rw [apply_of_not_isActive (hexcl _ hgw), apply_of_not_isActive (hexcl _ hga)]
  | false =>
    cases hha : h.isActive w with
    | false => rw [apply_of_not_isActive hga, apply_of_not_isActive hha, apply_of_not_isActive hga]
    | true =>
      have hhw : h.isActive (h.apply w) = true := by rw [hh.isActive_apply, hha]
      have hgw : g.isActive (h.apply w) = false := by
        by_contra hne
        rw [Bool.not_eq_false] at hne
        rw [hexcl _ hne] at hhw
        cases hhw
      rw [apply_of_not_isActive hga, apply_of_not_isActive hgw]

/-- **The test for commuting is sound.** -/
theorem apply_comm_of_commutes {g h : Gate} (hg : g.Normal) (hh : h.Normal) (hc : commutes g h = true) (w : Nat) :
    h.apply (g.apply w) = g.apply (h.apply w) := by
  unfold commutes at hc
  rw [Bool.or_eq_true] at hc
  rcases hc with he | hc
  · exact apply_comm_of_exclusive hg hh he w
  · rw [Bool.and_eq_true, Bool.not_eq_true', Bool.or_eq_false_iff, Bool.or_eq_true] at hc
    obtain ⟨⟨hgr, hhr⟩, hact⟩ := hc
    rw [List.any_eq_false] at hgr hhr
    have hgr' : ∀ t ∈ g.targets, ∀ c ∈ h.controls, c.line ≠ t := fun t ht =>
      reads_eq_false (by simpa using hgr t ht)
    have hhr' : ∀ t ∈ h.targets, ∀ c ∈ g.controls, c.line ≠ t := fun t ht =>
      reads_eq_false (by simpa using hhr t ht)
    refine apply_comm_of_unread hgr' hhr' (fun v => ?_) w
    rcases hact with hd | hs
    · exact act_comm_of_disjoint (by simpa using hd) v
    · rw [act_eq_of_sameAction hs, act_eq_of_sameAction hs]

/-! ### merging two gates -/

theorem mem_of_filter_eq_singleton {a b : List Control} {c : Control} (h : a.filter (!b.contains ·) = [c]) :
    c ∈ a ∧ c ∉ b ∧ ∀ d ∈ a, d ≠ c → d ∈ b := by
  have hmem : ∀ d, d ∈ a ∧ d ∉ b ↔ d = c := by
    intro d
    rw [← List.mem_singleton, ← h, List.mem_filter]
    simp
  refine ⟨((hmem c).2 rfl).1, ((hmem c).2 rfl).2, fun d hd hne => ?_⟩
  by_contra hdb
  exact hne ((hmem d).1 ⟨hd, hdb⟩)

theorem subset_of_filter_eq_nil {a b : List Control} (h : a.filter (!b.contains ·) = []) : ∀ d ∈ a, d ∈ b := by
  intro d hd
  have := List.filter_eq_nil_iff.1 h d hd
  simpa using this

/-- what it means that controls `cs` describe the words that satisfy exactly one of `a` and `b`. -/
structure IsXor (a b cs : List Control) : Prop where
  controls_lt : cs.Pairwise (fun c d => c.line < d.line)
  line_mem : ∀ c ∈ cs, ∃ d, (d ∈ a ∨ d ∈ b) ∧ d.line = c.line
  satisfied : ∀ w, allSatisfied cs w = (allSatisfied a w ^^ allSatisfied b w)

theorem isXor_opposite {a b : List Control} {c d : Control} (ha : a.Pairwise (fun c d => c.line < d.line))
    (hb : b.Pairwise (fun c d => c.line < d.line)) (hac : a.filter (!b.contains ·) = [c])
    (hbd : b.filter (!a.contains ·) = [d]) (hl : c.line = d.line) :
    IsXor a b (sortControls (a.filter (·.line != c.line))) := by
  obtain ⟨hca, hcb, hab⟩ := mem_of_filter_eq_singleton hac
  obtain ⟨hdb, hda, hba⟩ := mem_of_filter_eq_singleton hbd
  have hd : d = c.flip := by
    have hp : d.positive = !c.positive := by
      rw [Bool.eq_not]
      intro hp
      have : c = d := by cases c; cases d; simp_all
      exact hcb (this ▸ hdb)
    cases d
    rw [Control.flip, ← hp, hl]
  refine ⟨sortControls_lines ((lines_nodup ha).sublist (List.filter_sublist.map _)), ?_, fun w => ?_⟩
  · intro e he
    rw [mem_sortControls, List.mem_filter] at he
    exact ⟨e, Or.inl he.1, rfl⟩
  · have hA : allSatisfied a w =
        (c.isSatisfied w && allSatisfied (a.filter (·.line != c.line)) w) := by
      rw [Bool.eq_iff_iff, Bool.and_eq_true, allSatisfied_iff, allSatisfied_iff]
      constructor
      · intro h
        exact ⟨h c hca, fun e he => h e (List.mem_filter.1 he).1⟩
      · rintro ⟨hc, h⟩ e he
        by_cases hel : e.line = c.line
        · rw [eq_of_line_eq ha he hca hel]
          exact hc
        · exact h e (List.mem_filter.2 ⟨he, by simpa using hel⟩)
    have hB : allSatisfied b w =
        (d.isSatisfied w && allSatisfied (a.filter (·.line != c.line)) w) := by
      rw [Bool.eq_iff_iff, Bool.and_eq_true, allSatisfied_iff, allSatisfied_iff]
      constructor
      · intro h
        refine ⟨h d hdb, fun e he => ?_⟩
        obtain ⟨hea, hel⟩ := List.mem_filter.1 he
        exact h e (hab e hea (by rintro rfl; simp at hel))
      · rintro ⟨hd', h⟩ e he
        by_cases hed : e = d
        · rw [hed]
          exact hd'
        · refine h e (List.mem_filter.2 ⟨hba e he hed, ?_⟩)
          have : e.line ≠ d.line := fun hel => hed (eq_of_line_eq hb he hdb hel)
          simpa [hl] using this
    rw [allSatisfied_sortControls, hA, hB, hd, Control.isSatisfied_flip]
    cases c.isSatisfied w <;> cases allSatisfied (a.filter (·.line != c.line)) w <;> rfl

theorem isXor_extra {a b : List Control} {c : Control} (ha : a.Pairwise (fun c d => c.line < d.line))
    (hb : b.Pairwise (fun c d => c.line < d.line)) (hac : a.filter (!b.contains ·) = [c])
    (hba : b.filter (!a.contains ·) = []) : IsXor a b (sortControls (b ++ [c.flip])) := by
  obtain ⟨hca, hcb, hab⟩ := mem_of_filter_eq_singleton hac
  have hsub := subset_of_filter_eq_nil hba
  have hline : ∀ d ∈ b, d.line ≠ c.line := fun d hd e => hcb (eq_of_line_eq ha (hsub d hd) hca e ▸ hd)
  refine ⟨sortControls_lines ?_, ?_, fun w => ?_⟩
  · rw [List.map_append, List.nodup_append]
    refine ⟨lines_nodup hb, by simp, ?_⟩
    intro l hl k hk
    obtain ⟨d, hd, rfl⟩ := List.mem_map.1 hl
    simp only [List.map_cons, List.map_nil, List.mem_singleton] at hk
    rw [hk]
    exact hline d hd
  · intro e he
    rw [mem_sortControls, List.mem_append, List.mem_singleton] at he
    rcases he with he | rfl
    · exact ⟨e, Or.inr he, rfl⟩
    · exact ⟨c, Or.inl hca, rfl⟩
  · have hA : allSatisfied a w = (allSatisfied b w && c.isSatisfied w) := by
      rw [Bool.eq_iff_iff, Bool.and_eq_true, allSatisfied_iff, allSatisfied_iff]
      constructor
      · intro h
        exact ⟨fun d hd => h d (hsub d hd), h c hca⟩
      · rintro ⟨h, hc⟩ e he
        by_cases hec : e = c
        · rw [hec]
          exact hc
        · exact h e (hab e he hec)
    have hC : allSatisfied (b ++ [c.flip]) w = (allSatisfied b w && !c.isSatisfied w) := by
      simp [allSatisfied, Control.isSatisfied_flip]
    rw [allSatisfied_sortControls, hC, hA]
    cases allSatisfied b w <;> cases c.isSatisfied w <;> rfl

theorem IsXor.symm {a b cs : List Control} (h : IsXor a b cs) : IsXor b a cs :=
  ⟨h.controls_lt, fun c hc => by
    obtain ⟨d, hd, e⟩ := h.line_mem c hc
    exact ⟨d, hd.symm, e⟩, fun w => by rw [h.satisfied w, Bool.xor_comm]⟩

theorem isXor_of_xorControls? {a b cs : List Control} (ha : a.Pairwise (fun c d => c.line < d.line))
    (hb : b.Pairwise (fun c d => c.line < d.line)) (h : xorControls? a b = some cs) : IsXor a b cs := by
  unfold xorControls? at h
  split at h
  · next c d hc hd =>
    split at h
    · next hl =>
      cases h
      exact isXor_opposite ha hb hc hd hl
    · cases h
  · next c hc hd =>
    cases h
    exact isXor_extra ha hb hc hd
  · next d hc hd =>
    cases h
    exact (isXor_extra hb ha hd hc).symm
  · cases h

theorem controls_withControls (g : Gate) (cs : List Control) : (g.withControls cs).controls = cs := by
  cases g <;> rfl

theorem targets_withControls (g : Gate) (cs : List Control) : (g.withControls cs).targets = g.targets := by
  cases g <;> rfl

theorem act_withControls (g : Gate) (cs : List Control) (w : Nat) : (g.withControls cs).act w = g.act w := by
  cases g <;> rfl

theorem targets_eq_of_sameAction {g h : Gate} (hs : sameAction g h = true) : g.targets = h.targets := by
  unfold sameAction at hs
  rw [Bool.and_eq_true] at hs
  exact eq_of_beq hs.2

/-- two gates with the same action act together where exactly one of them is active. -/
theorem apply_apply_of_sameAction {g h : Gate} (hh : h.Normal) (hs : sameAction g h = true) (w : Nat) :
    h.apply (g.apply w) = if g.isActive w ^^ h.isActive w then g.act w else w := by
  have ht := targets_eq_of_sameAction hs
  have hha : h.isActive (g.apply w) = h.isActive w :=
    isActive_apply_of_unread (fun t hmem c hc e => hh.off_targets c hc (by rw [e, ← ht]; exact hmem)) w
  cases hgw : g.isActive w <;> cases hhw : h.isActive w <;> rw [hhw] at hha
  · rw [apply_of_not_isActive hha, apply_of_not_isActive hgw]
    rfl
  · rw [apply_of_isActive hha, apply_of_not_isActive hgw, act_eq_of_sameAction hs]
    rfl
  · rw [apply_of_not_isActive hha, apply_of_isActive hgw]
    rfl
  · rw [apply_of_isActive hha, apply_of_isActive hgw, ← act_eq_of_sameAction hs, act_act]
    rfl

/-- **Cancelled gates undo each other.** -/
theorem merge_cancelled {g h : Gate} (hh : h.Normal) (hm : merge g h = some .cancelled) (w : Nat) :
    h.apply (g.apply w) = w := by
  unfold merge at hm
  split at hm
  · cases hm
  · next hs =>
    split at hm
    · next hc =>
      rw [apply_apply_of_sameAction hh (by simpa using hs), isActive, isActive, hc, Bool.xor_self]
      rfl
    · cases hx : xorControls? g.controls h.controls <;> rw [hx] at hm <;> cases hm

/-- **A merged gate is in normal form and computes both gates.** -/
theorem merge_single {g h k : Gate} {n : Nat} (hg : g.Proper n) (hh : h.Proper n)
    (hm : merge g h = some (.single k)) : k.Proper n ∧ ∀ w, k.apply w = h.apply (g.apply w) := by
  unfold merge at hm
  split at hm
  · cases hm
  · next hs =>
    have hs : sameAction g h = true := by simpa using hs
    split at hm
    · cases hm
    · cases hx : xorControls? g.controls h.controls with
      | none => rw [hx] at hm; cases hm
      | some cs =>
        rw [hx] at hm
        cases hm
        have hxor := isXor_of_xorControls? hg.1.controls_lt hh.1.controls_lt hx
        have ht := targets_eq_of_sameAction hs
        have hoff : ∀ c ∈ cs, c.line ∉ g.targets := by
          intro c hc
          obtain ⟨d, hd | hd, e⟩ := hxor.line_mem c hc
          · rw [← e]
            exact hg.1.off_targets d hd
          · rw [← e, ht]
            exact hh.1.off_targets d hd
        have hlt : ∀ c ∈ cs, c.line < n := by
          intro c hc
          obtain ⟨d, hd | hd, e⟩ := hxor.line_mem c hc
          · rw [← e]
            exact hg.2.1 d hd
          · rw [← e]
            exact hh.2.1 d hd
        refine ⟨⟨⟨?_, ?_, ?_⟩, ?_, ?_⟩, fun w => ?_⟩
        · rw [controls_withControls]
          exact hxor.controls_lt
        · rw [targets_withControls]
          exact hg.1.targets_lt
        · rw [controls_withControls, targets_withControls]
          exact hoff
        · rw [controls_withControls]
          exact hlt
        · rw [targets_withControls]
          exact hg.2.2
        · have hact : (g.withControls cs).isActive w = (g.isActive w ^^ h.isActive w) := by
            rw [isActive, controls_withControls]
            exact hxor.satisfied w
          rw [apply_apply_of_sameAction hh.1 hs, apply, hact, act_withControls]

/-! ### placing a gate -/

theorem proper_of_merge {g h k : Gate} {n : Nat} (hg : g.Proper n) (hh : h.Proper n)
    (hm : merge g h = some (.single k)) : k.Proper n := (merge_single hg hh hm).1

/-- a gate that commutes with all gates of a cascade moves to its front. -/
theorem applyAll_comm {gs : List Gate} {g : Gate} (h : ∀ h ∈ gs, ∀ w, g.apply (h.apply w) = h.apply (g.apply w))
    (w : Nat) : applyAll (gs ++ [g]) w = applyAll (g :: gs) w := by
  induction gs generalizing w with
  | nil => rfl
  | cons k gs ih =>
    have ih := ih (fun h' hmem => h h' (List.mem_cons_of_mem _ hmem)) (k.apply w)
    rw [List.cons_append, applyAll_cons, ih, applyAll_cons, applyAll_cons, applyAll_cons,
      h k List.mem_cons_self]

/-- **Folding a gate in keeps the function of the side.** The gates in `passed` commute with the new gate. -/
theorem applyAll_placeBehind {n : Nat} {gate : Gate} {passed earlier : List Gate} (hgate : gate.Proper n)
    (hpassed : ∀ g ∈ passed, ∀ w, gate.apply (g.apply w) = g.apply (gate.apply w))
    (hearlier : ∀ g ∈ earlier, g.Proper n) (w : Nat) :
    applyAll (placeBehind gate passed earlier).reverse w = applyAll (earlier.reverse ++ (passed ++ [gate])) w := by
  induction earlier generalizing gate passed with
  | nil => simp [placeBehind]
  | cons g earlier ih =>
    have hg := hearlier g List.mem_cons_self
    have hrest : ∀ h ∈ earlier, h.Proper n := fun h hmem => hearlier h (List.mem_cons_of_mem _ hmem)
    rw [placeBehind]
    split
    · next hm =>
      simp only [List.reverse_append, List.reverse_reverse, List.reverse_cons, List.append_assoc, applyAll_append]
      rw [← applyAll_append passed [gate], applyAll_comm hpassed, applyAll_cons, applyAll_cons, applyAll_nil,
        merge_cancelled hgate.1 hm]
    · next k hm =>
      obtain ⟨hk, hkg⟩ := merge_single hg hgate hm
      have ih := ih hk (List.forall_mem_nil _) hrest
      simp only [List.nil_append, applyAll_append, applyAll_cons, applyAll_nil] at ih
      simp only [List.reverse_append, List.reverse_reverse, List.reverse_cons, List.append_assoc, applyAll_append]
      rw [ih, hkg, ← applyAll_append passed [gate], applyAll_comm hpassed]
      rfl
    · split
      · next hc =>
        have hcomm : ∀ h ∈ g :: passed, ∀ w, gate.apply (h.apply w) = h.apply (gate.apply w) := by
          intro h hmem v
          rcases List.mem_cons.1 hmem with rfl | hmem
          · exact apply_comm_of_commutes hg.1 hgate.1 hc v
          · exact hpassed h hmem v
        rw [ih hgate hcomm hrest]
        simp
      · simp

theorem length_placeBehind (gate : Gate) (passed earlier : List Gate) :
    (placeBehind gate passed earlier).length ≤ earlier.length + passed.length + 1 := by
  induction earlier generalizing gate passed with
  | nil => simp [placeBehind]
  | cons g earlier ih =>
    rw [placeBehind]
    split
    · simp only [List.length_append, List.length_reverse, List.length_cons]
      omega
    · next k hm =>
      have := ih k []
      simp only [List.length_append, List.length_reverse, List.length_cons, List.length_nil] at *
      omega
    · split
      · have := ih gate (g :: passed)
        simp only [List.length_cons] at *
        omega
      · simp only [List.length_cons, List.length_append, List.length_reverse]
        omega

theorem placeBehind_proper {n : Nat} {gate : Gate} {passed earlier : List Gate} (hgate : gate.Proper n)
    (hpassed : ∀ g ∈ passed, g.Proper n) (hearlier : ∀ g ∈ earlier, g.Proper n) :
    ∀ g ∈ placeBehind gate passed earlier, g.Proper n := by
  induction earlier generalizing gate passed with
  | nil =>
    simp only [placeBehind, List.mem_cons, List.mem_reverse, forall_eq_or_imp]
    exact ⟨hgate, hpassed⟩
  | cons g earlier ih =>
    have hg := hearlier g List.mem_cons_self
    have hrest : ∀ h ∈ earlier, h.Proper n := fun h hmem => hearlier h (List.mem_cons_of_mem _ hmem)
    rw [placeBehind]
    split
    · simp only [List.mem_append, List.mem_reverse]
      exact fun h hmem => hmem.elim (hpassed h) (hrest h)
    · next k hm =>
      have hk := ih (proper_of_merge hg hgate hm) (List.forall_mem_nil _) hrest
      simp only [List.mem_append, List.mem_reverse]
      exact fun h hmem => hmem.elim (hpassed h) (hk h)
    · split
      · exact ih hgate (List.forall_mem_cons.2 ⟨hg, hpassed⟩) hrest
      · simp only [List.mem_cons, List.mem_append, List.mem_reverse, forall_eq_or_imp]
        refine ⟨hgate, fun h hmem => ?_⟩
        rcases hmem with hmem | rfl | hmem
        · exact hpassed h hmem
        · exact hg
        · exact hrest h hmem

/-! ### three Toffoli gates that are a Fredkin gate -/

theorem withoutPositive?_eq_some {cs ds : List Control} {line : Nat} (h : withoutPositive? cs line = some ds) :
    (⟨line, true⟩ : Control) ∈ cs ∧ ds = cs.filter (·.line != line) := by
  unfold withoutPositive? at h
  split at h
  · next hc => exact ⟨by simpa using hc, (Option.some.inj h).symm⟩
  · cases h

theorem allSatisfied_withoutPositive? {cs ds : List Control} {line : Nat}
    (hcs : cs.Pairwise (fun c d => c.line < d.line)) (h : withoutPositive? cs line = some ds) (w : Nat) :
    allSatisfied cs w = (w.testBit line && allSatisfied ds w) := by
  obtain ⟨hmem, rfl⟩ := withoutPositive?_eq_some h
  rw [Bool.eq_iff_iff, Bool.and_eq_true, allSatisfied_iff, allSatisfied_iff]
  constructor
  · intro hall
    refine ⟨by simpa [Control.isSatisfied] using hall _ hmem, fun c hc => hall c (List.mem_filter.1 hc).1⟩
  · rintro ⟨hline, hall⟩ c hc
    by_cases hcl : c.line = line
    · rw [eq_of_line_eq hcs hc hmem hcl]
      simpa [Control.isSatisfied] using hline
    · exact hall c (List.mem_filter.2 ⟨hc, by simpa using hcl⟩)

/-- flipping `a` under `b`, then `b` under `a`, then `a` under `b` exchanges the two lines. -/
theorem apply_exchange {cs ds common : List Control} {a b : Nat} (hab : a ≠ b)
    (hoff : ∀ c ∈ common, c.line ≠ a ∧ c.line ≠ b)
    (hcs : ∀ w, allSatisfied cs w = (w.testBit b && allSatisfied common w))
    (hds : ∀ w, allSatisfied ds w = (w.testBit a && allSatisfied common w)) (w : Nat) :
    (toffoli cs a).apply ((toffoli ds b).apply ((toffoli cs a).apply w)) =
      (fredkin common (min a b) (max a b)).apply w := by
  have hkeep : ∀ v t, (t = a ∨ t = b) → ∀ es, allSatisfied common ((toffoli es t).apply v) = allSatisfied common v := by
    intro v t ht es
    refine allSatisfied_congr fun c hc => testBit_apply ?_ v
    obtain ⟨h1, h2⟩ := hoff c hc
    simp only [targets, List.mem_singleton]
    rcases ht with rfl | rfl <;> assumption
  apply Nat.eq_of_testBit_eq
  intro i
  rw [testBit_apply_fredkin]
  simp only [testBit_apply_toffoli, hcs, hds, hkeep _ a (Or.inl rfl), hkeep _ b (Or.inr rfl)]
  have hba : b ≠ a := Ne.symm hab
  cases allSatisfied common w with
  | false => simp
  | true =>
    by_cases hia : i = a
    · subst hia
      rcases Nat.le_total i b with hle | hle <;>
        cases hwi : w.testBit i <;> cases hwb : w.testBit b <;> simp [*]
    · by_cases hib : i = b
      · subst hib
        rcases Nat.le_total a i with hle | hle <;>
          cases hwi : w.testBit i <;> cases hwa : w.testBit a <;> simp [*]
      · have h1 : i ≠ min a b := by omega
        have h2 : i ≠ max a b := by omega
        simp [h1, h2, Ne.symm hia, Ne.symm hib]

/-- **The merged Fredkin gate is in normal form and computes the three Toffoli gates.** -/
theorem fredkinOf?_eq_some {g h k : Gate} {n : Nat} (hg : g.Proper n) (hh : h.Proper n) (hm : fredkinOf? g h = some k) :
    k.Proper n ∧ ∀ w, k.apply w = g.apply (h.apply (g.apply w)) := by
  cases g with
  | fredkin cs a b => cases h <;> cases hm
  | toffoli cs a =>
    cases h with
    | fredkin ds c d => cases hm
    | toffoli ds b =>
      simp only [fredkinOf?, Option.bind_eq_bind, Option.bind_eq_some_iff] at hm
      obtain ⟨common, hcommon, other, hother, hm⟩ := hm
      split at hm
      · next heq =>
        subst heq
        have hcs := allSatisfied_withoutPositive? hg.1.controls_lt hcommon
        have hds := allSatisfied_withoutPositive? hh.1.controls_lt hother
        obtain ⟨-, hfilter⟩ := withoutPositive?_eq_some hcommon
        have hlt : common.Pairwise (fun c d => c.line < d.line) := by
          rw [hfilter]
          exact hg.1.controls_lt.filter _
        have hsub : ∀ c ∈ common, c ∈ cs := fun c hc => by
          rw [hfilter] at hc
          exact (List.mem_filter.1 hc).1
        cases hk : fredkin? common a b with
        | error e => rw [hk] at hm; cases hm
        | ok f =>
          rw [hk] at hm
          cases hm
          obtain ⟨hab, rfl, -, hoff⟩ := fredkin?_eq_ok.1 hk
          rw [sortControls_of_pairwise hlt] at hoff hk ⊢
          have ha : a < n := hg.2.2 a (by simp [targets])
          have hb : b < n := hh.2.2 b (by simp [targets])
          refine ⟨⟨normal_of_fredkin? hk, fun c hc => hg.2.1 c (hsub c hc), ?_⟩, fun w => ?_⟩
          · simp only [targets, List.mem_cons, List.not_mem_nil, or_false, forall_eq_or_imp, forall_eq]
            omega
          · exact (apply_exchange hab (fun c hc => by simpa using hoff c hc) hcs hds w).symm
      · cases hm

theorem applyAll_mergeFredkin {n : Nat} {gates : List Gate} (h : ∀ g ∈ gates, g.Proper n) (w : Nat) :
    applyAll (mergeFredkin gates).reverse w = applyAll gates.reverse w := by
  unfold mergeFredkin
  split
  · next third second first earlier =>
    split
    · next heq =>
      subst heq
      split
      · next f hf =>
        obtain ⟨-, hw⟩ := fredkinOf?_eq_some (h first (by simp)) (h second (by simp)) hf
        simp [hw]
      · rfl
    · rfl
  · rfl

theorem mergeFredkin_proper {n : Nat} {gates : List Gate} (h : ∀ g ∈ gates, g.Proper n) :
    ∀ g ∈ mergeFredkin gates, g.Proper n := by
  unfold mergeFredkin
  split
  · next third second first earlier =>
    split
    · split
      · next f hf =>
        obtain ⟨hfp, -⟩ := fredkinOf?_eq_some (h first (by simp)) (h second (by simp)) hf
        exact List.forall_mem_cons.2 ⟨hfp, fun g hg => h g (by simp [hg])⟩
      · exact h
    · exact h
  · exact h

theorem length_mergeFredkin_le (gates : List Gate) : (mergeFredkin gates).length ≤ gates.length := by
  unfold mergeFredkin
  split
  · split
    · split
      · simp only [List.length_cons]
        omega
      · exact Nat.le_refl _
    · exact Nat.le_refl _
  · exact Nat.le_refl _

end Transform

end ReversibleLogic
