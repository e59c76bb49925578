import Mathlib.Data.List.Nodup
import Mathlib.Tactic.Common
import ReversibleLogic.Gate.Checked
import ReversibleLogic.Proofs.Words

/-!
# Gates in normal form

* `Normal` — controls on ascending lines, targets ascending, no target controlled: the rules of the checked
  constructors;
* `Built` — the gates that the checked constructors return; they are exactly the normal ones (`built_iff_normal`);
* `Within n` — all lines of the gate are below `n` (`maxLine_lt_iff`);
* `Proper n` — both.
-/

namespace ReversibleLogic

/-! ### the order of controls -/

namespace Control

theorem le_iff {c d : Control} :
    c.le d = true ↔ c.line < d.line ∨ (c.line = d.line ∧ (c.positive = true → d.positive = true)) := by
  cases hc : c.positive <;> cases hd : d.positive <;> simp [le, hc, hd]

theorem le_total (c d : Control) : c.le d = true ∨ d.le c = true := by
  rw [le_iff, le_iff]
  rcases Nat.lt_trichotomy c.line d.line with h | h | h
  · exact Or.inl (Or.inl h)
  · cases hc : c.positive
    · exact Or.inl (Or.inr ⟨h, by simp⟩)
    · exact Or.inr (Or.inr ⟨h.symm, fun _ => rfl⟩)
  · exact Or.inr (Or.inl h)

theorem le_trans {c d e : Control} (h : c.le d = true) (h' : d.le e = true) : c.le e = true := by
  rw [le_iff] at *
  rcases h with h | ⟨h, hp⟩ <;> rcases h' with h' | ⟨h', hp'⟩
  · left; omega
  · left; omega
  · left; omega
  · exact Or.inr ⟨h.trans h', fun hc => hp' (hp hc)⟩

theorem line_le_of_le {c d : Control} (h : c.le d = true) : c.line ≤ d.line := by
  rcases le_iff.1 h with h | ⟨h, -⟩ <;> omega

end Control

namespace Gate

/-! ### sorting -/

theorem insertControl_perm (c : Control) (ds : List Control) : (insertControl c ds).Perm (c :: ds) := by
  induction ds with
  | nil => exact List.Perm.refl _
  | cons d ds ih =>
    rw [insertControl]
    split
    · exact List.Perm.refl _
    · exact (ih.cons d).trans (List.Perm.swap c d ds)

theorem sortControls_perm (cs : List Control) : (sortControls cs).Perm cs := by
  induction cs with
  | nil => exact List.Perm.refl _
  | cons c cs ih => exact (insertControl_perm c _).trans (ih.cons c)

@[simp] theorem mem_sortControls {c : Control} {cs : List Control} : c ∈ sortControls cs ↔ c ∈ cs :=
  (sortControls_perm cs).mem_iff

theorem insertControl_pairwise {c : Control} {ds : List Control} (h : ds.Pairwise (fun c d => c.le d = true)) :
    (insertControl c ds).Pairwise (fun c d => c.le d = true) := by
  induction ds with
  | nil => simp [insertControl]
  | cons d ds ih =>
    obtain ⟨hd, hds⟩ := List.pairwise_cons.1 h
    rw [insertControl]
    split
    · next hc =>
      refine List.pairwise_cons.2 ⟨fun e he => ?_, h⟩
      rcases List.mem_cons.1 he with rfl | he
      · exact hc
      · exact Control.le_trans hc (hd e he)
    · next hc =>
      refine List.pairwise_cons.2 ⟨fun e he => ?_, ih hds⟩
      rcases List.mem_cons.1 ((insertControl_perm c ds).mem_iff.1 he) with rfl | he
      · exact (Control.le_total e d).resolve_left hc
      · exact hd e he

theorem sortControls_pairwise (cs : List Control) : (sortControls cs).Pairwise (fun c d => c.le d = true) := by
  induction cs with
  | nil => exact List.Pairwise.nil
  | cons c cs ih => exact insertControl_pairwise ih

theorem sortControls_lines {cs : List Control} (h : (cs.map Control.line).Nodup) :
    (sortControls cs).Pairwise (fun c d => c.line < d.line) := by
  have hn : (sortControls cs).Pairwise (fun c d => c.line ≠ d.line) :=
    List.pairwise_map.1 ((((sortControls_perm cs).map Control.line).nodup_iff).2 h)
  have hs := sortControls_pairwise cs
  exact (hs.and hn).imp fun ⟨hle, hne⟩ => Nat.lt_of_le_of_ne (Control.line_le_of_le hle) hne

theorem lines_nodup {cs : List Control} (h : cs.Pairwise (fun c d => c.line < d.line)) :
    (cs.map Control.line).Nodup :=
  List.pairwise_map.2 (h.imp Nat.ne_of_lt)

theorem eq_of_line_eq {cs : List Control} (h : cs.Pairwise (fun c d => c.line < d.line)) {c d : Control}
    (hc : c ∈ cs) (hd : d ∈ cs) (e : c.line = d.line) : c = d :=
  List.inj_on_of_nodup_map (lines_nodup h) hc hd e

theorem sortControls_of_pairwise {cs : List Control} (h : cs.Pairwise (fun c d => c.line < d.line)) :
    sortControls cs = cs := by
  induction cs with
  | nil => rfl
  | cons c cs ih =>
    obtain ⟨hc, hcs⟩ := List.pairwise_cons.1 h
    show insertControl c (sortControls cs) = c :: cs
    rw [ih hcs]
    cases cs with
    | nil => rfl
    | cons d cs =>
      have : c.le d = true := Control.le_iff.2 (Or.inl (hc d (by simp)))
      rw [insertControl, if_pos this]

theorem repeatedLine?_eq_none {cs : List Control} (h : cs.Pairwise (fun c d => c.le d = true)) :
    repeatedLine? cs = none ↔ cs.Pairwise (fun c d => c.line < d.line) := by
  induction cs with
  | nil => simp [repeatedLine?]
  | cons c cs ih =>
    obtain ⟨hc, hcs⟩ := List.pairwise_cons.1 h
    cases cs with
    | nil => simp [repeatedLine?]
    | cons d ds =>
      have hle := Control.line_le_of_le (hc d (by simp))
      rw [repeatedLine?]
      split
      · next he =>
        simp only [reduceCtorEq, false_iff]
        intro hp
        have := (List.pairwise_cons.1 hp).1 d (by simp)
        omega
      · next he =>
        rw [ih hcs]
        refine ⟨fun hp => List.pairwise_cons.2 ⟨fun e hmem => ?_, hp⟩, fun hp => (List.pairwise_cons.1 hp).2⟩
        rcases List.mem_cons.1 hmem with rfl | hmem
        · omega
        · have := (List.pairwise_cons.1 hp).1 e hmem
          omega

/-! ### the checked constructors -/

theorem checkControls_eq_ok {cs ds : List Control} {targets : List Nat} :
    checkControls cs targets = .ok ds ↔
      ds = sortControls cs ∧ ds.Pairwise (fun c d => c.line < d.line) ∧ ∀ c ∈ ds, c.line ∉ targets := by
  have hs := repeatedLine?_eq_none (sortControls_pairwise cs)
  unfold checkControls
  simp only
  split
  · next line he =>
    simp only [reduceCtorEq, false_iff]
    rintro ⟨rfl, hp, -⟩
    rw [hs.2 hp] at he
    cases he
  · next he =>
    have hp := hs.1 he
    split
    · next c hc =>
      simp only [reduceCtorEq, false_iff]
      rintro ⟨rfl, -, hoff⟩
      have hmem := List.mem_of_find?_eq_some hc
      have := List.find?_some hc
      exact hoff c hmem (by simpa using this)
    · next hnone =>
      simp only [Except.ok.injEq]
      constructor
      · rintro rfl
        refine ⟨rfl, hp, fun c hc => ?_⟩
        simpa using List.find?_eq_none.1 hnone c hc
      · rintro ⟨rfl, -, -⟩
        rfl

/-- the rules that a checked constructor enforces. -/
structure Normal (g : Gate) : Prop where
  controls_lt : g.controls.Pairwise (fun c d => c.line < d.line)
  targets_lt : g.targets.Pairwise (· < ·)
  off_targets : ∀ c ∈ g.controls, c.line ∉ g.targets

/-- the gates that the checked constructors return. -/
inductive Built : Gate → Prop
  | toffoli {cs : List Control} {t : Nat} {g : Gate} (h : toffoli? cs t = .ok g) : Built g
  | fredkin {cs : List Control} {a b : Nat} {g : Gate} (h : fredkin? cs a b = .ok g) : Built g
  | inverter (t : Nat) : Built (inverter t)
  | controlledNot {c t : Nat} {g : Gate} (h : controlledNot? c t = .ok g) : Built g

theorem normal_toffoli {cs : List Control} {t : Nat} (h : cs.Pairwise (fun c d => c.line < d.line))
    (ht : ∀ c ∈ cs, c.line ≠ t) : (toffoli cs t).Normal :=
  ⟨h, by simp [targets], fun c hc => by simpa [targets] using ht c hc⟩

theorem normal_fredkin {cs : List Control} {a b : Nat} (h : cs.Pairwise (fun c d => c.line < d.line)) (hab : a < b)
    (ht : ∀ c ∈ cs, c.line ≠ a ∧ c.line ≠ b) : (fredkin cs a b).Normal :=
  ⟨h, by simpa [targets] using hab, fun c hc => by simpa [targets] using ht c hc⟩

/-- a checked Toffoli gate has its controls sorted, on different lines off the target. -/
theorem toffoli?_eq_ok {cs : List Control} {t : Nat} {g : Gate} :
    toffoli? cs t = .ok g ↔ g = toffoli (sortControls cs) t ∧
      (sortControls cs).Pairwise (fun c d => c.line < d.line) ∧ ∀ c ∈ sortControls cs, c.line ∉ [t] := by
  unfold toffoli?
  cases hc : checkControls cs [t] with
  | error e =>
    constructor
    · intro h; cases h
    · rintro ⟨-, hlt, hoff⟩
      rw [checkControls_eq_ok.2 ⟨rfl, hlt, hoff⟩] at hc
      cases hc
  | ok ds =>
    obtain ⟨rfl, hlt, hoff⟩ := checkControls_eq_ok.1 hc
    constructor
    · intro h
      cases h
      exact ⟨rfl, hlt, hoff⟩
    · rintro ⟨rfl, -, -⟩
      rfl

/-- a checked Fredkin gate has its controls sorted, on different lines off the targets, which are sorted too. -/
theorem fredkin?_eq_ok {cs : List Control} {a b : Nat} {g : Gate} :
    fredkin? cs a b = .ok g ↔ a ≠ b ∧ g = fredkin (sortControls cs) (min a b) (max a b) ∧
      (sortControls cs).Pairwise (fun c d => c.line < d.line) ∧ ∀ c ∈ sortControls cs, c.line ∉ [a, b] := by
  unfold fredkin?
  split
  · next hab => simp [hab]
  · next hab =>
    cases hc : checkControls cs [a, b] with
    | error e =>
      constructor
      · intro h; cases h
      · rintro ⟨-, -, hlt, hoff⟩
        rw [checkControls_eq_ok.2 ⟨rfl, hlt, hoff⟩] at hc
        cases hc
    | ok ds =>
      obtain ⟨rfl, hlt, hoff⟩ := checkControls_eq_ok.1 hc
      constructor
      · intro h
        cases h
        exact ⟨hab, rfl, hlt, hoff⟩
      · rintro ⟨-, rfl, -, -⟩
        rfl

theorem normal_of_toffoli? {cs : List Control} {t : Nat} {g : Gate} (h : toffoli? cs t = .ok g) : g.Normal := by
  obtain ⟨rfl, hlt, hoff⟩ := toffoli?_eq_ok.1 h
  exact normal_toffoli hlt fun c hc => by simpa using hoff c hc

theorem normal_of_fredkin? {cs : List Control} {a b : Nat} {g : Gate} (h : fredkin? cs a b = .ok g) : g.Normal := by
  obtain ⟨hab, rfl, hlt, hoff⟩ := fredkin?_eq_ok.1 h
  refine normal_fredkin hlt (by omega) ?_
  intro c hc
  have hmem := hoff c hc
  simp only [List.mem_cons, List.not_mem_nil, or_false, not_or] at hmem
  omega

theorem toffoli?_of_normal {cs : List Control} {t : Nat} (h : (toffoli cs t).Normal) :
    toffoli? cs t = .ok (toffoli cs t) := by
  have hs : sortControls cs = cs := sortControls_of_pairwise h.controls_lt
  rw [toffoli?_eq_ok, hs]
  exact ⟨rfl, h.controls_lt, h.off_targets⟩

theorem fredkin?_of_normal {cs : List Control} {a b : Nat} (h : (fredkin cs a b).Normal) :
    fredkin? cs a b = .ok (fredkin cs a b) := by
  have hab : a < b := by simpa [targets] using h.targets_lt
  have hs : sortControls cs = cs := sortControls_of_pairwise h.controls_lt
  rw [fredkin?_eq_ok, hs, Nat.min_eq_left (Nat.le_of_lt hab), Nat.max_eq_right (Nat.le_of_lt hab)]
  exact ⟨Nat.ne_of_lt hab, rfl, h.controls_lt, h.off_targets⟩

/-- **The checked constructors return exactly the gates in normal form.** -/
theorem built_iff_normal {g : Gate} : g.Built ↔ g.Normal := by
  constructor
  · intro h
    cases h with
    | toffoli h => exact normal_of_toffoli? h
    | fredkin h => exact normal_of_fredkin? h
    | inverter t => exact normal_toffoli List.Pairwise.nil (by simp)
    | controlledNot h => exact normal_of_toffoli? h
  · intro h
    cases g with
    | toffoli cs t => exact .toffoli (toffoli?_of_normal h)
    | fredkin cs a b => exact .fredkin (fredkin?_of_normal h)

/-! ### lines -/

/-- all lines of the gate are below `n`. -/
def Within (g : Gate) (n : Nat) : Prop := (∀ c ∈ g.controls, c.line < n) ∧ ∀ t ∈ g.targets, t < n

/-- a gate in normal form on lines below `n`. -/
def Proper (g : Gate) (n : Nat) : Prop := g.Normal ∧ g.Within n

theorem foldl_max_lt_iff {ls : List Nat} {m n : Nat} : ls.foldl max m < n ↔ m < n ∧ ∀ l ∈ ls, l < n := by
  induction ls generalizing m with
  | nil => simp
  | cons l ls ih =>
    rw [List.foldl_cons, ih, List.forall_mem_cons]
    constructor
    · rintro ⟨h, h'⟩
      exact ⟨by omega, by omega, h'⟩
    · rintro ⟨h, h', h''⟩
      exact ⟨by omega, h''⟩

theorem maxLine_lt_iff {g : Gate} {n : Nat} : g.maxLine < n ↔ g.Within n := by
  have hpos : g.Within n → 0 < n := by
    intro h
    cases g with
    | toffoli cs t => exact Nat.zero_lt_of_lt (h.2 t (by simp [targets]))
    | fredkin cs a b => exact Nat.zero_lt_of_lt (h.2 a (by simp [targets]))
  have hmem : (∀ l ∈ g.controls.map Control.line ++ g.targets, l < n) ↔ g.Within n := by
    rw [List.forall_mem_append, List.forall_mem_map]
    rfl
  rw [maxLine, foldl_max_lt_iff, hmem]
  exact ⟨fun h => h.2, fun h => ⟨hpos h, h⟩⟩

theorem within_toffoli {cs : List Control} {t n : Nat} :
    (toffoli (sortControls cs) t).Within n ↔ (toffoli cs t).Within n := by
  simp only [Within, controls, targets, mem_sortControls]

theorem within_fredkin {cs : List Control} {a b n : Nat} :
    (fredkin (sortControls cs) (min a b) (max a b)).Within n ↔ (fredkin cs a b).Within n := by
  have htargets : (∀ t ∈ [min a b, max a b], t < n) ↔ ∀ t ∈ [a, b], t < n := by
    simp only [List.forall_mem_cons, List.not_mem_nil, false_implies, implies_true, and_true]
    omega
  simp only [Within, controls, targets, mem_sortControls, htargets]

end Gate

end ReversibleLogic
