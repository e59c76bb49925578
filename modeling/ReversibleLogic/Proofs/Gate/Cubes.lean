import Mathlib.Data.List.Sort
import ReversibleLogic.Proofs.Gate.Cascade

/-!
# Cubes

A list of controls stands for the cube of the words that satisfy it.

* `Consistent` — no control contradicts another one, so some word satisfies them all (`exists_satisfied`);
* `Ascending n` — controls as a gate on `n` lines has them, on ascending lines;
* `subset_of_imp`, `eq_of_allSatisfied` — a cube within another one has all its controls, and equal cubes have equal
  sorted lists;
* `Splits x r p q` — the control `x` cuts the cube `r` into `p` and `q`;
* `exists_splits_of_xor` — if the words in exactly one of two cubes are a cube, then one of the three is cut into the
  other two;
* `exists_moved`, `sameKind_of_act_eq` — what a gate moves tells its kind and its targets.
-/

namespace ReversibleLogic

theorem Control.flip_ne (c : Control) : c.flip ≠ c := by
  cases c with
  | mk line positive => cases positive <;> simp [Control.flip]

namespace Gate

variable {a b c p q r cs : List Control} {x d : Control} {g k : Gate} {n w i : Nat}

/-! ### words of a cube -/

/-- no control contradicts another one. -/
def Consistent (cs : List Control) : Prop := ∀ d ∈ cs, d.flip ∉ cs

theorem consistent_cons : Consistent (x :: cs) ↔ x.flip ∉ cs ∧ Consistent cs := by
  constructor
  · intro h
    exact ⟨fun hx => h x List.mem_cons_self (List.mem_cons_of_mem _ hx), fun d hd hflip =>
      h d (List.mem_cons_of_mem _ hd) (List.mem_cons_of_mem _ hflip)⟩
  · rintro ⟨hx, hcs⟩ d hd hflip
    rcases List.mem_cons.1 hd with rfl | hd <;> rcases List.mem_cons.1 hflip with he | hflip
    · exact d.flip_ne he
    · exact hx hflip
    · exact hx (by rwa [← he, Control.flip_flip])
    · exact hcs d hd hflip

theorem Consistent.append (hp : Consistent p) (hq : Consistent q) (h : ∀ d ∈ p, d.flip ∉ q) : Consistent (p ++ q) := by
  intro d hd hflip
  rcases List.mem_append.1 hd with hd | hd <;> rcases List.mem_append.1 hflip with hflip | hflip
  · exact hp d hd hflip
  · exact h d hd hflip
  · exact h d.flip hflip (by rwa [Control.flip_flip])
  · exact hq d hd hflip

/-- **Consistent controls are satisfied** by a word. -/
theorem exists_satisfied (hcs : Consistent cs) (hn : ∀ d ∈ cs, d.line < n) :
    ∃ w < 2 ^ n, allSatisfied cs w = true := by
  refine ⟨Word.ofBits ((List.range n).map fun i => cs.contains ⟨i, true⟩), ?_, allSatisfied_iff.2 fun d hd => ?_⟩
  · simpa using Word.ofBits_lt ((List.range n).map fun i => cs.contains ⟨i, true⟩)
  · have hbit : (Word.ofBits ((List.range n).map fun i => cs.contains ⟨i, true⟩)).testBit d.line =
        cs.contains ⟨d.line, true⟩ := by simp [hn d hd]
    rw [Control.isSatisfied, hbit, beq_iff_eq]
    cases d with
    | mk line positive =>
      cases positive with
      | true => exact List.contains_iff_mem.2 hd
      | false =>
        rw [← Bool.not_eq_true, List.contains_iff_mem]
        exact hcs _ hd

theorem not_isSatisfied_flip (h : d.isSatisfied w = true) : ¬ d.flip.isSatisfied w = true := by
  rw [Control.isSatisfied_flip, h]
  exact Bool.false_ne_true

/-- controls on ascending lines below `n`. -/
structure Ascending (n : Nat) (cs : List Control) : Prop where
  pairwise : cs.Pairwise fun c d => c.line < d.line
  lt : ∀ d ∈ cs, d.line < n

theorem Proper.ascending (hg : g.Proper n) : Ascending n g.controls := ⟨hg.1.controls_lt, hg.2.1⟩

theorem Ascending.nodup (h : Ascending n cs) : cs.Nodup := (lines_nodup h.pairwise).of_map _

theorem Ascending.consistent (h : Ascending n cs) : Consistent cs := by
  intro d hd hflip
  exact d.flip_ne (eq_of_line_eq h.pairwise hflip hd rfl)

theorem Ascending.exists_satisfied (h : Ascending n cs) : ∃ w < 2 ^ n, allSatisfied cs w = true :=
  Gate.exists_satisfied h.consistent h.lt

theorem subset_of_imp (ha : Ascending n a) (hb : Ascending n b)
    (h : ∀ w < 2 ^ n, allSatisfied a w = true → allSatisfied b w = true) : ∀ d ∈ b, d ∈ a := by
  intro d hd
  by_contra hnot
  -- some word of `a` violates `d`
  have hcons : Consistent (d.flip :: a) := consistent_cons.2 ⟨by rwa [Control.flip_flip], ha.consistent⟩
  obtain ⟨w, hw, hsat⟩ := exists_satisfied hcons (List.forall_mem_cons.2 ⟨hb.lt d hd, ha.lt⟩)
  obtain ⟨hflip, haw⟩ := List.forall_mem_cons.1 (allSatisfied_iff.1 hsat)
  exact not_isSatisfied_flip (allSatisfied_iff.1 (h w hw (allSatisfied_iff.2 haw)) d hd) hflip

/-- **Equal cubes have equal controls.** -/
theorem eq_of_allSatisfied (ha : Ascending n a) (hb : Ascending n b)
    (h : ∀ w < 2 ^ n, allSatisfied a w = allSatisfied b w) : a = b := by
  have hsub : ∀ d ∈ b, d ∈ a := subset_of_imp ha hb fun w hw hsat => (h w hw).symm.trans hsat
  have hsub' : ∀ d ∈ a, d ∈ b := subset_of_imp hb ha fun w hw hsat => (h w hw).trans hsat
  have hperm : a.Perm b := (List.perm_ext_iff_of_nodup ha.nodup hb.nodup).2 fun d => ⟨hsub' d, hsub d⟩
  exact hperm.eq_of_pairwise (fun c d _ _ hlt hgt => absurd hlt (Nat.not_lt_of_gt hgt)) ha.pairwise hb.pairwise

/-! ### cubes that make up a cube -/

/-- the control `x` cuts the cube `r` into `p`, where it is satisfied, and `q`, where it is not. -/
structure Splits (x : Control) (r p q : List Control) : Prop where
  not_mem : x ∉ r
  flip_not_mem : x.flip ∉ r
  mem_left : ∀ d, d ∈ p ↔ d = x ∨ d ∈ r
  mem_right : ∀ d, d ∈ q ↔ d = x.flip ∨ d ∈ r

theorem filter_eq_singleton (hp : p.Nodup) (hx : x ∈ p) (hxq : x ∉ q) (h : ∀ d ∈ p, d = x ∨ d ∈ q) :
    p.filter (!q.contains ·) = [x] := by
  have hmem : ∀ d, d ∈ p.filter (!q.contains ·) ↔ d ∈ [x] := by
    intro d
    rw [List.mem_filter, List.mem_singleton, Bool.not_eq_true', ← Bool.not_eq_true, List.contains_iff_mem]
    constructor
    · rintro ⟨hd, hdq⟩
      exact (h d hd).resolve_right hdq
    · rintro rfl
      exact ⟨hx, hxq⟩
  exact List.perm_singleton.1 ((List.perm_ext_iff_of_nodup (hp.filter _) (List.nodup_singleton x)).2 hmem)

theorem filter_eq_nil (h : ∀ d ∈ p, d ∈ q) : p.filter (!q.contains ·) = [] := by
  refine List.filter_eq_nil_iff.2 fun d hd => ?_
  rw [List.contains_iff_mem.2 (h d hd)]
  exact Bool.false_ne_true

theorem Splits.symm (h : Splits x r p q) : Splits x.flip r q p :=
  ⟨h.flip_not_mem, by rw [Control.flip_flip]; exact h.not_mem, h.mem_right, by rw [Control.flip_flip]; exact h.mem_left⟩

/-- the halves of a cube differ in one control. -/
theorem Splits.filter_halves (h : Splits x r p q) (hp : p.Nodup) : p.filter (!q.contains ·) = [x] := by
  refine filter_eq_singleton hp ((h.mem_left x).2 (Or.inl rfl)) (fun hx => ?_) fun d hd => ?_
  · exact ((h.mem_right x).1 hx).elim (fun he => x.flip_ne he.symm) h.not_mem
  · exact ((h.mem_left d).1 hd).imp_right fun hr => (h.mem_right d).2 (Or.inr hr)

/-- a half has one control more than the cube. -/
theorem Splits.filter_whole (h : Splits x r p q) (hp : p.Nodup) :
    p.filter (!r.contains ·) = [x] ∧ r.filter (!p.contains ·) = [] :=
  ⟨filter_eq_singleton hp ((h.mem_left x).2 (Or.inl rfl)) h.not_mem fun d hd => (h.mem_left d).1 hd,
    filter_eq_nil fun d hd => (h.mem_left d).2 (Or.inr hd)⟩

/-- of two cubes with opposite controls that make up a cube, the first one has one control more. -/
theorem mem_of_union (hp : Ascending n p) (hr : Ascending n r)
    (hunion : ∀ w < 2 ^ n, allSatisfied r w = (allSatisfied p w || allSatisfied q w)) (hx : x ∈ p) (hx' : x.flip ∈ q)
    (hxr : x.flip ∉ r) : ∀ d ∈ p, d = x ∨ d ∈ r := by
  intro d hd
  by_contra hnot
  obtain ⟨hne, hdr⟩ := not_or.1 hnot
  -- a word of `r` that satisfies `x` and violates `d` is in neither of the two
  have hflip : x.flip ∉ d.flip :: r := fun hmem => (List.mem_cons.1 hmem).elim
    (fun he => hne (by rw [← Control.flip_flip d, ← he, Control.flip_flip])) hxr
  have hcons : Consistent (x :: d.flip :: r) :=
    consistent_cons.2 ⟨hflip, consistent_cons.2 ⟨by rwa [Control.flip_flip], hr.consistent⟩⟩
  obtain ⟨w, hw, hsat⟩ := exists_satisfied hcons
    (List.forall_mem_cons.2 ⟨hp.lt x hx, List.forall_mem_cons.2 ⟨hp.lt d hd, hr.lt⟩⟩)
  obtain ⟨hxw, hsat⟩ := List.forall_mem_cons.1 (allSatisfied_iff.1 hsat)
  obtain ⟨hdw, hrw⟩ := List.forall_mem_cons.1 hsat
  have hone := hunion w hw
  rw [allSatisfied_iff.2 hrw, eq_comm, Bool.or_eq_true, allSatisfied_iff, allSatisfied_iff] at hone
  rcases hone with hpw | hqw
  · exact not_isSatisfied_flip (hpw d hd) hdw
  · exact not_isSatisfied_flip hxw (hqw _ hx')

/-- **Two cubes with opposite controls that make up a cube** are its halves. -/
theorem splits_of_conflict (hp : Ascending n p) (hq : Ascending n q) (hr : Ascending n r)
    (hunion : ∀ w < 2 ^ n, allSatisfied r w = (allSatisfied p w || allSatisfied q w)) (hx : x ∈ p)
    (hx' : x.flip ∈ q) : Splits x r p q := by
  have hrp : ∀ d ∈ r, d ∈ p := subset_of_imp hp hr fun w hw h => by rw [hunion w hw, h, Bool.true_or]
  have hrq : ∀ d ∈ r, d ∈ q := subset_of_imp hq hr fun w hw h => by rw [hunion w hw, h, Bool.or_true]
  have hxr : x ∉ r := fun h => hq.consistent x (hrq x h) hx'
  have hxr' : x.flip ∉ r := fun h => hp.consistent x hx (hrp _ h)
  have hunion' : ∀ w < 2 ^ n, allSatisfied r w = (allSatisfied q w || allSatisfied p w) := fun w hw => by
    rw [hunion w hw, Bool.or_comm]
  refine ⟨hxr, hxr', fun d => ⟨mem_of_union hp hr hunion hx hx' hxr' d, ?_⟩, fun d =>
    ⟨mem_of_union hq hr hunion' hx' (by rwa [Control.flip_flip]) (by rwa [Control.flip_flip]) d, ?_⟩⟩
  · rintro (rfl | hd)
    · exact hx
    · exact hrp d hd
  · rintro (rfl | hd)
    · exact hx'
    · exact hrq d hd

/-- a word is not in two cubes with opposite controls. -/
theorem xor_eq_or_of_conflict (hx : x ∈ p) (hx' : x.flip ∈ q) (w : Nat) :
    (allSatisfied p w ^^ allSatisfied q w) = (allSatisfied p w || allSatisfied q w) := by
  cases hp : allSatisfied p w with
  | false => rw [Bool.false_xor, Bool.false_or]
  | true =>
    cases hq : allSatisfied q w with
    | false => rfl
    | true => exact absurd (allSatisfied_iff.1 hq _ hx') (not_isSatisfied_flip (allSatisfied_iff.1 hp x hx))

/-- **Three cubes of which every word is in none or in two**: one of them is cut into the other two. -/
theorem exists_splits_of_xor (ha : Ascending n a) (hb : Ascending n b) (hc : Ascending n c)
    (h : ∀ w < 2 ^ n, allSatisfied c w = (allSatisfied a w ^^ allSatisfied b w)) :
    ∃ x, Splits x c a b ∨ Splits x b a c ∨ Splits x a b c := by
  by_cases hab : ∃ x ∈ a, x.flip ∈ b
  · obtain ⟨x, hx, hx'⟩ := hab
    refine ⟨x, Or.inl (splits_of_conflict ha hb hc (fun w hw => ?_) hx hx')⟩
    rw [h w hw, xor_eq_or_of_conflict hx hx']
  by_cases hac : ∃ x ∈ a, x.flip ∈ c
  · obtain ⟨x, hx, hx'⟩ := hac
    refine ⟨x, Or.inr (Or.inl (splits_of_conflict ha hc hb (fun w hw => ?_) hx hx'))⟩
    rw [← xor_eq_or_of_conflict hx hx', h w hw, ← Bool.xor_assoc, Bool.xor_self, Bool.false_xor]
  by_cases hbc : ∃ x ∈ b, x.flip ∈ c
  · obtain ⟨x, hx, hx'⟩ := hbc
    refine ⟨x, Or.inr (Or.inr (splits_of_conflict hb hc ha (fun w hw => ?_) hx hx'))⟩
    rw [← xor_eq_or_of_conflict hx hx', h w hw, Bool.xor_comm (allSatisfied a w), ← Bool.xor_assoc, Bool.xor_self,
      Bool.false_xor]
  -- cubes without opposite controls have a common word, which is in all three
  have hdisjoint : ∀ d ∈ a, d.flip ∉ b := fun d hd hd' => hab ⟨d, hd, hd'⟩
  have hdisjoint' : ∀ d ∈ a ++ b, d.flip ∉ c := fun d hd hd' => (List.mem_append.1 hd).elim
    (fun hd => hac ⟨d, hd, hd'⟩) fun hd => hbc ⟨d, hd, hd'⟩
  have hcons := (ha.consistent.append hb.consistent hdisjoint).append hc.consistent hdisjoint'
  obtain ⟨w, hw, hsat⟩ := exists_satisfied hcons
    (List.forall_mem_append.2 ⟨List.forall_mem_append.2 ⟨ha.lt, hb.lt⟩, hc.lt⟩)
  obtain ⟨hsat, hcw⟩ := List.forall_mem_append.1 (allSatisfied_iff.1 hsat)
  obtain ⟨haw, hbw⟩ := List.forall_mem_append.1 hsat
  have hxor := h w hw
  rw [allSatisfied_iff.2 haw, allSatisfied_iff.2 hbw, allSatisfied_iff.2 hcw] at hxor
  cases hxor

/-! ### what a gate moves -/

/-- an active gate that moves a word changes exactly its targets. -/
theorem testBit_act_ne_iff (h : g.act w ≠ w) : (g.act w).testBit i ≠ w.testBit i ↔ i ∈ g.targets := by
  cases g with
  | toffoli cs t =>
    rw [testBit_act_toffoli, targets, List.mem_singleton]
    by_cases hi : t = i
    · simp [hi]
    · simp [hi, Ne.symm hi]
  | fredkin cs s t =>
    have hbits : w.testBit s ≠ w.testBit t := fun he => h (by simp [act, he])
    simp only [testBit_act_fredkin, targets, List.mem_cons, List.not_mem_nil, or_false]
    split
    · next hi => simp [hi, hbits.symm]
    · next hi =>
      split
      · next hi' => simp [hi', hbits]
      · next hi' => simp [hi, hi']

theorem Normal.isActive_congr (hg : g.Normal) {v : Nat} (h : ∀ i, i ∉ g.targets → v.testBit i = w.testBit i) :
    g.isActive v = g.isActive w := allSatisfied_congr fun c hc => h c.line (hg.off_targets c hc)

/-- **Gates that move a word alike** are of the same kind and have the same targets. -/
theorem sameKind_of_act_eq (hg : g.Normal) (hk : k.Normal) (h : g.act w = k.act w) (hne : g.act w ≠ w) :
    g.isToffoli = k.isToffoli ∧ g.targets = k.targets := by
  have hmem : ∀ i, i ∈ g.targets ↔ i ∈ k.targets := fun i => by
    rw [← testBit_act_ne_iff hne, ← testBit_act_ne_iff (h ▸ hne), h]
  have htargets : g.targets = k.targets := hg.targets_lt.eq_of_mem_iff hk.targets_lt hmem
  refine ⟨?_, htargets⟩
  cases g <;> cases k <;> simp_all [targets, isToffoli]

theorem eq_of_ite_eq {α : Type} {s t : Bool} {y z : α} (h : (if s then y else z) = if t then y else z) (hne : y ≠ z) :
    s = t := by
  cases s <;> cases t
  · rfl
  · exact absurd h.symm hne
  · exact absurd h hne
  · rfl

/-- every word has the bits off the targets of a word that the action of the gate moves. -/
theorem exists_moved (hg : g.Proper n) (hw : w < 2 ^ n) :
    ∃ v < 2 ^ n, (∀ i, i ∉ g.targets → v.testBit i = w.testBit i) ∧ g.act v ≠ v := by
  cases g with
  | toffoli cs t =>
    refine ⟨w, hw, fun _ _ => rfl, fun he => ?_⟩
    have hbit := congrArg (Nat.testBit · t) he
    simp [testBit_act_toffoli] at hbit
  | fredkin cs s t =>
    have hst : s < t := by simpa [targets] using hg.1.targets_lt
    have hmoves : ∀ v : Nat, v.testBit s ≠ v.testBit t → (fredkin cs s t).act v ≠ v := by
      intro v hv he
      have hbit := congrArg (Nat.testBit · s) he
      simp only [testBit_act_fredkin, if_true] at hbit
      exact hv hbit.symm
    by_cases hbits : w.testBit s = w.testBit t
    · refine ⟨Word.flip w s, Word.flip_lt hw (hg.2.2 s (by simp [targets])), fun i hi => ?_, hmoves _ ?_⟩
      · simp only [targets, List.mem_cons, List.not_mem_nil, or_false, not_or] at hi
        simp [Ne.symm hi.1]
      · simp [hbits, Nat.ne_of_lt hst]
    · exact ⟨w, hw, fun _ _ => rfl, hmoves w hbits⟩

end Gate

end ReversibleLogic
