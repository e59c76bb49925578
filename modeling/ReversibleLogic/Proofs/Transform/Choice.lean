import Mathlib.Logic.Equiv.Basic
import ReversibleLogic.Proofs.Gate.Cascade
import ReversibleLogic.Transform.Step

/-!
# The gate for a row

Every gate that is chosen for a row `x` with image `y` is in normal form, moves `y` towards `x`, and, if `x < y`, leaves
all words below `x` alone: a word on which it is active has all bits of `x`, or all bits of `y`, or the common bits
together with one of the two exchanged ones.

* `resolvingGate_eq`, `distance_resolvingGate`, `resolvingGate_apply_lt`;
* `apply_swappingGate`, `swappingGate_apply_lt`;
* `exists_swappingGate?_iff` — there is a swapping gate exactly if `y` is `x` with two unequal bits exchanged;
* `chooseGate_normal`, `chooseGate_within`, `distance_chooseGate`, `chooseGate_apply_of_lt` — the same for the gate that
  is taken, which exists for different words (`chooseGate?_eq`);
* `le_apply_of_fixed` — a gate that leaves the words below `x` alone moves no other word below `x`;
* `rowGates_spec` — what both gates do with the image of a row.
-/

namespace ReversibleLogic

namespace Gate

theorem positives_pairwise (m : Nat) : (positives m).Pairwise (fun c d => c.line < d.line) :=
  List.pairwise_map.2 (Word.ones_pairwise m)

theorem line_mem_positives {m : Nat} {c : Control} (h : c ∈ positives m) : m.testBit c.line = true := by
  obtain ⟨i, hi, rfl⟩ := List.mem_map.1 h
  exact Word.mem_ones.1 hi

theorem all_positives (m w : Nat) :
    (positives m).all (·.isSatisfied w) = true ↔ ∀ i, m.testBit i = true → w.testBit i = true := by
  simp [positives, Control.isSatisfied, Word.mem_ones]

end Gate

namespace Transform

open Gate

variable {x y : Nat}

/-! ### resolving gates -/

/-- a resolving gate changes a differing line under the bits of `y`, or under those of `x` where `y` has all of them. -/
theorem resolvingGate_eq (h : x ≠ y) : ∃ m t, resolvingGate x y = .toffoli (positives m) t ∧ m.testBit t = false ∧
    x.testBit t ≠ y.testBit t ∧ (∀ i, m.testBit i = true → y.testBit i = true) ∧ (m = x ∨ m = y) := by
  unfold resolvingGate
  by_cases hm : Word.without x y = 0
  · have hsub := Word.without_eq_zero.1 hm
    have hm' : Word.without y x ≠ 0 := fun hm' =>
      h (Nat.le_antisymm (Word.le_of_subset hsub) (Word.le_of_subset (Word.without_eq_zero.1 hm')))
    obtain ⟨hy, hx⟩ := Word.testBit_lowest_without hm'
    exact ⟨x, _, if_neg (not_not.2 hm), hx, by rw [hx, hy]; decide, hsub, Or.inl rfl⟩
  · obtain ⟨hx, hy⟩ := Word.testBit_lowest_without hm
    exact ⟨y, _, if_pos hm, hy, by rw [hx, hy]; decide, fun i hi => hi, Or.inr rfl⟩

theorem resolvingGate_normal (h : x ≠ y) : (resolvingGate x y).Normal := by
  obtain ⟨m, t, he, hmt, -⟩ := resolvingGate_eq h
  rw [he]
  refine normal_toffoli (positives_pairwise m) ?_
  intro c hc e
  have := line_mem_positives hc
  rw [e, hmt] at this
  cases this

theorem resolvingGate_within {n : Nat} (h : x ≠ y) (hx : x < 2 ^ n) (hy : y < 2 ^ n) :
    (resolvingGate x y).Within n := by
  obtain ⟨m, t, he, -, hdiff, hmy, -⟩ := resolvingGate_eq h
  rw [he]
  constructor
  · exact fun c hc => Word.lt_of_testBit hy (hmy _ (line_mem_positives hc))
  · intro l hl
    rw [targets, List.mem_singleton] at hl
    exact Word.lt_of_testBit_ne hx hy (hl ▸ hdiff)

/-- **A resolving gate brings `y` one step closer to `x`.** -/
theorem distance_resolvingGate (h : x ≠ y) :
    Word.distance x ((resolvingGate x y).apply y) + 1 = Word.distance x y := by
  obtain ⟨m, t, he, -, hdiff, hmy, -⟩ := resolvingGate_eq h
  have hact : (toffoli (positives m) t).isActive y = true := (all_positives m y).2 hmy
  rw [he, apply_of_isActive hact]
  exact Word.distance_flip hdiff

theorem resolvingGate_apply_lt {z : Nat} (h : x < y) (hz : z < x) : (resolvingGate x y).apply z = z := by
  obtain ⟨m, t, he, -, -, -, hm⟩ := resolvingGate_eq (Nat.ne_of_lt h)
  rw [he]
  apply apply_of_not_isActive
  by_contra hact
  rw [Bool.not_eq_false] at hact
  have hmz : m ≤ z := Word.le_of_subset ((all_positives m z).1 hact)
  rcases hm with rfl | rfl <;> omega

/-! ### swapping gates -/

theorem testBit_eq_of_differ {a b i : Nat} (hdiff : ∀ i, x.testBit i ≠ y.testBit i ↔ i = a ∨ i = b) (hia : i ≠ a)
    (hib : i ≠ b) : x.testBit i = y.testBit i := by
  by_contra hi
  exact ((hdiff i).1 hi).elim hia hib

/-- a swapping gate exchanges the only two lines on which the words differ, under the bits they share. -/
theorem swappingGate?_eq_some {g : Gate} (h : swappingGate? x y = some g) :
    ∃ a b, g = .fredkin (positives (x &&& y)) a b ∧ a < b ∧ (∀ i, x.testBit i ≠ y.testBit i ↔ i = a ∨ i = b) ∧
      x.testBit a ≠ x.testBit b := by
  unfold swappingGate? at h
  simp only at h
  split at h
  · cases h
  · next hw =>
    rw [not_or, not_not, not_not] at hw
    obtain ⟨hlt, hbits⟩ := Word.ones_eq_pair hw.1
    obtain ⟨c, hc⟩ := Word.exists_of_weight_one hw.2
    have hdiff : ∀ i, x.testBit i ≠ y.testBit i ↔
        i = Word.lowest (x ^^^ y) ∨ i = Word.highest (x ^^^ y) := by
      intro i
      rw [← hbits, Nat.testBit_xor]
      cases x.testBit i <;> cases y.testBit i <;> decide
    refine ⟨_, _, (Option.some.inj h).symm, hlt, hdiff, ?_⟩
    -- exactly one of the two lines is set in `x`
    have hone : ∀ i, (i = Word.lowest (x ^^^ y) ∨ i = Word.highest (x ^^^ y)) → (x.testBit i = true ↔ i = c) := by
      intro i hi
      rw [← hc i, Nat.testBit_and, (hbits i).2 hi, Bool.and_true]
    have hcmem : c = Word.lowest (x ^^^ y) ∨ c = Word.highest (x ^^^ y) := by
      rw [← hbits]
      have := (hc c).2 rfl
      rw [Nat.testBit_and, Bool.and_eq_true] at this
      exact this.2
    have ha := hone _ (Or.inl rfl)
    have hb := hone _ (Or.inr rfl)
    intro he
    rw [he, hb] at ha
    omega

theorem swappingGate_normal {g : Gate} (h : swappingGate? x y = some g) : g.Normal := by
  obtain ⟨a, b, rfl, hab, hdiff, -⟩ := swappingGate?_eq_some h
  refine normal_fredkin (positives_pairwise _) hab ?_
  intro c hc
  have hcom := line_mem_positives hc
  rw [Nat.testBit_and, Bool.and_eq_true] at hcom
  have hsame : ¬ (x.testBit c.line ≠ y.testBit c.line) := by rw [hcom.1, hcom.2]; simp
  rw [hdiff, not_or] at hsame
  exact hsame

theorem swappingGate_within {g : Gate} {n : Nat} (h : swappingGate? x y = some g) (hx : x < 2 ^ n)
    (hy : y < 2 ^ n) : g.Within n := by
  obtain ⟨a, b, rfl, hab, hdiff, -⟩ := swappingGate?_eq_some h
  constructor
  · intro c hc
    have hcom := line_mem_positives hc
    rw [Nat.testBit_and, Bool.and_eq_true] at hcom
    exact Word.lt_of_testBit hx hcom.1
  · intro l hl
    rw [targets, List.mem_cons, List.mem_singleton] at hl
    exact Word.lt_of_testBit_ne hx hy ((hdiff l).2 hl)

/-- **A swapping gate maps `y` to `x`.** -/
theorem apply_swappingGate {g : Gate} (h : swappingGate? x y = some g) : g.apply y = x := by
  obtain ⟨a, b, rfl, hab, hdiff, hne⟩ := swappingGate?_eq_some h
  have hact : (fredkin (positives (x &&& y)) a b).isActive y = true := by
    refine (all_positives _ y).2 ?_
    intro i hi
    rw [Nat.testBit_and, Bool.and_eq_true] at hi
    exact hi.2
  rw [apply_of_isActive hact]
  apply Nat.eq_of_testBit_eq
  intro i
  have ha := (hdiff a).2 (Or.inl rfl)
  have hb := (hdiff b).2 (Or.inr rfl)
  rw [testBit_act_fredkin]
  by_cases hia : i = a
  · subst hia
    rw [if_pos rfl, Bool.eq_not_of_ne hb.symm, Bool.eq_not_of_ne hne]
  · by_cases hib : i = b
    · subst hib
      rw [if_neg hia, if_pos rfl, Bool.eq_not_of_ne ha.symm, Bool.eq_not_of_ne hne.symm]
    · rw [if_neg hia, if_neg hib, testBit_eq_of_differ hdiff hia hib]

/-- an active word that is changed has the bits of `x` or those of `y`. -/
theorem swappingGate_apply_lt {g : Gate} {z : Nat} (h : swappingGate? x y = some g) (hxy : x < y) (hz : z < x) :
    g.apply z = z := by
  obtain ⟨a, b, rfl, hab, hdiff, hne⟩ := swappingGate?_eq_some h
  cases hact : (fredkin (positives (x &&& y)) a b).isActive z with
  | false => exact apply_of_not_isActive hact
  | true =>
    have hcom : ∀ i, x.testBit i = true → y.testBit i = true → z.testBit i = true := by
      intro i hxi hyi
      refine (all_positives _ z).1 hact i ?_
      rw [Nat.testBit_and, hxi, hyi]
      rfl
    rw [apply_of_isActive hact, act]
    by_cases he : z.testBit a = z.testBit b
    · rw [he]
      simp
    · exfalso
      -- `z` has the two bits as `x` has them, or as `y` has them, and then it is not below that word
      have ha := Bool.eq_not_of_ne ((hdiff a).2 (Or.inl rfl)).symm
      have hb := Bool.eq_not_of_ne ((hdiff b).2 (Or.inr rfl)).symm
      have hxb := Bool.eq_not_of_ne hne.symm
      have hzb := Bool.eq_not_of_ne (Ne.symm he)
      by_cases hxa : x.testBit a = z.testBit a
      · have hxz : x ≤ z := Word.le_of_subset_off hxa (by rw [hxb, hzb, hxa]) fun i hia hib hi =>
          hcom i hi (testBit_eq_of_differ hdiff hia hib ▸ hi)
        omega
      · have hza := Bool.eq_not_of_ne (Ne.symm hxa)
        have hyz : y ≤ z := Word.le_of_subset_off (by rw [ha, hza]) (by rw [hb, hxb, hzb, hza]) fun i hia hib hi =>
          hcom i ((testBit_eq_of_differ hdiff hia hib).symm ▸ hi) hi
        omega

/-! ### exchanged bits -/

/-- `y` is `x` with two unequal bits exchanged. -/
def IsExchange (x y : Nat) : Prop := ∃ a b, x.testBit a ≠ x.testBit b ∧ ∀ i, y.testBit i = x.testBit (Equiv.swap a b i)

theorem IsExchange.exists_set (h : IsExchange x y) : ∃ a b, x.testBit a = true ∧ x.testBit b = false ∧
    ∀ i, y.testBit i = x.testBit (Equiv.swap a b i) := by
  obtain ⟨a, b, hne, hy⟩ := h
  cases ha : x.testBit a with
  | true =>
    refine ⟨a, b, ha, ?_, hy⟩
    cases hb : x.testBit b with
    | false => rfl
    | true => exact absurd (ha.trans hb.symm) hne
  | false =>
    refine ⟨b, a, ?_, ha, fun i => by rw [hy, Equiv.swap_comm]⟩
    cases hb : x.testBit b with
    | true => rfl
    | false => exact absurd (ha.trans hb.symm) hne

theorem ne_iff_of_exchange {a b : Nat} (ha : x.testBit a = true) (hb : x.testBit b = false)
    (hy : ∀ i, y.testBit i = x.testBit (Equiv.swap a b i)) (i : Nat) :
    x.testBit i ≠ y.testBit i ↔ i = a ∨ i = b := by
  rw [hy]
  by_cases hia : i = a
  · subst hia
    simp [ha, hb]
  · by_cases hib : i = b
    · subst hib
      simp [ha, hb]
    · simp [Equiv.swap_apply_of_ne_of_ne hia hib, hia, hib]

theorem IsExchange.exists_swappingGate? (h : IsExchange x y) : ∃ g, swappingGate? x y = some g := by
  obtain ⟨a, b, ha, hb, hy⟩ := h.exists_set
  have hab : a ≠ b := by
    rintro rfl
    rw [ha] at hb
    cases hb
  have hdiff : ∀ i, (x ^^^ y).testBit i = true ↔ i ∈ [a, b] := by
    intro i
    rw [Nat.testBit_xor, bne_iff_ne, ne_iff_of_exchange ha hb hy]
    simp
  have hset : ∀ i, (x &&& (x ^^^ y)).testBit i = true ↔ i ∈ [a] := by
    intro i
    rw [Nat.testBit_and, Bool.and_eq_true, hdiff, List.mem_singleton]
    constructor
    · rintro ⟨hx, hi⟩
      rcases List.mem_pair.1 hi with rfl | rfl
      · rfl
      · rw [hb] at hx
        cases hx
    · rintro rfl
      exact ⟨ha, List.mem_cons_self⟩
  have htwo : Word.weight (x ^^^ y) = 2 := Word.weight_eq_length (by simpa using hab) hdiff
  have hone : Word.weight (x &&& (x ^^^ y)) = 1 := Word.weight_eq_length (List.nodup_singleton a) hset
  exact ⟨_, by rw [swappingGate?, if_neg (by rw [htwo, hone]; decide)]⟩

/-- **Swapping gates** exist exactly for words that differ by an exchange. -/
theorem exists_swappingGate?_iff : (∃ g, swappingGate? x y = some g) ↔ IsExchange x y := by
  refine ⟨fun ⟨g, hg⟩ => ?_, IsExchange.exists_swappingGate?⟩
  obtain ⟨a, b, -, -, hdiff, hne⟩ := swappingGate?_eq_some hg
  refine ⟨a, b, hne, fun i => ?_⟩
  have ha : x.testBit a ≠ y.testBit a := (hdiff a).2 (Or.inl rfl)
  have hb : x.testBit b ≠ y.testBit b := (hdiff b).2 (Or.inr rfl)
  by_cases hia : i = a
  · subst hia
    rw [Equiv.swap_apply_left]
    exact (Bool.eq_not_of_ne ha.symm).trans (Bool.eq_not_of_ne hne.symm).symm
  · by_cases hib : i = b
    · subst hib
      rw [Equiv.swap_apply_right]
      exact (Bool.eq_not_of_ne hb.symm).trans (Bool.eq_not_of_ne hne).symm
    · rw [Equiv.swap_apply_of_ne_of_ne hia hib, testBit_eq_of_differ hdiff hia hib]

/-! ### the gate that is taken -/

/-- the gate for different words. -/
def chooseGate (x y : Nat) (fredkin : Bool) : Gate :=
  (if fredkin then swappingGate? x y else none).getD (resolvingGate x y)

theorem resolvingGate?_eq (h : x ≠ y) : resolvingGate? x y = .ok (resolvingGate x y) := if_neg h

theorem chooseGate?_eq (h : x ≠ y) (fredkin : Bool) : chooseGate? x y fredkin = .ok (chooseGate x y fredkin) := by
  unfold chooseGate? chooseGate
  cases (if fredkin then swappingGate? x y else none) with
  | none => exact resolvingGate?_eq h
  | some g => rfl

theorem chooseGate_cases (x y : Nat) (fredkin : Bool) :
    swappingGate? x y = some (chooseGate x y fredkin) ∨ chooseGate x y fredkin = resolvingGate x y := by
  unfold chooseGate
  cases fredkin with
  | false => exact Or.inr rfl
  | true =>
    cases hs : swappingGate? x y with
    | none => exact Or.inr rfl
    | some g => exact Or.inl rfl

theorem chooseGate_normal (h : x ≠ y) (fredkin : Bool) : (chooseGate x y fredkin).Normal := by
  rcases chooseGate_cases x y fredkin with hs | hr
  · exact swappingGate_normal hs
  · rw [hr]
    exact resolvingGate_normal h

theorem chooseGate_within {n : Nat} (h : x ≠ y) (hx : x < 2 ^ n) (hy : y < 2 ^ n) (fredkin : Bool) :
    (chooseGate x y fredkin).Within n := by
  rcases chooseGate_cases x y fredkin with hs | hr
  · exact swappingGate_within hs hx hy
  · rw [hr]
    exact resolvingGate_within h hx hy

theorem distance_chooseGate (h : x ≠ y) (fredkin : Bool) :
    Word.distance x ((chooseGate x y fredkin).apply y) < Word.distance x y := by
  rcases chooseGate_cases x y fredkin with hs | hr
  · rw [apply_swappingGate hs, Word.distance_eq_zero.2 rfl]
    exact Nat.pos_of_ne_zero fun h0 => h (Word.distance_eq_zero.1 h0)
  · rw [hr, ← distance_resolvingGate h]
    omega

theorem chooseGate_apply_of_lt {z : Nat} (h : x < y) (hz : z < x) (fredkin : Bool) :
    (chooseGate x y fredkin).apply z = z := by
  rcases chooseGate_cases x y fredkin with hs | hr
  · exact swappingGate_apply_lt hs h hz
  · rw [hr]
    exact resolvingGate_apply_lt h hz

/-! ### rows and images -/

/-- a gate that leaves the words below `x` alone moves no other word below `x`. -/
theorem le_apply_of_fixed {g : Gate} (hg : g.Normal) (hfixed : ∀ z < x, g.apply z = z) (hy : x ≤ y) :
    x ≤ g.apply y := by
  by_contra hlt
  -- a word below `x` would be its own image, and that of `y`
  have hback := hfixed (g.apply y) (Nat.not_le.1 hlt)
  rw [apply_apply hg] at hback
  omega

theorem positive_of_mem_positives {m : Nat} {c : Control} (h : c ∈ positives m) : c.positive = true := by
  obtain ⟨i, -, rfl⟩ := List.mem_map.1 h
  rfl

/-- **The gates for a row.** For different words `x` and `y` of `n` lines the resolving gate is a Toffoli gate of the
checked constructors with positive controls, and it brings `y` one step closer to `x`. The swapping gate exists exactly
if `y` is `x` with two unequal bits exchanged; it is a Fredkin gate of the checked constructors that maps `y` to `x`. If
`x` is below `y`, both leave all words below `x` alone, and the image of `y` does not fall below `x`. -/
theorem rowGates_spec {n : Nat} (hx : x < 2 ^ n) (hy : y < 2 ^ n) (h : x ≠ y) :
    (∃ g, resolvingGate? x y = .ok g ∧ g.Built ∧ g.Within n ∧ g.isToffoli = true ∧
        (∀ c ∈ g.controls, c.positive = true) ∧ Word.distance x (g.apply y) + 1 = Word.distance x y) ∧
      ((∃ g, swappingGate? x y = some g) ↔ IsExchange x y) ∧
      (∀ g, swappingGate? x y = some g → g.Built ∧ g.Within n ∧ g.isFredkin = true ∧ g.apply y = x) ∧
      (x < y → ∀ g, resolvingGate? x y = .ok g ∨ swappingGate? x y = some g →
        (∀ z < x, g.apply z = z) ∧ x ≤ g.apply y) := by
  have hresolving := resolvingGate?_eq h
  refine ⟨⟨_, hresolving, built_iff_normal.2 (resolvingGate_normal h), resolvingGate_within h hx hy, ?_, ?_,
    distance_resolvingGate h⟩, exists_swappingGate?_iff, fun g hg => ?_, fun hlt g hg => ?_⟩
  · obtain ⟨m, t, he, -⟩ := resolvingGate_eq h
    rw [he]
    rfl
  · obtain ⟨m, t, he, -⟩ := resolvingGate_eq h
    rw [he]
    exact fun c hc => positive_of_mem_positives hc
  · refine ⟨built_iff_normal.2 (swappingGate_normal hg), swappingGate_within hg hx hy, ?_, apply_swappingGate hg⟩
    obtain ⟨a, b, rfl, -⟩ := swappingGate?_eq_some hg
    rfl
  · rcases hg with hg | hg
    · rw [hresolving, Except.ok.injEq] at hg
      subst hg
      have hfixed : ∀ z < x, (resolvingGate x y).apply z = z := fun z hz => resolvingGate_apply_lt hlt hz
      exact ⟨hfixed, le_apply_of_fixed (resolvingGate_normal h) hfixed (Nat.le_of_lt hlt)⟩
    · have hfixed : ∀ z < x, g.apply z = z := fun z hz => swappingGate_apply_lt hg hlt hz
      exact ⟨hfixed, le_apply_of_fixed (swappingGate_normal hg) hfixed (Nat.le_of_lt hlt)⟩

/-- the words 5 and 6 differ by an exchange of their two lowest bits. -/
theorem rowGates_spec_exchange :
    IsExchange 5 6 ∧ (fredkin [⟨2, true⟩] 0 1).apply 6 = 5 ∧ (∀ z < 5, (fredkin [⟨2, true⟩] 0 1).apply z = z) ∧
      Word.distance 5 ((toffoli [⟨1, true⟩, ⟨2, true⟩] 0).apply 6) + 1 = Word.distance 5 6 ∧
      5 ≤ (toffoli [⟨1, true⟩, ⟨2, true⟩] 0).apply 6 := by
  obtain ⟨⟨g, hg, -, -, -, -, hcloser⟩, hexchange, hswap, hbelow⟩ :=
    rowGates_spec (x := 5) (y := 6) (n := 64) (by decide) (by decide) (by decide)
  have hresolving : resolvingGate? 5 6 = .ok (toffoli [⟨1, true⟩, ⟨2, true⟩] 0) := by rfl
  have hswapping : swappingGate? 5 6 = some (fredkin [⟨2, true⟩] 0 1) := by rfl
  obtain rfl : toffoli [⟨1, true⟩, ⟨2, true⟩] 0 = g := Except.ok.inj (hresolving.symm.trans hg)
  exact ⟨hexchange.1 ⟨_, hswapping⟩, (hswap _ hswapping).2.2.2, (hbelow (by decide) _ (Or.inr hswapping)).1, hcloser,
    (hbelow (by decide) _ (Or.inl hresolving)).2⟩

end Transform

end ReversibleLogic
