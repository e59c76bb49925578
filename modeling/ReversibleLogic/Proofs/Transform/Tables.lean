import ReversibleLogic.Proofs.Permutation
import ReversibleLogic.Proofs.Transform.Choice
import ReversibleLogic.Proofs.Transform.Runs
import ReversibleLogic.Transform.Explicit

/-!
# Runs on tables

* `State.Sound n` — the table is a bijection, the inverse is in step with it, and the rows below the current one are
  fixed; a step keeps this (`Sound.step`);
* `State.remaining n` — a bound on the steps that are left, `n` for each row that has not been reached and the distance
  on the chosen side for the current one; every step lowers it (`remaining_step_lt`);
* `Advances n s t` — a run goes on at the next row that is not fixed, whose side is open unless it was current before
  (`exists_advances`, `takes_cons`);
* `exists_takes` — the steps of a run: at most `n * 2 ^ n`, in ascending order of their rows, with a cascade that
  computes the table;
* `synthesize_of_takes`, `synthesize_computes` — the circuit of a permutation.
-/

namespace ReversibleLogic.Transform.Explicit

open Gate

/-! ### states -/

namespace State

variable {n : Nat} {s : State}

/-- the word that is to be moved to the current row: its image, or its preimage on the input side. -/
def partner (s : State) (side : Side) : Nat :=
  match side with
  | .output => s.table.getD s.row 0
  | .input => s.inverse.getD s.row 0

/-- what holds between the steps of a run. -/
structure Sound (n : Nat) (s : State) : Prop where
  table : Bijection n s.table
  size_inverse : s.inverse.size = 2 ^ n
  inverse : ∀ x < 2 ^ n, s.inverse.getD (s.table.getD x 0) 0 = x
  row_le : s.row ≤ 2 ^ n
  fixed : ∀ x < s.row, s.table.getD x 0 = x

/-- the current row is to be moved. -/
def Unfixed (n : Nat) (s : State) : Prop := s.row < 2 ^ n ∧ s.table.getD s.row 0 ≠ s.row

/-- a bound on the number of steps that are left. -/
def remaining (n : Nat) (s : State) : Nat :=
  match s.side with
  | none => (2 ^ n - s.row) * n
  | some side => (2 ^ n - s.row - 1) * n + Word.distance s.row (s.partner side)

theorem sound_ofPermutation {p : Permutation} (hp : Bijection p.lines p.table) :
    (ofPermutation p).Sound p.lines := by
  exact ⟨hp, (Permutation.size_inverse p).trans hp.size, fun x hx => Permutation.getD_inverse hp hx, Nat.zero_le _,
    fun x hx => absurd hx (Nat.not_lt_zero x)⟩

theorem partner_lt (h : s.Sound n) (hrow : s.row < 2 ^ n) (side : Side) : s.partner side < 2 ^ n := by
  cases side with
  | output => exact h.table.lt _ hrow
  | input =>
    obtain ⟨x, hx, he⟩ := h.table.surj hrow
    have := h.inverse x hx
    rw [he] at this
    simpa [partner, this] using hx

theorem table_partner_input (h : s.Sound n) (hrow : s.row < 2 ^ n) :
    s.table.getD (s.partner .input) 0 = s.row := by
  obtain ⟨x, hx, he⟩ := h.table.surj hrow
  have := h.inverse x hx
  rw [he] at this
  rw [partner, this, he]

/-- image and preimage of an unfixed row are larger than the row. -/
theorem row_lt_partner (h : s.Sound n) (hu : s.Unfixed n) (side : Side) : s.row < s.partner side := by
  cases side with
  | output => exact h.table.lt_of_fixed hu.1 hu.2 h.fixed
  | input =>
    have htable := table_partner_input h hu.1
    by_contra hle
    rcases Nat.lt_or_eq_of_le (Nat.not_lt.1 hle) with hlt | heq
    · rw [h.fixed _ hlt] at htable
      omega
    · rw [heq] at htable
      exact hu.2 htable

/-! ### skipping fixed rows -/

/-- skipping fixed rows keeps all that is known, and stops at a row to be moved or at the end. -/
theorem skipFixed_spec (h : s.Sound n) {k : Nat} (hk : k = 2 ^ n - s.row) :
    (skipFixed k s).Sound n ∧ (skipFixed k s).table = s.table ∧ s.row ≤ (skipFixed k s).row ∧
      (skipFixed k s).remaining n ≤ s.remaining n ∧
      ((skipFixed k s).row = 2 ^ n ∨ (skipFixed k s).Unfixed n) := by
  induction k generalizing s with
  | zero =>
    have := h.row_le
    exact ⟨h, rfl, Nat.le_refl _, Nat.le_refl _, Or.inl (by rw [skipFixed]; omega)⟩
  | succ k ih =>
    have hrow : s.row < 2 ^ n := by omega
    rw [skipFixed, h.table.getElem? hrow]
    by_cases hfix : s.table.getD s.row 0 = s.row
    · rw [if_pos (congrArg some hfix)]
      have hsound : Sound n { s with row := s.row + 1, side := none } := by
        refine ⟨h.table, h.size_inverse, h.inverse, hrow, fun x hx => ?_⟩
        rcases Nat.lt_or_eq_of_le (Nat.le_of_lt_succ hx) with hlt | heq
        · exact h.fixed x hlt
        · rw [heq]
          exact hfix
      obtain ⟨hs, htable, hle, hrem, hend⟩ := ih hsound (by show k = 2 ^ n - (s.row + 1); omega)
      refine ⟨hs, htable, Nat.le_of_succ_le hle, hrem.trans ?_, hend⟩
      show (2 ^ n - (s.row + 1)) * n ≤ s.remaining n
      unfold remaining
      split
      · exact Nat.mul_le_mul_right n (by omega)
      · rw [Nat.sub_sub]
        exact Nat.le_add_right _ _
    · rw [if_neg fun he => hfix (Option.some.inj he)]
      exact ⟨h, rfl, Nat.le_refl _, Nat.le_refl _, Or.inr ⟨hrow, hfix⟩⟩

/-! ### gates on a table -/

theorem inverse_applyGate (s : State) (side : Side) (g : Gate) :
    (s.applyGate side g).inverse = writeRows (s.applyGate side g).table.toList.zipIdx s.inverse := rfl

theorem table_applyGate_output (s : State) (g : Gate) {x : Nat} (hx : x < s.table.size) :
    (s.applyGate .output g).table.getD x 0 = g.apply (s.table.getD x 0) := by
  show (s.table.map g.apply).getD x 0 = _
  rw [Array.getD_eq_getD_getElem?, Array.getElem?_map, Array.getElem?_eq_getElem hx, Array.getD_eq_getD_getElem?,
    Array.getElem?_eq_getElem hx]
  rfl

theorem table_applyGate_input (s : State) (g : Gate) {x : Nat} (hx : x < s.table.size) :
    (s.applyGate .input g).table.getD x 0 = s.table.getD (g.apply x) 0 := by
  show ((Array.range s.table.size).map fun z => s.table.getD (g.apply z) 0).getD x 0 = _
  exact getD_map_range _ hx

theorem bijection_applyGate (h : s.Sound n) (side : Side) {g : Gate} (hg : g.Proper n) :
    Bijection n (s.applyGate side g).table := by
  have hsize := h.table.size
  cases side with
  | output =>
    refine ⟨by show (s.table.map g.apply).size = _; rw [Array.size_map, hsize], fun x hx => ?_,
      fun x hx y hy he => ?_⟩
    · rw [table_applyGate_output s g (by omega)]
      exact apply_lt hg.2 (h.table.lt x hx)
    · rw [table_applyGate_output s g (by omega), table_applyGate_output s g (by omega)] at he
      refine h.table.inj x hx y hy ?_
      rw [← apply_apply hg.1 (s.table.getD x 0), he, apply_apply hg.1]
  | input =>
    have hsize' : (s.applyGate .input g).table.size = 2 ^ n := by
      show ((Array.range s.table.size).map fun z => s.table.getD (g.apply z) 0).size = _
      rw [Array.size_map, Array.size_range, hsize]
    refine ⟨hsize', fun x hx => ?_, fun x hx y hy he => ?_⟩
    · rw [table_applyGate_input s g (by omega)]
      exact h.table.lt _ (apply_lt hg.2 hx)
    · rw [table_applyGate_input s g (by omega), table_applyGate_input s g (by omega)] at he
      have := h.table.inj _ (apply_lt hg.2 hx) _ (apply_lt hg.2 hy) he
      rw [← apply_apply hg.1 x, this, apply_apply hg.1]

/-- **Step lemma.** A gate that leaves the words below the row alone keeps what holds between steps. -/
theorem Sound.step (h : s.Sound n) {side : Side} {g : Gate} (hg : g.Proper n)
    (hbelow : ∀ z < s.row, g.apply z = z) : (s.applyGate side g).Sound n := by
  have hb := bijection_applyGate h side hg
  have hsize := h.table.size
  refine ⟨hb, ?_, fun x hx => ?_, h.row_le, fun x hx => ?_⟩
  · rw [inverse_applyGate, size_writeRows, h.size_inverse]
  · rw [inverse_applyGate]
    exact getD_writeRows hb h.size_inverse hx
  · have hx' : x < s.row := hx
    have hlt : x < s.table.size := by rw [hsize]; exact hx'.trans_le h.row_le
    cases side with
    | output => rw [table_applyGate_output s g hlt, h.fixed x hx', hbelow x hx']
    | input => rw [table_applyGate_input s g hlt, hbelow x hx', h.fixed x hx']

theorem partner_applyGate (h : s.Sound n) (hrow : s.row < 2 ^ n) {side : Side} {g : Gate} (hg : g.Proper n) :
    (s.applyGate side g).partner side = g.apply (s.partner side) := by
  have hsize := h.table.size
  cases side with
  | output => exact table_applyGate_output s g (hsize ▸ hrow)
  | input =>
    have hpre := partner_lt h hrow .input
    have himage : (s.applyGate .input g).table.getD (g.apply (s.partner .input)) 0 = s.row := by
      rw [table_applyGate_input s g (by rw [hsize]; exact apply_lt hg.2 hpre), apply_apply hg.1,
        table_partner_input h hrow]
    show (s.applyGate .input g).inverse.getD s.row 0 = _
    rw [← himage, inverse_applyGate]
    exact getD_writeRows (bijection_applyGate h .input hg) h.size_inverse (apply_lt hg.2 hpre)

end State

/-! ### steps -/

variable {n : Nat} {settings : Settings} {s s' : State} {steps : List Step}

def stepAt (settings : Settings) (s : State) : Step :=
  let side := s.side.getD (s.chooseSide settings.bidirectional (s.partner .output) (s.partner .input))
  ⟨side, s.row, chooseGate s.row (s.partner side) settings.fredkin⟩

def afterStep (settings : Settings) (s : State) : State :=
  { s with side := some (stepAt settings s).side }.applyGate (stepAt settings s).side (stepAt settings s).gate

theorem next_eq (settings : Settings) (h : s.Sound n) :
    next settings s =
      if (s.skipFixed (2 ^ n - s.row)).row < 2 ^ n then
        .ok (some (stepAt settings (s.skipFixed (2 ^ n - s.row)))) (afterStep settings (s.skipFixed (2 ^ n - s.row)))
      else .ok none (s.skipFixed (2 ^ n - s.row)) := by
  obtain ⟨hs, -, -, -, hstops⟩ := State.skipFixed_spec h rfl
  unfold next
  simp only [h.table.size]
  generalize s.skipFixed (2 ^ n - s.row) = s' at hs hstops
  by_cases hrow : s'.row < 2 ^ n
  · have hu := hstops.resolve_left (Nat.ne_of_lt hrow)
    have hgate : ∀ side, chooseGate? s'.row (s'.partner side) settings.fredkin =
        .ok (chooseGate s'.row (s'.partner side) settings.fredkin) := fun side =>
      chooseGate?_eq (Nat.ne_of_lt (State.row_lt_partner hs hu side)) _
    rw [if_pos hrow, hs.table.getElem? hrow]
    unfold afterStep stepAt
    simp only [State.partner] at hgate ⊢
    cases s'.side.getD (s'.chooseSide settings.bidirectional (s'.table.getD s'.row 0) (s'.inverse.getD s'.row 0)) with
    | output => simp only [hgate .output]
    | input => simp only [hgate .input]
  · rw [if_neg hrow, hs.table.getElem?_eq_none (by omega)]

theorem stepAt_proper (settings : Settings) (h : s.Sound n) (hu : s.Unfixed n) : (stepAt settings s).gate.Proper n := by
  have hlt := State.row_lt_partner h hu
  exact ⟨chooseGate_normal (Nat.ne_of_lt (hlt _)) _,
    chooseGate_within (Nat.ne_of_lt (hlt _)) hu.1 (State.partner_lt h hu.1 _) _⟩

/-- deciding the side of a row does not affect what holds between steps. -/
theorem sound_withSide (h : s.Sound n) (side : Option Side) : State.Sound n { s with side := side } :=
  ⟨h.table, h.size_inverse, h.inverse, h.row_le, h.fixed⟩

theorem sound_afterStep (h : s.Sound n) (hu : s.Unfixed n) : (afterStep settings s).Sound n :=
  (sound_withSide h _).step (stepAt_proper settings h hu) fun _ hz =>
    chooseGate_apply_of_lt (State.row_lt_partner h hu _) hz _

theorem partner_afterStep (settings : Settings) (h : s.Sound n) (hu : s.Unfixed n) :
    (afterStep settings s).partner (stepAt settings s).side =
      (stepAt settings s).gate.apply (s.partner (stepAt settings s).side) :=
  State.partner_applyGate (sound_withSide h (some (stepAt settings s).side)) hu.1 (stepAt_proper settings h hu)

/-- **Every step lowers the bound** on the steps that are left. -/
theorem remaining_step_lt (settings : Settings) (h : s.Sound n) (hu : s.Unfixed n) :
    (afterStep settings s).remaining n < s.remaining n := by
  have hlt := State.row_lt_partner h hu
  -- the distance on the side of the step decreases
  have hdist : Word.distance s.row ((afterStep settings s).partner (stepAt settings s).side) <
      Word.distance s.row (s.partner (stepAt settings s).side) := by
    rw [partner_afterStep settings h hu]
    exact distance_chooseGate (Nat.ne_of_lt (hlt _)) _
  have hafter : (afterStep settings s).remaining n =
      (2 ^ n - s.row - 1) * n + Word.distance s.row ((afterStep settings s).partner (stepAt settings s).side) := rfl
  rw [hafter, State.remaining]
  cases hside : s.side with
  | none =>
    have hle := Word.distance_le hu.1 (State.partner_lt h hu.1 (stepAt settings s).side)
    have hrows : (2 ^ n - s.row) * n = (2 ^ n - s.row - 1) * n + n := by
      obtain ⟨k, hk⟩ : ∃ k, 2 ^ n - s.row = k + 1 := ⟨2 ^ n - s.row - 1, by have := hu.1; omega⟩
      rw [hk, Nat.add_sub_cancel, Nat.add_mul, Nat.one_mul]
    show _ < (2 ^ n - s.row) * n
    omega
  | some side =>
    have hsame : (stepAt settings s).side = side := by simp [stepAt, hside]
    rw [hsame] at hdist
    rw [hsame]
    exact Nat.add_lt_add_left hdist _

/-! ### where a run goes on -/

/-- `t` is where a run goes on from `s`: the rows in between are fixed, and the side of a new row is open. -/
structure Advances (n : Nat) (s t : State) : Prop where
  sound : t.Sound n
  table : t.table = s.table
  row_le : s.row ≤ t.row
  fresh : t = s ∨ s.row < t.row ∧ t.side = none
  stops : t.row = 2 ^ n ∨ t.Unfixed n

theorem State.skipFixed_eq_or (k : Nat) (s : State) :
    s.skipFixed k = s ∨ s.row < (s.skipFixed k).row ∧ (s.skipFixed k).side = none := by
  induction k generalizing s with
  | zero => exact Or.inl rfl
  | succ k ih =>
    rw [State.skipFixed]
    split
    · rcases ih { s with row := s.row + 1, side := none } with he | ⟨hlt, hside⟩
      · rw [he]
        exact Or.inr ⟨Nat.lt_succ_self _, rfl⟩
      · exact Or.inr ⟨Nat.lt_of_succ_lt hlt, hside⟩
    · exact Or.inl rfl

theorem State.skipFixed_of_stops (h : s.Sound n) (hs : s.row = 2 ^ n ∨ s.Unfixed n) :
    s.skipFixed (2 ^ n - s.row) = s := by
  rcases State.skipFixed_eq_or (2 ^ n - s.row) s with he | ⟨hlt, -⟩
  · exact he
  · obtain ⟨ht, htable, -, -, -⟩ := State.skipFixed_spec h rfl
    have hle := ht.row_le
    rcases hs with hend | hu
    · omega
    · exact absurd (htable ▸ ht.fixed s.row hlt) hu.2

/-- **A run goes on** at the next row that is not fixed. -/
theorem exists_advances (h : s.Sound n) (htakes : (strategy n settings).Takes s steps s') :
    ∃ t, Advances n s t ∧ (strategy n settings).next t = (strategy n settings).next s ∧
      (strategy n settings).Takes t steps s' := by
  obtain ⟨ht, htable, hle, -, hstops⟩ := State.skipFixed_spec h rfl
  have hfresh := State.skipFixed_eq_or (2 ^ n - s.row) s
  have hnext := next_eq settings h
  generalize s.skipFixed (2 ^ n - s.row) = t at *
  have hsame : (strategy n settings).next t = (strategy n settings).next s := by
    show next settings t = next settings s
    rw [hnext, next_eq settings ht, State.skipFixed_of_stops ht hstops]
  refine ⟨t, ⟨ht, htable, hle, hfresh, hstops⟩, hsame, ?_⟩
  cases htakes with
  | done hdone => exact .done (hsame.trans hdone)
  | step hstep hrest => exact .step (hsame.trans hstep) hrest

theorem next_of_unfixed (h : s.Sound n) (hu : s.Unfixed n) :
    (strategy n settings).next s = .ok (some (stepAt settings s)) (afterStep settings s) := by
  show next settings s = _
  rw [next_eq settings h, State.skipFixed_of_stops h (Or.inr hu), if_pos hu.1]

theorem takes_of_unfixed (h : s.Sound n) (hu : s.Unfixed n) (htakes : (strategy n settings).Takes s steps s') :
    ∃ rest, steps = stepAt settings s :: rest ∧ (strategy n settings).Takes (afterStep settings s) rest s' := by
  cases htakes with
  | done hdone => cases (next_of_unfixed h hu).symm.trans hdone
  | step hstep hrest =>
    cases (next_of_unfixed h hu).symm.trans hstep
    exact ⟨_, rfl, hrest⟩

theorem next_of_end (h : s.Sound n) (hend : s.row = 2 ^ n) : (strategy n settings).next s = .ok none s := by
  show next settings s = _
  rw [next_eq settings h, State.skipFixed_of_stops h (Or.inl hend), if_neg (by omega)]

theorem fixed_of_takes_nil (h : s.Sound n) (htakes : (strategy n settings).Takes s [] s') :
    ∀ x < 2 ^ n, s.table.getD x 0 = x := by
  obtain ⟨t, hadv, -, htakes⟩ := exists_advances h htakes
  rcases hadv.stops with hend | hu
  · exact fun x hx => hadv.table ▸ hadv.sound.fixed x (by omega)
  · obtain ⟨rest, he, -⟩ := takes_of_unfixed hadv.sound hu htakes
    cases he

theorem takes_cons {step : Step} (h : s.Sound n) (htakes : (strategy n settings).Takes s (step :: steps) s') :
    ∃ t, Advances n s t ∧ t.Unfixed n ∧ step = stepAt settings t ∧
      (strategy n settings).Takes (afterStep settings t) steps s' := by
  obtain ⟨t, hadv, -, htakes⟩ := exists_advances h htakes
  have hu : t.Unfixed n := by
    refine hadv.stops.resolve_left fun hend => ?_
    cases htakes with
    | step hstep _ => cases (next_of_end hadv.sound hend).symm.trans hstep
  obtain ⟨rest, he, hrest⟩ := takes_of_unfixed hadv.sound hu htakes
  obtain ⟨rfl, rfl⟩ := List.cons.inj he
  exact ⟨t, hadv, hu, rfl, hrest⟩

/-! ### runs -/

/-- what is known of the steps of a run on the table `t` from row `row` on. -/
structure Realizes (n : Nat) (t : Array Nat) (row : Nat) (steps : List Step) : Prop where
  proper : StepsProper n steps
  computes : ∀ x < 2 ^ n, applyAll (cascade steps) x = t.getD x 0
  ascending : (steps.map Step.row).Pairwise (· ≤ ·)
  row_le : ∀ x ∈ steps, row ≤ x.row

/-- a cascade with one more step in front of it computes the table before that step. -/
theorem Realizes.cons (h : s.Sound n) (hu : s.Unfixed n)
    (hr : Realizes n (afterStep settings s).table s.row steps) :
    Realizes n s.table s.row (stepAt settings s :: steps) := by
  have hg := stepAt_proper settings h hu
  have hsize := h.table.size
  refine ⟨?_, fun x hx => ?_, ?_, ?_⟩
  · exact List.forall_mem_cons.2 ⟨hg, hr.proper⟩
  · have htable : (afterStep settings s).table =
        (s.applyGate (stepAt settings s).side (stepAt settings s).gate).table := rfl
    rw [htable] at hr
    generalize stepAt settings s = step at hg hr
    cases hside : step.side with
    | output =>
      have hc : cascade (step :: steps) = cascade steps ++ [step.gate] := by simp [cascade, gatesOn, hside]
      rw [hside] at hr
      rw [hc, applyAll_append, hr.computes x hx, State.table_applyGate_output s _ (by omega)]
      exact apply_apply hg.1 _
    | input =>
      have hc : cascade (step :: steps) = step.gate :: cascade steps := by simp [cascade, gatesOn, hside]
      rw [hside] at hr
      have hlt := apply_lt hg.2 hx
      rw [hc, applyAll_cons, hr.computes _ hlt, State.table_applyGate_input s _ (by omega), apply_apply hg.1]
  · exact List.pairwise_cons.2 ⟨List.forall_mem_map.2 hr.row_le, hr.ascending⟩
  · exact List.forall_mem_cons.2 ⟨Nat.le_refl _, hr.row_le⟩

/-- **Run lemma.** From a sound state a run ends within the bound, and its steps compute the table. -/
theorem exists_takes (h : s.Sound n) {bound : Nat} (hbound : s.remaining n ≤ bound) :
    ∃ steps s', (strategy n settings).Takes s steps s' ∧ steps.length ≤ bound ∧
      Realizes n s.table s.row steps := by
  induction bound using Nat.strong_induction_on generalizing s with
  | _ bound ih =>
    have hnext := next_eq settings h
    obtain ⟨hs, htable, hrow, hrem, hend⟩ := State.skipFixed_spec h rfl
    generalize s.skipFixed (2 ^ n - s.row) = s' at *
    rw [← htable]
    by_cases hlt : s'.row < 2 ^ n
    · have hu : s'.Unfixed n := hend.resolve_left (Nat.ne_of_lt hlt)
      have hless := remaining_step_lt settings hs hu
      obtain ⟨steps, s'', htakes, hlen, hr⟩ :=
        ih _ (hless.trans_le (hrem.trans hbound)) (sound_afterStep hs hu) (Nat.le_refl _)
      rw [if_pos hlt] at hnext
      have hr' := Realizes.cons hs hu hr
      refine ⟨_ :: steps, s'', .step hnext htakes, ?_, hr'.proper, hr'.computes, hr'.ascending, fun x hx => ?_⟩
      · rw [List.length_cons]
        omega
      · exact hrow.trans (hr'.row_le x hx)
    · rw [if_neg hlt] at hnext
      have hr : Realizes n s'.table s.row [] := by
        refine ⟨List.forall_mem_nil _, fun x hx => ?_, .nil, List.forall_mem_nil _⟩
        rw [hs.fixed x (by omega)]
        rfl
      exact ⟨[], s', .done hnext, Nat.zero_le _, hr⟩

/-- the steps of a run from the start, on any number of lines that a word has bits for. -/
theorem exists_takes_ofBijection {p : Permutation} (hp : Bijection p.lines p.table) (hlines : p.lines < 64)
    (settings : Settings) :
    ∃ steps s', (strategy p.lines settings).Takes (.ofPermutation p) steps s' ∧
      steps.length ≤ stepLimit p.lines ∧ Realizes p.lines p.table 0 steps := by
  refine exists_takes (State.sound_ofPermutation hp) ?_
  show (2 ^ p.lines - 0) * p.lines ≤ _
  rw [stepLimit_eq hlines, Nat.sub_zero, Nat.mul_comm]

theorem exists_takes_ofPermutation {p : Permutation} (hp : p.Valid) (settings : Settings) :
    ∃ steps s', (strategy p.lines settings).Takes (.ofPermutation p) steps s' ∧
      steps.length ≤ stepLimit p.lines ∧ Realizes p.lines p.table 0 steps :=
  exists_takes_ofBijection hp.bijection (hp.lines_le.trans_lt (by decide)) settings

/-- every gate of a run is one that is chosen for two different words. -/
theorem exists_chooseGate_of_takes (h : s.Sound n) (htakes : (strategy n settings).Takes s steps s') :
    ∀ step ∈ steps, ∃ x y, x ≠ y ∧ step.gate = chooseGate x y settings.fredkin := by
  induction steps generalizing s with
  | nil => exact List.forall_mem_nil _
  | cons step steps ih =>
    obtain ⟨t, hadv, hu, rfl, hrest⟩ := takes_cons h htakes
    exact List.forall_mem_cons.2 ⟨⟨_, _, Nat.ne_of_lt (State.row_lt_partner hadv.sound hu _), rfl⟩,
      ih (sound_afterStep hadv.sound hu) hrest⟩

/-! ### circuits -/

theorem templateFits {settings : Settings} (ht : ∀ t, settings.template = some t → t.lines = n) :
    (strategy n settings).TemplateFits := ht

theorem synthesize_of_takes {p : Permutation} (hp : p.Valid) {settings : Settings} (hs : settings.validate = .ok ())
    (ht : ∀ t, settings.template = some t → t.lines = p.lines) {steps : List Step} {s' : State}
    (htakes : (strategy p.lines settings).Takes (.ofPermutation p) steps s') (hlen : steps.length ≤ stepLimit p.lines)
    (hproper : StepsProper p.lines steps) :
    synthesize p settings =
      .ok ⟨(strategy p.lines settings).circuitOf (Progress.after settings.lookback steps).gates, none, false⟩ := by
  have hlines : p.lines < 64 := hp.lines_le.trans_lt (by decide)
  have hrun := Strategy.run_of_takes htakes hlen (le_maxLines hlines) (templateFits ht) hproper
  unfold synthesize
  rw [hs, hrun]
  rfl

/-- **Synthesis from a table.** With every accepted choice of options, the synthesis of a permutation succeeds, its
gates are in normal form on the lines of the permutation, and the circuit computes the permutation. -/
theorem synthesize_computes {p : Permutation} (hp : p.Valid) {settings : Settings} (hs : settings.validate = .ok ())
    (ht : ∀ t, settings.template = some t → t.lines = p.lines) :
    ∃ outcome, synthesize p settings = .ok outcome ∧ outcome.circuit.lines = p.lines ∧
      (∀ g ∈ outcome.circuit.gates, g.Normal ∧ g.Within p.lines) ∧
      ∀ x < 2 ^ p.lines, p.apply x = .ok (outcome.circuit.simulate x) := by
  obtain ⟨steps, s', htakes, hlen, hr⟩ := exists_takes_ofPermutation hp settings
  refine ⟨_, synthesize_of_takes hp hs ht htakes hlen hr.proper, ?_, fun g hg => ?_, fun x hx => ?_⟩
  · exact Strategy.lines_circuitOf _ _
  · rw [Strategy.gates_circuitOf] at hg
    exact Progress.gates_proper settings.lookback hr.proper g hg
  · rw [Permutation.apply_eq hp hx, simulate_eq_applyAll, Strategy.gates_circuitOf,
      Progress.applyAll_gates settings.lookback hr.proper, hr.computes x hx]

/-- the circuit of a run has the data of the template's lines. -/
theorem exists_synthesize {p : Permutation} (hp : p.Valid) {settings : Settings} (hs : settings.validate = .ok ())
    (ht : ∀ t, settings.template = some t → t.lines = p.lines) :
    ∃ gates, synthesize p settings = .ok ⟨(strategy p.lines settings).circuitOf gates, none, false⟩ ∧
      (∀ g ∈ gates, g.Proper p.lines) ∧ ∀ x < 2 ^ p.lines, applyAll gates x = p.table.getD x 0 := by
  obtain ⟨steps, s', htakes, hlen, hr⟩ := exists_takes_ofPermutation hp settings
  refine ⟨_, synthesize_of_takes hp hs ht htakes hlen hr.proper,
    Progress.gates_proper settings.lookback hr.proper, fun x hx => ?_⟩
  rw [Progress.applyAll_gates settings.lookback hr.proper, hr.computes x hx]

theorem synthesize_computes_cycle :
    ∃ outcome, synthesize ⟨2, #[1, 2, 3, 0]⟩ ⟨true, true, true, some (.empty 2)⟩ = .ok outcome ∧
      ∀ x < 4, (⟨2, #[1, 2, 3, 0]⟩ : Permutation).apply x = .ok (outcome.circuit.simulate x) := by
  have hp : (⟨2, #[1, 2, 3, 0]⟩ : Permutation).Valid := by
    have hok : Permutation.ofTable 2 #[1, 2, 3, 0] = .ok ⟨2, #[1, 2, 3, 0]⟩ := rfl
    exact (Permutation.ofTable_eq_ok.1 hok).2
  have hs : Settings.validate ⟨true, true, true, some (.empty 2)⟩ = .ok () := rfl
  obtain ⟨outcome, hok, -, -, hsim⟩ := synthesize_computes hp hs (fun t ht => by cases ht; rfl)
  exact ⟨outcome, hok, hsim⟩

end ReversibleLogic.Transform.Explicit
