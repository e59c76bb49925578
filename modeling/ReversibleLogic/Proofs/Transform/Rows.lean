import ReversibleLogic.Proofs.Transform.Tables

/-!
# The steps of a row

The side of a row is decided when the row is reached, and kept until the row is fixed.

* `rows_of_takes` — rows never decrease;
* `choice` — the side of a row, and the word that is moved on it;
* `Moves` — steps that move a word to a row on one side: one for each differing line, or fewer if lines are swapped;
* `exists_moves` — a run fixes its current row by such steps before it goes on to larger rows;
* `PartsAt`, `exists_parts` — a run can be parted at every row, and the row is moved as its table asks for when it is
  reached;
* `rows_spec` — for the runs of a permutation.
-/

namespace ReversibleLogic.Transform.Explicit

open Gate

variable {n x : Nat} {settings : Settings} {s s' t : State} {steps : List Step}

/-! ### rows in order -/

/-- **Rows never decrease**, and all of them are rows of the table. -/
theorem rows_of_takes (h : s.Sound n) (htakes : (strategy n settings).Takes s steps s') :
    (steps.map Step.row).Pairwise (· ≤ ·) ∧ ∀ step ∈ steps, s.row ≤ step.row ∧ step.row < 2 ^ n := by
  induction steps generalizing s with
  | nil => exact ⟨.nil, List.forall_mem_nil _⟩
  | cons step steps ih =>
    obtain ⟨t, hadv, hu, rfl, hrest⟩ := takes_cons h htakes
    obtain ⟨hpairwise, hrows⟩ := ih (sound_afterStep hadv.sound hu) hrest
    have hle : ∀ step ∈ steps, t.row ≤ step.row := fun step hstep => (hrows step hstep).1
    refine ⟨List.pairwise_cons.2 ⟨List.forall_mem_map.2 hle, hpairwise⟩,
      List.forall_mem_cons.2 ⟨⟨hadv.row_le, hu.1⟩, ?_⟩⟩
    exact fun step hstep => ⟨hadv.row_le.trans (hle step hstep), (hrows step hstep).2⟩

/-- after a fixed row a run takes steps at larger rows only. -/
theorem row_lt_of_fixed (h : s.Sound n) (hrow : s.row < 2 ^ n) (hfix : s.table.getD s.row 0 = s.row)
    (htakes : (strategy n settings).Takes s steps s') : ∀ step ∈ steps, s.row < step.row := by
  obtain ⟨t, hadv, -, htakes⟩ := exists_advances h htakes
  intro step hstep
  refine Nat.lt_of_lt_of_le ?_ ((rows_of_takes hadv.sound htakes).2 step hstep).1
  rcases hadv.fresh with rfl | ⟨hlt, -⟩
  · rcases hadv.stops with hend | hu
    · omega
    · exact absurd hfix hu.2
  · exact hlt

/-! ### moving one row -/

/-- the side of row `x` with the word that is moved to it: the preimage if both sides are used and it is strictly closer
to the row, otherwise the image. -/
def choice (settings : Settings) (x image preimage : Nat) : Side × Nat :=
  if settings.bidirectional && decide (Word.distance x preimage < Word.distance x image) then (.input, preimage)
  else (.output, image)

/-- steps that move a word to row `x` on one side. -/
structure Moves (settings : Settings) (c : Side × Nat) (x : Nat) (group : List Step) : Prop where
  row_eq : ∀ step ∈ group, step.row = x
  side_eq : ∀ step ∈ group, step.side = c.1
  length_le : group.length ≤ Word.distance x c.2
  length_eq : settings.fredkin = false → group.length = Word.distance x c.2

theorem moves_nil (side : Side) (x : Nat) : Moves settings (side, x) x [] := by
  have hzero : Word.distance x x = 0 := Word.distance_eq_zero.2 rfl
  exact ⟨List.forall_mem_nil _, List.forall_mem_nil _, Nat.zero_le _, fun _ => hzero.symm⟩

/-- **A step shortens the distance**, by one if no lines are swapped. -/
theorem Moves.cons {side : Side} {y : Nat} {group : List Step} (hne : x ≠ y)
    (h : Moves settings (side, (chooseGate x y settings.fredkin).apply y) x group) :
    Moves settings (side, y) x (⟨side, x, chooseGate x y settings.fredkin⟩ :: group) := by
  refine ⟨List.forall_mem_cons.2 ⟨rfl, h.row_eq⟩, List.forall_mem_cons.2 ⟨rfl, h.side_eq⟩, ?_, fun hfredkin => ?_⟩
  · exact Nat.succ_le_of_lt (h.length_le.trans_lt (distance_chooseGate hne _))
  · have hlen := h.length_eq hfredkin
    have hgate : chooseGate x y settings.fredkin = resolvingGate x y := by rw [hfredkin]; rfl
    rw [hgate] at hlen
    rw [List.length_cons, hlen]
    exact distance_resolvingGate hne

/-- a row is fixed when the word of its side has arrived. -/
theorem State.partner_eq_row_iff (h : s.Sound n) (hrow : s.row < 2 ^ n) (side : Side) :
    s.partner side = s.row ↔ s.table.getD s.row 0 = s.row := by
  constructor
  · intro he
    by_contra hne
    exact Nat.ne_of_gt (State.row_lt_partner h ⟨hrow, hne⟩ side) he
  · intro he
    cases side with
    | output => exact he
    | input =>
      have htable := State.table_partner_input h hrow
      exact h.table.inj _ (State.partner_lt h hrow .input) _ hrow (htable.trans he.symm)

theorem side_afterStep : (stepAt settings (afterStep settings s)).side = (stepAt settings s).side := rfl

/-- **A run fixes its row first**, on the side of its next step. -/
theorem exists_moves (h : s.Sound n) (hrow : s.row < 2 ^ n) (htakes : (strategy n settings).Takes s steps s') :
    ∃ group after, steps = group ++ after ∧
      Moves settings ((stepAt settings s).side, s.partner (stepAt settings s).side) s.row group ∧
        ∀ step ∈ after, s.row < step.row := by
  -- the distance that is left decreases with every step
  induction hd : Word.distance s.row (s.partner (stepAt settings s).side) using Nat.strong_induction_on
    generalizing s steps with
  | _ d ih =>
    by_cases hfix : s.table.getD s.row 0 = s.row
    · refine ⟨[], steps, rfl, ?_, row_lt_of_fixed h hrow hfix htakes⟩
      rw [(State.partner_eq_row_iff h hrow _).2 hfix]
      exact moves_nil _ _
    · have hu : s.Unfixed n := ⟨hrow, hfix⟩
      have hne : s.row ≠ s.partner (stepAt settings s).side := Nat.ne_of_lt (State.row_lt_partner h hu _)
      obtain ⟨rest, rfl, hrest⟩ := takes_of_unfixed h hu htakes
      have hpartner := partner_afterStep settings h hu
      have hless : Word.distance s.row ((afterStep settings s).partner (stepAt settings s).side) < d := by
        rw [hpartner, ← hd]
        exact distance_chooseGate hne _
      obtain ⟨group, after, rfl, hmoves, hafter⟩ := ih _ hless (sound_afterStep h hu) hrow hrest rfl
      rw [side_afterStep, hpartner] at hmoves
      exact ⟨stepAt settings s :: group, after, rfl, hmoves.cons hne, hafter⟩

/-! ### runs, row by row -/

/-- a run from `s` to `s'`, parted at row `x`: it takes the steps `before` at smaller rows to the state `st`, then the
steps `group` at the row, then the steps `after` at larger rows. -/
structure PartsAt (n : Nat) (settings : Settings) (s s' : State) (x : Nat) (before group after : List Step)
    (st : State) : Prop where
  reaches : (strategy n settings).Passes s before st
  goes_on : (strategy n settings).Takes st (group ++ after) s'
  before_lt : ∀ step ∈ before, step.row < x
  row_eq : ∀ step ∈ group, step.row = x
  lt_after : ∀ step ∈ after, x < step.row

/-- the steps move row `x` as is right for a row that is reached with the table `t`. -/
def MovesRow (n : Nat) (settings : Settings) (t : Array Nat) (x : Nat) (group : List Step) : Prop :=
  ∃ preimage < 2 ^ n, t.getD preimage 0 = x ∧ Moves settings (choice settings x (t.getD x 0) preimage) x group

theorem movesRow_nil {t : Array Nat} (hx : x < 2 ^ n) (hfix : t.getD x 0 = x) : MovesRow n settings t x [] := by
  refine ⟨x, hx, hfix, ?_⟩
  rw [hfix, choice, decide_eq_false (Nat.lt_irrefl _), Bool.and_false]
  exact moves_nil _ _

theorem choice_eq (settings : Settings) (hside : s.side = none) :
    choice settings s.row (s.partner .output) (s.partner .input) =
      ((stepAt settings s).side, s.partner (stepAt settings s).side) := by
  have hstep : (stepAt settings s).side =
      s.chooseSide settings.bidirectional (s.partner .output) (s.partner .input) := by
    rw [stepAt, hside]
    rfl
  rw [hstep, choice, State.chooseSide]
  split <;> rfl

/-- **A run can be parted at every row** that has not been reached, and it moves the row as is right for its table. -/
theorem exists_parts (h : s.Sound n) (hxn : x < 2 ^ n) (hx : s.row < x ∨ s.row = x ∧ s.side = none)
    (htakes : (strategy n settings).Takes s steps s') :
    ∃ before group after st, steps = before ++ (group ++ after) ∧ PartsAt n settings s s' x before group after st ∧
      MovesRow n settings st.table x group := by
  induction hlen : steps.length using Nat.strong_induction_on generalizing s steps with
  | _ k ih =>
    obtain ⟨t, hadv, hsame, htakes'⟩ := exists_advances h htakes
    rcases Nat.lt_trichotomy x t.row with hlt | heq | hgt
    · -- the row is fixed when it is passed
      have hfix : s.table.getD x 0 = x := hadv.table ▸ hadv.sound.fixed x hlt
      have hafter : ∀ step ∈ steps, x < step.row := fun step hstep =>
        Nat.lt_of_lt_of_le hlt ((rows_of_takes hadv.sound htakes').2 step hstep).1
      exact ⟨[], [], steps, s, rfl, ⟨.start, htakes, List.forall_mem_nil _, List.forall_mem_nil _, hafter⟩,
        movesRow_nil hxn hfix⟩
    · -- the run goes on at the row, whose side is open
      subst heq
      have hside : t.side = none := by
        rcases hadv.fresh with rfl | ⟨-, hside⟩
        · exact (hx.resolve_left (Nat.lt_irrefl _)).2
        · exact hside
      obtain ⟨group, after, rfl, hmoves, hafter⟩ := exists_moves hadv.sound hxn htakes'
      refine ⟨[], group, after, s, rfl, ⟨.start, htakes, List.forall_mem_nil _, hmoves.row_eq, hafter⟩, ?_⟩
      rw [← hadv.table]
      refine ⟨t.partner .input, State.partner_lt hadv.sound hxn _, State.table_partner_input hadv.sound hxn, ?_⟩
      exact choice_eq settings hside ▸ hmoves
    · -- the run takes a step at a smaller row
      have hu : t.Unfixed n := hadv.stops.resolve_left (by omega)
      obtain ⟨rest, rfl, hrest⟩ := takes_of_unfixed hadv.sound hu htakes'
      have hless : rest.length < k := by
        rw [← hlen]
        exact Nat.lt_succ_self _
      obtain ⟨before, group, after, st, rfl, hparts, hmoves⟩ :=
        ih _ hless (sound_afterStep hadv.sound hu) (Or.inl hgt) hrest rfl
      exact ⟨stepAt settings t :: before, group, after, st, rfl,
        ⟨.step (hsame.symm.trans (next_of_unfixed hadv.sound hu)) hparts.reaches, hparts.goes_on,
          List.forall_mem_cons.2 ⟨hgt, hparts.before_lt⟩, hparts.row_eq, hparts.lt_after⟩, hmoves⟩

/-- **The steps of every row.** A permutation has a run, and in every run of it the rows never decrease. Parted at any
row of the table, the steps at this row are all on one side: the input side, with as many steps as the preimage of the
row has different lines, if both sides are used and the preimage is strictly closer than the image; otherwise the output
side, with as many steps as the image has different lines. Where lines are swapped there may be fewer. Image and
preimage are those of the table when the row is reached. -/
theorem rows_spec {p : Permutation} (hp : p.Valid) (settings : Settings) :
    (∃ steps s', (strategy p.lines settings).Takes (.ofPermutation p) steps s') ∧
      ∀ steps s', (strategy p.lines settings).Takes (.ofPermutation p) steps s' →
        (steps.map Step.row).Pairwise (· ≤ ·) ∧ (∀ step ∈ steps, step.row < 2 ^ p.lines) ∧
          ∀ x < 2 ^ p.lines, ∃ before group after st, steps = before ++ (group ++ after) ∧
            PartsAt p.lines settings (.ofPermutation p) s' x before group after st ∧
              MovesRow p.lines settings st.table x group := by
  have hsound := State.sound_ofPermutation hp.bijection
  obtain ⟨steps, s', htakes, -⟩ := exists_takes_ofPermutation hp settings
  refine ⟨⟨steps, s', htakes⟩, fun steps s' htakes => ?_⟩
  obtain ⟨hpairwise, hrows⟩ := rows_of_takes hsound htakes
  refine ⟨hpairwise, fun step hstep => (hrows step hstep).2, fun x hx => exists_parts hsound hx ?_ htakes⟩
  rcases Nat.eq_zero_or_pos x with rfl | hpos
  · exact Or.inr ⟨rfl, rfl⟩
  · exact Or.inl hpos

theorem rows_spec_cycle :
    ∃ steps s', (strategy 2 ⟨true, false, false, none⟩).Takes (.ofPermutation ⟨2, #[3, 0, 1, 2]⟩) steps s' ∧
      ∃ group after, steps = group ++ after ∧ group.length = 1 ∧
        (∀ step ∈ group, step.row = 0 ∧ step.side = .input) ∧ ∀ step ∈ after, 0 < step.row := by
  have hp : (⟨2, #[3, 0, 1, 2]⟩ : Permutation).Valid := by
    have hok : Permutation.ofTable 2 #[3, 0, 1, 2] = .ok ⟨2, #[3, 0, 1, 2]⟩ := rfl
    exact (Permutation.ofTable_eq_ok.1 hok).2
  obtain ⟨⟨steps, s', htakes⟩, hruns⟩ := rows_spec hp ⟨true, false, false, none⟩
  obtain ⟨-, -, hrows⟩ := hruns steps s' htakes
  obtain ⟨before, group, after, st, rfl, hparts, preimage, hlt, hpre, hmoves⟩ := hrows 0 (by decide)
  -- no row is smaller than the first one, so it is reached with the table of the permutation
  obtain rfl : before = [] := List.eq_nil_iff_forall_not_mem.2 fun step hstep =>
    Nat.not_lt_zero _ (hparts.before_lt step hstep)
  have hstart : st = .ofPermutation ⟨2, #[3, 0, 1, 2]⟩ := by
    cases hparts.reaches
    rfl
  subst hstart
  have hone : ∀ y < 4, #[3, 0, 1, 2].getD y 0 = 0 → y = 1 := by decide
  obtain rfl : preimage = 1 := hone preimage hlt hpre
  have hchoice : choice ⟨true, false, false, none⟩ 0 3 1 = (.input, 1) := by decide
  have hmoves : Moves ⟨true, false, false, none⟩ (.input, 1) 0 group := hchoice ▸ hmoves
  exact ⟨_, s', htakes, group, after, rfl, (hmoves.length_eq rfl).trans (by decide),
    fun step hstep => ⟨hmoves.row_eq step hstep, hmoves.side_eq step hstep⟩, hparts.lt_after⟩

end ReversibleLogic.Transform.Explicit
