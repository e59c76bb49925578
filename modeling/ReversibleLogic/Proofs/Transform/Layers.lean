import ReversibleLogic.Proofs.Transform.Following
import ReversibleLogic.Proofs.Transform.Queries

/-!
# Layers of an encoded function

The clauses stand for a table: in every model the layer holds the image of the inputs.

* `Encoded T n l retired t` — the layer stands for the table `t`, and every input has a model without retired guards;
* `Guarded T n l active retired t` — moreover, the active guard is on exactly for inputs that the table may move;
* `smallestMismatch?_eq` — the solver finds the smallest row that the table moves, and its image;
* `addLayer_eq` — a new layer stands for the table with the gate behind it, however the old guard is retired;
* `follows` — so a step on the clauses is a step on the table.
-/

namespace ReversibleLogic.Transform.Solving

open Cnf (Builder CnfM Theory Encodes wordOf)
open Explicit (FirstUnfixed)
open ReversibleLogic.Sat

variable {n x : Nat} {l : Layers} {active : Literal} {retired : List Literal} {t t' : Array Nat} {T T' : Theory}
  {s : Assignment}

/-! ### invariants -/

/-- in every model the layer holds the image of the inputs under the table, and every word is the input of a model
without retired guards. -/
structure Encoded (T : Theory) (n : Nat) (l : Layers) (retired : List Literal) (t : Array Nat) : Prop where
  good : T.Good
  inputs : T.MeansWord n l.inputs (wordOf · l.inputs)
  layer : T.MeansWord n l.layer fun s => t.getD (wordOf s l.inputs) 0
  knows_retired : ∀ k ∈ retired, T.Knows k
  free : ∀ x < 2 ^ n, ∃ s, T.IsModel s ∧ wordOf s l.inputs = x ∧ ∀ k ∈ retired, k.holds s = false

/-- the active guard is on only where inputs and layer differ, and there it can be on; it can be off everywhere. -/
structure Guarded (T : Theory) (n : Nat) (l : Layers) (active : Literal) (retired : List Literal) (t : Array Nat) : Prop
    extends Encoded T n l retired t where
  knows_active : T.Knows active
  differ : ∀ s, T.IsModel s → active.holds s = true → t.getD (wordOf s l.inputs) 0 ≠ wordOf s l.inputs
  switch : ∀ x < 2 ^ n, ∀ c : Bool, (c = true → t.getD x 0 ≠ x) →
    ∃ s, T.IsModel s ∧ wordOf s l.inputs = x ∧ active.holds s = c ∧ ∀ k ∈ retired, k.holds s = false

theorem Encoded.mono (h : Encoded T n l retired t) (hle : T ≤ T') (h' : T'.Good) : Encoded T' n l retired t := by
  refine ⟨h', h.inputs.mono hle, h.layer.mono hle, fun k hk => (h.knows_retired k hk).mono hle, fun x hx => ?_⟩
  obtain ⟨s, hs, hword, hoff⟩ := h.free x hx
  obtain ⟨s', hs', he⟩ := Theory.exists_model hle hs
  refine ⟨s', hs', ?_, fun k hk => (he k (h.knows_retired k hk)).trans (hoff k hk)⟩
  rw [Cnf.wordOf_congr fun k hk => he k (h.inputs.knows k hk), hword]

theorem Guarded.mono (h : Guarded T n l active retired t) (hle : T ≤ T') (h' : T'.Good) :
    Guarded T' n l active retired t := by
  refine ⟨h.toEncoded.mono hle h', h.knows_active.mono hle, fun s hs => h.differ s (hle.sound s hs),
    fun x hx c hc => ?_⟩
  obtain ⟨s, hs, hword, hactive, hoff⟩ := h.switch x hx c hc
  obtain ⟨s', hs', he⟩ := Theory.exists_model hle hs
  refine ⟨s', hs', ?_, (he active h.knows_active).trans hactive,
    fun k hk => (he k (h.knows_retired k hk)).trans (hoff k hk)⟩
  rw [Cnf.wordOf_congr fun k hk => he k (h.inputs.knows k hk), hword]

theorem Encoded.withLayer (h : Encoded T n l retired t) {layer : List Literal}
    (hlayer : T.MeansWord n layer fun s => t'.getD (wordOf s l.inputs) 0) :
    Encoded T n ⟨l.inputs, layer⟩ retired t' :=
  ⟨h.good, h.inputs, hlayer, h.knows_retired, h.free⟩

/-! ### guards -/

/-- the old guard is switched off by a clause. -/
theorem Guarded.off (h : Guarded T n l active retired t) : Encoded (T.add [-active]) n l retired t := by
  have hknown : ∀ k ∈ [-active], T.Knows k := fun k hk => List.mem_singleton.1 hk ▸ h.knows_active.neg
  refine ⟨h.good.add hknown, h.inputs.add _, h.layer.add _, h.knows_retired, fun x hx => ?_⟩
  obtain ⟨s, hs, hword, hactive, hoff⟩ := h.switch x hx false fun hc => absurd hc Bool.false_ne_true
  refine ⟨s, ⟨hs, ?_⟩, hword, hoff⟩
  simp [Clause.holds, Literal.holds_neg s h.knows_active.1, hactive]

/-- the old guard is left to the assumptions. -/
theorem Guarded.assumed (h : Guarded T n l active retired t) : Encoded T n l (retired ++ [active]) t := by
  refine ⟨h.good, h.inputs, h.layer, fun k hk => ?_, fun x hx => ?_⟩
  · rcases List.mem_append.1 hk with hk | hk
    · exact h.knows_retired k hk
    · exact List.mem_singleton.1 hk ▸ h.knows_active
  · obtain ⟨s, hs, hword, hactive, hoff⟩ := h.switch x hx false fun hc => absurd hc Bool.false_ne_true
    refine ⟨s, hs, hword, fun k hk => ?_⟩
    rcases List.mem_append.1 hk with hk | hk
    · exact hoff k hk
    · exact List.mem_singleton.1 hk ▸ hactive

/-- a guarded clause says that its other literal holds where the guard is on. -/
theorem isModel_guarded {guard k : Literal} (h : T.Knows guard) :
    (T.add [-guard, k]).IsModel s ↔ T.IsModel s ∧ (guard.holds s = true → k.holds s = true) := by
  refine and_congr_right fun _ => ?_
  rw [Clause.holds, List.any_cons, List.any_cons, List.any_nil, Literal.holds_neg s h.1]
  cases guard.holds s <;> simp

/-- a fresh variable is a guard once a clause says that it implies the mismatch of inputs and layer. -/
theorem Encoded.guard (h : Encoded T n l retired t) {v : Nat} (hpos : 0 < v) (hfresh : v ∉ T.inUse)
    (hle : T.allocate v ≤ T') (h' : T'.Good) {d : Literal}
    (hd : T'.Means d fun s => decide (wordOf s l.inputs ≠ t.getD (wordOf s l.inputs) 0)) :
    Guarded (T'.add [-(v : Literal), d]) n l v retired t := by
  have hle₁ := T.le_allocate v
  have h₁ := (h.mono hle₁ (h.good.allocate v)).mono hle h'
  have hv := Theory.knows_allocate (T := T) hpos
  have hv' := hv.mono hle
  have hclause : ∀ k ∈ [-(v : Literal), d], T'.Knows k := by
    intro k hk
    rcases List.mem_pair.1 hk with rfl | rfl
    · exact hv'.neg
    · exact hd.knows
  -- for every input, the guard can have each value that the mismatch admits
  have hswitch : ∀ x < 2 ^ n, ∀ c : Bool, (c = true → t.getD x 0 ≠ x) → ∃ s, (T'.add [-(v : Literal), d]).IsModel s ∧
      wordOf s l.inputs = x ∧ Literal.holds s v = c ∧ ∀ k ∈ retired, k.holds s = false := by
    intro x hx c hc
    obtain ⟨s, hs, hword, hoff⟩ := h.free x hx
    obtain ⟨s₁, hs₁, hval, he₁⟩ := h.good.exists_update hfresh hs c
    have hs₁' : (T.allocate v).IsModel s₁ := hs₁
    obtain ⟨s₂, hs₂, he₂⟩ := Theory.exists_model hle hs₁'
    have hsame : ∀ k, T.Knows k → k.holds s₂ = k.holds s := fun k hk =>
      (he₂ k (hk.mono hle₁)).trans (Literal.holds_congr (he₁ _ hk.2))
    have hword₂ : wordOf s₂ l.inputs = x := by rw [Cnf.wordOf_congr fun k hk => hsame k (h.inputs.knows k hk), hword]
    have hguard : Literal.holds s₂ v = c := by
      rw [he₂ _ hv, Literal.holds_natCast, hval]
    refine ⟨s₂, (isModel_guarded hv').2 ⟨hs₂, fun hon => ?_⟩, hword₂, hguard,
      fun k hk => (hsame k (h.knows_retired k hk)).trans (hoff k hk)⟩
    rw [hd.eval s₂ hs₂, hword₂, decide_eq_true_iff]
    exact Ne.symm (hc (hguard.symm.trans hon))
  refine ⟨⟨h₁.good.add hclause, h₁.inputs.add _, h₁.layer.add _, h₁.knows_retired, fun x hx => ?_⟩, hv',
    fun s hs hon => ?_, hswitch⟩
  · obtain ⟨s, hs, hword, -, hoff⟩ := hswitch x hx false fun hc => absurd hc Bool.false_ne_true
    exact ⟨s, hs, hword, hoff⟩
  · have hmismatch := ((isModel_guarded hv').1 hs).2 hon
    rw [hd.eval s hs.1, decide_eq_true_iff] at hmismatch
    exact Ne.symm hmismatch

theorem onBuilder_eq {σ α : Type} {x : CnfM σ α} {r : α} {b b' : Builder σ} (h : x b = .ok r b') :
    onBuilder x ⟨b, l, active, retired⟩ = .ok r ⟨b', l, active, retired⟩ := by
  rw [onBuilder, h]

variable {σ : Type} [Solver σ] [LawfulSolver σ] {b : Builder σ}

/-- **A new guard.** -/
theorem guardLayer_eq (h : Encoded b.theory n l retired t) :
    ∃ g b', guardLayer l b = .ok g b' ∧ Guarded b'.theory n l g retired t := by
  obtain ⟨v, b₁, hnew, hpos, hfresh, htheory⟩ := Cnf.newVar_eq b
  have h₁ : Encoded b₁.theory n l retired t := by
    rw [htheory]
    exact h.mono (b.theory.le_allocate v) (h.good.allocate v)
  obtain ⟨d, b₂, hok, hb₂, hle, hd⟩ := (Cnf.defines_encodeMismatch h₁.good h₁.inputs h₁.layer).encodes
  rw [htheory] at hle
  have hclause : ∀ k ∈ [-(v : Literal), d], b₂.theory.Knows k := by
    intro k hk
    rcases List.mem_pair.1 hk with rfl | rfl
    · exact ((Theory.knows_allocate hpos).mono hle).neg
    · exact hd.knows
  obtain ⟨b₃, hadd, htheory₃⟩ := Cnf.addClause_eq hclause
  refine ⟨v, b₃, ?_, ?_⟩
  · unfold guardLayer
    rw [bind_of_ok hnew, bind_of_ok hok, bind_of_ok hadd]
    rfl
  · rw [htheory₃]
    exact h.guard hpos hfresh hle hb₂ hd

/-! ### the smallest mismatch -/

/-- the invariant of a run: the clauses of the state stand for the table. -/
def Tracks (n : Nat) (st : State σ) (t : Array Nat) : Prop :=
  Guarded st.builder.theory n st.layers st.active st.retired t

/-- the models of every query: the active guard is on, and old guards are off. -/
def Mismatch (st : State σ) (settings : Settings) (s : Assignment) : Prop :=
  st.builder.theory.IsModel s ∧ allHold s (baseAssumptions st settings) = true

section mismatch

variable {st : State σ} {settings : Settings}

theorem Tracks.knows_base (h : Tracks n st t) (settings : Settings) :
    ∀ k ∈ baseAssumptions st settings, st.builder.theory.Knows k := by
  intro k hk
  rcases List.mem_cons.1 hk with rfl | hk
  · exact h.knows_active
  · split at hk
    · obtain ⟨j, hj, rfl⟩ := List.mem_map.1 hk
      exact (h.knows_retired j hj).neg
    · cases hk

/-- the models of a query have inputs that the table moves. -/
theorem Tracks.moved (h : Tracks n st t) (hs : Mismatch st settings s) :
    t.getD (wordOf s st.layers.inputs) 0 ≠ wordOf s st.layers.inputs := by
  have hon := hs.2
  rw [baseAssumptions, allHold, List.all_cons, Bool.and_eq_true] at hon
  exact h.differ s hs.1 hon.1

/-- every word that the table moves is the input of a model of the query. -/
theorem Tracks.exists_mismatch (h : Tracks n st t) (settings : Settings) (hx : x < 2 ^ n) (hne : t.getD x 0 ≠ x) :
    ∃ s, Mismatch st settings s ∧ wordOf s st.layers.inputs = x := by
  obtain ⟨s, hs, hword, hon, hoff⟩ := h.switch x hx true fun _ => hne
  refine ⟨s, ⟨hs, ?_⟩, hword⟩
  rw [baseAssumptions, allHold, List.all_cons, hon, Bool.true_and, List.all_eq_true]
  intro k hk
  split at hk
  · obtain ⟨j, hj, rfl⟩ := List.mem_map.1 hk
    rw [Literal.holds_neg s (h.knows_retired j hj).1, hoff j hj]
    rfl
  · cases hk

/-- before any bit is settled, the assumptions select the models of the query. -/
theorem Tracks.settled (h : Tracks n st t) (hs : Mismatch st settings s) :
    Settled st.builder.theory st.layers.inputs (Mismatch st settings) n (baseAssumptions st settings) s := by
  have hzero : ∀ a, wordOf a st.layers.inputs >>> n = 0 := fun a =>
    Nat.shiftRight_eq_zero _ _ (h.inputs.length ▸ Cnf.wordOf_lt a st.layers.inputs)
  refine ⟨hs, h.knows_base settings, fun a => ?_, fun a _ => by rw [hzero, hzero]⟩
  rw [hzero, hzero]
  exact (and_iff_left rfl).symm

/-- **The smallest mismatch** is the smallest row that the table moves, with its image. -/
theorem smallestMismatch?_eq (h : Tracks n st t) (settings : Settings) :
    ∃ o b', smallestMismatch? settings st = .ok o { st with builder := b' } ∧ b'.theory = st.builder.theory ∧
      ((o = none ∧ ∀ x < 2 ^ n, t.getD x 0 = x) ∨
        ∃ x model, o = some model ∧ FirstUnfixed n t x ∧ Word.ofBits model.inputs = x ∧
          Word.ofBits model.layer = t.getD x 0) := by
  obtain ⟨b, l, active, retired⟩ := st
  have hin := h.inputs.knows
  have hlayer := h.layer.knows
  obtain ⟨o, b₁, hok, htheory, ho⟩ := query_eq hin hlayer (h.knows_base settings)
  have hget : (get : EStateM Error (State σ) (State σ)) ⟨b, l, active, retired⟩ = .ok _ ⟨b, l, active, retired⟩ := rfl
  unfold smallestMismatch?
  rw [bind_of_ok hget]
  rcases ho with ⟨rfl, hnone⟩ | ⟨s, rfl, hs, hall⟩
  · refine ⟨none, b₁, onBuilder_eq (bind_of_ok hok _), htheory, Or.inl ⟨rfl, fun x hx => ?_⟩⟩
    by_contra hne
    obtain ⟨s, hs, -⟩ := h.exists_mismatch settings hx hne
    have := hnone s hs.1
    rw [hs.2] at this
    cases this
  · have hmismatch : Mismatch ⟨b, l, active, retired⟩ settings s := ⟨hs, hall⟩
    have hsettled := h.settled hmismatch
    obtain ⟨s', b₂, hok₂, htheory₂, hs', hleast⟩ :=
      minimize_eq (b := b₁) (htheory ▸ hin) (htheory ▸ hlayer) (Nat.le_of_eq h.inputs.length.symm) (htheory ▸ hsettled)
    rw [← h.inputs.length, List.take_length] at hok₂
    refine ⟨some (modelOf l s'), b₂, ?_, htheory₂.trans htheory, Or.inr ⟨_, _, rfl, ⟨?_, ?_, fun z hz => ?_⟩, rfl, ?_⟩⟩
    · exact onBuilder_eq ((bind_of_ok hok _).trans (bind_of_ok hok₂ _))
    · exact h.inputs.length ▸ Cnf.wordOf_lt s' l.inputs
    · exact h.moved hs'
    · -- a smaller row that the table moves would have been found
      by_contra hne
      have hlt : z < 2 ^ n := hz.trans (h.inputs.length ▸ Cnf.wordOf_lt s' l.inputs)
      obtain ⟨a, ha, rfl⟩ := h.exists_mismatch settings hlt hne
      exact absurd (hleast a ha) (Nat.not_le.2 hz)
    · exact h.layer.eval s' hs'.1

end mismatch

/-! ### steps -/

/-- **A new layer** stands for the table with the gate behind it. -/
theorem addLayer_eq {st : State σ} (h : Tracks n st t) (settings : Settings) (ht : Bijection n t) {g : Gate}
    (hg : g.Within n) : ∃ st', addLayer settings g st = .ok () st' ∧ Tracks n st' (t.map g.apply) := by
  obtain ⟨b, l, active, retired⟩ := st
  obtain ⟨layer, b₁, hok₁, hb₁, hle₁, hlayer⟩ := (Cnf.defines_encodeGate h.good hg h.layer).encodes
  have h₁ : Guarded b₁.theory n l active retired t := h.mono hle₁ hb₁
  have hlayer' : b₁.theory.MeansWord n layer fun s => (t.map g.apply).getD (wordOf s l.inputs) 0 :=
    hlayer.congr fun s _ => (Explicit.getD_map ht g (h₁.inputs.length ▸ Cnf.wordOf_lt s l.inputs)).symm
  have hget : (get : EStateM Error (State σ) (State σ)) ⟨b, l, active, retired⟩ = .ok _ ⟨b, l, active, retired⟩ := rfl
  unfold addLayer
  rw [bind_of_ok hget, bind_of_ok (onBuilder_eq hok₁)]
  cases hassume : settings.assumeRetired with
  | false =>
    obtain ⟨b₂, hok₂, htheory⟩ := Cnf.addClause_eq (c := [-active]) fun k hk =>
      List.mem_singleton.1 hk ▸ h₁.knows_active.neg
    have h₂ : Encoded b₂.theory n ⟨l.inputs, layer⟩ retired (t.map g.apply) :=
      htheory ▸ h₁.off.withLayer (hlayer'.add _)
    obtain ⟨a, b₃, hok₃, h₃⟩ := guardLayer_eq h₂
    refine ⟨⟨b₃, ⟨l.inputs, layer⟩, a, retired⟩, ?_, h₃⟩
    rw [Bool.not_false, if_pos rfl, bind_of_ok (onBuilder_eq hok₂)]
    exact bind_of_ok (onBuilder_eq hok₃) _
  | true =>
    have h₂ : Encoded b₁.theory n ⟨l.inputs, layer⟩ (retired ++ [active]) (t.map g.apply) :=
      h₁.assumed.withLayer hlayer'
    obtain ⟨a, b₃, hok₃, h₃⟩ := guardLayer_eq h₂
    refine ⟨⟨b₃, ⟨l.inputs, layer⟩, a, retired ++ [active]⟩, ?_, h₃⟩
    rw [Bool.not_true, if_neg Bool.false_ne_true]
    exact bind_of_ok (onBuilder_eq hok₃) _

/-- **A step on the clauses is a step on the table.** -/
theorem follows (n : Nat) (template : Option Circuit) (settings : Settings) :
    Follows (strategy n template settings : Strategy (State σ)) n false (Tracks n) := by
  constructor
  · intro st t h _ hfix
    obtain ⟨o, b', hok, -, ho⟩ := smallestMismatch?_eq h settings
    rcases ho with ⟨rfl, -⟩ | ⟨x, _, -, hx, -⟩
    · exact ⟨_, bind_of_ok hok _⟩
    · exact absurd (hfix x hx.lt) hx.ne
  · intro st t x h ht hx
    obtain ⟨o, b', hok, htheory, ho⟩ := smallestMismatch?_eq h settings
    rcases ho with ⟨-, hnone⟩ | ⟨z, model, rfl, hz, hinputs, hlayer⟩
    · exact absurd (hnone x hx.lt) hx.ne
    -- a table has one smallest row that it moves
    have hzx : z = x := by
      rcases Nat.lt_trichotomy z x with hlt | he | hlt
      · exact absurd (hx.below z hlt) hz.ne
      · exact he
      · exact absurd (hz.below x hlt) hx.ne
    subst hzx
    have h' : Tracks n { st with builder := b' } t := by
      unfold Tracks
      rw [htheory]
      exact h
    obtain ⟨st', hadd, hst'⟩ := addLayer_eq h' settings ht (hx.gate_proper ht false).2
    refine ⟨st', ?_, hst'⟩
    refine (bind_of_ok hok _).trans ?_
    dsimp only
    rw [hinputs, hlayer, if_neg hx.ne.symm, resolvingGate?_eq hx.ne.symm]
    exact bind_of_ok hadd _

end ReversibleLogic.Transform.Solving
