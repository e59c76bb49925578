import ReversibleLogic.Proofs.Bdd.Reached
import ReversibleLogic.Proofs.Relation.Questions
import ReversibleLogic.Proofs.Transform.Following
import ReversibleLogic.Transform.Symbolic

/-!
# Runs on relations

* `Relation.IsGraph` — the relation is the graph of a bijection on words;
* `Tracks n` — the relation of a state is the graph of a table; a step on the relation is a step on the table
  (`follows`);
* `synthesize_agrees` — runs on relations fail exactly on relations that are no bijections, and have the gates of the
  run on the table otherwise.
-/

namespace ReversibleLogic

open Bdd

/-! ### bijections as relations -/

namespace Relation

variable {m m' : Manager} {r : Relation}

/-- the relation is the graph of a bijection on the words of its lines. -/
def IsGraph (m : Manager) (r : Relation) : Prop :=
  ∃ f : Nat → Nat, Set.BijOn f (Set.Iio (2 ^ r.lines)) (Set.Iio (2 ^ r.lines)) ∧
    ∀ x < 2 ^ r.lines, ∀ y < 2 ^ r.lines, m.eval (pairAssignment r.lines x y) r.root = true ↔ f x = y

theorem isGraph_iff : IsGraph m r ↔ Bijective r.lines fun x y => m.eval (pairAssignment r.lines x y) r.root := by
  constructor
  · rintro ⟨f, ⟨hmaps, hinj, hsurj⟩, hf⟩
    refine ⟨fun x hx => ⟨f x, hmaps hx, (hf x hx _ (hmaps hx)).2 rfl⟩, fun y hy => ?_, fun x hx y hy y' hy' h h' => ?_,
      fun y hy x hx x' hx' h h' => ?_⟩
    · obtain ⟨x, hx, he⟩ := hsurj hy
      exact ⟨x, hx, (hf x hx y hy).2 he⟩
    · exact ((hf x hx y hy).1 h).symm.trans ((hf x hx y' hy').1 h')
    · exact hinj hx hx' (((hf x hx y hy).1 h).trans ((hf x' hx' y hy).1 h').symm)
  · intro h
    obtain ⟨t, ht, hR⟩ := exists_table h
    refine ⟨(t.getD · 0), ⟨fun x hx => ht.lt x hx, fun x hx x' hx' => ht.inj x hx x' hx', fun y hy => ?_⟩,
      fun x hx y hy => ?_⟩
    · obtain ⟨x, hx, he⟩ := ht.surj hy
      exact ⟨x, hx, he⟩
    · rw [hR x hx y hy, graph_iff]

theorem represents_self (hm : m.Ordered) (hr : m.Holds r.root)
    (hvars : ∀ v, ¬ (1 ≤ v ∧ v ≤ 2 * r.lines) → Ignores (m.eval · r.root) v) :
    Represents m r fun x y => m.eval (pairAssignment r.lines x y) r.root :=
  ⟨hr, over_eval hm hr hvars, fun _ _ _ _ => rfl⟩

end Relation

namespace Transform.Symbolic

open ReversibleLogic.Relation
open Explicit (outputOnly FirstUnfixed)

variable {m : Manager} {r : Relation} {n : Nat} {fredkin : Bool}

/-! ### steps -/

/-- the relation of the state is the graph of the table. -/
structure Tracks (n : Nat) (st : State) (t : Array Nat) : Prop where
  wellFormed : st.manager.WellFormed
  lines_eq : st.relation.lines = n
  represents : Represents st.manager st.relation (graph t)

theorem onManager_eq {α : Type} {x : Relation → BddM α} {a : α} {m' : Manager} (h : x r m = .ok a m') :
    onManager x ⟨m, r⟩ = .ok a ⟨m', r⟩ := by
  rw [onManager, h]

theorem exists_onManager {α : Type} {x : Relation → BddM α} {Q : α → Manager → Prop} (h : Yields m (x r) Q) :
    ∃ a m', onManager x ⟨m, r⟩ = .ok a ⟨m', r⟩ ∧ m'.WellFormed ∧ m ≤ m' ∧ Q a m' := by
  obtain ⟨a, m', hok, hrest⟩ := h
  exact ⟨a, m', onManager_eq hok, hrest⟩

theorem vars_lt (hn : n ≤ maxTableLines) : 2 * n < lastLevel := by
  have : 2 * maxTableLines < lastLevel := by decide
  omega

theorem mismatch_graph_iff {t : Array Nat} (ht : Bijection n t) {x : Nat} (hx : x < 2 ^ n) :
    (∃ y < 2 ^ n, graph t x y = true ∧ x ≠ y) ↔ t.getD x 0 ≠ x := by
  constructor
  · rintro ⟨y, -, hxy, hne⟩ he
    exact hne (he.symm.trans (graph_iff.1 hxy))
  · exact fun hne => ⟨_, ht.lt x hx, graph_iff.2 rfl, hne.symm⟩

theorem graph_map {t : Array Nat} (ht : Bijection n t) {g : Gate} (hg : g.Normal) {x : Nat} (hx : x < 2 ^ n) (y : Nat) :
    graph t x (g.apply y) = graph (t.map g.apply) x y := by
  rw [Bool.eq_iff_iff, graph_iff, graph_iff, Explicit.getD_map ht g hx]
  constructor
  · intro he
    rw [he, Gate.apply_apply hg]
  · rintro rfl
    rw [Gate.apply_apply hg]

/-- **A step on the relation is a step on the table.** -/
theorem follows (hn : n ≤ maxTableLines) (fredkin : Bool) (template : Option Circuit) :
    Follows (strategy n ⟨fredkin, template⟩) n fredkin (Tracks n) := by
  constructor
  · rintro ⟨m, r⟩ t ⟨hm, rfl, hr⟩ ht hfix
    obtain ⟨o, m', hok, -, -, ho⟩ := exists_onManager (yields_smallestMismatch? hm (vars_lt hn) hr)
    rcases ho with ⟨rfl, -⟩ | ⟨x, hx, -, hex, -⟩
    · exact ⟨⟨m', r⟩, bind_of_ok hok _⟩
    · exact absurd (hfix x hx) ((mismatch_graph_iff ht hx).1 hex)
  · rintro ⟨m, r⟩ t x ⟨hm, rfl, hr⟩ ht hx
    have hvars := vars_lt hn
    obtain ⟨o, m₁, hok₁, hm₁, hle₁, ho⟩ := exists_onManager (yields_smallestMismatch? hm hvars hr)
    -- the smallest mismatch is the smallest row that the table moves
    have ho : o = some x := by
      rcases ho with ⟨-, hnone⟩ | ⟨z, hz, rfl, hex, hleast⟩
      · exact absurd (hnone x hx.lt _ (ht.lt x hx.lt) (graph_iff.2 rfl)).symm hx.ne
      · have hzx : z ≤ x := hleast x hx.lt ((mismatch_graph_iff ht hx.lt).2 hx.ne)
        have hxz : ¬ z < x := fun hlt => (mismatch_graph_iff ht hz).1 hex (hx.below z hlt)
        rw [Nat.le_antisymm hzx (Nat.not_lt.1 hxz)]
    subst ho
    have hr₁ := hr.mono hm.toOrdered hle₁
    obtain ⟨o, m₂, hok₂, hm₂, hle₂, rfl⟩ :=
      exists_onManager (x := (·.image? x)) (yields_image?_graph hm₁ ht hr₁ hx.lt)
    have hr₂ := hr₁.mono hm₁.toOrdered hle₂
    have hg := hx.gate_proper ht fredkin
    have hgate := chooseGate?_eq hx.ne.symm fredkin
    generalize chooseGate x (t.getD x 0) fredkin = g at hg hgate
    obtain ⟨s, m₃, hok₃, hm₃, hle₃, hs, hs'⟩ :=
      exists_onManager (x := (·.applyGate g)) (yields_applyGate hm₂ hvars hr₂ hg)
    refine ⟨⟨m₃, s⟩, ?_, hm₃, hs, hs'.congr fun z hz y _ => graph_map ht hg.1 (by rwa [hs] at hz) y⟩
    refine (bind_of_ok hok₁ _).trans ((bind_of_ok hok₂ _).trans ?_)
    dsimp only
    rw [hgate]
    exact bind_of_ok hok₃ _

/-! ### runs -/

theorem synthesize_of_isPermutation {m' : Manager} (h : r.isPermutation m = .ok true m') {settings : Settings}
    {outcome : Outcome} {st' : State} (hrun : (strategy r.lines settings).run ⟨m', r⟩ = .ok outcome st') :
    synthesize r settings m = .ok outcome st'.manager := by
  unfold synthesize
  rw [bind_of_ok h]
  simp only [Bool.not_true, Bool.false_eq_true, ↓reduceIte, hrun]

theorem synthesize_of_not_bijective (h : m.WellFormed) {R : Nat → Nat → Bool} (hr : Represents m r R)
    (hR : ¬ Bijective r.lines R) (settings : Settings) :
    ∃ m', synthesize r settings m = .error (.inconsistent .notBijective) m' := by
  obtain ⟨b, m', hok, -, -, hb⟩ := yields_isPermutation h hr
  have hb : b = false := by
    rw [← Bool.not_eq_true, hb]
    exact hR
  subst hb
  exact ⟨m', bind_of_ok hok _⟩

/-- the check for a bijection accepts the graph of a table, and leaves a state that stands for the table. -/
theorem exists_tracks (h : m.WellFormed) {t : Array Nat} (ht : Bijection r.lines t) (hr : Represents m r (graph t)) :
    ∃ m', r.isPermutation m = .ok true m' ∧ Tracks r.lines ⟨m', r⟩ t := by
  obtain ⟨b, m', hok, hm', hle, hb⟩ := yields_isPermutation h hr
  have hb : b = true := hb.2 (bijective_graph ht)
  subst hb
  exact ⟨m', hok, hm', rfl, hr.mono h.toOrdered hle⟩

/-- the run on the graph of a table has the gates of the run on the table. -/
theorem synthesize_graph (h : m.WellFormed) (hn : r.lines ≤ maxTableLines) {t : Array Nat} (ht : Bijection r.lines t)
    (hr : Represents m r (graph t)) (fredkin : Bool) :
    ∃ outcome plain rows m', synthesize r ⟨fredkin, none⟩ m = .ok outcome m' ∧
      TableRun ⟨r.lines, t⟩ fredkin plain rows ∧ outcome.circuit = plain.circuit ∧ outcome.rows = some rows := by
  obtain ⟨m₁, hok, htracks⟩ := exists_tracks h ht hr
  have hvalid : Permutation.Valid ⟨r.lines, t⟩ := ⟨hn, ht⟩
  obtain ⟨gates, rows, st', hrun, htable⟩ :=
    (follows hn fredkin none).run_eq rfl rfl rfl (fun t h => nomatch h) hvalid rfl htracks
  exact ⟨_, _, rows, st'.manager, synthesize_of_isPermutation hok hrun, htable, rfl, rfl⟩

/-- **The run on the graph of a table computes the table**, under any template on its lines. -/
theorem exists_synthesize (h : m.WellFormed) (hn : r.lines ≤ maxTableLines) {t : Array Nat}
    (ht : Bijection r.lines t) (hr : Represents m r (graph t)) {settings : Settings}
    (hfits : ∀ c, settings.template = some c → c.lines = r.lines) :
    ∃ gates rows m', synthesize r settings m = .ok ⟨(strategy r.lines settings).circuitOf gates, some rows, false⟩ m' ∧
      (∀ g ∈ gates, g.Proper r.lines) ∧ ∀ x < 2 ^ r.lines, Gate.applyAll gates x = t.getD x 0 := by
  obtain ⟨m₁, hok, htracks⟩ := exists_tracks h ht hr
  have hn64 : r.lines < 64 := hn.trans_lt (by decide)
  obtain ⟨gates, rows, st', hrun, hproper, hcomputes⟩ :=
    (follows hn settings.fredkin settings.template).run_computes rfl rfl rfl hfits ht hn64 htracks
  exact ⟨gates, rows, st'.manager, synthesize_of_isPermutation hok hrun, hproper, hcomputes⟩

/-- **Synthesis from a relation.** In a reachable manager, the synthesis of a relation over the variables of its lines
reports an inconsistency exactly if the relation is not the graph of a bijection. Otherwise it finds the circuit of the
table of the relation, and the number of different rows that needed a gate. -/
theorem synthesize_agrees (hm : Bdd.Reached m) (hr : m.Holds r.root) (hn : r.lines ≤ maxTableLines)
    (hvars : ∀ v, ¬ (1 ≤ v ∧ v ≤ 2 * r.lines) → Ignores (m.eval · r.root) v) (fredkin : Bool) :
    ((∃ e m', synthesize r ⟨fredkin, none⟩ m = .error (.inconsistent e) m') ↔ ¬ IsGraph m r) ∧
      (IsGraph m r → ∃ p outcome plain rows m₁ m₂, r.toPermutation m = .ok p m₁ ∧
        synthesize r ⟨fredkin, none⟩ m = .ok outcome m₂ ∧ TableRun p fredkin plain rows ∧
        outcome.circuit = plain.circuit ∧ outcome.rows = some rows) := by
  have h := wellFormed_of_reached hm
  have hself := represents_self h.toOrdered hr hvars
  -- a bijection has a table, and the run on the relation follows it
  have hrun : IsGraph m r → ∃ t, Bijection r.lines t ∧ Represents m r (graph t) := by
    intro hgraph
    obtain ⟨t, ht, hR⟩ := exists_table (isGraph_iff.1 hgraph)
    exact ⟨t, ht, hself.congr hR⟩
  refine ⟨⟨fun ⟨e, m', herr⟩ hgraph => ?_, fun hgraph => ?_⟩, fun hgraph => ?_⟩
  · obtain ⟨t, ht, hrt⟩ := hrun hgraph
    obtain ⟨outcome, -, -, m₂, hok, -⟩ := synthesize_graph h hn ht hrt fredkin
    rw [herr] at hok
    cases hok
  · obtain ⟨m', herr⟩ := synthesize_of_not_bijective h hself (fun hb => hgraph (isGraph_iff.2 hb)) ⟨fredkin, none⟩
    exact ⟨_, m', herr⟩
  · obtain ⟨t, ht, hrt⟩ := hrun hgraph
    obtain ⟨p, m₁, hp, -, -, rfl⟩ := yields_toPermutation h hn ht hrt
    obtain ⟨outcome, plain, rows, m₂, hok, htable, hcircuit, hrows⟩ := synthesize_graph h hn ht hrt fredkin
    exact ⟨_, outcome, plain, rows, m₁, m₂, hp, hok, htable, hcircuit, hrows⟩

theorem synthesize_agrees_inverter :
    ∃ m root, Bdd.Reached m ∧ (∀ a, m.eval a root = (a 1 != a 2)) ∧
      ∃ p outcome plain rows m₁ m₂, (⟨1, root⟩ : Relation).toPermutation m = .ok p m₁ ∧
        synthesize ⟨1, root⟩ ⟨true, none⟩ m = .ok outcome m₂ ∧ TableRun p true plain rows ∧
        outcome.circuit = plain.circuit ∧ outcome.rows = some rows := by
  obtain ⟨m, root, hm, hroot⟩ := exists_reached_difference
  have hvars : ∀ v, ¬ (1 ≤ v ∧ v ≤ 2 * 1) → Ignores (m.eval · root) v := by
    intro v hv a b
    simp only [hroot.eval]
    rw [Function.update_of_ne (by omega), Function.update_of_ne (by omega)]
  have hgraph : IsGraph m ⟨1, root⟩ := by
    have hpair : ∀ x < 2, ∀ y < 2, (pairAssignment 1 x y 1 != pairAssignment 1 x y 2) = true ↔ 1 - x = y := by decide
    refine ⟨(1 - ·), ⟨?_, ?_, ?_⟩, fun x hx y hy => by rw [hroot.eval]; exact hpair x hx y hy⟩
    · intro x _
      show 1 - x < 2
      omega
    · intro x hx y hy he
      have hx : x < 2 := hx
      have hy : y < 2 := hy
      have he : 1 - x = 1 - y := he
      omega
    · intro y hy
      have hy : y < 2 := hy
      have hlt : 1 - y < 2 := by omega
      exact ⟨1 - y, hlt, (by omega : 1 - (1 - y) = y)⟩
  obtain ⟨-, hok⟩ := synthesize_agrees (r := ⟨1, root⟩) hm hroot.holds (Nat.le_of_ble_eq_true rfl) hvars true
  exact ⟨m, root, hm, hroot.eval, hok hgraph⟩

end Transform.Symbolic

end ReversibleLogic
