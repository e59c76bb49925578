import Mathlib.Order.Bounds.Basic
import ReversibleLogic.Proofs.Circuit
import ReversibleLogic.Proofs.Transform.Tables

/-!
# Cascades of Toffoli gates

* `Usable n negative g` — the gates that a search on `n` lines may use;
* `Solves p negative gs` — a cascade of such gates that computes `p`, and `lengths p negative` — the lengths of all of
  them;
* `solves_cascade` — the cascade of a transformation without Fredkin gates is one of them;
* `exists_solves` — there is one of at most `n * 2 ^ n` gates.
-/

namespace ReversibleLogic

open Gate

namespace Exact

variable {p : Permutation} {negative : Bool} {gs : List Gate} {g : Gate} {n : Nat}

/-- a checked Toffoli gate on lines below `n`, with positive controls unless negative ones are allowed. -/
structure Usable (n : Nat) (negative : Bool) (g : Gate) : Prop where
  built : g.Built
  within : g.Within n
  isToffoli : g.isToffoli = true
  positive : negative = true ∨ ∀ c ∈ g.controls, c.positive = true

/-- a cascade of usable gates that computes `p`. -/
structure Solves (p : Permutation) (negative : Bool) (gs : List Gate) : Prop where
  usable : ∀ g ∈ gs, Usable p.lines negative g
  computes : ∀ x < 2 ^ p.lines, p.apply x = .ok (applyAll gs x)

def lengths (p : Permutation) (negative : Bool) : Set Nat := {k | ∃ gs, Solves p negative gs ∧ gs.length = k}

theorem Usable.proper (h : Usable n negative g) : g.Proper n := ⟨built_iff_normal.1 h.built, h.within⟩

theorem solves_iff (hp : p.Valid) :
    Solves p negative gs ↔
      (∀ g ∈ gs, Usable p.lines negative g) ∧ ∀ x < 2 ^ p.lines, applyAll gs x = p.table.getD x 0 := by
  have hvalue : ∀ x < 2 ^ p.lines, p.apply x = .ok (applyAll gs x) ↔ applyAll gs x = p.table.getD x 0 := by
    intro x hx
    rw [Permutation.apply_eq hp hx]
    exact ⟨fun h => (Except.ok.inj h).symm, fun h => by rw [h]⟩
  constructor
  · exact fun h => ⟨h.usable, fun x hx => (hvalue x hx).1 (h.computes x hx)⟩
  · exact fun h => ⟨h.1, fun x hx => (hvalue x hx).2 (h.2 x hx)⟩

/-- every gate of a run without Fredkin gates is usable, on either side and whatever controls are allowed. -/
theorem usable_of_takes (hp : p.Valid) {settings : Transform.Explicit.Settings} (hfredkin : settings.fredkin = false)
    {steps : List Transform.Step} {s' : Transform.Explicit.State}
    (htakes : (Transform.Explicit.strategy p.lines settings).Takes (.ofPermutation p) steps s')
    (hproper : Transform.StepsProper p.lines steps) (negative : Bool) :
    ∀ step ∈ steps, Usable p.lines negative step.gate := by
  intro step hstep
  obtain ⟨x, y, hne, hgate⟩ := Transform.Explicit.exists_chooseGate_of_takes
    (Transform.Explicit.State.sound_ofPermutation hp.bijection) htakes step hstep
  obtain ⟨hnormal, hwithin⟩ := hproper step hstep
  -- without Fredkin gates the chosen gate is the resolving gate, with positive controls
  obtain ⟨m, t, he, -⟩ := Transform.resolvingGate_eq hne
  rw [hfredkin] at hgate
  have hgate : step.gate = .toffoli (positives m) t := hgate.trans he
  refine ⟨built_iff_normal.2 hnormal, hwithin, by rw [hgate]; rfl, Or.inr fun c hc => ?_⟩
  rw [hgate] at hc
  obtain ⟨i, -, rfl⟩ := List.mem_map.1 hc
  rfl

/-- **The cascade of a transformation** without Fredkin gates computes the permutation. -/
theorem solves_cascade (hp : p.Valid) {settings : Transform.Explicit.Settings} (hfredkin : settings.fredkin = false)
    {steps : List Transform.Step} {s' : Transform.Explicit.State}
    (htakes : (Transform.Explicit.strategy p.lines settings).Takes (.ofPermutation p) steps s')
    (hr : Transform.Explicit.Realizes p.lines p.table 0 steps) (negative : Bool) :
    Solves p negative (Transform.cascade steps) := by
  refine (solves_iff hp).2 ⟨fun g hg => ?_, hr.computes⟩
  obtain ⟨step, hstep, rfl⟩ := Transform.mem_cascade hg
  exact usable_of_takes hp hfredkin htakes hr.proper negative step hstep

/-- **Every permutation has a cascade**: that of a transformation of its table on the output side. -/
theorem exists_solves (hp : p.Valid) (negative : Bool) :
    ∃ gs, Solves p negative gs ∧ gs.length ≤ p.lines * 2 ^ p.lines := by
  obtain ⟨steps, s', htakes, hlen, hr⟩ :=
    Transform.Explicit.exists_takes_ofPermutation hp ⟨false, false, false, none⟩
  rw [Transform.stepLimit_eq (hp.lines_le.trans_lt (by decide))] at hlen
  refine ⟨Transform.cascade steps, solves_cascade hp rfl htakes hr negative, ?_⟩
  rwa [Transform.length_cascade]

end Exact

end ReversibleLogic
