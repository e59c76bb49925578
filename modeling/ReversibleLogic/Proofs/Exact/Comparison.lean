import ReversibleLogic.Proofs.Exact.Search

/-!
# Smallest cascades and transformations

A transformation without Fredkin gates, on the output side or on both sides, gives a cascade of Toffoli gates with
positive controls. It is one of the cascades that the search for smallest ones looks at, whatever controls are allowed
there.

* `exists_cascade_of_transformation` — the cascade of a transformation computes the permutation, in at most `n * 2 ^ n`
  gates;
* `exists_synthesize_of_solves`, `exists_synthesize_of_le` — the search finds something as soon as its largest depth is
  at least the length of some cascade;
* `synthesize_depth_le_transformation` — so it never needs more gates than the transformation.
-/

namespace ReversibleLogic.Exact

variable {p : Permutation} {s : Settings} {ts : Transform.Explicit.Settings} {gs : List Gate}

/-- a transformation without Fredkin gates succeeds, and its gates are a cascade for the permutation. -/
theorem exists_cascade_of_transformation (hp : p.Valid) (hts : ts.validate = .ok ()) (hfredkin : ts.fredkin = false)
    (htemplate : ∀ t, ts.template = some t → t.lines = p.lines) (negative : Bool) :
    ∃ outcome, Transform.Explicit.synthesize p ts = .ok outcome ∧ Solves p negative outcome.circuit.gates ∧
      outcome.circuit.size ≤ p.lines * 2 ^ p.lines := by
  obtain ⟨steps, s', htakes, hlen, hr⟩ := Transform.Explicit.exists_takes_ofPermutation hp ts
  have hok := Transform.Explicit.synthesize_of_takes hp hts htemplate htakes hlen hr.proper
  -- gates are folded only where Fredkin gates are allowed
  have hlookback : ts.lookback = false := by
    cases hl : ts.lookback with
    | false => rfl
    | true =>
      rw [Transform.Explicit.Settings.validate, hl, hfredkin] at hts
      cases hts
  rw [hlookback] at hok
  rw [Transform.stepLimit_eq (hp.lines_le.trans_lt (by decide))] at hlen
  refine ⟨_, hok, ?_, ?_⟩
  · rw [Transform.Strategy.gates_circuitOf, Transform.Progress.gates_after_false]
    exact solves_cascade hp hfredkin htakes hr negative
  · rw [Circuit.size, Transform.Strategy.gates_circuitOf, Transform.Progress.gates_after_false,
      Transform.length_cascade]
    exact hlen

/-- a cascade that is not too long is found, or a shorter one. -/
theorem exists_synthesize_of_solves (hp : p.Valid) (hpos : 0 < p.lines) (hle : p.lines ≤ maxLines)
    (hfits : ∀ t, s.template = some t → t.lines = p.lines) (hgs : Solves p s.negative gs)
    (hlen : gs.length ≤ s.maxDepth) :
    ∃ sol, synthesize p s = .ok (some sol) ∧ sol.depth ≤ gs.length := by
  obtain ⟨k, hk, hroom⟩ := exists_isLeast hp hle s.negative
  have hleast : k ≤ gs.length := hk.2 ⟨gs, hgs, rfl⟩
  rcases synthesize_cases hp hpos hle hfits hk hroom with ⟨-, sol, -, hok, hdepth, -⟩ | ⟨hlong, -⟩
  · exact ⟨sol, hok, hdepth ▸ hleast⟩
  · omega

/-- from the depth of the longest transformation on, something is found. -/
theorem exists_synthesize_of_le (hp : p.Valid) (hpos : 0 < p.lines) (hle : p.lines ≤ maxLines)
    (hfits : ∀ t, s.template = some t → t.lines = p.lines) (hdepth : p.lines * 2 ^ p.lines ≤ s.maxDepth) :
    ∃ sol, synthesize p s = .ok (some sol) := by
  have hts : Transform.Explicit.Settings.validate ⟨false, false, false, none⟩ = .ok () := rfl
  obtain ⟨outcome, -, hsolves, hsize⟩ :=
    exists_cascade_of_transformation hp hts rfl (fun t ht => nomatch ht) s.negative
  obtain ⟨sol, hok, -⟩ := exists_synthesize_of_solves hp hpos hle hfits hsolves (hsize.trans hdepth)
  exact ⟨sol, hok⟩

/-- **The search never needs more gates than a transformation.** If a transformation without Fredkin gates, on one side
or on both, gives a circuit of `k` gates, then the search finds a cascade of at most `k` gates for the same permutation
as soon as its largest depth is at least `k`. A transformation has at most `n * 2 ^ n` gates, so from this depth on
something is always found. -/
theorem synthesize_depth_le_transformation (hp : p.Valid) (hpos : 0 < p.lines) (hle : p.lines ≤ maxLines)
    (hts : ts.validate = .ok ()) (hfredkin : ts.fredkin = false)
    (htemplate : ∀ t, ts.template = some t → t.lines = p.lines)
    (hfits : ∀ t, s.template = some t → t.lines = p.lines) :
    ∃ outcome, Transform.Explicit.synthesize p ts = .ok outcome ∧ Solves p s.negative outcome.circuit.gates ∧
      outcome.circuit.size ≤ p.lines * 2 ^ p.lines ∧
      (outcome.circuit.size ≤ s.maxDepth → ∃ sol, synthesize p s = .ok (some sol) ∧
        sol.depth ≤ outcome.circuit.size ∧ sol.circuit.size = sol.depth ∧ sol.circuit.realizes p = true) ∧
      (p.lines * 2 ^ p.lines ≤ s.maxDepth → synthesize p s ≠ .ok none) := by
  obtain ⟨outcome, hok, hsolves, hsize⟩ := exists_cascade_of_transformation hp hts hfredkin htemplate s.negative
  refine ⟨outcome, hok, hsolves, hsize, fun hdepth => ?_, fun hdepth hnone => ?_⟩
  · obtain ⟨sol, hsome, hshort⟩ := exists_synthesize_of_solves hp hpos hle hfits hsolves hdepth
    obtain ⟨-, -, hlength, hrealizes⟩ := realizes_of_synthesize hp hsome
    exact ⟨sol, hsome, hshort, hlength, hrealizes⟩
  · obtain ⟨sol, hsome⟩ := exists_synthesize_of_le hp hpos hle hfits hdepth
    rw [hnone] at hsome
    cases hsome

theorem synthesize_depth_le_transformation_guardedInverter :
    ∃ outcome, Transform.Explicit.synthesize guardedInverter ⟨true, false, false, none⟩ = .ok outcome ∧
      outcome.circuit.size ≤ 8 ∧
      ∃ sol, synthesize guardedInverter ⟨8, true, true, some (.empty 2)⟩ = .ok (some sol) ∧
        sol.depth ≤ outcome.circuit.size ∧ sol.circuit.size = sol.depth ∧
        sol.circuit.realizes guardedInverter = true := by
  have hts : Transform.Explicit.Settings.validate ⟨true, false, false, none⟩ = .ok () := rfl
  have hfits : ∀ t, Settings.template ⟨8, true, true, some (.empty 2)⟩ = some t → t.lines = guardedInverter.lines := by
    intro t ht
    cases ht
    rfl
  obtain ⟨outcome, hok, -, hsize, hfound, -⟩ := synthesize_depth_le_transformation valid_guardedInverter (by decide)
    (by decide) hts rfl (fun t ht => nomatch ht) hfits
  exact ⟨outcome, hok, hsize, hfound hsize⟩

end ReversibleLogic.Exact
