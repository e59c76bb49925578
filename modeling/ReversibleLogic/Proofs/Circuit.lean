import ReversibleLogic.Proofs.Gate.Cascade
import ReversibleLogic.Proofs.Permutation

/-!
# The permutation of a circuit

* `bijOn_simulate`, `simulate_reversed` — gates in normal form permute the words on the lines, and the reversed circuit
  leads back;
* `Circuit.table`, `permutation_eq` — the table of a circuit;
* `append_eq_ok`, `checkLength_seq_eq_ok` — when gates and data fit the lines;
* `permutation_reversed`, `permutation_append` — the reversed circuit has the inverse, a circuit behind another one has
  the composition;
* `realizes_iff`, `realizes_iff_permutation` — a circuit realizes the permutation that it has, and no other one;
* `permutations_of_circuits` — all of this for the gates that the checked constructors return.
-/

namespace ReversibleLogic.Circuit

open Gate

variable {c d : Circuit} {p : Permutation} {gs : List Gate} {w : Nat}

/-! ### words -/

theorem simulate_reversed (hc : ∀ g ∈ c.gates, g.Normal) (w : Nat) : c.reversed.simulate (c.simulate w) = w :=
  applyAll_reverse hc w

theorem reversed_reversed (c : Circuit) : c.reversed.reversed = c := by
  rw [reversed, reversed, List.reverse_reverse]

theorem proper_reversed (hc : ∀ g ∈ c.gates, g.Proper c.lines) : ∀ g ∈ c.reversed.gates, g.Proper c.reversed.lines :=
  fun g hg => hc g (List.mem_reverse.1 hg)

/-- **Circuits permute the words** on their lines. -/
theorem bijOn_simulate (hc : ∀ g ∈ c.gates, g.Proper c.lines) :
    Set.BijOn c.simulate (Set.Iio (2 ^ c.lines)) (Set.Iio (2 ^ c.lines)) := by
  have hback := simulate_reversed fun g hg => (hc g hg).1
  have hforth := simulate_reversed fun g hg => (proper_reversed hc g hg).1
  rw [reversed_reversed] at hforth
  have hinverse : Set.InvOn c.reversed.simulate c.simulate (Set.Iio (2 ^ c.lines)) (Set.Iio (2 ^ c.lines)) :=
    ⟨fun w _ => hback w, fun w _ => hforth w⟩
  exact hinverse.bijOn (fun w hw => applyAll_lt (fun g hg => (hc g hg).2) hw)
    fun w hw => applyAll_lt (fun g hg => (proper_reversed hc g hg).2) hw

/-! ### tables -/

def table (c : Circuit) : Array Nat := (Array.range (2 ^ c.lines)).map c.simulate

theorem size_table (c : Circuit) : c.table.size = 2 ^ c.lines := by simp [table]

theorem getD_table {x : Nat} (hx : x < 2 ^ c.lines) : c.table.getD x 0 = c.simulate x := getD_map_range _ hx

theorem bijection_table (hc : ∀ g ∈ c.gates, g.Proper c.lines) : Bijection c.lines c.table :=
  .of_map_range (fun _ hx => (bijOn_simulate hc).mapsTo hx) fun _ hx _ hy he => (bijOn_simulate hc).injOn hx hy he

/-- a circuit has the permutation with its table. -/
theorem permutation_eq (hn : c.lines ≤ maxTableLines) (hc : ∀ g ∈ c.gates, g.Proper c.lines) :
    c.permutation = .ok ⟨c.lines, c.table⟩ := by
  unfold permutation
  rw [if_neg (Nat.not_lt.2 hn)]
  exact Permutation.ofTable_eq_ok.2 ⟨rfl, hn, bijection_table hc⟩

/-- **The reversed circuit** has the inverse. -/
theorem permutation_reversed (hn : c.lines ≤ maxTableLines) (hc : ∀ g ∈ c.gates, g.Proper c.lines) :
    c.reversed.permutation = .ok (Permutation.inverse ⟨c.lines, c.table⟩) := by
  rw [permutation_eq (c := c.reversed) hn (proper_reversed hc)]
  have hsize := (Permutation.size_inverse ⟨c.lines, c.table⟩).trans c.size_table
  have htable : c.reversed.table = (Permutation.inverse ⟨c.lines, c.table⟩).table := by
    refine eq_of_getD c.reversed.size_table hsize fun y hy => ?_
    obtain ⟨x, hx, rfl⟩ := (bijOn_simulate hc).surjOn hy
    have hx : x < 2 ^ c.lines := hx
    have hinverse := Permutation.getD_inverse (p := ⟨c.lines, c.table⟩) (bijection_table hc) hx
    rw [getD_table hx] at hinverse
    rw [getD_table hy, simulate_reversed fun g hg => (hc g hg).1, hinverse]
  rw [htable]
  rfl

/-! ### what fits the lines -/

theorem checkGate_eq_ok {g : Gate} : c.checkGate g = .ok () ↔ g.Within c.lines := by
  rw [checkGate, ite_error_eq_ok, and_iff_left rfl, Nat.not_le, maxLine_lt_iff]

theorem append_eq_ok {g : Gate} : c.append g = .ok d ↔ g.Within c.lines ∧ { c with gates := c.gates ++ [g] } = d := by
  rw [append, seq_eq_ok, checkGate_eq_ok, pure_eq_ok]

theorem checkLength_seq_eq_ok {length : Nat} {c' : Circuit} :
    (do c.checkLength length; return d) = Except.ok c' ↔ length = c.lines ∧ d = c' := by
  rw [seq_eq_ok, checkLength, ite_error_eq_ok, and_iff_left rfl, not_ne_iff, pure_eq_ok]

/-! ### gates behind others -/

theorem foldlM_append (hgs : ∀ g ∈ gs, g.Within c.lines) :
    gs.foldlM append c = .ok { c with gates := c.gates ++ gs } := by
  induction gs generalizing c with
  | nil => rw [List.append_nil]; rfl
  | cons g gs ih =>
    obtain ⟨hg, hgs⟩ := List.forall_mem_cons.1 hgs
    rw [List.foldlM_cons, append_eq_ok.2 ⟨hg, rfl⟩]
    have hrest := @ih { c with gates := c.gates ++ [g] } hgs
    rw [List.append_assoc] at hrest
    exact hrest

/-- **A circuit behind another one** has the composition. -/
theorem permutation_append (hn : c.lines ≤ maxTableLines) (hc : ∀ g ∈ c.gates, g.Proper c.lines)
    (hd : ∀ g ∈ d.gates, g.Proper c.lines) (hlines : d.lines = c.lines) :
    ∃ r, ({ c with gates := c.gates ++ d.gates } : Circuit).permutation = .ok r ∧
      Permutation.comp ⟨c.lines, c.table⟩ ⟨d.lines, d.table⟩ = .ok r := by
  have hd' : Permutation.Valid ⟨d.lines, d.table⟩ := ⟨hlines ▸ hn, bijection_table (hlines ▸ hd)⟩
  refine ⟨_, permutation_eq hn (List.forall_mem_append.2 ⟨hc, hd⟩), ?_⟩
  have htable : c.table.map (fun y => d.table.getD y 0) = table { c with gates := c.gates ++ d.gates } := by
    refine Array.map_map.trans (Array.map_congr_left fun x hx => ?_)
    have himage : c.simulate x < 2 ^ d.lines := hlines ▸ (bijOn_simulate hc).mapsTo (Array.mem_range.1 hx)
    rw [Function.comp_apply, getD_table himage, simulate_eq_applyAll, simulate_eq_applyAll, simulate_eq_applyAll,
      applyAll_append]
  rw [Permutation.comp_eq (bijection_table hc) hd' hlines, htable]

/-! ### realized permutations -/

/-- a circuit computes a permutation if its gates do. -/
theorem realizes_iff {c : Circuit} {p : Permutation} (hp : p.Valid) (hlines : c.lines = p.lines) :
    c.realizes p = true ↔ ∀ x < 2 ^ p.lines, p.apply x = .ok (applyAll c.gates x) := by
  rw [realizes, hlines, beq_self_eq_true, Bool.true_and, List.all_eq_true]
  constructor
  · intro h x hx
    have happly := Permutation.apply_eq hp hx
    have hone := h (x, p.table.getD x 0) ((Permutation.mem_rows hp).2 ⟨hx, happly⟩)
    rw [happly, ← beq_iff_eq.1 hone]
    rfl
  · rintro h ⟨x, y⟩ hxy
    obtain ⟨hx, hy⟩ := (Permutation.mem_rows hp).1 hxy
    rw [h x hx] at hy
    exact beq_iff_eq.2 (Except.ok.inj hy)

/-- **Realized permutations.** A circuit realizes the permutation that it has, and no other one. -/
theorem realizes_iff_permutation (hp : p.Valid) (hn : c.lines ≤ maxTableLines) (hc : ∀ g ∈ c.gates, g.Proper c.lines) :
    c.realizes p = true ↔ c.permutation = .ok p := by
  rw [permutation_eq hn hc]
  constructor
  · intro h
    have hlines : c.lines = p.lines := by
      rw [realizes, Bool.and_eq_true, beq_iff_eq] at h
      exact h.1
    have hrows := (realizes_iff hp hlines).1 h
    obtain ⟨n, t⟩ := p
    obtain rfl : c.lines = n := hlines
    have htable : c.table = t := eq_of_getD c.size_table hp.bijection.size fun x hx => by
      have hrow := hrows x hx
      rw [Permutation.apply_eq hp hx] at hrow
      rw [getD_table hx, simulate_eq_applyAll, ← Except.ok.inj hrow]
    rw [htable]
  · intro h
    obtain rfl := Except.ok.inj h
    refine (realizes_iff hp rfl).2 fun x hx => ?_
    rw [Permutation.apply_eq hp hx, getD_table hx, simulate_eq_applyAll]

/-- **The permutation of a circuit** of gates that the checked constructors return. Its simulation permutes the words on
its lines, and the reversed circuit leads back from every word. If a table can have as many lines, then the circuit has
a permutation and the reversed one has the inverse; a circuit behind it has the composition, and the circuit realizes
exactly the permutation that it has. -/
theorem permutations_of_circuits (hc : ∀ g ∈ c.gates, g.Built ∧ g.Within c.lines) :
    Set.BijOn c.simulate (Set.Iio (2 ^ c.lines)) (Set.Iio (2 ^ c.lines)) ∧
      (∀ w, c.reversed.simulate (c.simulate w) = w) ∧
      (c.lines ≤ maxTableLines → ∃ p, c.permutation = .ok p ∧ c.reversed.permutation = .ok p.inverse ∧
        (∀ d : Circuit, d.lines = c.lines → (∀ g ∈ d.gates, g.Built ∧ g.Within d.lines) →
          ∃ q both r, d.permutation = .ok q ∧ d.gates.foldlM append c = .ok both ∧ both.permutation = .ok r ∧
            p.comp q = .ok r) ∧
        ∀ q : Permutation, q.Valid → (c.realizes q = true ↔ c.permutation = .ok q)) := by
  have hproper : ∀ {d : Circuit}, (∀ g ∈ d.gates, g.Built ∧ g.Within d.lines) → ∀ g ∈ d.gates, g.Proper d.lines :=
    fun hd g hg => ⟨built_iff_normal.1 (hd g hg).1, (hd g hg).2⟩
  have hc := hproper hc
  refine ⟨bijOn_simulate hc, simulate_reversed fun g hg => (hc g hg).1, fun hn => ?_⟩
  refine ⟨_, permutation_eq hn hc, permutation_reversed hn hc, fun d hlines hd => ?_,
    fun q hq => realizes_iff_permutation hq hn hc⟩
  have hd := hproper hd
  obtain ⟨r, hr, hcomp⟩ := permutation_append hn hc (hlines ▸ hd) hlines
  exact ⟨_, _, r, permutation_eq (hlines ▸ hn) hd, foldlM_append fun g hg => (hlines ▸ hd g hg).2, hr, hcomp⟩

theorem permutations_of_circuits_cascade :
    let c : Circuit := { empty 3 with gates := [.toffoli [⟨0, true⟩, ⟨1, true⟩] 2, .fredkin [⟨0, false⟩] 1 2] }
    let d : Circuit := { empty 3 with gates := [.toffoli [⟨2, true⟩] 0] }
    (∀ w, c.reversed.simulate (c.simulate w) = w) ∧
      ∃ p q both r, c.permutation = .ok p ∧ c.reversed.permutation = .ok p.inverse ∧ d.permutation = .ok q ∧
        d.gates.foldlM append c = .ok both ∧ both.permutation = .ok r ∧ p.comp q = .ok r := by
  have htoffoli : toffoli? [⟨0, true⟩, ⟨1, true⟩] 2 = .ok (.toffoli [⟨0, true⟩, ⟨1, true⟩] 2) := rfl
  have hfredkin : fredkin? [⟨0, false⟩] 1 2 = .ok (.fredkin [⟨0, false⟩] 1 2) := rfl
  have hnot : toffoli? [⟨2, true⟩] 0 = .ok (.toffoli [⟨2, true⟩] 0) := rfl
  intro c d
  have hc : ∀ g ∈ c.gates, g.Built ∧ g.Within c.lines := List.forall_mem_cons.2 ⟨⟨.toffoli htoffoli,
    maxLine_lt_iff.1 (by decide)⟩, List.forall_mem_singleton.2 ⟨.fredkin hfredkin, maxLine_lt_iff.1 (by decide)⟩⟩
  have hd : ∀ g ∈ d.gates, g.Built ∧ g.Within d.lines :=
    List.forall_mem_singleton.2 ⟨.toffoli hnot, maxLine_lt_iff.1 (by decide)⟩
  obtain ⟨-, hback, htables⟩ := permutations_of_circuits hc
  obtain ⟨p, hp, hinverse, happend, -⟩ := htables (by decide)
  obtain ⟨q, both, r, hq, hboth, hr, hcomp⟩ := happend d rfl hd
  exact ⟨hback, p, q, both, r, hp, hinverse, hq, hboth, hr, hcomp⟩

end ReversibleLogic.Circuit
