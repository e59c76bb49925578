import Mathlib.Order.Interval.Set.Basic
import ReversibleLogic.Sat.Engine

/-!
# Lawful solvers

* `LawfulSolver` — what is relied on of a solver: new variables are fresh, clauses are kept, an answer is right, and the
  values that can be read after a positive answer are those of some model, which may be any;
* `LawfulStore` — the part of it that concerns variables and clauses only;
* `TrialSolver` — a solver that tries all assignments, which is lawful.
-/

namespace ReversibleLogic.Sat

/-! ### variables -/

def Literal.On (V : Set Nat) (l : Literal) : Prop := l ≠ 0 ∧ l.natAbs ∈ V

theorem Literal.On.mono {V W : Set Nat} {l : Literal} (h : l.On V) (hVW : V ⊆ W) : l.On W := ⟨h.1, hVW h.2⟩

theorem Literal.On.neg {V : Set Nat} {l : Literal} (h : l.On V) : Literal.On V (-l) :=
  ⟨fun h0 => h.1 (Int.neg_eq_zero.1 h0), by rw [Int.natAbs_neg]; exact h.2⟩

theorem Literal.holds_congr {a b : Assignment} {l : Literal} (h : a l.natAbs = b l.natAbs) : l.holds a = l.holds b := by
  unfold Literal.holds
  rw [h]

theorem Clause.holds_congr {V : Set Nat} {a b : Assignment} {c : Clause} (hc : ∀ l ∈ c, Literal.On V l)
    (h : ∀ v ∈ V, a v = b v) : c.holds a = c.holds b := by
  unfold Clause.holds
  rw [Bool.eq_iff_iff, List.any_eq_true, List.any_eq_true]
  refine exists_congr fun l => and_congr_right ?_
  intro hl
  rw [Literal.holds_congr (h _ (hc l hl).2)]

theorem Formula.holds_congr {V : Set Nat} {a b : Assignment} {f : Formula} (hf : ∀ c ∈ f, ∀ l ∈ c, Literal.On V l)
    (h : ∀ v ∈ V, a v = b v) : f.holds a = f.holds b := by
  unfold Formula.holds
  rw [Bool.eq_iff_iff, List.all_eq_true, List.all_eq_true]
  refine forall_congr' fun c => forall_congr' ?_
  intro hc
  rw [Clause.holds_congr (hf c hc) h]

theorem allHold_congr {V : Set Nat} {a b : Assignment} {ls : List Literal} (hls : ∀ l ∈ ls, Literal.On V l)
    (h : ∀ v ∈ V, a v = b v) : allHold a ls = allHold b ls := by
  unfold allHold
  rw [Bool.eq_iff_iff, List.all_eq_true, List.all_eq_true]
  refine forall_congr' fun l => forall_congr' ?_
  intro hl
  rw [Literal.holds_congr (h _ (hls l hl).2)]

/-! ### laws -/

/-- a solver whose answers are right. The formula is what the clauses added so far amount to, the variables are those
handed out so far. -/
class LawfulSolver (σ : Type) [Solver σ] where
  formula : σ → Formula
  inUse : σ → Set Nat
  newVar (s : σ) : ∃ (v : Nat) (s' : σ), (Solver.newVar : StateM σ Literal) s = ((v : Literal), s') ∧ 0 < v ∧
    v ∉ inUse s ∧ inUse s' = insert v (inUse s) ∧ formula s' = formula s
  addClause (s : σ) (c : Clause) (hc : ∀ l ∈ c, Literal.On (inUse s) l) :
    ∃ s', (Solver.addClause c : EStateM Error σ Unit) s = .ok () s' ∧ inUse s' = inUse s ∧
      ∀ a, (formula s').holds a = ((formula s).holds a && c.holds a)
  solve (s : σ) (assumptions : List Literal) (h : ∀ l ∈ assumptions, Literal.On (inUse s) l) :
    ∃ answer s', (Solver.solve assumptions : EStateM Error σ Bool) s = .ok answer s' ∧
      inUse s' = inUse s ∧ formula s' = formula s ∧
      (answer = true ↔ ∃ a, (formula s).holds a = true ∧ allHold a assumptions = true) ∧
      (answer = true → ∃ a, (formula s).holds a = true ∧ allHold a assumptions = true ∧
        ∀ l, Literal.On (inUse s) l → Solver.value s' l = .ok (some (l.holds a)))

/-- what is relied on of a solver that only collects clauses: new variables are fresh, and clauses are kept. -/
class LawfulStore (σ : Type) [Solver σ] where
  formula : σ → Formula
  inUse : σ → Set Nat
  newVar (s : σ) : ∃ (v : Nat) (s' : σ), (Solver.newVar : StateM σ Literal) s = ((v : Literal), s') ∧ 0 < v ∧
    v ∉ inUse s ∧ inUse s' = insert v (inUse s) ∧ formula s' = formula s
  addClause (s : σ) (c : Clause) (hc : ∀ l ∈ c, Literal.On (inUse s) l) :
    ∃ s', (Solver.addClause c : EStateM Error σ Unit) s = .ok () s' ∧ inUse s' = inUse s ∧
      ∀ a, (formula s').holds a = ((formula s).holds a && c.holds a)

instance (priority := low) {σ : Type} [Solver σ] [LawfulSolver σ] : LawfulStore σ where
  formula := LawfulSolver.formula
  inUse := LawfulSolver.inUse
  newVar := LawfulSolver.newVar
  addClause := LawfulSolver.addClause

/-! ### trying all assignments -/

/-- a formula over the first variables, and the last model. -/
structure TrialSolver where
  numVars : Nat
  formula : Formula
  inRange : ∀ c ∈ formula, ∀ l ∈ c, Literal.On (Set.Icc 1 numVars) l
  model : Option Assignment

namespace TrialSolver

def empty : TrialSolver := ⟨0, [], List.forall_mem_nil _, none⟩

instance (n : Nat) (l : Literal) : Decidable (Literal.On (Set.Icc 1 n) l) :=
  inferInstanceAs (Decidable (l ≠ 0 ∧ 1 ≤ l.natAbs ∧ l.natAbs ≤ n))

def newVar : StateM TrialSolver Literal := fun s =>
  (((s.numVars + 1 : Nat) : Literal), { s with
    numVars := s.numVars + 1
    inRange := fun c hc l hl => (s.inRange c hc l hl).mono (Set.Icc_subset_Icc_right (Nat.le_succ _)) })

def addClause (c : Clause) : EStateM Error TrialSolver Unit := fun s =>
  if h : ∀ l ∈ c, Literal.On (Set.Icc 1 s.numVars) l then
    .ok () { s with formula := c :: s.formula, inRange := List.forall_mem_cons.2 ⟨h, s.inRange⟩ }
  else .error (.misuse .zeroLiteral) s

def solve (assumptions : List Literal) : EStateM Error TrialSolver Bool := fun s =>
  let model := exhaustive (fun a => s.formula.holds a && allHold a assumptions) s.numVars fun _ => false
  .ok model.isSome { s with model := model }

instance : Solver TrialSolver where
  newVar := newVar
  addClause := addClause
  solve := solve
  value s l := .ok (s.model.map l.holds)
  numVars := numVars
  numClauses s := s.formula.length

end TrialSolver

theorem exhaustive_eq_some {accepts : Assignment → Bool} {n : Nat} {a b : Assignment}
    (h : exhaustive accepts n a = some b) : accepts b = true := by
  induction n generalizing a with
  | zero =>
    rw [exhaustive] at h
    split at h
    · next ha => exact Option.some.inj h ▸ ha
    · cases h
  | succ n ih =>
    rw [exhaustive] at h
    split at h
    · next c hc => exact ih (hc.trans h)
    · exact ih h

/-- nothing that agrees with the start above the variables is accepted if nothing is found. -/
theorem exhaustive_eq_none {accepts : Assignment → Bool} {n : Nat} {a b : Assignment}
    (h : exhaustive accepts n a = none) (hb : ∀ v, v ∉ Set.Icc 1 n → b v = a v) : accepts b = false := by
  induction n generalizing a with
  | zero =>
    have hba : b = a := funext fun v => hb v fun hv => by have := hv.1.trans hv.2; omega
    rw [exhaustive] at h
    split at h
    · cases h
    · next ha => rw [hba]; exact Bool.eq_false_iff.2 ha
  | succ n ih =>
    rw [exhaustive] at h
    split at h
    · cases h
    · next hclear =>
      have hstep : ∀ (c : Bool) v, b (n + 1) = c → v ∉ Set.Icc 1 n → b v = if v = n + 1 then c else a v := by
        intro c v hc hv
        split
        · next hv' => rw [hv', hc]
        · next hv' => exact hb v fun hmem => hv ⟨hmem.1, by have := hmem.2; omega⟩
      cases hc : b (n + 1) with
      | false => exact ih hclear fun v hv => hstep false v hc hv
      | true => exact ih h fun v hv => hstep true v hc hv

namespace TrialSolver

/-- **Trying all assignments is lawful.** -/
instance : LawfulSolver TrialSolver where
  formula := formula
  inUse s := Set.Icc 1 s.numVars
  newVar s := by
    refine ⟨s.numVars + 1, _, rfl, Nat.succ_pos _, fun h => ?_, ?_, rfl⟩
    · have := h.2
      omega
    · ext v
      simp only [Set.mem_Icc, Set.mem_insert_iff]
      omega
  addClause s c hc := by
    refine ⟨_, dif_pos hc, rfl, fun a => ?_⟩
    show (c.holds a && s.formula.holds a) = _
    rw [Bool.and_comm]
  solve s assumptions h := by
    let accepts : Assignment → Bool := fun a => s.formula.holds a && allHold a assumptions
    have haccepts : ∀ a, accepts a = true ↔ s.formula.holds a = true ∧ allHold a assumptions = true := fun a =>
      Bool.and_eq_true_iff
    refine ⟨(exhaustive accepts s.numVars fun _ => false).isSome, _, rfl, rfl, rfl, ?_⟩
    cases hfound : exhaustive accepts s.numVars fun _ => false with
    | some a =>
      have ha := (haccepts a).1 (exhaustive_eq_some hfound)
      exact ⟨⟨fun _ => ⟨a, ha⟩, fun _ => rfl⟩, fun _ => ⟨a, ha.1, ha.2, fun l _ => rfl⟩⟩
    | none =>
      refine ⟨⟨fun h => absurd h Bool.false_ne_true, fun ⟨a, ha⟩ => ?_⟩, fun h => absurd h Bool.false_ne_true⟩
      -- the same model with all other variables clear would have been found
      let b : Assignment := fun v => if v ∈ Set.Icc 1 s.numVars then a v else false
      have hab : ∀ v ∈ Set.Icc 1 s.numVars, a v = b v := fun v hv => (if_pos hv).symm
      have hb : accepts b = true := by
        rw [haccepts, ← Formula.holds_congr s.inRange hab, ← allHold_congr h hab]
        exact ha
      rw [exhaustive_eq_none hfound fun v hv => if_neg hv] at hb
      cases hb

end TrialSolver

end ReversibleLogic.Sat
