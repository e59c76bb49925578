import ReversibleLogic.Proofs.Bdd.Reached

/-!
# Operations over any computed table

The same operations, with lookups and insertions of computed results left open.

* `Recall` — how computed results are looked up and kept; `Recall.table` is the table of the manager, in
  `Recall.missing` every lookup misses;
* `Recall.iteWithin`, `Recall.compose`, `Recall.existsOver` — what looks up results, or calls something that does;
  over `Recall.table` they are the operations of a manager (`iteWithin_table`, `compose_table`, `existsOver_table`);
* `Call` — what a client can ask of a manager: an operation or a connective; `Call.runWith_table`;
* `Call.Allowed`, `Call.exists_run` — an allowed call succeeds and leads to a reachable manager.
-/

namespace ReversibleLogic.Bdd

def topOf (t : Triple) : BddM Nat := do
  let top := min (min (← levelOf t.test) (← levelOf t.yes)) (← levelOf t.no)
  if top = terminalLevel then misuse .brokenOrder
  return top

/-- the topmost variable of a triple, and the triple with it clear and with it set. -/
def halves (t : Triple) : BddM (Nat × Triple × Triple) := do
  let top ← topOf t
  let (test₀, test₁) ← cofactors t.test top
  let (yes₀, yes₁) ← cofactors t.yes top
  let (no₀, no₁) ← cofactors t.no top
  return (top, ⟨test₀, yes₀, no₀⟩, ⟨test₁, yes₁, no₁⟩)

def split (choose : Triple → BddM Ref) (t : Triple) : BddM Ref := do
  let (top, t₀, t₁) ← halves t
  let low ← choose t₀
  let high ← choose t₁
  mkNode top low high

/-- how the results of triples are looked up and kept. -/
structure Recall where
  lookup : Triple → BddM (Option Ref)
  keep : Triple → Ref → BddM Unit

namespace Recall

def table : Recall := ⟨computed?, remember⟩

/-- a computed table in which every lookup misses. -/
def missing : Recall := ⟨fun _ => pure none, fun _ _ => pure ()⟩

/-! ### operations -/

section operations

variable (c : Recall)

/-- if-then-else over at most `fuel` splits on each path. -/
def iteWithin : Nat → Triple → BddM Ref
  | 0, _ => misuse .brokenOrder
  | fuel + 1, t =>
    match t.simplify with
    | .inl r => pure r
    | .inr (t, negate) => do
      match ← c.lookup t with
      | some r => return r.negateIf negate
      | none =>
        let r ← split (iteWithin fuel) t
        c.keep t r
        return r.negateIf negate

def ite (f g h : Ref) : BddM Ref :=
  let t : Triple := ⟨f, g, h⟩
  c.iteWithin (t.weight + 1) t

def conjAll (current : Ref) : List Ref → BddM Ref
  | [] => pure current
  | f :: fs => do
    let next ← c.ite current f .zero
    if next = .zero then return next
    conjAll next fs

def disjAll (current : Ref) : List Ref → BddM Ref
  | [] => pure current
  | f :: fs => do
    let next ← c.ite current .one f
    if next = .one then return next
    disjAll next fs

def composeWithin (map : Binding Ref) : Nat → Ref → MemoM Ref
  | 0, _ => misuse .brokenOrder
  | fuel + 1, f =>
    if f.isTerminal then pure f
    else do
      let regular := f.negateIf f.isNegated
      let r ← memoized regular do
        let v ← ask (·.variableOf regular)
        let low ← composeWithin map fuel (← ask (·.low regular))
        let high ← composeWithin map fuel (← ask (·.high regular))
        let selector ← match map[v]? with
          | some g => pure g
          | none => var v
        c.ite selector high low
      return r.negateIf f.isNegated

def compose (f : Ref) (map : Binding Ref) : BddM Ref := (c.composeWithin map (f.index + 1) f).run' ∅

def existsWithin : Nat → Ref → List Nat → MemoM Ref
  | 0, _, _ => misuse .brokenOrder
  | fuel + 1, f, vars =>
    if f.isTerminal then pure f
    else do
      let v ← ask (·.variableOf f)
      match vars.dropWhile (· < v) with
      | [] => return f
      | u :: us =>
        memoized f do
          let low ← existsWithin fuel (← ask (·.low f)) (u :: us)
          if u = v then
            if low = .one then return low
            let high ← existsWithin fuel (← ask (·.high f)) (u :: us)
            c.ite low .one high
          else
            let high ← existsWithin fuel (← ask (·.high f)) (u :: us)
            mkNode v low high

def existsOver (f : Ref) (vars : List Nat) : BddM Ref := (c.existsWithin (f.index + 1) f (sortedSet vars)).run' ∅

end operations

/-! ### over the computed table -/

theorem iteWithin_table (fuel : Nat) (t : Triple) : table.iteWithin fuel t = Bdd.iteWithin fuel t := by
  induction fuel generalizing t with
  | zero => rfl
  | succ fuel ih =>
    rw [iteWithin, Bdd.iteWithin]
    cases t.simplify with
    | inl r => rfl
    | inr p =>
      obtain ⟨t, negate⟩ := p
      refine bind_congr fun found => ?_
      cases found with
      | some r => rfl
      | none =>
        simp only [split, halves, topOf, bind_assoc, ih]
        refine bind_congr fun a => bind_congr fun b => bind_congr fun c => ?_
        split
        · rfl
        · simp only [pure_bind]
          rfl

theorem ite_table (f g h : Ref) : table.ite f g h = Bdd.ite f g h := iteWithin_table _ _

theorem conjAll_table (current : Ref) (fs : List Ref) :
    table.conjAll current fs = Bdd.conjAll.go current (fs.map pure) := by
  induction fs generalizing current with
  | nil => rfl
  | cons f fs ih =>
    simp only [conjAll, ite_table, ih]
    rfl

theorem disjAll_table (current : Ref) (fs : List Ref) :
    table.disjAll current fs = Bdd.disjAll.go current (fs.map pure) := by
  induction fs generalizing current with
  | nil => rfl
  | cons f fs ih =>
    simp only [disjAll, ite_table, ih]
    rfl

theorem composeWithin_table (map : Binding Ref) (fuel : Nat) (f : Ref) :
    table.composeWithin map fuel f = Bdd.composeWithin map fuel f := by
  induction fuel generalizing f with
  | zero => rfl
  | succ fuel ih =>
    simp only [composeWithin, ite_table, ih]
    rfl

theorem compose_table (f : Ref) (map : Binding Ref) : table.compose f map = Bdd.compose f map := by
  rw [compose, Bdd.compose, composeWithin_table]

theorem existsWithin_table (fuel : Nat) (f : Ref) (vars : List Nat) :
    table.existsWithin fuel f vars = Bdd.existsWithin fuel f vars := by
  induction fuel generalizing f vars with
  | zero => rfl
  | succ fuel ih =>
    simp only [existsWithin, ite_table, ih]
    rfl

theorem existsOver_table (f : Ref) (vars : List Nat) : table.existsOver f vars = Bdd.existsOver f vars := by
  rw [existsOver, Bdd.existsOver, existsWithin_table]

end Recall

/-! ### calls -/

/-- what a client can ask of a manager. -/
inductive Call where
  | op (op : Op)
  | conj (f g : Ref)
  | disj (f g : Ref)
  | xor (f g : Ref)
  | iff (f g : Ref)
  | imply (f g : Ref)
  | conjAll (fs : List Ref)
  | disjAll (fs : List Ref)

/-- an operation over any computed table; some operations do not use it. -/
def Op.runWith (c : Recall) : Op → BddM Ref
  | ite f g h => c.ite f g h
  | compose f map => c.compose f map
  | existsOver f vars => c.existsOver f vars
  | forallOver f vars => return -(← c.existsOver (-f) vars)
  | op => op.run

namespace Call

def run : Call → BddM Ref
  | op o => o.run
  | conj f g => Bdd.conj f g
  | disj f g => Bdd.disj f g
  | xor f g => Bdd.xor f g
  | iff f g => Bdd.iff f g
  | imply f g => Bdd.imply f g
  | conjAll fs => Bdd.conjAll (fs.map pure)
  | disjAll fs => Bdd.disjAll (fs.map pure)

def runWith (c : Recall) : Call → BddM Ref
  | op o => o.runWith c
  | conj f g => c.ite f g .zero
  | disj f g => c.ite f .one g
  | xor f g => c.ite f (-g) g
  | iff f g => c.ite f g (-g)
  | imply f g => c.ite f g .one
  | conjAll fs => c.conjAll .one fs
  | disjAll fs => c.disjAll .zero fs

/-- the calls of a manager use its own computed table. -/
theorem runWith_table (call : Call) : call.runWith .table = call.run := by
  cases call with
  | op o =>
    cases o with
    | ite f g h => exact Recall.ite_table f g h
    | compose f map => exact Recall.compose_table f map
    | existsOver f vars => exact Recall.existsOver_table f vars
    | forallOver f vars => simp only [runWith, Op.runWith, Recall.existsOver_table, run, Op.run, forallOver]
    | _ => rfl
  | conj f g => exact Recall.ite_table _ _ _
  | disj f g => exact Recall.ite_table _ _ _
  | xor f g => exact Recall.ite_table _ _ _
  | iff f g => exact Recall.ite_table _ _ _
  | imply f g => exact Recall.ite_table _ _ _
  | conjAll fs => exact Recall.conjAll_table _ _
  | disjAll fs => exact Recall.disjAll_table _ _

/-- the references that a call uses are references of the manager, and an operation respects the order. -/
def Allowed (m : Manager) : Call → Prop
  | op o => o.Allowed m
  | conj f g => m.Holds f ∧ m.Holds g
  | disj f g => m.Holds f ∧ m.Holds g
  | xor f g => m.Holds f ∧ m.Holds g
  | iff f g => m.Holds f ∧ m.Holds g
  | imply f g => m.Holds f ∧ m.Holds g
  | conjAll fs => ∀ f ∈ fs, m.Holds f
  | disjAll fs => ∀ f ∈ fs, m.Holds f

variable {m m' : Manager} {call : Call}

theorem Allowed.mono (h : call.Allowed m) (hle : m ≤ m') : call.Allowed m' := by
  cases call with
  | op o =>
    cases o with
    | node v low high =>
      obtain ⟨hv, ⟨hlow, hlv⟩, hhigh, hhv⟩ := h
      refine ⟨hv, ⟨hlow.mono hle, ?_⟩, hhigh.mono hle, ?_⟩
      · rwa [Manager.level_mono hlow hle]
      · rwa [Manager.level_mono hhigh hle]
    | ite f g e => exact ⟨h.1.mono hle, h.2.1.mono hle, h.2.2.mono hle⟩
    | restrict f values => exact Manager.Holds.mono h hle
    | compose f map => exact ⟨h.1.mono hle, fun v g hv => (h.2 v g hv).mono hle⟩
    | existsOver f vars => exact Manager.Holds.mono h hle
    | forallOver f vars => exact Manager.Holds.mono h hle
    | _ => exact h
  | conjAll fs => exact fun f hf => (h f hf).mono hle
  | disjAll fs => exact fun f hf => (h f hf).mono hle
  | _ => exact ⟨h.1.mono hle, h.2.mono hle⟩

theorem exists_run (h : Reached m) (hcall : call.Allowed m) : ∃ r m', call.run m = .ok r m' ∧ Reached m' := by
  have hcomputes : ∃ F, Computes m call.run F := by
    cases call with
    | op o => exact ⟨_, computes_op h o hcall⟩
    | conj f g => exact ⟨_, computes_conj h hcall.1 hcall.2⟩
    | disj f g => exact ⟨_, computes_disj h hcall.1 hcall.2⟩
    | xor f g => exact ⟨_, computes_ite h hcall.1 hcall.2.neg hcall.2⟩
    | iff f g => exact ⟨_, computes_ite h hcall.1 hcall.2 hcall.2.neg⟩
    | imply f g => exact ⟨_, computes_ite h hcall.1 hcall.2 (wellFormed_of_reached h).holds_one⟩
    | conjAll fs => exact ⟨_, computes_conjAll h hcall⟩
    | disjAll fs => exact ⟨_, computes_disjAll h hcall⟩
  obtain ⟨F, r, m', hok, hafter, -⟩ := hcomputes
  exact ⟨r, m', hok, hafter.reached⟩

end Call

end ReversibleLogic.Bdd
