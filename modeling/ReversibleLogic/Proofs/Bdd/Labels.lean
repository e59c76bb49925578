import ReversibleLogic.Proofs.Bdd.Replay

/-!
# Variables of nodes

An operation puts the variables that it names on new nodes, or those of other nodes, and no others.

* `Labelled P m` — the variables of all nodes have the property `P`;
* `Stays P x` — where this is so, the computation `x` leaves it so: one lemma for each computation that a manager runs,
  and `StaysOn` for the walks that keep results;
* `Op.Names P` — the variables that an operation names for new nodes have the property (`stays_op`);
* `ReachedWith P` — the managers that operations on such variables lead to (`ReachedWith.labelled`).
-/

namespace ReversibleLogic.Bdd

variable {α β : Type} {P : Nat → Prop} {m m' : Manager} {r : Ref} {v : Nat}

/-- the variables of all inner nodes have the property. -/
def Labelled (P : Nat → Prop) (m : Manager) : Prop := ∀ i n, i ≠ 1 → m.nodes.value? i = some n → P n.var

/-- where the variables of all nodes have the property, the computation leaves it so. -/
def Stays (P : Nat → Prop) (x : BddM α) : Prop := ∀ m a m', x m = .ok a m' → Labelled P m → Labelled P m'

/-! ### nodes -/

theorem stays_misuse (cause : Misuse) : Stays P (misuse cause : BddM α) := by
  intro m a m' h
  cases h

theorem Stable.stays {x : BddM α} (h : Stable x) : Stays P x := by
  intro m a m' hok hm
  obtain ⟨rfl, -⟩ := h m a m' hok
  exact hm

theorem stays_pure (a : α) : Stays P (pure a) := (stable_pure a).stays

theorem Stays.bind {x : BddM α} {k : α → BddM β} (hx : Stays P x) (hk : ∀ a, Stays P (k a)) : Stays P (x >>= k) := by
  intro m b m₂ h hm
  obtain ⟨a, m₁, ha, hb⟩ := exists_of_bind_eq_ok h
  exact hk a m₁ b m₂ hb (hx m a m₁ ha hm)

theorem stays_store {n : Node} (hn : P n.var) : Stays P (store n) := by
  intro m r m' h hm i k hi hk
  rw [store_eq] at h
  cases h
  rcases Storage.Table.value?_put_eq_some hk with hold | ⟨-, rfl⟩
  · exact hm i k hi hold
  · exact hn

theorem stays_mkRegular (hv : P v) (low high : Ref) : Stays P (mkRegular v low high) := by
  unfold mkRegular
  split
  · exact stays_pure _
  · exact stays_store hv

theorem stays_mkNode (hv : P v) (low high : Ref) : Stays P (mkNode v low high) := by
  unfold mkNode
  split
  · exact stays_misuse _
  · split
    · exact (stays_mkRegular hv _ _).bind fun _ => stays_pure _
    · exact stays_mkRegular hv _ _

theorem stays_conjoinLiteral {l : Int} (hl : P l.natAbs) (current : Ref) : Stays P (conjoinLiteral current l) := by
  unfold conjoinLiteral
  split
  · exact stays_misuse _
  · split
    · exact stays_mkNode hl _ _
    · exact stays_mkNode hl _ _

theorem stays_conjoinLiterals {ls : List Int} (hls : ∀ l ∈ ls, P l.natAbs) (current : Ref) :
    Stays P (ls.foldlM conjoinLiteral current) := by
  induction ls generalizing current with
  | nil => exact stays_pure _
  | cons l ls ih =>
    obtain ⟨hl, hls⟩ := List.forall_mem_cons.1 hls
    rw [List.foldlM_cons]
    exact (stays_conjoinLiteral hl current).bind fun r => ih hls r

theorem stays_cube {ls : List Int} (hls : ∀ l ∈ ls, P l.natAbs) : Stays P (cube ls) :=
  stays_conjoinLiterals (fun l hl => hls l ((sortLiterals_perm ls).mem_iff.1 hl)) _

/-! ### if-then-else -/

/-- a triple is split on its topmost variable. -/
theorem topOf_of_halves {t t₀ t₁ : Triple} (h : halves t m = .ok (v, t₀, t₁) m') : topOf t m = .ok v m := by
  obtain ⟨top, m₁, htop, h₁⟩ := exists_of_bind_eq_ok h
  obtain ⟨rfl, -⟩ := stable_topOf t m top m₁ htop
  obtain ⟨⟨c₀, c₁⟩, m₂, -, h₂⟩ := exists_of_bind_eq_ok h₁
  obtain ⟨⟨d₀, d₁⟩, m₃, -, h₃⟩ := exists_of_bind_eq_ok h₂
  obtain ⟨⟨e₀, e₁⟩, m₄, -, h₄⟩ := exists_of_bind_eq_ok h₃
  cases h₄
  exact htop

theorem stays_split {choose : Triple → BddM Ref} (hchoose : ∀ t, Stays P (choose t)) (t : Triple) :
    Stays P (split choose t) := by
  intro m r m' h hm
  obtain ⟨⟨top, t₀, t₁⟩, m₁, hhalves, hrest⟩ := exists_of_bind_eq_ok h
  obtain ⟨-, s, -, hi, n, hn, rfl⟩ := topOf_spec (topOf_of_halves hhalves)
  obtain ⟨rfl, -⟩ := stable_halves t m _ m₁ hhalves
  have hnode : Stays P (do mkNode n.var (← choose t₀) (← choose t₁)) :=
    (hchoose t₀).bind fun low => (hchoose t₁).bind fun high => stays_mkNode (hm _ n hi hn) low high
  exact hnode _ r m' hrest hm

theorem stays_computed? (t : Triple) : Stays P (computed? t) := by
  intro m o m' h hm
  cases h
  exact hm

theorem stays_remember (t : Triple) (r : Ref) : Stays P (remember t r) := by
  intro m u m' h hm
  cases h
  exact hm

theorem stays_iteWithin (fuel : Nat) (t : Triple) : Stays P (Recall.table.iteWithin fuel t) := by
  induction fuel generalizing t with
  | zero => exact stays_misuse _
  | succ fuel ih =>
    rw [Recall.iteWithin]
    split
    · exact stays_pure _
    · refine (stays_computed? _).bind fun found => ?_
      cases found with
      | some r => exact stays_pure _
      | none => exact (stays_split ih _).bind fun r => (stays_remember _ r).bind fun _ => stays_pure _

theorem stays_ite (f g h : Ref) : Stays P (ite f g h) := by
  rw [← Recall.ite_table]
  exact stays_iteWithin _ _

/-! ### walks -/

/-- the same for a walk, whatever results it keeps. -/
def StaysOn (P : Nat → Prop) (x : MemoM α) : Prop := ∀ memo, Stays P (x memo)

theorem staysOn_pure (a : α) : StaysOn P (pure a) := fun _ => stays_pure _

theorem StaysOn.bind {x : MemoM α} {k : α → MemoM β} (hx : StaysOn P x) (hk : ∀ a, StaysOn P (k a)) :
    StaysOn P (x >>= k) := fun memo => Stays.bind (hx memo) fun p => hk p.1 p.2

theorem staysOn_lift {y : BddM α} (hy : Stays P y) : StaysOn P (monadLift y) := fun _ => hy.bind fun _ => stays_pure _

theorem staysOn_variableOf_bind {k : Nat → MemoM α} (hi : r.index ≠ 1) (hk : ∀ v, P v → StaysOn P (k v)) :
    StaysOn P (monadLift (ask (·.variableOf r)) >>= k) := by
  intro memo m a m' h hm
  obtain ⟨p, m₁, hp, hrest⟩ := exists_of_bind_eq_ok h
  obtain ⟨v, m₂, hv, hpure⟩ := exists_of_bind_eq_ok hp
  cases hpure
  obtain ⟨rfl, n, hn, rfl⟩ := exists_node_of_ask (g := (·.var)) hv
  exact hk _ (hm _ n hi hn) memo _ _ _ hrest hm

theorem staysOn_memoized {x : MemoM Ref} (hx : StaysOn P x) (f : Ref) : StaysOn P (memoized f x) := by
  have hget : StaysOn P (get : MemoM Memo) := fun _ => stays_pure _
  have hkeep : ∀ r, StaysOn P (modify fun memo : Memo => memo.insert f.value r) := fun _ _ => stays_pure _
  refine hget.bind fun memo => ?_
  split
  · exact staysOn_pure _
  · exact hx.bind fun r => (hkeep r).bind fun _ => staysOn_pure _

theorem StaysOn.run' {x : MemoM α} (hx : StaysOn P x) (memo : Memo) : Stays P (x.run' memo) := by
  have hrun : x.run' memo = x memo >>= fun p => pure p.1 := (bind_pure_comp Prod.fst (x memo)).symm
  rw [hrun]
  exact (hx memo).bind fun _ => stays_pure _

theorem staysOn_restrictWithin (values : Binding Bool) (fuel : Nat) (f : Ref) :
    StaysOn P (restrictWithin values fuel f) := by
  induction fuel generalizing f with
  | zero => exact staysOn_lift (stays_misuse _)
  | succ fuel ih =>
    rw [restrictWithin]
    split
    · exact staysOn_pure _
    · next hgo =>
      rw [Bool.or_eq_true, not_or, Ref.isTerminal_iff] at hgo
      refine staysOn_memoized (staysOn_variableOf_bind hgo.1 fun v hv => ?_) f
      split
      · exact (staysOn_lift (stable_high f).stays).bind fun _ => ih _
      · exact (staysOn_lift (stable_low f).stays).bind fun _ => ih _
      · exact (staysOn_lift (stable_low f).stays).bind fun _ => (ih _).bind fun _ =>
          (staysOn_lift (stable_high f).stays).bind fun _ => (ih _).bind fun _ => staysOn_lift (stays_mkNode hv _ _)

theorem staysOn_composeWithin (map : Binding Ref) (fuel : Nat) (f : Ref) : StaysOn P (composeWithin map fuel f) := by
  induction fuel generalizing f with
  | zero => exact staysOn_lift (stays_misuse _)
  | succ fuel ih =>
    rw [composeWithin]
    split
    · exact staysOn_pure _
    · next hi =>
      rw [Ref.isTerminal_iff, ← Ref.index_negateIf f f.isNegated] at hi
      refine (staysOn_memoized (staysOn_variableOf_bind hi fun v hv => ?_) _).bind fun _ => staysOn_pure _
      refine (staysOn_lift (stable_low _).stays).bind fun _ => (ih _).bind fun low =>
        (staysOn_lift (stable_high _).stays).bind fun _ => (ih _).bind fun high => ?_
      split
      · exact staysOn_lift (stays_ite _ _ _)
      · exact (staysOn_lift (stays_mkNode hv _ _)).bind fun _ => staysOn_lift (stays_ite _ _ _)

theorem staysOn_existsWithin (fuel : Nat) (f : Ref) (vars : List Nat) : StaysOn P (existsWithin fuel f vars) := by
  induction fuel generalizing f vars with
  | zero => exact staysOn_lift (stays_misuse _)
  | succ fuel ih =>
    rw [existsWithin]
    split
    · exact staysOn_pure _
    · next hi =>
      rw [Ref.isTerminal_iff] at hi
      refine staysOn_variableOf_bind hi fun v hv => ?_
      split
      · exact staysOn_pure _
      · refine staysOn_memoized ((staysOn_lift (stable_low f).stays).bind fun _ => (ih _ _).bind fun low => ?_) f
        split
        · split
          · exact staysOn_pure _
          · exact (staysOn_lift (stable_high f).stays).bind fun _ => (ih _ _).bind fun high =>
              staysOn_lift (stays_ite _ _ _)
        · exact (staysOn_lift (stable_high f).stays).bind fun _ => (ih _ _).bind fun high =>
            staysOn_lift (stays_mkNode hv _ _)

theorem stays_existsOver (f : Ref) (vars : List Nat) : Stays P (existsOver f vars) :=
  (staysOn_existsWithin _ _ _).run' ∅

/-! ### operations -/

/-- the variables that an operation names for new nodes have the property. -/
def Op.Names (P : Nat → Prop) : Op → Prop
  | var v => P v
  | literal v _ => P v
  | node v _ _ => P v
  | cube ls => ∀ l ∈ ls, P l.natAbs
  | _ => True

/-- **Operations** put the variables that they name on new nodes, or those of other nodes. -/
theorem stays_op {op : Op} (hop : op.Names P) : Stays P op.run := by
  cases op with
  | var v => exact stays_mkNode hop _ _
  | literal v positive => exact (stays_mkNode hop _ _).bind fun _ => stays_pure _
  | node v low high => exact stays_mkNode hop low high
  | cube ls => exact stays_cube hop
  | ite f g h => exact stays_ite f g h
  | restrict f values => exact (staysOn_restrictWithin values _ f).run' ∅
  | compose f map => exact (staysOn_composeWithin map _ f).run' ∅
  | existsOver f vars => exact stays_existsOver f vars
  | forallOver f vars => exact (stays_existsOver _ vars).bind fun _ => stays_pure _

/-- the managers that allowed operations on variables with the property lead to. -/
inductive ReachedWith (P : Nat → Prop) : Manager → Prop
  | empty {bits : Nat} {m : Manager} (h : Manager.empty bits = .ok m) : ReachedWith P m
  | run {m m' : Manager} {op : Op} {r : Ref} (h : ReachedWith P m) (hop : op.Allowed m) (hnames : op.Names P)
      (hrun : op.run m = .ok r m') : ReachedWith P m'

theorem ReachedWith.reached (h : ReachedWith P m) : Reached m := by
  induction h with
  | empty h => exact .empty h
  | run _ hop _ hrun ih => exact ih.run hop hrun

theorem labelled_empty {bits : Nat} (h : Manager.empty bits = .ok m) : Labelled P m :=
  fun _ _ hi hk => absurd (eq_one_of_empty h hk) hi

/-- **All variables of nodes** have been named by an operation. -/
theorem ReachedWith.labelled (h : ReachedWith P m) : Labelled P m := by
  induction h with
  | empty h => exact labelled_empty h
  | run _ _ hnames hrun ih => exact stays_op hnames _ _ _ hrun ih

end ReversibleLogic.Bdd
