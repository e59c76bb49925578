import Mathlib.Data.List.Induction
import ReversibleLogic.Bdd.Quantifier
import ReversibleLogic.Proofs.Bdd.Ite

/-!
# Walks that keep results

A walk computes an operator `T` on the functions of references, and keeps the result for each reference it has met.

* `Recalls m T memo` — every kept result is right;
* `Walks m T memo x Q` — the walk `x` yields `Q` and keeps right results only; `walks_memoized` is the step that all
  walks share;
* `yields_restrict`, `yields_compose` — for them, `T` changes the assignment;
* `someSetting`, `everySetting` — for `existsOver`, `T` tries all values of some variables; `yields_existsOver`,
  `yields_forallOver`.
-/

namespace ReversibleLogic.Bdd

/-! ### kept results -/

/-- the kept result of a reference has the function that `T` makes of its function. -/
def Recalls (m : Manager) (T : (Assignment → Bool) → Assignment → Bool) (memo : Memo) : Prop :=
  ∀ f r : Ref, memo[f.value]? = some r → m.Holds f ∧ m.Denotes r (T (m.eval · f))

/-- from `m` and right results the walk succeeds, with right results. -/
def Walks {α : Type} (m : Manager) (T : (Assignment → Bool) → Assignment → Bool) (memo : Memo) (x : MemoM α)
    (Q : α → Manager → Prop) : Prop :=
  Yields m (x memo) fun p m' => Recalls m' T p.2 ∧ Q p.1 m'

section walks

variable {α β : Type} {m m' : Manager} {T : (Assignment → Bool) → Assignment → Bool} {memo : Memo} {f : Ref}

theorem recalls_empty (m : Manager) (T : (Assignment → Bool) → Assignment → Bool) : Recalls m T ∅ := by
  intro f r h
  simp at h

theorem Recalls.mono (h : Recalls m T memo) (hm : m.Ordered) (hle : m ≤ m') : Recalls m' T memo := by
  intro f r hr
  obtain ⟨hf, hd⟩ := h f r hr
  have he : (m'.eval · f) = (m.eval · f) := funext (Manager.eval_mono hm hle hf)
  exact ⟨hf.mono hle, he ▸ hd.mono hm hle⟩

theorem Recalls.insert (h : Recalls m T memo) (hf : m.Holds f) {r : Ref} (hr : m.Denotes r (T (m.eval · f))) :
    Recalls m T (memo.insert f.value r) := by
  intro g s hs
  rw [Std.TreeMap.getElem?_insert] at hs
  split at hs
  · next he =>
    have hfg : f = g := congrArg Ref.mk (Std.LawfulEqCmp.eq_of_compare he)
    subst hfg
    cases hs
    exact ⟨hf, hr⟩
  · exact h g s hs

variable {Q : α → Manager → Prop} {R : β → Manager → Prop}

theorem walks_pure (h : m.WellFormed) (hmemo : Recalls m T memo) {a : α} (hQ : Q a m) : Walks m T memo (pure a) Q :=
  yields_pure h ⟨hmemo, hQ⟩

theorem Walks.bind {x : MemoM α} {k : α → MemoM β} (hx : Walks m T memo x Q)
    (hk : ∀ a memo' m', m'.WellFormed → m ≤ m' → Recalls m' T memo' → Q a m' → Walks m' T memo' (k a) R) :
    Walks m T memo (x >>= k) R :=
  Yields.bind hx fun p m' hm' hle ⟨hmemo, hQ⟩ => hk p.1 p.2 m' hm' hle hmemo hQ

theorem walks_lift (h : m.WellFormed) (hmemo : Recalls m T memo) {y : BddM α} (hy : Yields m y Q) :
    Walks m T memo (monadLift y) Q :=
  hy.bind fun _ _ hm' hle hQ => yields_pure hm' ⟨hmemo.mono h.toOrdered hle, hQ⟩

theorem walks_ask_bind {q : Manager → Except Error α} {a : α} {k : α → MemoM β} (hq : q m = .ok a)
    (hk : Walks m T memo (k a) R) : Walks m T memo (monadLift (ask q) >>= k) R := by
  have hask : (monadLift (ask q) : MemoM α) memo m = .ok (a, memo) m := bind_of_ok (ask_eq hq) _
  exact yields_bind_of_eq hask hk

theorem walks_get_bind {k : Memo → MemoM β} (hk : Walks m T memo (k memo) R) : Walks m T memo (get >>= k) R := by
  have hget : (get : MemoM Memo) memo m = .ok (memo, memo) m := rfl
  exact yields_bind_of_eq (f := fun p : Memo × Memo => (k p.1).run p.2) hget hk

/-- **A kept result** is as good as the one that is computed. -/
theorem walks_memoized (h : m.WellFormed) (hmemo : Recalls m T memo) (hf : m.Holds f) {x : MemoM Ref}
    (hx : Walks m T memo x fun r m' => m'.Denotes r (T (m.eval · f))) :
    Walks m T memo (memoized f x) fun r m' => m'.Denotes r (T (m.eval · f)) := by
  unfold memoized
  refine walks_get_bind ?_
  cases hget : memo[f.value]? with
  | some r => exact walks_pure h hmemo (hmemo f r hget).2
  | none =>
    refine hx.bind fun r memo' m' hm' hle hmemo' hr => ?_
    have he : (m'.eval · f) = (m.eval · f) := funext (Manager.eval_mono h.toOrdered hle hf)
    exact yields_pure hm' ⟨hmemo'.insert (hf.mono hle) (he ▸ hr), hr⟩

theorem Walks.run' {x : MemoM α} (hx : Walks m T ∅ x Q) : Yields m (x.run' ∅) Q := by
  obtain ⟨p, m', hok, hm', hle, -, hQ⟩ := hx
  refine ⟨p.1, m', ?_, hm', hle, hQ⟩
  show EStateM.map _ (x ∅) m = _
  rw [EStateM.map, hok]

end walks

/-! ### children -/

section children

variable {m m' : Manager} {f c : Ref} {n : Node} {v : Nat} {b : Bool}

/-- the child of an inner reference, with its sign. -/
def childOf (f : Ref) (n : Node) (b : Bool) : Ref := (if b then n.high else n.low).negateIf f.isNegated

/-- what a walk needs to know of the children of `f`, which has the node `n`. -/
structure Children (m : Manager) (f : Ref) (n : Node) : Prop where
  node : m.nodes.value? f.index = some n
  inner : m.Inner f.index n
  level : m.level f = n.var
  cofactor : ∀ b, IsCofactor m f n.var b (childOf f n b)
  level_child : ∀ b, n.var < m.level (childOf f n b)

theorem exists_children (hm : m.Ordered) (hf : m.Holds f) (hi : f.index ≠ 1) : ∃ n, Children m f n := by
  obtain ⟨n, hn, hin, hl⟩ := hm.exists_inner hf hi
  refine ⟨n, hn, hin, hl, isCofactor_child hm hi hn, fun b => ?_⟩
  rw [childOf, Manager.level_negateIf]
  cases b
  · exact hin.low_level
  · exact hin.high_level

theorem Children.index_lt (h : Children m f n) (b : Bool) : (childOf f n b).index < f.index :=
  (h.cofactor b).index_lt h.level

theorem Children.holds (h : Children m f n) (b : Bool) : m.Holds (childOf f n b) := (h.cofactor b).denotes.holds

theorem Children.variableOf_eq (h : Children m f n) (hle : m ≤ m') : m'.variableOf f = .ok n.var :=
  variableOf_of_value? (hle _ _ h.node)

theorem Children.low_eq (h : Children m f n) (hle : m ≤ m') : m'.low f = .ok (childOf f n false) :=
  low_of_value? (hle _ _ h.node)

theorem Children.high_eq (h : Children m f n) (hle : m ≤ m') : m'.high f = .ok (childOf f n true) :=
  high_of_value? (hle _ _ h.node)

/-- a reference has the value of the child that its variable chooses. -/
theorem Children.eval_child (h : Children m f n) {a : Assignment} (hb : a n.var = b) :
    m.eval a (childOf f n b) = m.eval a f := by
  rw [(h.cofactor b).denotes.eval, ← hb, Function.update_eq_self]

/-- the variable of a reference chooses between the children. -/
theorem Children.eval_eq (h : Children m f n) (a : Assignment) :
    m.eval a f = if a n.var then m.eval a (childOf f n true) else m.eval a (childOf f n false) := by
  cases ha : a n.var with
  | true => exact (h.eval_child ha).symm
  | false => exact (h.eval_child ha).symm

/-- a child ignores the variable of its parent and all smaller ones. -/
theorem Children.ignores_of_le (h : Children m f n) (hm : m.Ordered) (hv : v ≤ n.var) (b : Bool) :
    Ignores (m.eval · (childOf f n b)) v :=
  Manager.ignores_of_lt_level hm (h.holds b) (Nat.lt_of_le_of_lt hv (h.level_child b))

theorem Children.ignores (h : Children m f n) (hv : Ignores (m.eval · f) v) (b : Bool) :
    Ignores (m.eval · (childOf f n b)) v :=
  (h.cofactor b).denotes.ignores_iff.1 (hv.update n.var b)

end children

/-! ### finite maps -/

namespace Binding

variable {β : Type} {entries : List (Nat × β)} {v : Nat} {b : β}

theorem getElem?_ofEntries_append (entries : List (Nat × β)) (v : Nat) (b : β) (u : Nat) :
    (ofEntries (entries ++ [(v, b)]))[u]? = if v = u then some b else (ofEntries entries)[u]? := by
  unfold ofEntries
  rw [List.foldl_append]
  show (Std.TreeMap.insert _ v b)[u]? = _
  rw [Std.TreeMap.getElem?_insert]
  simp

theorem getElem?_ofEntries_of_not_mem (h : v ∉ entries.map Prod.fst) : (ofEntries entries)[v]? = none := by
  induction entries using List.reverseRecOn with
  | nil => simp [ofEntries]
  | append_singleton entries e ih =>
    rw [List.map_append, List.mem_append, not_or] at h
    have hne : e.1 ≠ v := fun he => h.2 (by simp [he])
    rw [getElem?_ofEntries_append, if_neg hne, ih h.1]

theorem getElem?_ofEntries_of_mem (h : (v, b) ∈ entries) (hnodup : (entries.map Prod.fst).Nodup) :
    (ofEntries entries)[v]? = some b := by
  induction entries using List.reverseRecOn with
  | nil => cases h
  | append_singleton entries e ih =>
    rw [List.map_append, List.map_singleton, ← List.concat_eq_append, List.nodup_concat] at hnodup
    rw [getElem?_ofEntries_append]
    rcases List.mem_append.1 h with hmem | hmem
    · have hne : e.1 ≠ v := fun he => hnodup.1 (he ▸ List.mem_map_of_mem hmem)
      rw [if_neg hne, ih hmem hnodup.2]
    · rw [← List.mem_singleton.1 hmem, if_pos rfl]

end Binding

/-! ### fixed variables -/

/-- the assignment with the given values in place of its own. -/
def override (values : Binding Bool) (a : Assignment) : Assignment := fun v => values[v]?.getD (a v)

section restrict

variable {m : Manager} {memo : Memo} {f : Ref} {values : Binding Bool}

/-- a fixed variable may have any value. -/
theorem override_update_of_some {u : Nat} {c : Bool} (hu : values[u]? = some c) (a : Assignment) (b : Bool) :
    override values (Function.update a u b) = override values a := by
  funext v
  by_cases hv : v = u
  · subst hv
    rw [override, override, hu]
    rfl
  · rw [override, override, Function.update_of_ne hv]

theorem override_update_of_none {u : Nat} (hu : values[u]? = none) (a : Assignment) (b : Bool) :
    override values (Function.update a u b) = Function.update (override values a) u b := by
  funext v
  by_cases hv : v = u
  · subst hv
    rw [override, hu, Function.update_self, Function.update_self]
    rfl
  · rw [Function.update_of_ne hv, override, override, Function.update_of_ne hv]

theorem ignores_override {F : Assignment → Bool} {u : Nat} (hF : Ignores F u) :
    Ignores (fun a => F (override values a)) u := by
  intro a b
  cases hu : values[u]? with
  | none => simp only [override_update_of_none hu, hF (override values a) b]
  | some c => simp only [override_update_of_some hu]

theorem ignores_override_of_mem (F : Assignment → Bool) {u : Nat} (hu : u ∈ values) :
    Ignores (fun a => F (override values a)) u := by
  intro a b
  simp only [override_update_of_some (Std.TreeMap.getElem?_eq_some_getElem hu)]

theorem walks_restrictWithin (h : m.WellFormed) (hmemo : Recalls m (fun F a => F (override values a)) memo)
    (hf : m.Holds f) {fuel : Nat} (hfuel : f.index < fuel) :
    Walks m (fun F a => F (override values a)) memo (restrictWithin values fuel f) fun r m' =>
      m'.Denotes r fun a => m.eval (override values a) f := by
  induction fuel generalizing m memo f with
  | zero => omega
  | succ fuel ih =>
    rw [restrictWithin]
    split
    · next hstop =>
      rw [Bool.or_eq_true, Ref.isTerminal_iff] at hstop
      refine walks_pure h hmemo ⟨hf, fun a => ?_⟩
      rcases hstop with hi | hempty
      · rw [Manager.eval_terminal hi, Manager.eval_terminal hi]
      · have hsame : override values a = a := by
          funext v
          rw [override, Std.TreeMap.getElem?_of_isEmpty hempty]
          rfl
        rw [hsame]
    · next hgo =>
      rw [Bool.or_eq_true, not_or, Ref.isTerminal_iff] at hgo
      have hm := h.toOrdered
      obtain ⟨n, hc⟩ := exists_children hm hf hgo.1
      have hfuel' : ∀ b, (childOf f n b).index < fuel := fun b => by have := hc.index_lt b; omega
      refine walks_memoized h hmemo hf (walks_ask_bind (hc.variableOf_eq m.le_refl) ?_)
      cases hvalue : values[n.var]? with
      | some b =>
        -- the child on the given side has the result
        have hresult : Walks m (fun F a => F (override values a)) memo (restrictWithin values fuel (childOf f n b))
            fun r m' => m'.Denotes r fun a => m.eval (override values a) f := by
          refine (ih h hmemo (hc.holds b) (hfuel' b)).imp fun p m' _ _ ⟨hmemo', hr⟩ => ⟨hmemo', hr.congr fun a => ?_⟩
          exact hc.eval_child (by rw [override, hvalue, Option.getD_some])
        cases b with
        | true => exact walks_ask_bind (hc.high_eq m.le_refl) hresult
        | false => exact walks_ask_bind (hc.low_eq m.le_refl) hresult
      | none =>
        refine walks_ask_bind (hc.low_eq m.le_refl) ?_
        refine (ih h hmemo (hc.holds false) (hfuel' false)).bind fun low memo₁ m₁ h₁ hle₁ hmemo₁ hlow => ?_
        refine walks_ask_bind (hc.high_eq hle₁) ?_
        refine (ih h₁ hmemo₁ ((hc.holds true).mono hle₁) (hfuel' true)).bind
          fun high memo₂ m₂ h₂ hle₂ hmemo₂ hhigh => ?_
        have hhigh' := hhigh.congr fun a => Manager.eval_mono hm hle₁ (hc.holds true) _
        have hignores : ∀ b, ∀ u ≤ n.var, Ignores (fun a => m.eval (override values a) (childOf f n b)) u := by
          intro b u hu
          exact ignores_override (hc.ignores_of_le hm hu b)
        refine walks_lift h₂ hmemo₂ ((yields_mkNode_of_ignores h₂ hc.inner.var_pos hc.inner.var_lt
          (hlow.mono h₁.toOrdered hle₂) hhigh' (hignores false) (hignores true)).imp
            fun r m' _ _ hr => hr.congr fun a => ?_)
        have hsame : override values a n.var = a n.var := by rw [override, hvalue, Option.getD_none]
        rw [← hsame]
        exact (hc.eval_eq _).symm

/-- **Restriction** fixes variables. -/
theorem yields_restrict (h : m.WellFormed) {F : Assignment → Bool} (hf : m.Denotes f F) (values : Binding Bool) :
    Yields m (restrict f values) fun r m' => m'.Denotes r fun a => F (override values a) := by
  refine (walks_restrictWithin h (recalls_empty m _) hf.holds (Nat.lt_succ_self _)).run'.imp
    fun r m' _ _ hr => hr.congr fun a => ?_
  exact hf.eval _

end restrict

/-! ### simultaneous substitution -/

section compose

variable {m m₀ : Manager} {memo : Memo} {f : Ref} {map : Binding Ref}

/-- the assignment that gives every mapped variable the value of its function. -/
def substituted (m : Manager) (map : Binding Ref) (a : Assignment) : Assignment := fun v =>
  match map[v]? with
  | some g => m.eval a g
  | none => a v

theorem substituted_of_some {v : Nat} {g : Ref} (h : map[v]? = some g) (a : Assignment) :
    substituted m map a v = m.eval a g := by
  rw [substituted, h]

theorem substituted_of_none {v : Nat} (h : map[v]? = none) (a : Assignment) : substituted m map a v = a v := by
  rw [substituted, h]

def HoldsAll (m : Manager) (map : Binding Ref) : Prop := ∀ (v : Nat) g, map[v]? = some g → m.Holds g

theorem holdsAll_nil (m : Manager) : HoldsAll m (.ofEntries []) := by
  intro v g hv
  rw [Binding.getElem?_ofEntries_of_not_mem List.not_mem_nil] at hv
  cases hv

theorem HoldsAll.concat {entries : List (Nat × Ref)} (h : HoldsAll m (.ofEntries entries)) {v : Nat} {g : Ref}
    (hg : m.Holds g) : HoldsAll m (.ofEntries (entries ++ [(v, g)])) := by
  intro u g' hu
  rw [Binding.getElem?_ofEntries_append] at hu
  split at hu
  · exact Option.some.inj hu ▸ hg
  · exact h u g' hu

theorem substituted_nil (a : Assignment) (u : Nat) : substituted m (.ofEntries []) a u = a u :=
  substituted_of_none (Binding.getElem?_ofEntries_of_not_mem List.not_mem_nil) a

theorem substituted_concat (entries : List (Nat × Ref)) (v : Nat) (g : Ref) (a : Assignment) (u : Nat) :
    substituted m (.ofEntries (entries ++ [(v, g)])) a u =
      if v = u then m.eval a g else substituted m (.ofEntries entries) a u := by
  unfold substituted
  rw [Binding.getElem?_ofEntries_append]
  by_cases hv : v = u
  · rw [if_pos hv, if_pos hv]
  · rw [if_neg hv, if_neg hv]

theorem walks_composeWithin (h : m.WellFormed) (h₀ : m₀.Ordered) (hle : m₀ ≤ m) (hmap : HoldsAll m₀ map)
    (hmemo : Recalls m (fun F a => F (substituted m₀ map a)) memo) (hf : m.Holds f) {fuel : Nat}
    (hfuel : f.index < fuel) :
    Walks m (fun F a => F (substituted m₀ map a)) memo (composeWithin map fuel f) fun r m' =>
      m'.Denotes r fun a => m.eval (substituted m₀ map a) f := by
  induction fuel generalizing m memo f with
  | zero => omega
  | succ fuel ih =>
    rw [composeWithin]
    split
    · next hi =>
      rw [Ref.isTerminal_iff] at hi
      exact walks_pure h hmemo ⟨hf, fun a => by rw [Manager.eval_terminal hi, Manager.eval_terminal hi]⟩
    · next hi =>
      rw [Ref.isTerminal_iff] at hi
      have hm := h.toOrdered
      have hg : m.Holds (f.negateIf f.isNegated) := hf.negateIf _
      have hindex : (f.negateIf f.isNegated).index = f.index := Ref.index_negateIf _ _
      have hsign : ∀ a, m.eval a f = (f.isNegated ^^ m.eval a (f.negateIf f.isNegated)) := fun a => by
        rw [Manager.eval_negateIf hf, ← Bool.xor_assoc, Bool.xor_self, Bool.false_xor]
      simp only
      generalize f.negateIf f.isNegated = g at hg hindex hsign
      obtain ⟨n, hc⟩ := exists_children hm hg (by rw [hindex]; exact hi)
      have hfuel' : ∀ b, (childOf g n b).index < fuel := fun b => by have := hc.index_lt b; omega
      refine Walks.bind (Q := fun r m' => m'.Denotes r fun a => m.eval (substituted m₀ map a) g)
        (walks_memoized h hmemo hg (walks_ask_bind (hc.variableOf_eq m.le_refl) ?_)) ?_
      · refine walks_ask_bind (hc.low_eq m.le_refl) ?_
        refine (ih h hle hmemo (hc.holds false) (hfuel' false)).bind fun low memo₁ m₁ h₁ hle₁ hmemo₁ hlow => ?_
        refine walks_ask_bind (hc.high_eq hle₁) ?_
        have hle₀ := Manager.le_trans hle hle₁
        refine (ih h₁ hle₀ hmemo₁ ((hc.holds true).mono hle₁) (hfuel' true)).bind
          fun high memo₂ m₂ h₂ hle₂ hmemo₂ hhigh => ?_
        have hhigh' := hhigh.congr fun a => Manager.eval_mono hm hle₁ (hc.holds true) _
        -- whatever replaces the variable, it chooses between the results for the children
        have hite : ∀ selector memo₃ m₃, m₃.WellFormed → m₂ ≤ m₃ →
            Recalls m₃ (fun F a => F (substituted m₀ map a)) memo₃ →
            m₃.Denotes selector (fun a => substituted m₀ map a n.var) →
            Walks m₃ (fun F a => F (substituted m₀ map a)) memo₃ (monadLift (ite selector high low)) fun r m' =>
              m'.Denotes r fun a => m.eval (substituted m₀ map a) g := by
          intro selector memo₃ m₃ h₃ hle₃ hmemo₃ hsel
          refine walks_lift h₃ hmemo₃ ((yields_ite h₃ hsel (hhigh'.mono h₂.toOrdered hle₃)
            (hlow.mono h₁.toOrdered (Manager.le_trans hle₂ hle₃))).imp fun r m' _ _ hr => hr.congr fun a => ?_)
          exact (hc.eval_eq _).symm
        cases hv : map[n.var]? with
        | some s =>
          refine hite s memo₂ m₂ h₂ m₂.le_refl hmemo₂ ?_
          refine ((hmap _ s hv).denotes.mono h₀ (Manager.le_trans hle₀ hle₂)).congr ?_
          intro a
          exact (substituted_of_some hv a).symm
        | none =>
          refine (walks_lift h₂ hmemo₂ (yields_var h₂ hc.inner.var_pos hc.inner.var_lt)).bind
            fun selector memo₃ m₃ h₃ hle₃ hmemo₃ hs => hite selector memo₃ m₃ h₃ hle₃ hmemo₃ (hs.congr fun a => ?_)
          exact (substituted_of_none hv a).symm
      · exact fun r memo' m' h' _ hmemo' hr => walks_pure h' hmemo' ((hr.negateIf _).congr fun a => (hsign _).symm)

/-- **Substitution** replaces all mapped variables at once. -/
theorem yields_compose (h : m.WellFormed) {F : Assignment → Bool} (hf : m.Denotes f F) (hmap : HoldsAll m map) :
    Yields m (compose f map) fun r m' => m'.Denotes r fun a => F (substituted m map a) := by
  refine (walks_composeWithin h h.toOrdered m.le_refl hmap (recalls_empty m _) hf.holds
    (Nat.lt_succ_self _)).run'.imp fun r m' _ _ hr => hr.congr fun a => ?_
  exact hf.eval _

end compose

/-! ### quantified variables -/

/-- some setting of the variables makes `F` true. -/
def someSetting : List Nat → (Assignment → Bool) → Assignment → Bool
  | [], F => F
  | v :: vars, F => fun a =>
    someSetting vars F (Function.update a v false) || someSetting vars F (Function.update a v true)

theorem someSetting_eq_true {vars : List Nat} {F : Assignment → Bool} {a : Assignment} :
    someSetting vars F a = true ↔ ∃ b : Assignment, (∀ v, v ∉ vars → b v = a v) ∧ F b = true := by
  induction vars generalizing a with
  | nil =>
    constructor
    · intro h
      exact ⟨a, fun _ _ => rfl, h⟩
    · rintro ⟨b, hb, h⟩
      have hba : b = a := funext fun v => hb v (List.not_mem_nil)
      rwa [hba] at h
  | cons u vars ih =>
    rw [someSetting, Bool.or_eq_true, ih, ih]
    constructor
    · have hone : ∀ c : Bool, (∃ b : Assignment, (∀ v, v ∉ vars → b v = Function.update a u c v) ∧ F b = true) →
          ∃ b : Assignment, (∀ v, v ∉ u :: vars → b v = a v) ∧ F b = true := by
        rintro c ⟨b, hb, h⟩
        refine ⟨b, fun v hv => ?_, h⟩
        rw [List.mem_cons, not_or] at hv
        rw [hb v hv.2, Function.update_of_ne hv.1]
      rintro (h | h)
      · exact hone false h
      · exact hone true h
    · rintro ⟨b, hb, h⟩
      have hone : ∃ b' : Assignment, (∀ v, v ∉ vars → b' v = Function.update a u (b u) v) ∧ F b' = true := by
        refine ⟨b, fun v hv => ?_, h⟩
        by_cases hvu : v = u
        · subst hvu
          rw [Function.update_self]
        · rw [Function.update_of_ne hvu]
          exact hb v (by simp [hvu, hv])
      cases hbu : b u with
      | false => exact Or.inl (hbu ▸ hone)
      | true => exact Or.inr (hbu ▸ hone)

def everySetting (vars : List Nat) (F : Assignment → Bool) : Assignment → Bool := fun a =>
  !someSetting vars (fun b => !F b) a

theorem everySetting_eq_true {vars : List Nat} {F : Assignment → Bool} {a : Assignment} :
    everySetting vars F a = true ↔ ∀ b : Assignment, (∀ v, v ∉ vars → b v = a v) → F b = true := by
  rw [everySetting, Bool.not_eq_true', ← Bool.not_eq_true, someSetting_eq_true]
  simp only [not_exists, not_and, Bool.not_eq_true', Bool.not_eq_false]

section exists_

variable {m m' : Manager} {memo : Memo} {f : Ref} {n : Node} {all vars : List Nat} {F : Assignment → Bool} {u v : Nat}

theorem ignores_someSetting (hF : Ignores F u) : Ignores (someSetting vars F) u := by
  induction vars with
  | nil => exact hF
  | cons v vars ih =>
    have h₀ := ih.update v false
    have h₁ := ih.update v true
    intro a b
    exact congrArg₂ (· || ·) (h₀ a b) (h₁ a b)

theorem ignores_someSetting_of_mem (hv : v ∈ vars) : Ignores (someSetting vars F) v := by
  intro a c
  rw [Bool.eq_iff_iff, someSetting_eq_true, someSetting_eq_true]
  refine exists_congr fun b => and_congr_left fun _ => forall_congr' fun u => forall_congr' ?_
  intro hu
  rw [Function.update_of_ne]
  rintro rfl
  exact hu hv

theorem someSetting_of_ignores (hF : ∀ v ∈ vars, Ignores F v) (a : Assignment) : someSetting vars F a = F a := by
  induction vars generalizing a with
  | nil => rfl
  | cons v vars ih =>
    have ih := fun a => ih (fun u hu => hF u (List.mem_cons_of_mem _ hu)) a
    have hv := hF v List.mem_cons_self
    show (someSetting vars F (Function.update a v false) || someSetting vars F (Function.update a v true)) = F a
    rw [ih, ih, hv, hv, Bool.or_self]

/-- a quantified variable may be split first. -/
theorem someSetting_of_mem (hv : v ∈ vars) (a : Assignment) :
    someSetting vars F a = (someSetting vars (fun a => F (Function.update a v false)) a ||
      someSetting vars (fun a => F (Function.update a v true)) a) := by
  rw [Bool.eq_iff_iff, Bool.or_eq_true, someSetting_eq_true, someSetting_eq_true, someSetting_eq_true]
  constructor
  · rintro ⟨b, hb, h⟩
    have hself := Function.update_eq_self v b
    cases hbv : b v with
    | false =>
      rw [hbv] at hself
      exact Or.inl ⟨b, hb, by rwa [hself]⟩
    | true =>
      rw [hbv] at hself
      exact Or.inr ⟨b, hb, by rwa [hself]⟩
  · have hone : ∀ c : Bool, (∃ b : Assignment, (∀ v, v ∉ vars → b v = a v) ∧ F (Function.update b v c) = true) →
        ∃ b : Assignment, (∀ v, v ∉ vars → b v = a v) ∧ F b = true := by
      rintro c ⟨b, hb, h⟩
      refine ⟨Function.update b v c, fun w hw => ?_, h⟩
      rw [Function.update_of_ne, hb w hw]
      rintro rfl
      exact hw hv
    rintro (h | h)
    · exact hone false h
    · exact hone true h

theorem someSetting_of_not_mem (hv : v ∉ vars) (a : Assignment) :
    someSetting vars F a = someSetting vars (fun b => F (Function.update b v (a v))) a := by
  rw [Bool.eq_iff_iff, someSetting_eq_true, someSetting_eq_true]
  have hupdate : ∀ b : Assignment, (∀ w, w ∉ vars → b w = a w) → Function.update b v (a v) = b := by
    intro b hb
    rw [← hb v hv, Function.update_eq_self]
  constructor
  · rintro ⟨b, hb, h⟩
    exact ⟨b, hb, by rwa [hupdate b hb]⟩
  · rintro ⟨b, hb, h⟩
    exact ⟨b, hb, by rwa [hupdate b hb] at h⟩

/-! ### sorted lists of variables -/

theorem mem_insertVariable {us : List Nat} : u ∈ insertVariable v us ↔ u = v ∨ u ∈ us := by
  induction us with
  | nil => simp [insertVariable]
  | cons w us ih =>
    rw [insertVariable]
    split
    · exact List.mem_cons
    · split
      · next he =>
        subst he
        simp
      · rw [List.mem_cons, ih, List.mem_cons]
        exact or_left_comm

theorem mem_sortedSet {us : List Nat} : u ∈ sortedSet us ↔ u ∈ us := by
  induction us with
  | nil => exact Iff.rfl
  | cons v us ih =>
    show u ∈ insertVariable v (sortedSet us) ↔ _
    rw [mem_insertVariable, ih, List.mem_cons]

theorem insertVariable_pairwise {us : List Nat} (h : us.Pairwise (· < ·)) : (insertVariable v us).Pairwise (· < ·) := by
  induction us with
  | nil => simp [insertVariable]
  | cons w us ih =>
    obtain ⟨hw, hus⟩ := List.pairwise_cons.1 h
    rw [insertVariable]
    split
    · next hlt =>
      refine List.pairwise_cons.2 ⟨fun x hx => ?_, h⟩
      rcases List.mem_cons.1 hx with rfl | hx
      · exact hlt
      · exact hlt.trans (hw x hx)
    · split
      · exact h
      · refine List.pairwise_cons.2 ⟨fun x hx => ?_, ih hus⟩
        rcases mem_insertVariable.1 hx with rfl | hx
        · omega
        · exact hw x hx

theorem sortedSet_pairwise (us : List Nat) : (sortedSet us).Pairwise (· < ·) := by
  induction us with
  | nil => exact List.Pairwise.nil
  | cons v us ih => exact insertVariable_pairwise ih

/-- a sorted list without its members below `v` starts at `v` if `v` is in it. -/
theorem dropWhile_lt_spec (h : vars.Pairwise (· < ·)) :
    (vars.dropWhile (· < v)).Pairwise (· < ·) ∧ (∀ u ∈ vars.dropWhile (· < v), u ∈ vars ∧ v ≤ u) ∧
      ∀ u ∈ vars, v ≤ u → u ∈ vars.dropWhile (· < v) := by
  induction vars with
  | nil => simp
  | cons w vars ih =>
    obtain ⟨hw, hvars⟩ := List.pairwise_cons.1 h
    obtain ⟨hsorted, hsub, hkeep⟩ := ih hvars
    rw [List.dropWhile_cons]
    split
    · next hlt =>
      rw [decide_eq_true_iff] at hlt
      refine ⟨hsorted, fun u hu => ⟨List.mem_cons_of_mem _ (hsub u hu).1, (hsub u hu).2⟩, fun u hu hle => ?_⟩
      rcases List.mem_cons.1 hu with rfl | hu
      · omega
      · exact hkeep u hu hle
    · next hge =>
      rw [decide_eq_true_iff] at hge
      refine ⟨h, fun u hu => ⟨hu, ?_⟩, fun u hu _ => hu⟩
      rcases List.mem_cons.1 hu with rfl | hu
      · omega
      · have := hw u hu
        omega

/-- what is left to quantify below `f`: all variables, except for some above `f`. -/
structure Left (m : Manager) (f : Ref) (all vars : List Nat) : Prop where
  sorted : vars.Pairwise (· < ·)
  sub : ∀ u ∈ vars, u ∈ all
  above : ∀ u ∈ all, u ∉ vars → u < m.level f

theorem Left.mono (h : Left m f all vars) (hf : m.Holds f) (hle : m ≤ m') : Left m' f all vars := by
  refine ⟨h.sorted, h.sub, ?_⟩
  rw [Manager.level_mono hf hle]
  exact h.above

/-- what has been dropped lies above the node. -/
theorem Left.lt_of_dropped (h : Left m f all vars) (hc : Children m f n) (hu : u ∈ all)
    (hnot : u ∉ vars.dropWhile (· < n.var)) : u < n.var := by
  by_contra hle
  by_cases hmem : u ∈ vars
  · exact hnot ((dropWhile_lt_spec h.sorted).2.2 u hmem (Nat.not_lt.1 hle))
  · have hlt := h.above u hu hmem
    rw [hc.level] at hlt
    exact hle hlt

theorem Left.child (h : Left m f all vars) (hc : Children m f n) (b : Bool) :
    Left m (childOf f n b) all (vars.dropWhile (· < n.var)) := by
  obtain ⟨hsorted, hsub, -⟩ := dropWhile_lt_spec (v := n.var) h.sorted
  refine ⟨hsorted, fun u hu => h.sub u (hsub u hu).1, fun u hu hnot => ?_⟩
  exact (h.lt_of_dropped hc hu hnot).trans (hc.level_child b)

/-- the variable of the node is quantified exactly if it comes first. -/
theorem Left.head_eq_iff {us : List Nat} (h : Left m f all vars) (hc : Children m f n)
    (hrest : vars.dropWhile (· < n.var) = u :: us) : u = n.var ↔ n.var ∈ all := by
  obtain ⟨hsorted, hsub, -⟩ := dropWhile_lt_spec (v := n.var) h.sorted
  rw [hrest] at hsorted hsub
  constructor
  · rintro rfl
    exact h.sub _ (hsub _ List.mem_cons_self).1
  · intro hmem
    have hin : n.var ∈ u :: us := by
      by_contra hout
      exact Nat.lt_irrefl _ (h.lt_of_dropped hc hmem (hrest ▸ hout))
    have hle := (hsub u List.mem_cons_self).2
    rcases List.mem_cons.1 hin with he | hin
    · exact he.symm
    · have hlt := (List.pairwise_cons.1 hsorted).1 _ hin
      omega

theorem Children.eval_update (hc : Children m f n) (b : Bool) :
    (fun a => m.eval (Function.update a n.var b) f) = (m.eval · (childOf f n b)) :=
  funext fun a => ((hc.cofactor b).denotes.eval a).symm

/-- quantifying the variable of the node joins the children. -/
theorem Children.someSetting_of_mem (hc : Children m f n) (hv : n.var ∈ all) (a : Assignment) :
    someSetting all (m.eval · f) a =
      (someSetting all (m.eval · (childOf f n false)) a || someSetting all (m.eval · (childOf f n true)) a) := by
  rw [Bdd.someSetting_of_mem hv, hc.eval_update, hc.eval_update]

/-- otherwise the variable still chooses between them. -/
theorem Children.someSetting_of_not_mem (hc : Children m f n) (hv : n.var ∉ all) (a : Assignment) :
    someSetting all (m.eval · f) a = if a n.var then someSetting all (m.eval · (childOf f n true)) a
      else someSetting all (m.eval · (childOf f n false)) a := by
  rw [Bdd.someSetting_of_not_mem hv, hc.eval_update]
  cases a n.var <;> rfl

theorem walks_existsWithin (h : m.WellFormed) (hmemo : Recalls m (someSetting all) memo) (hf : m.Holds f)
    (hleft : Left m f all vars) {fuel : Nat} (hfuel : f.index < fuel) :
    Walks m (someSetting all) memo (existsWithin fuel f vars) fun r m' =>
      m'.Denotes r (someSetting all (m.eval · f)) := by
  induction fuel generalizing m memo f vars with
  | zero => omega
  | succ fuel ih =>
    have hm := h.toOrdered
    rw [existsWithin]
    split
    · next hi =>
      rw [Ref.isTerminal_iff] at hi
      refine walks_pure h hmemo (hf.denotes.congr fun a =>
        (someSetting_of_ignores (F := (m.eval · f)) (fun v _ a b => ?_) a).symm)
      simp only [Manager.eval_terminal hi]
    · next hi =>
      rw [Ref.isTerminal_iff] at hi
      obtain ⟨n, hc⟩ := exists_children hm hf hi
      have hfuel' : ∀ b, (childOf f n b).index < fuel := fun b => by have := hc.index_lt b; omega
      refine walks_ask_bind (hc.variableOf_eq m.le_refl) ?_
      cases hrest : vars.dropWhile (· < n.var) with
      | nil =>
        -- all variables lie above the node
        refine walks_pure h hmemo (hf.denotes.congr fun a =>
          (someSetting_of_ignores (F := (m.eval · f)) (fun u hu => ?_) a).symm)
        refine Manager.ignores_of_lt_level hm hf ?_
        rw [hc.level]
        exact hleft.lt_of_dropped hc hu (hrest ▸ List.not_mem_nil)
      | cons u us =>
        have hchild : ∀ b, Left m (childOf f n b) all (u :: us) := fun b => hrest ▸ hleft.child hc b
        refine walks_memoized h hmemo hf (walks_ask_bind (hc.low_eq m.le_refl) ?_)
        refine (ih h hmemo (hc.holds false) (hchild false) (hfuel' false)).bind
          fun low memo₁ m₁ h₁ hle₁ hmemo₁ hlow => ?_
        -- the other child, from where the walk is after the first one
        have hhigh : Walks m₁ (someSetting all) memo₁ (existsWithin fuel (childOf f n true) (u :: us)) fun r m' =>
            m'.Denotes r (someSetting all (m.eval · (childOf f n true))) := by
          have heval : (m₁.eval · (childOf f n true)) = (m.eval · (childOf f n true)) :=
            funext (Manager.eval_mono hm hle₁ (hc.holds true))
          have hleft₁ := (hchild true).mono (hc.holds true) hle₁
          exact heval ▸ ih h₁ hmemo₁ ((hc.holds true).mono hle₁) hleft₁ (hfuel' true)
        split
        · next he =>
          have hsplit := hc.someSetting_of_mem ((hleft.head_eq_iff hc hrest).1 he)
          split
          · next hone =>
            refine walks_pure h₁ hmemo₁ (hlow.congr ?_)
            intro a
            rw [hsplit, ← hlow.eval a, hone, Manager.eval_one, Bool.true_or]
          · refine walks_ask_bind (hc.high_eq hle₁) (hhigh.bind fun high memo₂ m₂ h₂ hle₂ hmemo₂ hhigh => ?_)
            exact walks_lift h₂ hmemo₂ ((yields_disj h₂ (hlow.mono h₁.toOrdered hle₂) hhigh).imp
              fun r m' _ _ hr => hr.congr fun a => (hsplit a).symm)
        · next hne =>
          have hsplit := hc.someSetting_of_not_mem (mt (hleft.head_eq_iff hc hrest).2 hne)
          have hignores : ∀ b, ∀ w ≤ n.var, Ignores (someSetting all (m.eval · (childOf f n b))) w := by
            intro b w hw
            exact ignores_someSetting (hc.ignores_of_le hm hw b)
          refine walks_ask_bind (hc.high_eq hle₁) (hhigh.bind fun high memo₂ m₂ h₂ hle₂ hmemo₂ hhigh => ?_)
          exact walks_lift h₂ hmemo₂ ((yields_mkNode_of_ignores h₂ hc.inner.var_pos hc.inner.var_lt
            (hlow.mono h₁.toOrdered hle₂) hhigh (hignores false) (hignores true)).imp fun r m' _ _ hr =>
              hr.congr fun a => (hsplit a).symm)

/-- **Existential quantification** over the variables of a list. -/
theorem yields_existsOver (h : m.WellFormed) (hf : m.Denotes f F) (vars : List Nat) :
    Yields m (existsOver f vars) fun r m' => m'.Denotes r (someSetting vars F) := by
  have hleft : Left m f (sortedSet vars) (sortedSet vars) :=
    ⟨sortedSet_pairwise vars, fun _ hu => hu, fun _ hu hnot => absurd hu hnot⟩
  refine (walks_existsWithin h (recalls_empty m _) hf.holds hleft (Nat.lt_succ_self _)).run'.imp
    fun r m' _ _ hr => hr.congr fun a => ?_
  rw [Bool.eq_iff_iff, someSetting_eq_true, someSetting_eq_true]
  simp only [mem_sortedSet, hf.eval]

/-- **Universal quantification** over the variables of a list. -/
theorem yields_forallOver (h : m.WellFormed) (hf : m.Denotes f F) (vars : List Nat) :
    Yields m (forallOver f vars) fun r m' => m'.Denotes r (everySetting vars F) :=
  (yields_existsOver h hf.neg vars).bind fun _ _ hm' _ hr => yields_pure hm' hr.neg

end exists_

end ReversibleLogic.Bdd
