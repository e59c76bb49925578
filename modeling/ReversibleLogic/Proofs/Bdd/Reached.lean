import ReversibleLogic.Proofs.Bdd.Walks

/-!
# Reachable managers

* `Op`, `Op.run` — the operations of a manager; the connectives are cases of `ite`;
* `Op.Allowed` — use that respects the order of the variables: a new node goes above its children, a cube has different
  variables, and all references are references of the manager;
* `Op.meaning`, `yields_op` — an allowed operation succeeds, and its result has the meant function;
* `Reached`, `wellFormed_of_reached` — what a run of allowed operations makes of a new manager is well-formed;
* `canonical_of_reached` — its nodes are reduced, ordered and different, so equal functions have equal references;
* `Computes m x F` — the operation `x` ends with a reference to `F`, and all that was known before it still holds;
  `computes_connectives` for if-then-else and all that is built on it;
* `SameResult m x y` — both operations end with the same reference, in either order and whatever is done in between;
  operations that compute the same function do (`sameResult_of_computes`).
-/

namespace ReversibleLogic.Bdd

inductive Op where
  | var (v : Nat)
  | literal (v : Nat) (positive : Bool)
  | node (v : Nat) (low high : Ref)
  | cube (ls : List Int)
  | ite (f g h : Ref)
  | restrict (f : Ref) (values : Binding Bool)
  | compose (f : Ref) (map : Binding Ref)
  | existsOver (f : Ref) (vars : List Nat)
  | forallOver (f : Ref) (vars : List Nat)

namespace Op

def run : Op → BddM Ref
  | var v => Bdd.var v
  | literal v positive => Bdd.literal v positive
  | node v low high => mkNode v low high
  | cube ls => Bdd.cube ls
  | ite f g h => Bdd.ite f g h
  | restrict f values => Bdd.restrict f values
  | compose f map => Bdd.compose f map
  | existsOver f vars => Bdd.existsOver f vars
  | forallOver f vars => Bdd.forallOver f vars

/-- a number that a variable can have. -/
def IsVariable (v : Nat) : Prop := 0 < v ∧ v < terminalLevel

theorem IsVariable.lt_lastLevel {v : Nat} (h : IsVariable v) : v < lastLevel := Nat.lt_succ_of_lt h.2

/-- use of an operation that respects the order of the variables. -/
def Allowed (m : Manager) : Op → Prop
  | var v => IsVariable v
  | literal v _ => IsVariable v
  | node v low high => IsVariable v ∧ (m.Holds low ∧ v < m.level low) ∧ m.Holds high ∧ v < m.level high
  | cube ls => (∀ l ∈ ls, IsVariable l.natAbs) ∧ (ls.map Int.natAbs).Nodup
  | ite f g h => m.Holds f ∧ m.Holds g ∧ m.Holds h
  | restrict f _ => m.Holds f
  | compose f map => m.Holds f ∧ HoldsAll m map
  | existsOver f _ => m.Holds f
  | forallOver f _ => m.Holds f

def meaning (m : Manager) : Op → Assignment → Bool
  | var v => fun a => a v
  | literal v positive => fun a => a v == positive
  | node v low high => fun a => if a v then m.eval a high else m.eval a low
  | cube ls => fun a => ls.all (literalHolds a)
  | ite f g h => fun a => if m.eval a f then m.eval a g else m.eval a h
  | restrict f values => fun a => m.eval (override values a) f
  | compose f map => fun a => m.eval (substituted m map a) f
  | existsOver f vars => someSetting vars (m.eval · f)
  | forallOver f vars => fun a => !someSetting vars (fun a => !m.eval a f) a

end Op

variable {m : Manager}

/-- **Operations.** An allowed operation succeeds from every well-formed manager, and its result has the meant
function. -/
theorem yields_op (h : m.WellFormed) {op : Op} (hop : op.Allowed m) :
    Yields m op.run fun r m' => m'.Denotes r (op.meaning m) := by
  cases op with
  | var v => exact yields_var h hop.1 (Op.IsVariable.lt_lastLevel hop)
  | literal v positive => exact yields_literal h hop.1 (Op.IsVariable.lt_lastLevel hop) positive
  | node v low high =>
    obtain ⟨hv, ⟨hlow, hlv⟩, hhigh, hhv⟩ := hop
    exact yields_mkNode h hv.1 hv.lt_lastLevel hlow.denotes hhigh.denotes hlv hhv
  | cube ls =>
    refine yields_cube h (fun l hl => ⟨?_, (hop.1 l hl).lt_lastLevel⟩) hop.2
    rintro rfl
    exact Nat.lt_irrefl 0 (hop.1 _ hl).1
  | ite f g e =>
    obtain ⟨hf, hg, he⟩ := hop
    exact yields_ite h hf.denotes hg.denotes he.denotes
  | restrict f values => exact yields_restrict h (Manager.Holds.denotes hop) values
  | compose f map => exact yields_compose h hop.1.denotes hop.2
  | existsOver f vars => exact yields_existsOver h (Manager.Holds.denotes hop) vars
  | forallOver f vars => exact yields_forallOver h (Manager.Holds.denotes hop) vars

/-- the managers that allowed operations lead to. -/
inductive Reached : Manager → Prop
  | empty {bits : Nat} {m : Manager} (h : Manager.empty bits = .ok m) : Reached m
  | run {m m' : Manager} {op : Op} {r : Ref} (h : Reached m) (hop : op.Allowed m) (hrun : op.run m = .ok r m') :
    Reached m'

theorem exists_of_empty {bits : Nat} (h : Manager.empty bits = .ok m) :
    ∃ nodes computed, Storage.Table.empty bits = .ok nodes ∧ Storage.Cache.empty (min (max bits 10) 20) = .ok computed ∧
      m = ⟨(nodes.put ⟨0, ⟨0⟩, ⟨0⟩⟩).2, computed⟩ := by
  unfold Manager.empty at h
  cases hn : (Storage.Table.empty bits : Except Error (Storage.Table Node)) with
  | error e => rw [hn] at h; cases h
  | ok nodes =>
    rw [hn, ok_bind] at h
    cases hc : (Storage.Cache.empty (min (max bits 10) 20) : Except Error (Storage.Cache Triple Ref)) with
    | error e => rw [hc] at h; cases h
    | ok computed =>
      rw [hc] at h
      cases h
      exact ⟨nodes, computed, rfl, rfl, rfl⟩

/-- a new manager has no node but the terminal. -/
theorem eq_one_of_empty {bits i : Nat} {k : Node} (h : Manager.empty bits = .ok m) (hk : m.nodes.value? i = some k) :
    i = 1 := by
  obtain ⟨nodes, computed, hn, -, rfl⟩ := exists_of_empty h
  have hsize := Storage.Table.size_empty hn
  rcases Storage.Table.value?_put_eq_some hk with hold | ⟨he, -⟩
  · have hle := Storage.Table.le_size_of_value? hold
    obtain ⟨j, rfl, -⟩ := Storage.Table.value?_eq_some.1 hold
    omega
  · rw [he, hsize]

theorem wellFormed_empty {bits : Nat} (h : Manager.empty bits = .ok m) : m.WellFormed := by
  have honly : ∀ i k, m.nodes.value? i = some k → i = 1 := fun _ _ => eq_one_of_empty h
  obtain ⟨nodes, computed, hn, hc, rfl⟩ := exists_of_empty h
  obtain ⟨hlawful, hget⟩ := Storage.Table.lawful_put (Storage.Table.lawful_empty hn) (⟨0, ⟨0⟩, ⟨0⟩⟩ : Node)
  rw [honly _ _ hget] at hget
  exact ⟨⟨hlawful, hget, fun i k hi hk => absurd (honly i k hk) hi⟩, Storage.Cache.all_empty hc⟩

/-- **Reachable managers are well-formed.** -/
theorem wellFormed_of_reached (h : Reached m) : m.WellFormed := by
  induction h with
  | empty h => exact wellFormed_empty h
  | run _ hop hrun ih =>
    obtain ⟨r, m', hok, hm', -⟩ := yields_op ih hop
    rw [hrun] at hok
    cases hok
    exact hm'

theorem Reached.ordered (h : Reached m) : m.Ordered := (wellFormed_of_reached h).toOrdered

theorem Reached.exists_run (h : Reached m) {op : Op} (hop : op.Allowed m) :
    ∃ r m', Reached m' ∧ m ≤ m' ∧ m'.Denotes r (op.meaning m) := by
  obtain ⟨r, m', hok, -, hle, hr⟩ := yields_op (wellFormed_of_reached h) hop
  exact ⟨r, m', h.run hop hok, hle, hr⟩

/-- a reachable manager that holds the difference of its first two variables. -/
theorem exists_reached_difference : ∃ m r, Reached m ∧ m.Denotes r fun a => a 1 != a 2 := by
  obtain ⟨m₀, hm₀⟩ : ∃ m₀, Manager.empty 4 = .ok m₀ := ⟨_, rfl⟩
  have hop₁ : Op.Allowed m₀ (.var 1) := ⟨by decide, by decide⟩
  obtain ⟨x, m₁, hm₁, -, hx⟩ := (Reached.empty hm₀).exists_run hop₁
  have hop₂ : Op.Allowed m₁ (.var 2) := ⟨by decide, by decide⟩
  obtain ⟨y, m₂, hm₂, hle₂, hy⟩ := hm₁.exists_run hop₂
  have hx₂ := hx.mono hm₁.ordered hle₂
  have hop₃ : Op.Allowed m₂ (.ite x (-y) y) := ⟨hx₂.holds, hy.neg.holds, hy.holds⟩
  obtain ⟨r, m, hm, -, hr⟩ := hm₂.exists_run hop₃
  refine ⟨m, r, hm, hr.congr fun a => ?_⟩
  simp only [Op.meaning, hx₂.eval, hy.neg.eval, hy.eval]
  cases a 1 <;> cases a 2 <;> rfl

/-! ### stored nodes -/

/-- **Canonicity.** In a reachable manager every inner node is reduced and lies above its children, which are older, and
no node is stored twice. So references are equal exactly if they have the same function, and the negative reference has
the complement. -/
theorem canonical_of_reached (h : Reached m) :
    (∀ i n, i ≠ 1 → m.nodes.value? i = some n → n.high.isNegated = false ∧ n.low ≠ n.high ∧
      ∀ c, c = n.low ∨ c = n.high →
        c.index < i ∧ ∃ k, m.nodes.value? c.index = some k ∧ (c.index = 1 ∨ n.var < k.var)) ∧
      (∀ i j n, m.nodes.value? i = some n → m.nodes.value? j = some n → i = j) ∧
      (∀ f g, m.Holds f → m.Holds g → (f = g ↔ ∀ a, m.eval a f = m.eval a g)) ∧
      ∀ f, m.Holds f → m.Holds (-f) ∧ ∀ a, m.eval a (-f) = !m.eval a f := by
  have hm := (wellFormed_of_reached h).toOrdered
  -- the level of a child is its variable, unless it is the terminal
  have hchild : ∀ {v c}, m.Holds c → v < m.level c →
      ∃ k, m.nodes.value? c.index = some k ∧ (c.index = 1 ∨ v < k.var) := by
    intro v c hc hlevel
    obtain ⟨k, hk⟩ := hc
    refine ⟨k, hk, or_iff_not_imp_left.2 fun hi => ?_⟩
    rwa [Manager.level_of_node hi hk] at hlevel
  refine ⟨fun i n hi hn => ?_, hm.lawful.distinct, fun f g hf hg => ?_, fun f hf => ⟨hf.neg, Manager.eval_neg hf⟩⟩
  · have hin := hm.inner i n hi hn
    refine ⟨hin.high_regular, hin.low_ne_high, ?_⟩
    rintro c (rfl | rfl)
    · exact ⟨hin.low_index, hchild hin.low_holds hin.low_level⟩
    · exact ⟨hin.high_index, hchild hin.high_holds hin.high_level⟩
  · constructor
    · rintro rfl a
      rfl
    · exact Manager.eval_injective hm hf hg

theorem canonical_of_reached_difference :
    ∃ m r, Reached m ∧ m.Denotes r (fun a => a 1 != a 2) ∧
      ∀ f, m.Holds f → (f = -r ↔ ∀ a, m.eval a f = (a 1 == a 2)) := by
  obtain ⟨m, r, hm, hr⟩ := exists_reached_difference
  obtain ⟨-, -, hequal, hneg⟩ := canonical_of_reached hm
  refine ⟨m, r, hm, hr, fun f hf => (hequal f (-r) hf hr.neg.holds).trans (forall_congr' fun a => ?_)⟩
  rw [(hneg r hr.holds).2, hr.eval, bne, Bool.not_not]

/-! ### if-then-else and the connectives -/

/-- what an operation leaves behind: a reachable manager, in which the old references have their functions and every
computed result is the if-then-else of its arguments. -/
structure After (m m' : Manager) : Prop where
  reached : Reached m'
  keeps : ∀ e, m.Holds e → m'.Denotes e (m.eval · e)
  computed : m'.computed.All m'.Answers

/-- the operation ends without an error, with a reference to `F`. -/
def Computes (m : Manager) (x : BddM Ref) (F : Assignment → Bool) : Prop :=
  ∃ r m', x m = .ok r m' ∧ After m m' ∧ m'.Denotes r F

section connectives

variable {m' m'' : Manager} {f g e : Ref} {F G : Assignment → Bool} {x : BddM Ref}

theorem After.refl (h : Reached m) : After m m :=
  ⟨h, fun _ he => he.denotes, (wellFormed_of_reached h).computed⟩

theorem After.trans (h : After m m') (h' : After m' m'') : After m m'' := by
  refine ⟨h'.reached, fun e he => ?_, h'.computed⟩
  have hkept := h.keeps e he
  exact (h'.keeps e hkept.holds).congr hkept.eval

theorem Computes.congr (h : Computes m x F) (hFG : ∀ a, F a = G a) : Computes m x G := by
  obtain ⟨r, m', hok, hafter, hr⟩ := h
  exact ⟨r, m', hok, hafter, hr.congr hFG⟩

theorem computes_pure (h : Reached m) (hf : m.Denotes f F) : Computes m (pure f) F := ⟨f, m, rfl, .refl h, hf⟩

theorem Computes.bind {k : Ref → BddM Ref} (hx : Computes m x F)
    (hk : ∀ r m', After m m' → m'.Denotes r F → Computes m' (k r) G) : Computes m (x >>= k) G := by
  obtain ⟨r, m', hok, hafter, hr⟩ := hx
  obtain ⟨s, m'', hok', hafter', hs⟩ := hk r m' hafter hr
  exact ⟨s, m'', (bind_of_ok hok k).trans hok', hafter.trans hafter', hs⟩

theorem computes_op (h : Reached m) (op : Op) (hop : op.Allowed m) : Computes m op.run (op.meaning m) := by
  have hm := wellFormed_of_reached h
  obtain ⟨r, m', hok, hm', hle, hr⟩ := yields_op hm hop
  exact ⟨r, m', hok, ⟨h.run hop hok, fun e he => he.denotes.mono hm.toOrdered hle, hm'.computed⟩, hr⟩

theorem computes_ite (h : Reached m) (hf : m.Holds f) (hg : m.Holds g) (he : m.Holds e) :
    Computes m (ite f g e) fun a => if m.eval a f then m.eval a g else m.eval a e :=
  computes_op h (.ite f g e) ⟨hf, hg, he⟩

theorem computes_conj (h : Reached m) (hf : m.Holds f) (hg : m.Holds g) :
    Computes m (conj f g) fun a => m.eval a f && m.eval a g := by
  refine (computes_ite h hf hg (wellFormed_of_reached h).holds_zero).congr ?_
  intro a
  rw [Manager.eval_zero]
  cases m.eval a f <;> rfl

theorem computes_disj (h : Reached m) (hf : m.Holds f) (hg : m.Holds g) :
    Computes m (disj f g) fun a => m.eval a f || m.eval a g := by
  refine (computes_ite h hf (wellFormed_of_reached h).holds_one hg).congr ?_
  intro a
  rw [Manager.eval_one]
  cases m.eval a f <;> rfl

/-- a connective of many references, one after the other, may end where the next ones change nothing. -/
theorem computes_fold {go : Ref → List (BddM Ref) → BddM Ref} {step : Ref → Ref → BddM Ref} (stop : Ref)
    (op : Bool → Bool → Bool) (hnil : ∀ f, go f [] = pure f)
    (hcons : ∀ f x xs, go f (x :: xs) = x >>= fun g => step f g >>= fun r => if r = stop then pure r else go r xs)
    (hstep : ∀ {m f g}, Reached m → m.Holds f → m.Holds g → Computes m (step f g) fun a => op (m.eval a f) (m.eval a g))
    (hstop : ∀ m a b, op (Manager.eval m a stop) b = m.eval a stop) (h : Reached m) (hf : m.Holds f) {fs : List Ref}
    (hfs : ∀ x ∈ fs, m.Holds x) :
    Computes m (go f (fs.map pure)) fun a => (fs.map (m.eval a)).foldl op (m.eval a f) := by
  induction fs generalizing m f with
  | nil => exact hnil f ▸ computes_pure h hf.denotes
  | cons g fs ih =>
    obtain ⟨hg, hrest⟩ := List.forall_mem_cons.1 hfs
    rw [List.map_cons, hcons, pure_bind]
    refine (hstep h hf hg).bind fun r m' hafter hr => ?_
    split
    · next he =>
      have hkeep : ∀ a (bs : List Bool), bs.foldl op (m'.eval a stop) = m'.eval a stop := by
        intro a bs
        induction bs with
        | nil => rfl
        | cons b bs ih => rw [List.foldl_cons, hstop, ih]
      refine computes_pure hafter.reached ⟨hr.holds, fun a => ?_⟩
      rw [List.map_cons, List.foldl_cons, ← hr.eval, he, hkeep]
    · have hkept := fun x hx => hafter.keeps x (hrest x hx)
      refine (ih hafter.reached hr.holds fun x hx => (hkept x hx).holds).congr ?_
      intro a
      rw [hr.eval, List.map_congr_left fun x hx => (hkept x hx).eval a, List.map_cons, List.foldl_cons]

theorem foldl_and (bs : List Bool) (b : Bool) : bs.foldl (· && ·) b = (b && bs.all id) := by
  induction bs generalizing b with
  | nil => simp
  | cons c bs ih => rw [List.foldl_cons, ih, List.all_cons, id, Bool.and_assoc]

theorem foldl_or (bs : List Bool) (b : Bool) : bs.foldl (· || ·) b = (b || bs.any id) := by
  induction bs generalizing b with
  | nil => simp
  | cons c bs ih => rw [List.foldl_cons, ih, List.any_cons, id, Bool.or_assoc]

theorem computes_conjAll (h : Reached m) {fs : List Ref} (hfs : ∀ x ∈ fs, m.Holds x) :
    Computes m (conjAll (fs.map pure)) fun a => fs.all (m.eval a) := by
  refine (computes_fold .zero (· && ·) (fun _ => rfl) (fun _ _ _ => rfl) computes_conj
    (fun m a b => by rw [Manager.eval_zero]; rfl) h (wellFormed_of_reached h).holds_one hfs).congr fun a => ?_
  rw [foldl_and, Manager.eval_one, Bool.true_and, List.all_map]
  rfl

theorem computes_disjAll (h : Reached m) {fs : List Ref} (hfs : ∀ x ∈ fs, m.Holds x) :
    Computes m (disjAll (fs.map pure)) fun a => fs.any (m.eval a) := by
  refine (computes_fold .one (· || ·) (fun _ => rfl) (fun _ _ _ => rfl) computes_disj
    (fun m a b => by rw [Manager.eval_one]; rfl) h (wellFormed_of_reached h).holds_zero hfs).congr fun a => ?_
  rw [foldl_or, Manager.eval_zero, Bool.false_or, List.any_map]
  rfl

/-- **If-then-else and the connectives.** In a reachable manager, whatever its computed table holds, each of them ends
without an error and computes its function. -/
theorem computes_connectives (h : Reached m) (hf : m.Holds f) (hg : m.Holds g) (he : m.Holds e) {fs : List Ref}
    (hfs : ∀ x ∈ fs, m.Holds x) :
    Computes m (ite f g e) (fun a => if m.eval a f then m.eval a g else m.eval a e) ∧
      Computes m (conj f g) (fun a => m.eval a f && m.eval a g) ∧
      Computes m (disj f g) (fun a => m.eval a f || m.eval a g) ∧
      Computes m (xor f g) (fun a => m.eval a f ^^ m.eval a g) ∧
      Computes m (iff f g) (fun a => m.eval a f == m.eval a g) ∧
      Computes m (imply f g) (fun a => !m.eval a f || m.eval a g) ∧
      Computes m (conjAll (fs.map pure)) (fun a => fs.all (m.eval a)) ∧
      Computes m (disjAll (fs.map pure)) fun a => fs.any (m.eval a) := by
  have hm := (wellFormed_of_reached h).toOrdered
  refine ⟨computes_ite h hf hg he, computes_conj h hf hg, computes_disj h hf hg, ?_, ?_, ?_, computes_conjAll h hfs,
    computes_disjAll h hfs⟩
  · refine (computes_ite h hf hg.neg hg).congr fun a => ?_
    rw [Manager.eval_neg hg]
    cases m.eval a f <;> simp
  · refine (computes_ite h hf hg hg.neg).congr fun a => ?_
    rw [Manager.eval_neg hg]
    cases m.eval a f <;> cases m.eval a g <;> rfl
  · refine (computes_ite h hf hg hm.holds_one).congr fun a => ?_
    rw [Manager.eval_one]
    cases m.eval a f <;> rfl

theorem computes_connectives_difference :
    ∃ m f, Reached m ∧ m.Denotes f (fun a => a 1 != a 2) ∧
      Computes m (ite f (-f) .one) (fun a => if m.eval a f then m.eval a (-f) else m.eval a .one) ∧
      Computes m (disjAll [pure .zero, pure f, pure (-f)]) fun a => [.zero, f, -f].any (m.eval a) := by
  obtain ⟨m, f, hm, hf⟩ := exists_reached_difference
  have hord := (wellFormed_of_reached hm).toOrdered
  have hfs : ∀ x ∈ [.zero, f, -f], m.Holds x := by
    simp only [List.mem_cons, List.not_mem_nil, or_false]
    rintro x (rfl | rfl | rfl)
    · exact hord.holds_zero
    · exact hf.holds
    · exact hf.neg.holds
  obtain ⟨hite, -, -, -, -, -, -, hany⟩ := computes_connectives hm hf.holds hf.neg.holds hord.holds_one hfs
  exact ⟨m, f, hm, hf, hite, hany⟩

end connectives

/-! ### operations with the same result -/

def Ends {α : Type} (m : Manager) (x : BddM α) (Q : α → Manager → Prop) : Prop :=
  ∃ a m', x m = .ok a m' ∧ After m m' ∧ Q a m'

/-- `x`, and then `y` in any later manager, end with the same reference. -/
def Repeats (m : Manager) (x y : BddM Ref) : Prop :=
  Ends m x fun r m₁ => ∀ m₂, After m₁ m₂ → Ends m₂ y fun s _ => s = r

/-- both operations end with the same reference, in either order. -/
def SameResult (m : Manager) (x y : BddM Ref) : Prop := Repeats m x y ∧ Repeats m y x

section results

variable {m' : Manager} {f : Ref} {F : Assignment → Bool} {x y : BddM Ref}

theorem After.denotes (h : After m m') (hf : m.Denotes f F) : m'.Denotes f F :=
  (h.keeps f hf.holds).congr hf.eval

theorem Computes.ends {Q : Ref → Manager → Prop} (hx : Computes m x F)
    (hQ : ∀ r m', After m m' → m'.Denotes r F → Q r m') : Ends m x Q := by
  obtain ⟨r, m', hok, hafter, hr⟩ := hx
  exact ⟨r, m', hok, hafter, hQ r m' hafter hr⟩

theorem repeats_of_computes (hx : Computes m x F) (hy : ∀ m', After m m' → Computes m' y F) : Repeats m x y := by
  refine hx.ends fun r m₁ hafter hr m₂ hafter₂ => (hy m₂ (hafter.trans hafter₂)).ends fun s m₃ hafter₃ hs => ?_
  have hr₃ := (hafter₂.trans hafter₃).denotes hr
  exact hs.unique hafter₃.reached.ordered hr₃

/-- **Operations that compute the same function**, now and later, end with the same reference. -/
theorem sameResult_of_computes (h : Reached m) (hx : ∀ m', After m m' → Computes m' x F)
    (hy : ∀ m', After m m' → Computes m' y F) : SameResult m x y :=
  ⟨repeats_of_computes (hx m (.refl h)) hy, repeats_of_computes (hy m (.refl h)) hx⟩

end results

end ReversibleLogic.Bdd
