import Mathlib.Order.Nat
import Mathlib.Tactic.Common
import ReversibleLogic.Bdd.Manager
import ReversibleLogic.Proofs.Storage

/-!
# Functions of references

* `Manager.eval m a r` — the value of `r` under the assignment `a`;
* `Manager.Ordered` — the nodes of a manager are different, children come before their parents and have larger
  variables, and no node has equal children or a complemented high child;
* `Manager.Founded` — children come before their parents: enough for values to be defined node by node;
* `eval_mono` — a manager that holds more nodes gives the old references the same values;
* `Ignores F v` — the function `F` does not depend on `v`; a reference depends on its variable (`not_ignores_level`) and
  on nothing above it (`ignores_of_lt_level`);
* `eval_injective` — references with the same function are equal.
-/

namespace ReversibleLogic.Bdd

/-- a value for every variable. -/
abbrev Assignment := Nat → Bool

/-- the level of the terminal among the variables: below all of them, the largest one included. -/
def lastLevel : Nat := maxVariable + 1

/-! ### signs -/

namespace Ref

variable {r s : Ref}

theorem isNegated_neg (h : r.index ≠ 0) : (-r).isNegated = !r.isNegated := by
  have hv : r.value ≠ 0 := fun e => h (Int.natAbs_eq_zero.2 e)
  show decide (-r.value < 0) = !decide (r.value < 0)
  by_cases hn : r.value < 0
  · rw [decide_eq_true hn, decide_eq_false (by omega)]
    rfl
  · rw [decide_eq_false hn, decide_eq_true (by omega)]
    rfl

theorem isNegated_negateIf (h : r.index ≠ 0) (b : Bool) : (r.negateIf b).isNegated = (b ^^ r.isNegated) := by
  cases b with
  | false => simp [negateIf]
  | true => simp [negateIf, isNegated_neg h]

theorem ext_index (h : r.index = s.index) (hn : r.isNegated = s.isNegated) : r = s := by
  have hn' : r.value < 0 ↔ s.value < 0 := decide_eq_decide.1 hn
  have h' : r.value.natAbs = s.value.natAbs := h
  have hv : r.value = s.value := by omega
  cases r
  cases s
  exact congrArg Ref.mk hv

theorem negateIf_ne {b : Bool} (h : r.index ≠ 0) (hr : r.isNegated = false) (hs : s.isNegated = false) {c : Bool}
    (hs' : s.index ≠ 0) (he : r.negateIf b = s.negateIf c) : b = c ∧ r = s := by
  have hsign := congrArg isNegated he
  rw [isNegated_negateIf h, isNegated_negateIf hs', hr, hs, Bool.xor_false, Bool.xor_false] at hsign
  have hindex := congrArg index he
  rw [index_negateIf, index_negateIf] at hindex
  exact ⟨hsign, ext_index hindex (hr.trans hs.symm)⟩

theorem negateIf_injective (b : Bool) : Function.Injective (negateIf · b) := by
  intro r s h
  cases b with
  | false => exact h
  | true => rw [← neg_neg r, ← neg_neg s]; exact congrArg (- ·) h

@[simp] theorem index_one : one.index = 1 := rfl

@[simp] theorem index_zero : zero.index = 1 := rfl

@[simp] theorem index_ofIndex (i : Nat) : (ofIndex i).index = i := rfl

@[simp] theorem isNegated_ofIndex (i : Nat) : (ofIndex i).isNegated = false :=
  decide_eq_false (by show ¬ (i : Int) < 0; omega)

theorem isTerminal_iff : r.isTerminal = true ↔ r.index = 1 := by simp [isTerminal]

theorem eq_one_or_eq_zero (h : r.index = 1) : r = one ∨ r = zero := by
  cases hn : r.isNegated with
  | false => exact Or.inl (ext_index h hn)
  | true => exact Or.inr (ext_index h hn)

end Ref

namespace Manager

/-! ### values -/

/-- the value of a reference, over at most `fuel` nodes. -/
def valueWithin (m : Manager) (a : Assignment) : Nat → Ref → Bool
  | 0, _ => false
  | fuel + 1, r =>
    r.isNegated ^^
      if r.index = 1 then true
      else
        match m.nodes.value? r.index with
        | some n => m.valueWithin a fuel (if a n.var then n.high else n.low)
        | none => false

def eval (m : Manager) (a : Assignment) (r : Ref) : Bool := m.valueWithin a (r.index + 1) r

/-- the manager has a node for the reference. -/
def Holds (m : Manager) (r : Ref) : Prop := ∃ n, m.nodes.value? r.index = some n

/-- the variable of a reference, and for the terminal the last level. -/
def level (m : Manager) (r : Ref) : Nat :=
  if r.index = 1 then lastLevel
  else
    match m.nodes.value? r.index with
    | some n => n.var
    | none => 0

/-- `m'` has all nodes of `m`. -/
instance : LE Manager := ⟨fun m m' => ∀ i n, m.nodes.value? i = some n → m'.nodes.value? i = some n⟩

theorem le_refl (m : Manager) : m ≤ m := fun _ _ h => h

theorem le_trans {m₁ m₂ m₃ : Manager} (h : m₁ ≤ m₂) (h' : m₂ ≤ m₃) : m₁ ≤ m₃ := fun i n hi => h' i n (h i n hi)

/-- what is required of an inner node. -/
structure Inner (m : Manager) (i : Nat) (n : Node) : Prop where
  var_pos : 0 < n.var
  var_lt : n.var < lastLevel
  low_holds : m.Holds n.low
  high_holds : m.Holds n.high
  low_index : n.low.index < i
  high_index : n.high.index < i
  low_level : n.var < m.level n.low
  high_level : n.var < m.level n.high
  high_regular : n.high.isNegated = false
  low_ne_high : n.low ≠ n.high

/-- the nodes of a manager are different, ordered and reduced. -/
structure Ordered (m : Manager) : Prop where
  lawful : m.nodes.Lawful
  terminal : m.nodes.value? 1 = some ⟨0, ⟨0⟩, ⟨0⟩⟩
  inner : ∀ i n, i ≠ 1 → m.nodes.value? i = some n → m.Inner i n

/-- the nodes of a manager are different, and children come before their parents; their variables are arbitrary. -/
structure Founded (m : Manager) : Prop where
  lawful : m.nodes.Lawful
  terminal : m.nodes.value? 1 = some ⟨0, ⟨0⟩, ⟨0⟩⟩
  child : ∀ i n, i ≠ 1 → m.nodes.value? i = some n → ∀ b : Bool,
    m.Holds (if b then n.high else n.low) ∧ (if b then n.high else n.low).index < i

variable {m m' : Manager} {a b : Assignment} {r s : Ref} {n : Node} {v : Nat}

theorem Holds.mono (h : m.Holds r) (hle : m ≤ m') : m'.Holds r := by
  obtain ⟨n, hn⟩ := h
  exact ⟨n, hle _ _ hn⟩

theorem Holds.index_ne_zero (h : m.Holds r) : r.index ≠ 0 := by
  obtain ⟨n, hn⟩ := h
  obtain ⟨k, hk, -⟩ := Storage.Table.value?_eq_some.1 hn
  omega

theorem Holds.neg (h : m.Holds r) : m.Holds (-r) := by
  unfold Holds
  rwa [Ref.index_neg]

theorem Holds.negateIf (h : m.Holds r) (b : Bool) : m.Holds (r.negateIf b) := by
  unfold Holds
  rwa [Ref.index_negateIf]

theorem Ordered.holds_one (h : m.Ordered) : m.Holds .one := ⟨_, h.terminal⟩

theorem Ordered.holds_zero (h : m.Ordered) : m.Holds .zero := ⟨_, h.terminal⟩

theorem level_mono (h : m.Holds r) (hle : m ≤ m') : m'.level r = m.level r := by
  obtain ⟨n, hn⟩ := h
  unfold level
  rw [hn, hle _ _ hn]

theorem Inner.mono {i : Nat} (h : m.Inner i n) (hle : m ≤ m') : m'.Inner i n := by
  refine ⟨h.var_pos, h.var_lt, h.low_holds.mono hle, h.high_holds.mono hle, h.low_index, h.high_index, ?_, ?_,
    h.high_regular, h.low_ne_high⟩
  · rw [level_mono h.low_holds hle]
    exact h.low_level
  · rw [level_mono h.high_holds hle]
    exact h.high_level

theorem level_of_terminal (h : r.index = 1) : m.level r = lastLevel := by rw [level, if_pos h]

theorem level_of_node (h : r.index ≠ 1) (hn : m.nodes.value? r.index = some n) : m.level r = n.var := by
  rw [level, if_neg h, hn]

theorem level_neg (m : Manager) (r : Ref) : m.level (-r) = m.level r := by
  unfold level
  rw [Ref.index_neg]

theorem level_negateIf (m : Manager) (r : Ref) (b : Bool) : m.level (r.negateIf b) = m.level r := by
  unfold level
  rw [Ref.index_negateIf]

theorem Ordered.exists_inner (h : m.Ordered) (hr : m.Holds r) (hi : r.index ≠ 1) :
    ∃ n, m.nodes.value? r.index = some n ∧ m.Inner r.index n ∧ m.level r = n.var := by
  obtain ⟨n, hn⟩ := hr
  exact ⟨n, hn, h.inner _ n hi hn, level_of_node hi hn⟩

theorem Inner.holds_child {i : Nat} (h : m.Inner i n) (b : Bool) : m.Holds (if b then n.high else n.low) := by
  cases b
  · exact h.low_holds
  · exact h.high_holds

theorem Inner.child_index {i : Nat} (h : m.Inner i n) (b : Bool) : (if b then n.high else n.low).index < i := by
  cases b
  · exact h.low_index
  · exact h.high_index

theorem Ordered.founded (h : m.Ordered) : m.Founded := by
  refine ⟨h.lawful, h.terminal, fun i n hi hn b => ?_⟩
  have hin := h.inner i n hi hn
  exact ⟨hin.holds_child b, hin.child_index b⟩

theorem Founded.holds_zero (h : m.Founded) : m.Holds .zero := ⟨_, h.terminal⟩

theorem valueWithin_mono (h : m.Founded) (hle : m ≤ m') {fuel fuel' : Nat} (hr : m.Holds r) (hf : r.index < fuel)
    (hf' : r.index < fuel') : m'.valueWithin a fuel' r = m.valueWithin a fuel r := by
  induction fuel generalizing r fuel' with
  | zero => omega
  | succ fuel ih =>
    obtain ⟨fuel', rfl⟩ : ∃ k, fuel' = k + 1 := ⟨fuel' - 1, by omega⟩
    rw [valueWithin, valueWithin]
    by_cases hi : r.index = 1
    · rw [if_pos hi, if_pos hi]
    · rw [if_neg hi, if_neg hi]
      obtain ⟨n, hn⟩ := hr
      obtain ⟨hchild, hlt⟩ := h.child _ n hi hn (a n.var)
      rw [hn, hle _ _ hn]
      exact congrArg (r.isNegated ^^ ·) (ih hchild (by omega) (by omega))

theorem Founded.eval_mono (h : m.Founded) (hle : m ≤ m') (hr : m.Holds r) (a : Assignment) :
    m'.eval a r = m.eval a r :=
  valueWithin_mono h hle hr (Nat.lt_succ_self _) (Nat.lt_succ_self _)

/-- **Old references keep their values.** -/
theorem eval_mono (h : m.Ordered) (hle : m ≤ m') (hr : m.Holds r) (a : Assignment) : m'.eval a r = m.eval a r :=
  h.founded.eval_mono hle hr a

theorem eval_terminal (hi : r.index = 1) : m.eval a r = !r.isNegated := by
  rw [eval, valueWithin, if_pos hi, Bool.xor_true]

@[simp] theorem eval_one (m : Manager) (a : Assignment) : m.eval a .one = true := eval_terminal rfl

@[simp] theorem eval_zero (m : Manager) (a : Assignment) : m.eval a .zero = false := eval_terminal rfl

theorem Founded.eval_node (h : m.Founded) (hi : r.index ≠ 1) (hn : m.nodes.value? r.index = some n) (a : Assignment) :
    m.eval a r = (r.isNegated ^^ if a n.var then m.eval a n.high else m.eval a n.low) := by
  obtain ⟨hholds, hlt⟩ := h.child _ n hi hn (a n.var)
  have hchild : m.valueWithin a r.index (if a n.var then n.high else n.low) =
      m.eval a (if a n.var then n.high else n.low) :=
    valueWithin_mono h (le_refl m) hholds (Nat.lt_succ_self _) hlt
  rw [eval, valueWithin, if_neg hi, hn]
  refine congrArg (r.isNegated ^^ ·) (hchild.trans ?_)
  cases a n.var <;> rfl

/-- **A node chooses by its variable.** -/
theorem eval_node (h : m.Ordered) (hi : r.index ≠ 1) (hn : m.nodes.value? r.index = some n) (a : Assignment) :
    m.eval a r = (r.isNegated ^^ if a n.var then m.eval a n.high else m.eval a n.low) :=
  h.founded.eval_node hi hn a

theorem eval_neg (hr : m.Holds r) (a : Assignment) : m.eval a (-r) = !m.eval a r := by
  rw [eval, eval, valueWithin, valueWithin, Ref.index_neg, Ref.isNegated_neg hr.index_ne_zero]
  cases r.isNegated <;> simp

theorem eval_negateIf (hr : m.Holds r) (a : Assignment) (b : Bool) : m.eval a (r.negateIf b) = (b ^^ m.eval a r) := by
  cases b with
  | false => simp [Ref.negateIf]
  | true => simp [Ref.negateIf, eval_neg hr]

theorem eval_regular (hr : m.Holds r) (a : Assignment) : m.eval a r.regular = (r.isNegated ^^ m.eval a r) := by
  rw [← Ref.negateIf_isNegated, eval_negateIf hr]

/-! ### independence -/

end Manager

/-- the value of `F` does not depend on `v`. -/
def Ignores (F : Assignment → Bool) (v : Nat) : Prop := ∀ a b, F (Function.update a v b) = F a

namespace Manager

variable {m : Manager} {a b : Assignment} {r s : Ref} {n : Node} {v : Nat}

theorem ignores_regular (hr : m.Holds r) (h : Ignores (m.eval · r) v) : Ignores (m.eval · r.regular) v := by
  intro a b
  have hsame : m.eval (Function.update a v b) r = m.eval a r := h a b
  simp only [eval_regular hr, hsame]

/-- values depend on the variables from the level on. -/
theorem eval_congr_level (h : m.Ordered) (hr : m.Holds r) (hab : ∀ v, m.level r ≤ v → a v = b v) :
    m.eval a r = m.eval b r := by
  induction hk : r.index using Nat.strongRecOn generalizing r with
  | _ k ih =>
    subst hk
    by_cases hi : r.index = 1
    · rw [eval_terminal hi, eval_terminal hi]
    · obtain ⟨n, hn, hin, hlevel⟩ := h.exists_inner hr hi
      rw [hlevel] at hab
      have hlow := ih _ hin.low_index hin.low_holds
        (fun v hv => hab v ((Nat.le_of_lt hin.low_level).trans hv)) rfl
      have hhigh := ih _ hin.high_index hin.high_holds
        (fun v hv => hab v ((Nat.le_of_lt hin.high_level).trans hv)) rfl
      rw [eval_node h hi hn, eval_node h hi hn, hab n.var (Nat.le_refl _), hlow, hhigh]

theorem ignores_of_lt_level (h : m.Ordered) (hr : m.Holds r) (hv : v < m.level r) : Ignores (m.eval · r) v := by
  intro a b
  refine eval_congr_level h hr ?_
  intro u hu
  rw [Function.update_of_ne]
  omega

/-- a reference with its variable fixed is a child. -/
theorem eval_update (h : m.Ordered) (hi : r.index ≠ 1) (hn : m.nodes.value? r.index = some n) (a : Assignment)
    (c : Bool) : m.eval (Function.update a n.var c) r = (r.isNegated ^^ m.eval a (if c then n.high else n.low)) := by
  have hin := h.inner _ n hi hn
  rw [eval_node h hi hn, Function.update_self]
  cases c with
  | false =>
    rw [if_neg Bool.false_ne_true, if_neg Bool.false_ne_true]
    exact congrArg _ (ignores_of_lt_level h hin.low_holds hin.low_level a false)
  | true =>
    rw [if_pos rfl, if_pos rfl]
    exact congrArg _ (ignores_of_lt_level h hin.high_holds hin.high_level a true)

/-- where the variable of a node is ignored, its children have the same function. -/
theorem eval_children_eq (h : m.Ordered) (hi : r.index ≠ 1) (hn : m.nodes.value? r.index = some n)
    (hignores : Ignores (m.eval · r) n.var) (a : Assignment) : m.eval a n.low = m.eval a n.high := by
  have hlow := eval_update h hi hn a false
  have hhigh := eval_update h hi hn a true
  have hl := hignores a false
  have hh := hignores a true
  simp only at hl hh
  rw [hl] at hlow
  rw [hh] at hhigh
  have := hlow.symm.trans hhigh
  simpa using this

/-! ### canonicity -/

/-- a reference with a smaller variable than another one has a function of its own, given that references below it
have. -/
theorem level_le_of_eval (h : m.Ordered) (hr : m.Holds r) (hs : m.Holds s) (heq : ∀ a, m.eval a r = m.eval a s)
    (hi : r.index ≠ 1) (hbelow : ∀ f g : Ref, f.index < r.index → g.index < r.index → m.Holds f → m.Holds g →
      (∀ a, m.eval a f = m.eval a g) → f = g) : m.level s ≤ m.level r := by
  by_contra hlt
  obtain ⟨n, hn, hin, hl⟩ := h.exists_inner hr hi
  rw [hl] at hlt
  have hignores : Ignores (m.eval · r) n.var := by
    intro a b
    have := ignores_of_lt_level h hs (Nat.not_le.1 hlt) a b
    simpa only [heq] using this
  exact hin.low_ne_high (hbelow _ _ hin.low_index hin.high_index hin.low_holds hin.high_holds
    (eval_children_eq h hi hn hignores))

/-- nodes of the same variable whose references have the same function are equal, given that references below them with
the same function are. -/
theorem eq_of_children (h : m.Ordered) {n k : Node} (hir : r.index ≠ 1) (hn : m.nodes.value? r.index = some n)
    (hin : m.Inner r.index n) (his : s.index ≠ 1) (hk : m.nodes.value? s.index = some k) (hik : m.Inner s.index k)
    (heq : ∀ a, m.eval a r = m.eval a s) (hvar : n.var = k.var)
    (hbelow : ∀ f g : Ref, f.index < max r.index s.index → g.index < max r.index s.index → m.Holds f → m.Holds g →
      (∀ a, m.eval a f = m.eval a g) → f = g) : n = k ∧ r.isNegated = s.isNegated := by
  -- both children agree, with the signs of their parents
  have hchild : ∀ c : Bool, (if c then n.high else n.low).negateIf r.isNegated =
      (if c then k.high else k.low).negateIf s.isNegated := by
    intro c
    refine hbelow _ _ ?_ ?_ ((hin.holds_child c).negateIf _) ((hik.holds_child c).negateIf _) fun a => ?_
    · rw [Ref.index_negateIf]
      exact (hin.child_index c).trans_le (Nat.le_max_left _ _)
    · rw [Ref.index_negateIf]
      exact (hik.child_index c).trans_le (Nat.le_max_right _ _)
    · rw [eval_negateIf (hin.holds_child c), eval_negateIf (hik.holds_child c), ← eval_update h hir hn,
        ← eval_update h his hk, hvar, heq]
  obtain ⟨hsign, hhigh⟩ := Ref.negateIf_ne hin.high_holds.index_ne_zero hin.high_regular hik.high_regular
    hik.high_holds.index_ne_zero (hchild true)
  have hlow : n.low = k.low := by
    have := hchild false
    rw [hsign] at this
    exact Ref.negateIf_injective _ this
  refine ⟨?_, hsign⟩
  cases n
  cases k
  rw [Node.mk.injEq]
  exact ⟨hvar, hlow, hhigh⟩


/-- **Canonicity.** References with the same function are equal. -/
theorem eval_injective (h : m.Ordered) (hr : m.Holds r) (hs : m.Holds s) (heq : ∀ a, m.eval a r = m.eval a s) :
    r = s := by
  -- the induction is on a bound for both indices; the children of `r` and `s` stay below it
  induction hk : max r.index s.index using Nat.strongRecOn generalizing r s with
  | _ k ih =>
    subst hk
    have hbelow : ∀ f g : Ref, f.index < max r.index s.index → g.index < max r.index s.index → m.Holds f →
        m.Holds g → (∀ a, m.eval a f = m.eval a g) → f = g := fun f g hf hg hf' hg' he =>
      ih _ (by omega) hf' hg' he rfl
    have heq' : ∀ a, m.eval a s = m.eval a r := fun a => (heq a).symm
    by_cases hir : r.index = 1 <;> by_cases his : s.index = 1
    · -- two constants
      have := heq fun _ => false
      rw [eval_terminal hir, eval_terminal his] at this
      exact Ref.ext_index (hir.trans his.symm) (by simpa using this)
    · have hle := level_le_of_eval h hs hr heq' his fun f g hf hg => hbelow f g (by omega) (by omega)
      obtain ⟨n, -, hin, hl⟩ := h.exists_inner hs his
      have := hin.var_lt
      rw [level_of_terminal hir] at hle
      omega
    · have hle := level_le_of_eval h hr hs heq hir fun f g hf hg => hbelow f g (by omega) (by omega)
      obtain ⟨n, -, hin, hl⟩ := h.exists_inner hr hir
      have := hin.var_lt
      rw [level_of_terminal his] at hle
      omega
    · have hle := level_le_of_eval h hs hr heq' his fun f g hf hg => hbelow f g (by omega) (by omega)
      have hge := level_le_of_eval h hr hs heq hir fun f g hf hg => hbelow f g (by omega) (by omega)
      obtain ⟨n, hn, hin, hl⟩ := h.exists_inner hr hir
      obtain ⟨k, hk, hik, hl'⟩ := h.exists_inner hs his
      have hvar : n.var = k.var := by omega
      obtain ⟨rfl, hsign⟩ := eq_of_children h hir hn hin his hk hik heq hvar hbelow
      exact Ref.ext_index (h.lawful.distinct _ _ _ hn hk) hsign

theorem not_ignores_level (h : m.Ordered) (hr : m.Holds r) (hi : r.index ≠ 1) : ¬ Ignores (m.eval · r) (m.level r) := by
  intro hignores
  obtain ⟨n, hn, hin, hl⟩ := h.exists_inner hr hi
  rw [hl] at hignores
  exact hin.low_ne_high (eval_injective h hin.low_holds hin.high_holds (eval_children_eq h hi hn hignores))

/-- a reference that ignores the variables up to `v` has a larger level. -/
theorem lt_level_of_ignores (h : m.Ordered) (hr : m.Holds r) (hv : v < lastLevel)
    (hignores : ∀ u ≤ v, Ignores (m.eval · r) u) : v < m.level r := by
  by_cases hi : r.index = 1
  · rw [level_of_terminal hi]
    exact hv
  · by_contra hle
    exact not_ignores_level h hr hi (hignores _ (by omega))

theorem ignores_child (h : m.Ordered) (hi : r.index ≠ 1) (hn : m.nodes.value? r.index = some n)
    (hv : Ignores (m.eval · r) v) (c : Bool) : Ignores (m.eval · (if c then n.high else n.low)) v := by
  have hin := h.inner _ n hi hn
  by_cases hne : v = n.var
  · subst hne
    cases c
    · exact ignores_of_lt_level h hin.low_holds hin.low_level
    · exact ignores_of_lt_level h hin.high_holds hin.high_level
  · intro a b
    have hb := eval_update h hi hn (Function.update a v b) c
    have ha := eval_update h hi hn a c
    rw [Function.update_comm hne] at hb
    have := hv (Function.update a n.var c) b
    simp only at this
    rw [hb, ha] at this
    simpa using this

theorem eval_congr_of_ignores (h : m.Ordered) (hr : m.Holds r) {S : Nat → Prop}
    (hS : ∀ v, ¬ S v → Ignores (m.eval · r) v) (hab : ∀ v, S v → a v = b v) : m.eval a r = m.eval b r := by
  induction hk : r.index using Nat.strongRecOn generalizing r with
  | _ k ih =>
    subst hk
    by_cases hi : r.index = 1
    · rw [eval_terminal hi, eval_terminal hi]
    · obtain ⟨n, hn, hin, hl⟩ := h.exists_inner hr hi
      have hvar : S n.var := by
        by_contra hnot
        exact not_ignores_level h hr hi (hl ▸ hS _ hnot)
      have hlow := ih _ hin.low_index hin.low_holds (fun v hv => ignores_child h hi hn (hS v hv) false) rfl
      have hhigh := ih _ hin.high_index hin.high_holds (fun v hv => ignores_child h hi hn (hS v hv) true) rfl
      rw [eval_node h hi hn, eval_node h hi hn, hab _ hvar, hlow, hhigh]

end Manager

end ReversibleLogic.Bdd
