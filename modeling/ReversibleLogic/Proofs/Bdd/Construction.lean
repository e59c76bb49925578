import Mathlib.Data.List.Induction
import Mathlib.Data.List.Nodup
import ReversibleLogic.Proofs.Bdd.Semantics
import ReversibleLogic.Proofs.Computation

/-!
# Construction of nodes

* `Manager.Denotes m r F` — the manager holds `r`, and `r` has the function `F`;
* `Manager.WellFormed` — an ordered manager whose computed table only has right entries;
* `Yields m x Q` — the computation `x` succeeds from `m`, keeps the manager well-formed, adds nodes only, and its result
  satisfies `Q`;
* `yields_mkNode`, `yields_var`, `yields_literal`, `yields_cube`, `yields_cubeOfBits` — what the constructors yield.
-/

namespace ReversibleLogic.Bdd

namespace Manager

/-- the manager holds `r`, and its function is `F`. -/
structure Denotes (m : Manager) (r : Ref) (F : Assignment → Bool) : Prop where
  holds : m.Holds r
  eval : ∀ a, m.eval a r = F a

structure HoldsTriple (m : Manager) (t : Triple) : Prop where
  test : m.Holds t.test
  yes : m.Holds t.yes
  no : m.Holds t.no

def choice (m : Manager) (t : Triple) (a : Assignment) : Bool :=
  if m.eval a t.test then m.eval a t.yes else m.eval a t.no

/-- a computed result is the if-then-else of its arguments. -/
def Answers (m : Manager) (t : Triple) (r : Ref) : Prop := m.HoldsTriple t ∧ m.Denotes r (m.choice t)

/-- an ordered manager with right computed results. -/
structure WellFormed (m : Manager) : Prop extends Ordered m where
  computed : m.computed.All m.Answers

variable {m m' : Manager} {r s : Ref} {F G : Assignment → Bool} {v : Nat}

theorem Holds.denotes (h : m.Holds r) : m.Denotes r (m.eval · r) := ⟨h, fun _ => rfl⟩

theorem Denotes.mono (h : m.Denotes r F) (hm : m.Ordered) (hle : m ≤ m') : m'.Denotes r F :=
  ⟨h.holds.mono hle, fun a => (eval_mono hm hle h.holds a).trans (h.eval a)⟩

theorem Denotes.congr (h : m.Denotes r F) (hFG : ∀ a, F a = G a) : m.Denotes r G :=
  ⟨h.holds, fun a => (h.eval a).trans (hFG a)⟩

/-- **A function has at most one reference.** -/
theorem Denotes.unique (h : m.Denotes r F) (hm : m.Ordered) (h' : m.Denotes s F) : r = s :=
  eval_injective hm h.holds h'.holds fun a => (h.eval a).trans (h'.eval a).symm

theorem Denotes.neg (h : m.Denotes r F) : m.Denotes (-r) fun a => !F a :=
  ⟨h.holds.neg, fun a => by rw [eval_neg h.holds, h.eval]⟩

theorem Denotes.negateIf (h : m.Denotes r F) (b : Bool) : m.Denotes (r.negateIf b) fun a => b ^^ F a :=
  ⟨h.holds.negateIf b, fun a => by rw [eval_negateIf h.holds, h.eval]⟩

theorem Ordered.denotes_one (h : m.Ordered) : m.Denotes .one fun _ => true := ⟨h.holds_one, eval_one m⟩

theorem Ordered.denotes_zero (h : m.Ordered) : m.Denotes .zero fun _ => false := ⟨h.holds_zero, eval_zero m⟩

theorem Denotes.eq_one_iff (h : m.Denotes r F) (hm : m.Ordered) : r = .one ↔ ∀ a, F a = true := by
  constructor
  · rintro rfl a
    rw [← h.eval, eval_one]
  · intro hF
    exact h.unique hm (hm.denotes_one.congr fun a => (hF a).symm)

theorem Denotes.eq_zero_iff (h : m.Denotes r F) (hm : m.Ordered) : r = .zero ↔ ∀ a, F a = false := by
  constructor
  · rintro rfl a
    rw [← h.eval, eval_zero]
  · intro hF
    exact h.unique hm (hm.denotes_zero.congr fun a => (hF a).symm)

theorem Denotes.eval_eq (h : m.Denotes r F) : (m.eval · r) = F := funext h.eval

theorem Denotes.ignores_iff (h : m.Denotes r F) : Ignores F v ↔ Ignores (m.eval · r) v := by
  rw [h.eval_eq]

/-- a function that ignores the variables up to `v` has a reference below `v`. -/
theorem Denotes.lt_level (h : m.Denotes r F) (hm : m.Ordered) (hv : v < lastLevel)
    (hF : ∀ u ≤ v, Ignores F u) : v < m.level r :=
  lt_level_of_ignores hm h.holds hv fun u hu => h.ignores_iff.1 (hF u hu)

theorem HoldsTriple.mono {t : Triple} (h : m.HoldsTriple t) (hle : m ≤ m') : m'.HoldsTriple t :=
  ⟨h.test.mono hle, h.yes.mono hle, h.no.mono hle⟩

theorem choice_mono {t : Triple} (h : m.HoldsTriple t) (hm : m.Ordered) (hle : m ≤ m') (a : Assignment) :
    m'.choice t a = m.choice t a := by
  rw [choice, choice, eval_mono hm hle h.test, eval_mono hm hle h.yes, eval_mono hm hle h.no]

theorem Answers.mono {t : Triple} (h : m.Answers t r) (hm : m.Ordered) (hle : m ≤ m') : m'.Answers t r :=
  ⟨h.1.mono hle, (h.2.mono hm hle).congr fun a => (choice_mono h.1 hm hle a).symm⟩

/-- the same nodes with other right results. -/
theorem WellFormed.withComputed (h : m.WellFormed) {c : Storage.Cache Triple Ref} (hc : c.All m.Answers) :
    WellFormed ⟨m.nodes, c⟩ := by
  have hle : m ≤ ⟨m.nodes, c⟩ := fun _ _ hi => hi
  exact ⟨⟨h.lawful, h.terminal, fun i n hi hn => (h.inner i n hi hn).mono hle⟩,
    hc.imp fun t r ha => ha.mono h.toOrdered hle⟩

end Manager

/-! ### fixed variables -/

section fixed

variable {F : Assignment → Bool} {u v : Nat}

theorem ignores_const (b : Bool) (v : Nat) : Ignores (fun _ => b) v := fun _ _ => rfl

theorem ignores_update (F : Assignment → Bool) (v : Nat) (b : Bool) :
    Ignores (fun a => F (Function.update a v b)) v := by
  intro a c
  simp only [Function.update_idem]

theorem Ignores.update (hF : Ignores F u) (v : Nat) (b : Bool) : Ignores (fun a => F (Function.update a v b)) u := by
  intro a c
  by_cases huv : u = v
  · subst huv
    simp only [Function.update_idem]
  · simp only [Function.update_comm huv c b a]
    exact hF _ c

/-- a function is put together from its two cofactors. -/
theorem shannon (F : Assignment → Bool) (v : Nat) (a : Assignment) :
    (if a v then F (Function.update a v true) else F (Function.update a v false)) = F a := by
  cases hv : a v with
  | false =>
    rw [if_neg Bool.false_ne_true, ← hv, Function.update_eq_self]
  | true =>
    rw [if_pos rfl, ← hv, Function.update_eq_self]

end fixed

/-! ### computations -/

/-- from `m` the computation succeeds with a result and a manager that satisfy `Q`. -/
def Yields {α : Type} (m : Manager) (x : BddM α) (Q : α → Manager → Prop) : Prop :=
  ∃ a m', x m = .ok a m' ∧ m'.WellFormed ∧ m ≤ m' ∧ Q a m'

section yields

variable {α β : Type} {m m' : Manager} {x : BddM α} {f : α → BddM β} {Q : α → Manager → Prop}
  {R : β → Manager → Prop}

theorem yields_pure (h : m.WellFormed) {a : α} (hQ : Q a m) : Yields m (pure a) Q :=
  ⟨a, m, rfl, h, m.le_refl, hQ⟩

theorem Yields.bind (hx : Yields m x Q)
    (hf : ∀ a m', m'.WellFormed → m ≤ m' → Q a m' → Yields m' (f a) R) : Yields m (x >>= f) R := by
  obtain ⟨a, m', hok, hm', hle, hQ⟩ := hx
  obtain ⟨b, m'', hok', hm'', hle', hR⟩ := hf a m' hm' hle hQ
  exact ⟨b, m'', (bind_of_ok hok f).trans hok', hm'', Manager.le_trans hle hle', hR⟩

theorem Yields.imp {Q' : α → Manager → Prop} (hx : Yields m x Q)
    (h : ∀ a m', m'.WellFormed → m ≤ m' → Q a m' → Q' a m') : Yields m x Q' := by
  obtain ⟨a, m', hok, hm', hle, hQ⟩ := hx
  exact ⟨a, m', hok, hm', hle, h a m' hm' hle hQ⟩

theorem yields_bind_of_eq {a : α} (hx : x m = .ok a m) (hf : Yields m (f a) R) : Yields m (x >>= f) R := by
  obtain ⟨b, m', hok, hm', hle, hR⟩ := hf
  exact ⟨b, m', (bind_of_ok hx f).trans hok, hm', hle, hR⟩

theorem ask_eq {q : Manager → Except Error α} {a : α} (hq : q m = .ok a) : ask q m = .ok a m := by
  rw [ask, hq]

theorem yields_mapM (h : m.WellFormed) {P : α → β → Manager → Prop} {xs : List α}
    (hmono : ∀ x y m m', m.WellFormed → m ≤ m' → P x y m → P x y m')
    (hf : ∀ x ∈ xs, ∀ m', m'.WellFormed → m ≤ m' → Yields m' (f x) (P x)) :
    Yields m (xs.mapM f) fun ys m' => List.Forall₂ (fun x y => P x y m') xs ys := by
  induction xs generalizing m with
  | nil => exact yields_pure h .nil
  | cons x xs ih =>
    rw [List.mapM_cons]
    refine (hf x List.mem_cons_self m h m.le_refl).bind fun y m₁ h₁ hle₁ hy => ?_
    refine (ih h₁ fun x' hx' m' h' hle' => hf x' (List.mem_cons_of_mem _ hx') m' h' (Manager.le_trans hle₁ hle')).bind
      fun ys m₂ h₂ hle₂ hys => yields_pure h₂ (.cons (hmono _ _ _ _ h₁ hle₂ hy) hys)

/-- a loop with an invariant on the number of members done. -/
theorem yields_foldlM (h : m.WellFormed) {f : β → α → BddM β} {xs : List α} {b : β} {I : Nat → β → Manager → Prop}
    (hI : I 0 b m)
    (hf : ∀ (i : Nat) x, xs[i]? = some x → ∀ b m', m'.WellFormed → m ≤ m' → I i b m' →
      Yields m' (f b x) (I (i + 1))) :
    Yields m (xs.foldlM f b) (I xs.length) := by
  induction xs using List.reverseRecOn with
  | nil => exact yields_pure h hI
  | append_singleton xs x ih =>
    rw [List.foldlM_append, List.length_append, List.length_singleton]
    refine (ih fun i y hy => hf i y ?_).bind fun b m₁ h₁ hle₁ hb => ?_
    · rw [List.getElem?_append_left (List.getElem?_eq_some_iff.1 hy).1, hy]
    · simp only [List.foldlM_cons, List.foldlM_nil, bind_pure]
      exact hf xs.length x (by simp) b m₁ h₁ hle₁ hb

end yields

variable {m : Manager} {v : Nat} {low high r : Ref} {F L H : Assignment → Bool}

/-! ### nodes -/

theorem yields_store (h : m.WellFormed) {n : Node} (hpos : 0 < n.var) (hlt : n.var < lastLevel)
    (hl : m.Denotes n.low L) (hh : m.Denotes n.high H) (hlv : n.var < m.level n.low) (hhv : n.var < m.level n.high)
    (hreg : n.high.isNegated = false) (hne : n.low ≠ n.high) :
    Yields m (store n) fun r m' => m'.Denotes r fun a => if a n.var then H a else L a := by
  obtain ⟨hlawful, hget⟩ := Storage.Table.lawful_put h.lawful n
  let m' : Manager := ⟨(m.nodes.put n).2, m.computed⟩
  have hle : m ≤ m' := fun i k hk => Storage.Table.value?_put_of_some n hk
  have hinner : ∀ i k, i ≠ 1 → m'.nodes.value? i = some k → m'.Inner i k := by
    intro i k hi hk
    rcases Storage.Table.value?_put_eq_some hk with hold | ⟨rfl, rfl⟩
    · exact (h.inner i k hi hold).mono hle
    · obtain ⟨nl, hnl⟩ := hl.holds
      obtain ⟨nh, hnh⟩ := hh.holds
      refine ⟨hpos, hlt, hl.holds.mono hle, hh.holds.mono hle, ?_, ?_, ?_, ?_, hreg, hne⟩
      · exact Nat.lt_succ_of_le (Storage.Table.le_size_of_value? hnl)
      · exact Nat.lt_succ_of_le (Storage.Table.le_size_of_value? hnh)
      · rwa [Manager.level_mono hl.holds hle]
      · rwa [Manager.level_mono hh.holds hle]
  have hordered : m'.Ordered := ⟨hlawful, hle _ _ h.terminal, hinner⟩
  have hm' : m'.WellFormed := ⟨hordered, h.computed.imp fun t r ha => ha.mono h.toOrdered hle⟩
  -- the terminal has variable 0, so the node is another one
  have hi : (Ref.ofIndex (m.nodes.put n).1).index ≠ 1 := by
    intro e
    rw [Ref.index_ofIndex] at e
    have hterm : m'.nodes.value? 1 = some n := e ▸ hget
    rw [hordered.terminal] at hterm
    cases hterm
    exact Nat.lt_irrefl 0 hpos
  refine ⟨.ofIndex (m.nodes.put n).1, m', rfl, hm', hle, ⟨n, hget⟩, fun a => ?_⟩
  rw [Manager.eval_node hordered hi hget, Ref.isNegated_ofIndex, Bool.false_xor, (hl.mono h.toOrdered hle).eval,
    (hh.mono h.toOrdered hle).eval]

theorem yields_mkRegular (h : m.WellFormed) (hpos : 0 < v) (hlt : v < lastLevel) (hl : m.Denotes low L)
    (hh : m.Denotes high H) (hlv : v < m.level low) (hhv : v < m.level high) (hreg : high.isNegated = false) :
    Yields m (mkRegular v low high) fun r m' => m'.Denotes r fun a => if a v then H a else L a := by
  unfold mkRegular
  split
  · next he =>
    subst he
    refine yields_pure h (hl.congr ?_)
    intro a
    rw [← hl.eval, ← hh.eval, ite_self]
  · next hne => exact yields_store h (n := ⟨v, low, high⟩) hpos hlt hl hh hlv hhv hreg hne

/-- **A node** below which all variables are larger has the function that chooses by its variable. -/
theorem yields_mkNode (h : m.WellFormed) (hpos : 0 < v) (hlt : v < lastLevel) (hl : m.Denotes low L)
    (hh : m.Denotes high H) (hlv : v < m.level low) (hhv : v < m.level high) :
    Yields m (mkNode v low high) fun r m' => m'.Denotes r fun a => if a v then H a else L a := by
  unfold mkNode
  rw [if_neg (by omega)]
  split
  · next hneg =>
    have hreg : (-high).isNegated = false := by rw [Ref.isNegated_neg hh.holds.index_ne_zero, hneg]; rfl
    refine (yields_mkRegular h hpos hlt hl.neg hh.neg ?_ ?_ hreg).bind fun r m' hm' _ hr => yields_pure hm' ?_
    · rwa [Manager.level_neg]
    · rwa [Manager.level_neg]
    · refine hr.neg.congr ?_
      intro a
      cases a v <;> simp
  · next hneg => exact yields_mkRegular h hpos hlt hl hh hlv hhv (by simpa using hneg)

/-- the same with children whose functions ignore the variables up to `v`. -/
theorem yields_mkNode_of_ignores (h : m.WellFormed) (hpos : 0 < v) (hlt : v < lastLevel) (hl : m.Denotes low L)
    (hh : m.Denotes high H) (hL : ∀ u ≤ v, Ignores L u) (hH : ∀ u ≤ v, Ignores H u) :
    Yields m (mkNode v low high) fun r m' => m'.Denotes r fun a => if a v then H a else L a :=
  yields_mkNode h hpos hlt hl hh (hl.lt_level h.toOrdered hlt hL) (hh.lt_level h.toOrdered hlt hH)

theorem yields_var (h : m.WellFormed) (hpos : 0 < v) (hlt : v < lastLevel) :
    Yields m (var v) fun r m' => m'.Denotes r fun a => a v := by
  refine (yields_mkNode_of_ignores h hpos hlt h.denotes_zero h.denotes_one (fun u _ => ignores_const _ u)
    fun u _ => ignores_const _ u).imp fun r m' _ _ hr => hr.congr fun a => ?_
  cases a v <;> rfl

theorem yields_literal (h : m.WellFormed) (hpos : 0 < v) (hlt : v < lastLevel) (positive : Bool) :
    Yields m (literal v positive) fun r m' => m'.Denotes r fun a => a v == positive := by
  refine (yields_var h hpos hlt).bind fun r m' hm' _ hr => yields_pure hm' ((hr.negateIf _).congr ?_)
  intro a
  cases positive <;> cases a v <;> rfl

/-! ### conjunctions of literals -/

def literalHolds (a : Assignment) (l : Int) : Bool := a l.natAbs == decide (0 < l)

theorem insertLiteral_perm (l : Int) (ks : List Int) : (insertLiteral l ks).Perm (l :: ks) := by
  induction ks with
  | nil => exact List.Perm.refl _
  | cons k ks ih =>
    rw [insertLiteral]
    split
    · exact List.Perm.refl _
    · exact (ih.cons k).trans (List.Perm.swap l k ks)

theorem sortLiterals_perm (ls : List Int) : (sortLiterals ls).Perm ls := by
  induction ls with
  | nil => exact List.Perm.refl _
  | cons l ls ih => exact (insertLiteral_perm l _).trans (ih.cons l)

theorem insertLiteral_pairwise {l : Int} {ks : List Int} (h : ks.Pairwise (fun k l => l.natAbs ≤ k.natAbs)) :
    (insertLiteral l ks).Pairwise (fun k l => l.natAbs ≤ k.natAbs) := by
  induction ks with
  | nil => simp [insertLiteral]
  | cons k ks ih =>
    obtain ⟨hk, hks⟩ := List.pairwise_cons.1 h
    rw [insertLiteral]
    split
    · next hle =>
      refine List.pairwise_cons.2 ⟨fun j hj => ?_, h⟩
      rcases List.mem_cons.1 hj with rfl | hj
      · exact hle
      · exact (hk j hj).trans hle
    · next hle =>
      refine List.pairwise_cons.2 ⟨fun j hj => ?_, ih hks⟩
      rcases List.mem_cons.1 ((insertLiteral_perm l ks).mem_iff.1 hj) with rfl | hj
      · omega
      · exact hk j hj

theorem sortLiterals_sorted (ls : List Int) : (sortLiterals ls).Pairwise (fun k l => l.natAbs ≤ k.natAbs) := by
  induction ls with
  | nil => exact List.Pairwise.nil
  | cons l ls ih => exact insertLiteral_pairwise ih

theorem sortLiterals_pairwise {ls : List Int} (h : (ls.map Int.natAbs).Nodup) :
    (sortLiterals ls).Pairwise (fun k l => l.natAbs < k.natAbs) := by
  have hne : (sortLiterals ls).Pairwise (fun k l => k.natAbs ≠ l.natAbs) :=
    List.pairwise_map.1 ((((sortLiterals_perm ls).map Int.natAbs).nodup_iff).2 h)
  exact ((sortLiterals_sorted ls).and hne).imp fun ⟨h, h'⟩ => Nat.lt_of_le_of_ne h (Ne.symm h')

theorem yields_conjoinLiteral (h : m.WellFormed) {l : Int} (hpos : l ≠ 0) (hlt : l.natAbs < lastLevel)
    (hr : m.Denotes r F) (hF : ∀ u ≤ l.natAbs, Ignores F u) :
    Yields m (conjoinLiteral r l) fun s m' => m'.Denotes s fun a => literalHolds a l && F a := by
  have habs : 0 < l.natAbs := by omega
  unfold conjoinLiteral literalHolds
  rw [if_neg hpos]
  split
  · next hneg =>
    have hd : decide (0 < l) = false := decide_eq_false (by omega)
    refine (yields_mkNode_of_ignores h habs hlt hr h.denotes_zero hF fun u _ => ignores_const _ u).imp
      fun s m' _ _ hs => hs.congr fun a => ?_
    rw [hd]
    cases a l.natAbs <;> rfl
  · next hnonneg =>
    have hd : decide (0 < l) = true := decide_eq_true (by omega)
    refine (yields_mkNode_of_ignores h habs hlt h.denotes_zero hr (fun u _ => ignores_const _ u) hF).imp
      fun s m' _ _ hs => hs.congr fun a => ?_
    rw [hd]
    cases a l.natAbs <;> rfl

/-- literals on top of a conjunction of larger ones. -/
theorem yields_conjoinLiterals (h : m.WellFormed) {ls : List Int} (hls : ∀ l ∈ ls, l ≠ 0 ∧ l.natAbs < lastLevel)
    (hsorted : ls.Pairwise (fun k l => l.natAbs < k.natAbs)) (hr : m.Denotes r F)
    (hF : ∀ l ∈ ls, ∀ u ≤ l.natAbs, Ignores F u) :
    Yields m (ls.foldlM conjoinLiteral r) fun s m' => m'.Denotes s fun a => ls.all (literalHolds a) && F a := by
  induction ls generalizing m r F with
  | nil => exact yields_pure h (hr.congr fun a => rfl)
  | cons l ls ih =>
    obtain ⟨hl, hsorted⟩ := List.pairwise_cons.1 hsorted
    obtain ⟨hpos, hlt⟩ := hls l List.mem_cons_self
    rw [List.foldlM_cons]
    refine (yields_conjoinLiteral h hpos hlt hr (hF l List.mem_cons_self)).bind fun s m' hm' _ hs => ?_
    refine (ih hm' (fun k hk => hls k (List.mem_cons_of_mem _ hk)) hsorted hs fun k hk u hu => ?_).imp
      fun s' m'' _ _ hs' => hs'.congr fun a => ?_
    · intro a b
      have hne : l.natAbs ≠ u := by have := hl k hk; omega
      simp only [literalHolds, Function.update_of_ne hne, hF k (List.mem_cons_of_mem _ hk) u hu a b]
    · rw [List.all_cons, Bool.and_comm (literalHolds a l), Bool.and_left_comm, Bool.and_assoc, Bool.and_comm (F a),
        ← Bool.and_assoc, Bool.and_comm (ls.all _)]

/-- **A cube** of literals of different variables is their conjunction. -/
theorem yields_cube (h : m.WellFormed) {ls : List Int} (hls : ∀ l ∈ ls, l ≠ 0 ∧ l.natAbs < lastLevel)
    (hnodup : (ls.map Int.natAbs).Nodup) :
    Yields m (cube ls) fun r m' => m'.Denotes r fun a => ls.all (literalHolds a) := by
  have hperm := sortLiterals_perm ls
  refine (yields_conjoinLiterals h (fun l hl => hls l (hperm.mem_iff.1 hl)) (sortLiterals_pairwise hnodup) h.denotes_one
    fun l _ u _ => ignores_const _ u).imp fun r m' _ _ hr => hr.congr fun a => ?_
  rw [Bool.and_true, hperm.all_eq]

def literalOf (p : Nat × Bool) : Int := if p.2 then p.1 else -p.1

theorem natAbs_literalOf (p : Nat × Bool) : (literalOf p).natAbs = p.1 := by
  unfold literalOf
  split
  · exact Int.natAbs_natCast _
  · rw [Int.natAbs_neg, Int.natAbs_natCast]

theorem literalWord_eq {p : Nat × Bool} (hv : p.1 < 2 ^ 31) : literalWord p.1 p.2 = .ok (literalOf p) := by
  have hmod : Int.bmod p.1 (2 ^ 32) = p.1 := by rw [Int.bmod_eq_of_le] <;> omega
  rw [literalWord, literalOf, hmod]
  split
  · rfl
  · rw [if_neg (by omega)]

theorem literalHolds_literalOf {p : Nat × Bool} (hpos : 0 < p.1) (a : Assignment) :
    literalHolds a (literalOf p) = decide (a p.1 = p.2) := by
  have hsign : decide (0 < literalOf p) = p.2 := by
    unfold literalOf
    split
    · next hb => rw [hb]; exact decide_eq_true (by omega)
    · next hb => rw [Bool.not_eq_true] at hb; rw [hb]; exact decide_eq_false (by omega)
  rw [literalHolds, natAbs_literalOf, hsign]
  exact beq_eq_decide _ _

theorem all_literalHolds {vars : List Nat} {bits : List Bool} (hlen : vars.length = bits.length)
    (hpos : ∀ v ∈ vars, 0 < v) (a : Assignment) :
    ((vars.zip bits).map literalOf).all (literalHolds a) = decide (vars.map a = bits) := by
  induction vars generalizing bits with
  | nil => obtain rfl := List.length_eq_zero_iff.1 hlen.symm; rfl
  | cons v vars ih =>
    cases bits with
    | nil => cases hlen
    | cons b bits =>
      obtain ⟨hv, hpos⟩ := List.forall_mem_cons.1 hpos
      rw [List.zip_cons_cons, List.map_cons, List.all_cons, List.map_cons, ih (Nat.succ.inj hlen) hpos,
        literalHolds_literalOf hv]
      simp

/-- **A cube of bits** asks for the values of its variables. -/
theorem yields_cubeOfBits (h : m.WellFormed) {vars : List Nat} {bits : List Bool} (hlen : vars.length = bits.length)
    (hvars : ∀ v ∈ vars, 0 < v ∧ v < 2 ^ 31) (hnodup : vars.Nodup) :
    Yields m (cubeOfBits vars bits) fun r m' => m'.Denotes r fun a => decide (vars.map a = bits) := by
  have hmem : ∀ p ∈ vars.zip bits, 0 < p.1 ∧ p.1 < 2 ^ 31 := fun p hp => hvars _ (List.of_mem_zip hp).1
  have hwords : (vars.zip bits).mapM (fun p => literalWord p.1 p.2) = .ok ((vars.zip bits).map literalOf) :=
    mapM_eq_ok fun p hp => literalWord_eq (hmem p hp).2
  have hvars' : ((vars.zip bits).map literalOf).map Int.natAbs = vars := by
    rw [List.map_map]
    calc (vars.zip bits).map (Int.natAbs ∘ literalOf)
        = (vars.zip bits).map Prod.fst := List.map_congr_left fun p _ => natAbs_literalOf p
      _ = vars := List.map_fst_zip (Nat.le_of_eq hlen)
  unfold cubeOfBits
  rw [if_neg (not_not.2 hlen)]
  refine yields_bind_of_eq (ask_eq hwords) ((yields_cube h (fun l hl => ?_) (by rwa [hvars'])).imp
    fun r m' _ _ hr => hr.congr (all_literalHolds hlen fun v hv => (hvars v hv).1))
  obtain ⟨p, hp, rfl⟩ := List.mem_map.1 hl
  obtain ⟨hpos, hlt⟩ := hmem p hp
  have habs := natAbs_literalOf p
  have hterminal : 2 ^ 31 < lastLevel := by decide
  exact ⟨by omega, by omega⟩

end ReversibleLogic.Bdd
