import ReversibleLogic.Proofs.Bdd.Reached

/-!
# Cubes and conjunctions of literals

A cube stacks one node for each literal, the smallest variable on top, without asking for the nodes it has stacked.

* `conjoinEach` — the same literals conjoined one after the other; `computes_conjoinEach` holds for all literals;
* `AddsNode m x F` — the operation `x` ends with a node that `m` does not hold, whose function is `F`; no order of the
  variables is asked for;
* `addsNode_conjoinLiterals` — a literal on top of a node that no node of its variable has as a child is a new node, and
  so are all literals on top of it;
* `exists_repeated` — where a descending list repeats a variable for the first time;
* `addsNode_cube` — a cube in which a variable occurs twice: the function of the conjunction, in a node of its own;
* `cube_spec` — a cube is the reference of the conjunction exactly if no variable occurs twice.
-/

namespace ReversibleLogic.Bdd

variable {m m' : Manager} {r low high : Ref} {F G : Assignment → Bool} {k l : Int} {ks ls : List Int} {v : Nat}

/-! ### one literal after the other -/

def conjoinEach (ls : List Int) : BddM Ref :=
  ls.foldlM (fun r l => do conj r (← literal l.natAbs (decide (0 < l)))) .one

theorem computes_conjoinEach_from (h : Reached m) (hls : ∀ l ∈ ls, Op.IsVariable l.natAbs) (hr : m.Denotes r F) :
    Computes m (ls.foldlM (fun r l => do conj r (← literal l.natAbs (decide (0 < l)))) r) fun a =>
      F a && ls.all (literalHolds a) := by
  induction ls generalizing m r F with
  | nil => exact computes_pure h (hr.congr fun _ => (Bool.and_true _).symm)
  | cons l ls ih =>
    obtain ⟨hl, hls⟩ := List.forall_mem_cons.1 hls
    rw [List.foldlM_cons]
    have hstep : Computes m (do conj r (← literal l.natAbs (decide (0 < l)))) fun a => F a && literalHolds a l := by
      refine (computes_op h (.literal l.natAbs (decide (0 < l))) hl).bind fun s m' hafter hs => ?_
      have hr' := hafter.denotes hr
      refine (computes_conj hafter.reached hr'.holds hs.holds).congr fun a => ?_
      rw [hr'.eval, hs.eval]
      rfl
    refine hstep.bind fun s m' hafter hs => (ih hafter.reached hls hs).congr fun a => ?_
    rw [List.all_cons, Bool.and_assoc]

/-- **Literals conjoined one after the other** give their conjunction, also where variables are repeated. -/
theorem computes_conjoinEach (h : Reached m) (hls : ∀ l ∈ ls, Op.IsVariable l.natAbs) :
    Computes m (conjoinEach ls) fun a => ls.all (literalHolds a) :=
  (computes_conjoinEach_from h hls h.ordered.denotes_one).congr fun _ => Bool.true_and _

/-! ### new nodes -/

/-- the operation ends with a node that the manager does not hold, and the function of the result is `F`. -/
def AddsNode (m : Manager) (x : BddM Ref) (F : Assignment → Bool) : Prop :=
  ∃ r m', x m = .ok r m' ∧ m'.Founded ∧ m ≤ m' ∧ m.size < m'.size ∧ r.index = m'.size ∧ ∀ a, m'.eval a r = F a

theorem Manager.Holds.index_le_size (h : m.Holds r) : r.index ≤ m.size := by
  obtain ⟨n, hn⟩ := h
  exact Storage.Table.le_size_of_value? hn

theorem Manager.Founded.size_pos (h : m.Founded) : 0 < m.size := h.holds_zero.index_le_size

theorem Manager.Founded.holds_size (h : m.Founded) (hr : r.index = m.size) : m.Holds r := by
  have hpos : 0 < m.nodes.size := h.size_pos
  obtain ⟨n, hn⟩ : ∃ n, m.nodes.values[m.nodes.size - 1]? = some n :=
    ⟨_, Array.getElem?_eq_getElem (Nat.sub_lt hpos Nat.one_pos)⟩
  exact ⟨n, Storage.Table.value?_eq_some.2 ⟨_, hr.trans (Nat.sub_add_cancel hpos).symm, hn⟩⟩

theorem Manager.Founded.size_mono (h : m.Founded) (hle : m ≤ m') : m.size ≤ m'.size :=
  ((h.holds_size (r := .ofIndex m.size) rfl).mono hle).index_le_size

theorem AddsNode.congr {x : BddM Ref} (h : AddsNode m x F) (hFG : ∀ a, F a = G a) : AddsNode m x G := by
  obtain ⟨r, m', hok, hm', hle, hsize, hr, heval⟩ := h
  exact ⟨r, m', hok, hm', hle, hsize, hr, fun a => (heval a).trans (hFG a)⟩

theorem AddsNode.bind {x : BddM Ref} {f : Ref → BddM Ref} (hx : AddsNode m x F)
    (hf : ∀ r m', m'.Founded → m.size < m'.size → r.index = m'.size → (∀ a, m'.eval a r = F a) →
      AddsNode m' (f r) G) : AddsNode m (x >>= f) G := by
  obtain ⟨r, m₁, hok, hm₁, hle, hsize, hr, heval⟩ := hx
  obtain ⟨s, m₂, hok', hm₂, hle', hsize', hs, heval'⟩ := hf r m₁ hm₁ hsize hr heval
  exact ⟨s, m₂, (bind_of_ok hok f).trans hok', hm₂, Manager.le_trans hle hle', hsize.trans hsize', hs, heval'⟩

/-- a node that is not stored is added behind the others. -/
theorem addsNode_store (h : m.Founded) {n : Node} (hl : m.Holds n.low) (hh : m.Holds n.high)
    (hnew : ∀ i, m.nodes.value? i ≠ some n) :
    AddsNode m (store n) fun a => if a n.var then m.eval a n.high else m.eval a n.low := by
  let m' : Manager := ⟨m.nodes.add n, m.computed⟩
  have hstore : store n m = .ok (.ofIndex (m.size + 1)) m' := by
    have hput := Storage.Table.put_of_ne h.lawful hnew
    cases m
    rw [store, hput]
    rfl
  have hle : m ≤ m' := fun i k hk => Storage.Table.value?_add_of_some n hk
  have hsize : m'.size = m.size + 1 := Storage.Table.size_add m.nodes n
  have hm' : m'.Founded := by
    refine ⟨Storage.Table.lawful_add h.lawful hnew, hle _ _ h.terminal, fun i k hi hk b => ?_⟩
    rcases Storage.Table.value?_add_eq_some hk with hold | ⟨rfl, rfl⟩
    · obtain ⟨hholds, hlt⟩ := h.child i k hi hold b
      exact ⟨hholds.mono hle, hlt⟩
    · cases b with
      | false => exact ⟨hl.mono hle, Nat.lt_succ_of_le hl.index_le_size⟩
      | true => exact ⟨hh.mono hle, Nat.lt_succ_of_le hh.index_le_size⟩
  have hpos := h.size_pos
  refine ⟨_, m', hstore, hm', hle, by omega, hsize.symm, fun a => ?_⟩
  have hi : (Ref.ofIndex (m.size + 1)).index ≠ 1 := by
    rw [Ref.index_ofIndex]
    omega
  rw [hm'.eval_node hi (Storage.Table.value?_add m.nodes n), Ref.isNegated_ofIndex, Bool.false_xor,
    h.eval_mono hle hh, h.eval_mono hle hl]

/-- a node of the variable with these children is not stored, whatever the signs of the children. -/
def Missing (m : Manager) (v : Nat) (low high : Ref) : Prop :=
  ∀ i n, m.nodes.value? i = some n → n.var = v → n.low.index = low.index → n.high.index ≠ high.index

theorem addsNode_mkRegular (h : m.Founded) (hl : m.Holds low) (hh : m.Holds high) (hne : low ≠ high)
    (hnew : Missing m v low high) :
    AddsNode m (mkRegular v low high) fun a => if a v then m.eval a high else m.eval a low := by
  rw [mkRegular, if_neg hne]
  exact addsNode_store h (n := ⟨v, low, high⟩) hl hh fun i hi => hnew i _ hi rfl rfl rfl

theorem addsNode_mkNode (h : m.Founded) (hv : v ≠ 0) (hl : m.Holds low) (hh : m.Holds high) (hne : low ≠ high)
    (hnew : Missing m v low high) :
    AddsNode m (mkNode v low high) fun a => if a v then m.eval a high else m.eval a low := by
  unfold mkNode
  rw [if_neg hv]
  split
  · have hne' : -low ≠ -high := fun he => hne (Ref.negateIf_injective true he)
    have hnew' : Missing m v (-low) (-high) := by
      intro i n hn hvar
      rw [Ref.index_neg, Ref.index_neg]
      exact hnew i n hn hvar
    obtain ⟨r, m', hok, hm', hle, hsize, hr, heval⟩ := addsNode_mkRegular h hl.neg hh.neg hne' hnew'
    refine ⟨-r, m', bind_of_ok hok _, hm', hle, hsize, by rw [Ref.index_neg, hr], fun a => ?_⟩
    simp only [Manager.eval_neg (hm'.holds_size hr), heval, Manager.eval_neg hh, Manager.eval_neg hl]
    cases a v <;> simp
  · exact addsNode_mkRegular h hl hh hne hnew

/-! ### literals on top of a node -/

/-- no node of the variable has `r` as a child. -/
def Parentless (m : Manager) (v : Nat) (r : Ref) : Prop :=
  ∀ i n, m.nodes.value? i = some n → n.var = v → n.low.index ≠ r.index ∧ n.high.index ≠ r.index

theorem Manager.Founded.ne_one (h : m.Founded) {i : Nat} {n : Node} (hn : m.nodes.value? i = some n) (hv : n.var ≠ 0) :
    i ≠ 1 := by
  rintro rfl
  rw [h.terminal] at hn
  cases hn
  exact hv rfl

/-- in an ordered manager, a node of a variable that is not below `v` is no child of a node of `v`. -/
theorem parentless_of_level_le (h : m.Ordered) (hv : v ≠ 0) (hlevel : m.level r ≤ v) : Parentless m v r := by
  intro i n hn hvar
  have hin := h.inner i n (h.founded.ne_one hn (hvar ▸ hv)) hn
  have hchild : ∀ c : Ref, n.var < m.level c → c.index ≠ r.index := by
    intro c hc he
    have hsame : m.level c = m.level r := by rw [Manager.level, Manager.level, he]
    omega
  exact ⟨hchild _ hin.low_level, hchild _ hin.high_level⟩

theorem parentless_of_last (h : m.Founded) (hr : r.index = m.size) (hv : v ≠ 0) : Parentless m v r := by
  intro i n hn hvar
  have hi := h.ne_one hn (hvar ▸ hv)
  have hlast := Storage.Table.le_size_of_value? hn
  have hsize : m.nodes.size = m.size := rfl
  have hlow := (h.child i n hi hn false).2
  have hhigh := (h.child i n hi hn true).2
  simp only [Bool.false_eq_true, if_false, if_true] at hlow hhigh
  omega

theorem addsNode_conjoinLiteral (h : m.Founded) (hl : l ≠ 0) (hr : m.Holds r) (hi : r.index ≠ 1)
    (hfree : Parentless m l.natAbs r) :
    AddsNode m (conjoinLiteral r l) fun a => literalHolds a l && m.eval a r := by
  have hv : l.natAbs ≠ 0 := by omega
  have hzero : r ≠ .zero := by
    rintro rfl
    exact hi rfl
  unfold conjoinLiteral literalHolds
  rw [if_neg hl]
  split
  · next hneg =>
    have hd : decide (0 < l) = false := decide_eq_false (by omega)
    have hnew : Missing m l.natAbs r .zero := fun i n hn hvar hlow => absurd hlow (hfree i n hn hvar).1
    refine (addsNode_mkNode h hv hr h.holds_zero hzero hnew).congr fun a => ?_
    rw [hd, Manager.eval_zero]
    cases a l.natAbs <;> rfl
  · next hnonneg =>
    have hd : decide (0 < l) = true := decide_eq_true (by omega)
    have hnew : Missing m l.natAbs .zero r := fun i n hn hvar _ => (hfree i n hn hvar).2
    refine (addsNode_mkNode h hv h.holds_zero hr hzero.symm hnew).congr fun a => ?_
    rw [hd, Manager.eval_zero]
    cases a l.natAbs <;> rfl

/-- **Literals on top of a node** that no node of the first variable has as a child are new nodes. -/
theorem addsNode_conjoinLiterals (h : m.Founded) (hls : ∀ k ∈ l :: ls, k ≠ 0) (hr : m.Holds r) (hi : r.index ≠ 1)
    (hfree : Parentless m l.natAbs r) :
    AddsNode m ((l :: ls).foldlM conjoinLiteral r) fun a => (l :: ls).all (literalHolds a) && m.eval a r := by
  induction ls generalizing m l r with
  | nil =>
    simp only [List.foldlM_cons, List.foldlM_nil, bind_pure, List.all_cons, List.all_nil, Bool.and_true]
    exact addsNode_conjoinLiteral h (hls l List.mem_cons_self) hr hi hfree
  | cons k ls ih =>
    obtain ⟨hl, hls⟩ := List.forall_mem_cons.1 hls
    rw [List.foldlM_cons]
    refine (addsNode_conjoinLiteral h hl hr hi hfree).bind fun s m' hm' hsize hs heval => ?_
    -- the new node is the last one, so the next literal adds a node as well
    have hpos := h.size_pos
    have hfree' := parentless_of_last hm' hs (Int.natAbs_ne_zero.2 (hls k List.mem_cons_self))
    refine (ih hm' hls (hm'.holds_size hs) (by omega) hfree').congr fun a => ?_
    rw [heval, List.all_cons (a := l), ← Bool.and_assoc, Bool.and_comm (literalHolds a l)]

/-! ### repeated variables -/

/-- where a descending list of literals repeats a variable for the first time. -/
theorem exists_repeated (hsorted : ks.Pairwise fun k l => l.natAbs ≤ k.natAbs) (hrep : ¬ (ks.map Int.natAbs).Nodup) :
    ∃ pre k l post, ks = pre ++ k :: l :: post ∧ k.natAbs = l.natAbs ∧
      (pre ++ [k]).Pairwise fun k l => l.natAbs < k.natAbs := by
  induction ks with
  | nil => exact absurd List.nodup_nil hrep
  | cons k ks ih =>
    obtain ⟨hk, hks⟩ := List.pairwise_cons.1 hsorted
    cases ks with
    | nil => exact absurd (List.nodup_singleton _) hrep
    | cons l ks =>
      by_cases he : k.natAbs = l.natAbs
      · exact ⟨[], k, l, ks, rfl, he, List.pairwise_singleton _ _⟩
      · -- everything behind `k` is below it, so the repetition is there
        have hlt : ∀ j ∈ l :: ks, j.natAbs < k.natAbs := by
          have hl : l.natAbs < k.natAbs := Nat.lt_of_le_of_ne (hk l List.mem_cons_self) (Ne.symm he)
          exact List.forall_mem_cons.2 ⟨hl, fun j hj => Nat.lt_of_le_of_lt ((List.pairwise_cons.1 hks).1 j hj) hl⟩
        have hrep' : ¬ ((l :: ks).map Int.natAbs).Nodup := by
          refine fun hn => hrep (List.nodup_cons.2 ⟨fun hmem => ?_, hn⟩)
          obtain ⟨j, hj, he⟩ := List.mem_map.1 hmem
          exact Nat.ne_of_lt (hlt j hj) he
        obtain ⟨pre, k', l', post, hsplit, he', hpre⟩ := ih hks hrep'
        refine ⟨k :: pre, k', l', post, by rw [hsplit]; rfl, he', List.pairwise_cons.2 ⟨fun j hj => hlt j ?_, hpre⟩⟩
        rw [hsplit, ← List.singleton_append, ← List.append_assoc]
        exact List.mem_append_left _ hj

theorem exists_literalHolds (hls : ∀ l ∈ ls, l ≠ 0) (hnodup : (ls.map Int.natAbs).Nodup) :
    ∃ a, ls.all (literalHolds a) = true := by
  refine ⟨fun v => decide ((v : Int) ∈ ls), List.all_eq_true.2 fun l hl => ?_⟩
  rw [literalHolds, beq_iff_eq, decide_eq_decide]
  have hl0 := hls l hl
  constructor
  · intro hmem
    have hsame : (l.natAbs : Int) = l := List.inj_on_of_nodup_map hnodup hmem hl (Int.natAbs_natCast _)
    omega
  · intro hpos
    rwa [Int.natAbs_of_nonneg (Int.le_of_lt hpos)]

/-- a conjunction of literals of different variables depends on each of them. -/
theorem not_ignores_literals (hls : ∀ l ∈ ls, l ≠ 0) (hnodup : (ls.map Int.natAbs).Nodup) (hk : k ∈ ls) :
    ¬ Ignores (fun a => ls.all (literalHolds a)) k.natAbs := by
  intro hignores
  obtain ⟨a, ha⟩ := exists_literalHolds hls hnodup
  have hflip : ls.all (literalHolds (Function.update a k.natAbs (!a k.natAbs))) = true :=
    (hignores a (!a k.natAbs)).trans ha
  have hbefore := List.all_eq_true.1 ha k hk
  have hafter := List.all_eq_true.1 hflip k hk
  rw [literalHolds, beq_iff_eq] at hbefore hafter
  rw [Function.update_self, hbefore, Bool.not_eq_self] at hafter
  exact hafter

theorem Manager.Denotes.level_le (h : m.Denotes r F) (hm : m.Ordered) (hdep : ¬ Ignores F v) :
    r.index ≠ 1 ∧ m.level r ≤ v := by
  rw [h.ignores_iff] at hdep
  refine ⟨fun hi => hdep fun a b => ?_, Nat.not_lt.1 fun hlt => hdep (Manager.ignores_of_lt_level hm h.holds hlt)⟩
  simp only [Manager.eval_terminal hi]

/-- **A cube that repeats a variable** has the function of the conjunction, but in a node of its own. -/
theorem addsNode_cube (h : m.WellFormed) (hls : ∀ l ∈ ls, l ≠ 0 ∧ l.natAbs < lastLevel)
    (hrep : ¬ (ls.map Int.natAbs).Nodup) : AddsNode m (cube ls) fun a => ls.all (literalHolds a) := by
  have hperm := sortLiterals_perm ls
  have hrep' : ¬ ((sortLiterals ls).map Int.natAbs).Nodup := by rwa [(hperm.map Int.natAbs).nodup_iff]
  obtain ⟨pre, k, l, post, hsplit, he, hpre⟩ := exists_repeated (sortLiterals_sorted ls) hrep'
  have hsplit' : sortLiterals ls = (pre ++ [k]) ++ l :: post := by simp [hsplit]
  have hmem : ∀ j ∈ (pre ++ [k]) ++ l :: post, j ≠ 0 ∧ j.natAbs < lastLevel := fun j hj =>
    hls j (hperm.mem_iff.1 (hsplit' ▸ hj))
  obtain ⟨hfront, hback⟩ := List.forall_mem_append.1 hmem
  -- up to the first repetition the cube is as it should be, and its topmost variable is the repeated one
  obtain ⟨r, m₁, hok, hm₁, hle, hr⟩ :=
    yields_conjoinLiterals h hfront hpre h.denotes_one fun l _ u _ => ignores_const _ u
  have hr' : m₁.Denotes r fun a => (pre ++ [k]).all (literalHolds a) := hr.congr fun a => Bool.and_true _
  have hnodup : ((pre ++ [k]).map Int.natAbs).Nodup := List.pairwise_map.2 (hpre.imp fun h => (Nat.ne_of_lt h).symm)
  have hdep := not_ignores_literals (fun j hj => (hfront j hj).1) hnodup (List.mem_append_right pre List.mem_cons_self)
  obtain ⟨hi, hlevel⟩ := hr'.level_le hm₁.toOrdered hdep
  -- so from there on every literal adds a node
  have hl0 : l.natAbs ≠ 0 := Int.natAbs_ne_zero.2 (hback l List.mem_cons_self).1
  have hfree := parentless_of_level_le hm₁.toOrdered hl0 (he ▸ hlevel)
  obtain ⟨s, m₂, hok', hm₂, hle', hsize, hs, heval⟩ :=
    addsNode_conjoinLiterals hm₁.founded (fun j hj => (hback j hj).1) hr'.holds hi hfree
  refine ⟨s, m₂, ?_, hm₂, Manager.le_trans hle hle', (h.founded.size_mono hle).trans_lt hsize, hs, fun a => ?_⟩
  · rw [cube, hsplit', List.foldlM_append]
    exact (bind_of_ok hok _).trans hok'
  · calc m₂.eval a s = ((l :: post).all (literalHolds a) && m₁.eval a r) := heval a
      _ = ((pre ++ [k]).all (literalHolds a) && (l :: post).all (literalHolds a)) := by rw [hr'.eval, Bool.and_comm]
      _ = ls.all (literalHolds a) := by rw [← List.all_append, ← hsplit', hperm.all_eq]

/-- a node of its own is not held before. -/
theorem AddsNode.not_holds {x : BddM Ref} (h : AddsNode m x F) :
    ∃ r m', x m = .ok r m' ∧ ¬ m.Holds r ∧ ∀ a, m'.eval a r = F a := by
  obtain ⟨r, m', hok, -, -, hsize, hr, heval⟩ := h
  refine ⟨r, m', hok, fun hholds => ?_, heval⟩
  have := hholds.index_le_size
  omega

/-- an operation whose result is new wherever it runs does not repeat the result of another one. -/
theorem not_repeats_of_addsNode {x y : BddM Ref} (hx : Computes m x F) (hy : ∀ m', After m m' → AddsNode m' y G) :
    ¬ Repeats m x y := by
  rintro ⟨r, m₁, hok, hafter, hrepeats⟩
  obtain ⟨r', m₁', hok', -, hr⟩ := hx
  rw [hok] at hok'
  cases hok'
  obtain ⟨s, m₂, hy₁, -, hs⟩ := hrepeats m₁ (.refl hafter.reached)
  obtain ⟨s', m₂', hy₂, hnot, -⟩ := (hy m₁ hafter).not_holds
  rw [hy₁] at hy₂
  cases hy₂
  exact hnot (hs ▸ hr.holds)

theorem isVariable_of_literal (hl : l ≠ 0 ∧ l.natAbs < 2 ^ 31) : Op.IsVariable l.natAbs := by
  have hlast : 2 ^ 31 ≤ terminalLevel := by decide
  exact ⟨Nat.pos_of_ne_zero (Int.natAbs_ne_zero.2 hl.1), hl.2.trans_le hlast⟩

theorem sameResult_cube (h : Reached m) (hls : ∀ l ∈ ls, l ≠ 0 ∧ l.natAbs < 2 ^ 31)
    (hnodup : (ls.map Int.natAbs).Nodup) : SameResult m (cube ls) (conjoinEach ls) := by
  have hvars : ∀ l ∈ ls, Op.IsVariable l.natAbs := fun l hl => isVariable_of_literal (hls l hl)
  exact sameResult_of_computes h (fun m' hafter => computes_op hafter.reached (.cube ls) ⟨hvars, hnodup⟩)
    fun m' hafter => computes_conjoinEach hafter.reached hvars

theorem addsNode_cube_of_reached (h : Reached m) (hls : ∀ l ∈ ls, l ≠ 0 ∧ l.natAbs < 2 ^ 31)
    (hrep : ¬ (ls.map Int.natAbs).Nodup) : AddsNode m (cube ls) fun a => ls.all (literalHolds a) :=
  addsNode_cube (wellFormed_of_reached h)
    (fun l hl => ⟨(hls l hl).1, (isVariable_of_literal (hls l hl)).lt_lastLevel⟩) hrep

theorem not_sameResult_cube (h : Reached m) (hls : ∀ l ∈ ls, l ≠ 0 ∧ l.natAbs < 2 ^ 31)
    (hrep : ¬ (ls.map Int.natAbs).Nodup) : ¬ SameResult m (cube ls) (conjoinEach ls) := by
  intro hsame
  have hcomputes := computes_conjoinEach h fun l hl => isVariable_of_literal (hls l hl)
  exact not_repeats_of_addsNode hcomputes (fun m' hafter => addsNode_cube_of_reached hafter.reached hls hrep) hsame.2

/-- **Cubes.** In a reachable manager the literals conjoined one after the other give their conjunction, whatever
variables they repeat. The cube gives the same reference, before or after, exactly if no variable occurs twice. With a
repeated variable it ends as well, with the function of the conjunction, but with a reference that the manager does not
hold: it is neither that of the conjunction nor, for opposite literals, that of zero. -/
theorem cube_spec (h : Reached m) (hls : ∀ l ∈ ls, l ≠ 0 ∧ l.natAbs < 2 ^ 31) :
    (Computes m (conjoinEach ls) fun a => ls.all (literalHolds a)) ∧
      (SameResult m (cube ls) (conjoinEach ls) ↔ (ls.map Int.natAbs).Nodup) ∧
      (¬ (ls.map Int.natAbs).Nodup →
        ∃ r m', cube ls m = .ok r m' ∧ ¬ m.Holds r ∧ ∀ a, m'.eval a r = ls.all (literalHolds a)) := by
  refine ⟨computes_conjoinEach h fun l hl => isVariable_of_literal (hls l hl), ⟨fun hsame => ?_, sameResult_cube h hls⟩,
    fun hrep => (addsNode_cube_of_reached h hls hrep).not_holds⟩
  by_contra hrep
  exact not_sameResult_cube h hls hrep hsame

/-- in a manager that holds the difference of two variables: one of its cubes, and opposite literals. -/
theorem cube_spec_difference :
    ∃ m f, Reached m ∧ m.Denotes f (fun a => a 1 != a 2) ∧ SameResult m (cube [2, -1]) (conjoinEach [2, -1]) ∧
      ∃ r m', cube [1, -1] m = .ok r m' ∧ ¬ m.Holds r ∧ ∀ a, m'.eval a r = false := by
  obtain ⟨m, f, hm, hf⟩ := exists_reached_difference
  have hls : ∀ l ∈ [(2 : Int), -1], l ≠ 0 ∧ l.natAbs < 2 ^ 31 := by decide
  have hls' : ∀ l ∈ [(1 : Int), -1], l ≠ 0 ∧ l.natAbs < 2 ^ 31 := by decide
  obtain ⟨-, hsame, -⟩ := cube_spec hm hls
  obtain ⟨-, -, hrepeated⟩ := cube_spec hm hls'
  obtain ⟨r, m', hok, hnot, heval⟩ := hrepeated (by decide)
  refine ⟨m, f, hm, hf, hsame.2 (by decide), r, m', hok, hnot, fun a => (heval a).trans ?_⟩
  cases ha : a 1 <;> simp [literalHolds, ha]

/-- the cube of opposite literals is not the reference of zero, which is what they conjoin to; and the cube that repeats
a literal is not the reference of the literal. -/
theorem cube_of_opposite_literals :
    ∃ m, Manager.empty 4 = .ok m ∧ Reached m ∧ (∃ r m', cube [1, -1] m = .ok r m' ∧ r ≠ .zero) ∧
      (Ends m (conjoinEach [1, -1]) fun r _ => r = .zero) ∧ ¬ SameResult m (cube [1, -1]) (conjoinEach [1, -1]) ∧
      ¬ SameResult m (cube [1, 1]) (conjoinEach [1, 1]) := by
  obtain ⟨m, hempty⟩ : ∃ m, Manager.empty 4 = .ok m := ⟨_, rfl⟩
  have hm := Reached.empty hempty
  have hls : ∀ l ∈ [(1 : Int), -1], l ≠ 0 ∧ l.natAbs < 2 ^ 31 := by decide
  obtain ⟨r, m', hok, hnot, -⟩ := (addsNode_cube_of_reached hm hls (by decide)).not_holds
  refine ⟨m, hempty, hm, ⟨r, m', hok, ?_⟩, ?_, not_sameResult_cube hm hls (by decide),
    not_sameResult_cube hm (by decide) (by decide)⟩
  · rintro rfl
    exact hnot hm.ordered.holds_zero
  · have hvars : ∀ l ∈ [(1 : Int), -1], Op.IsVariable l.natAbs := fun l hl => isVariable_of_literal (hls l hl)
    refine (computes_conjoinEach hm hvars).ends fun s m₁ hafter hs =>
      (hs.eq_zero_iff hafter.reached.ordered).2 fun a => ?_
    cases ha : a 1 <;> simp [literalHolds, ha]

end ReversibleLogic.Bdd
