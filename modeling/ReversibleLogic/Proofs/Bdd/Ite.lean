import Mathlib.Data.List.Forall2
import ReversibleLogic.Bdd.Ite
import ReversibleLogic.Proofs.Bdd.Construction

/-!
# What if-then-else computes

* `Triple.simplify_inl`, `Triple.simplify_inr` — a triple is answered, or its normal form has the same function up to a
  complement and is no heavier;
* `exists_cofactors` — the cofactors for a variable that is not below the reference;
* `Triple.exists_level_lt` — a triple of the last variable alone is answered, so none is split on the level of the
  terminal;
* `yields_iteWithin` — by induction on the fuel, which covers the weight of the triple;
* `yields_ite`, `yields_conj`, … — if-then-else and the connectives.
-/

namespace ReversibleLogic.Bdd

variable {m m' : Manager} {r : Ref} {v : Nat}

/-! ### normal forms -/

namespace Triple

variable {t t' : Triple} {b : Bool}

theorem trivial?_denotes (ht : m.HoldsTriple t) (h : t.trivial? = some r) :
    m.Denotes r (m.choice t) := by
  unfold trivial? at h
  split at h
  · next he =>
    cases h
    refine ⟨ht.yes, fun a => ?_⟩
    rw [Manager.choice, ← he, ite_self]
  · split at h
    · next he =>
      rw [← Option.some.inj h]
      refine ⟨ht.test, fun a => ?_⟩
      rw [Manager.choice, he.1, he.2, Manager.eval_one, Manager.eval_zero]
      cases m.eval a t.test <;> rfl
    · split at h
      · next he =>
        cases h
        refine ⟨ht.test.neg, fun a => ?_⟩
        rw [Manager.choice, he.1, he.2, Manager.eval_one, Manager.eval_zero, Manager.eval_neg ht.test]
        cases m.eval a t.test <;> rfl
      · cases h

/-- a branch whose repeats of the test are replaced. -/
theorem replaced_cases {test c d k e : Ref} (he : (if c = test then d else if c = -test then k else c) = e) :
    c = test ∧ e = d ∨ c = -test ∧ e = k ∨ (c ≠ test ∧ c ≠ -test) ∧ e = c := by
  subst he
  split
  · next h => exact Or.inl ⟨h, rfl⟩
  · next hne =>
    split
    · next h => exact Or.inr (Or.inl ⟨h, rfl⟩)
    · next hne' => exact Or.inr (Or.inr ⟨⟨hne, hne'⟩, rfl⟩)

theorem yes_dropRepeats (t : Triple) : t.yes = t.test ∧ t.dropRepeats.yes = .one ∨
    t.yes = -t.test ∧ t.dropRepeats.yes = .zero ∨ (t.yes ≠ t.test ∧ t.yes ≠ -t.test) ∧ t.dropRepeats.yes = t.yes :=
  replaced_cases rfl

theorem no_dropRepeats (t : Triple) : t.no = t.test ∧ t.dropRepeats.no = .zero ∨
    t.no = -t.test ∧ t.dropRepeats.no = .one ∨ (t.no ≠ t.test ∧ t.no ≠ -t.test) ∧ t.dropRepeats.no = t.no :=
  replaced_cases rfl

theorem holds_dropRepeats (hm : m.Ordered) (ht : m.HoldsTriple t) : m.HoldsTriple t.dropRepeats := by
  refine ⟨ht.test, ?_, ?_⟩
  · rcases t.yes_dropRepeats with ⟨-, he⟩ | ⟨-, he⟩ | ⟨-, he⟩
    · exact he ▸ hm.holds_one
    · exact he ▸ hm.holds_zero
    · exact he ▸ ht.yes
  · rcases t.no_dropRepeats with ⟨-, he⟩ | ⟨-, he⟩ | ⟨-, he⟩
    · exact he ▸ hm.holds_zero
    · exact he ▸ hm.holds_one
    · exact he ▸ ht.no

/-- constants for repeated tests do not change the function. -/
theorem choice_dropRepeats (ht : m.HoldsTriple t) (a : Assignment) : m.choice t.dropRepeats a = m.choice t a := by
  have hyes : m.eval a t.test = true → m.eval a t.dropRepeats.yes = m.eval a t.yes := by
    intro htest
    rcases t.yes_dropRepeats with ⟨h, he⟩ | ⟨h, he⟩ | ⟨-, he⟩
    · rw [he, h, htest, Manager.eval_one]
    · rw [he, h, Manager.eval_neg ht.test, htest, Manager.eval_zero]
      rfl
    · rw [he]
  have hno : m.eval a t.test = false → m.eval a t.dropRepeats.no = m.eval a t.no := by
    intro htest
    rcases t.no_dropRepeats with ⟨h, he⟩ | ⟨h, he⟩ | ⟨-, he⟩
    · rw [he, h, htest, Manager.eval_zero]
    · rw [he, h, Manager.eval_neg ht.test, htest, Manager.eval_one]
      rfl
    · rw [he]
  show (if m.eval a t.test then _ else _) = (if m.eval a t.test then _ else _)
  cases htest : m.eval a t.test with
  | false => exact hno htest
  | true => exact hyes htest

theorem weight_dropRepeats (htest : t.test.index ≠ 0) : t.dropRepeats.weight ≤ t.weight := by
  have hyes : t.dropRepeats.yes.index ≤ t.yes.index := by
    rcases t.yes_dropRepeats with ⟨h, he⟩ | ⟨h, he⟩ | ⟨-, he⟩
    · rw [he, h, Ref.index_one]
      omega
    · rw [he, h, Ref.index_neg, Ref.index_zero]
      omega
    · rw [he]
  have hno : t.dropRepeats.no.index ≤ t.no.index := by
    rcases t.no_dropRepeats with ⟨h, he⟩ | ⟨h, he⟩ | ⟨-, he⟩
    · rw [he, h, Ref.index_zero]
      omega
    · rw [he, h, Ref.index_neg, Ref.index_one]
      omega
    · rw [he]
  have hsame : t.dropRepeats.test = t.test := rfl
  unfold weight
  rw [hsame]
  omega

theorem holds_uncomplementTest (ht : m.HoldsTriple t) : m.HoldsTriple t.uncomplementTest := by
  unfold uncomplementTest
  split
  · exact ⟨ht.test.neg, ht.no, ht.yes⟩
  · exact ht

theorem choice_uncomplementTest (ht : m.HoldsTriple t) (a : Assignment) :
    m.choice t.uncomplementTest a = m.choice t a := by
  unfold uncomplementTest
  split
  · rw [Manager.choice, Manager.choice, Manager.eval_neg ht.test]
    cases m.eval a t.test <;> rfl
  · rfl

theorem weight_uncomplementTest (t : Triple) : t.uncomplementTest.weight = t.weight := by
  unfold uncomplementTest weight
  split
  · simp only [Ref.index_neg]
    omega
  · rfl

theorem index_uncomplementTest (t : Triple) : t.uncomplementTest.test.index = t.test.index := by
  unfold uncomplementTest
  split
  · exact Ref.index_neg t.test
  · rfl

theorem holds_uncomplementYes (ht : m.HoldsTriple t) : m.HoldsTriple t.uncomplementYes.1 := by
  unfold uncomplementYes
  split
  · exact ⟨ht.test, ht.yes.neg, ht.no.neg⟩
  · exact ht

theorem choice_uncomplementYes (ht : m.HoldsTriple t) (a : Assignment) :
    m.choice t a = (t.uncomplementYes.2 ^^ m.choice t.uncomplementYes.1 a) := by
  unfold uncomplementYes
  split
  · simp only [Manager.choice, Manager.eval_neg ht.yes, Manager.eval_neg ht.no]
    cases m.eval a t.test <;> simp
  · simp

theorem weight_uncomplementYes (t : Triple) : t.uncomplementYes.1.weight = t.weight := by
  unfold uncomplementYes weight
  split
  · simp only [Ref.index_neg]
  · rfl

theorem test_uncomplementYes (t : Triple) : t.uncomplementYes.1.test = t.test := by
  unfold uncomplementYes
  split <;> rfl

theorem simplify_inl (hm : m.Ordered) (ht : m.HoldsTriple t) (h : t.simplify = .inl r) : m.Denotes r (m.choice t) := by
  unfold simplify at h
  split at h
  · next he =>
    cases h
    exact ⟨ht.yes, fun a => by rw [Manager.choice, he, Manager.eval_one, if_pos rfl]⟩
  · split at h
    · next he =>
      cases h
      exact ⟨ht.no, fun a => by rw [Manager.choice, he, Manager.eval_zero, if_neg Bool.false_ne_true]⟩
    · split at h
      · next s hs =>
        cases h
        exact trivial?_denotes ht hs
      · simp only at h
        split at h
        · next s hs =>
          cases h
          exact (trivial?_denotes (holds_dropRepeats hm ht) hs).congr (choice_dropRepeats ht)
        · cases h

/-- a triple that is not answered is brought into normal form in three steps. -/
theorem simplify_eq_inr (h : t.simplify = .inr (t', b)) : t.test ≠ .one ∧ t.test ≠ .zero ∧
    t.dropRepeats.trivial? = none ∧ t.dropRepeats.uncomplementTest.uncomplementYes = (t', b) := by
  unfold simplify at h
  split at h
  · cases h
  · next hone =>
    split at h
    · cases h
    · next hzero =>
      split at h
      · cases h
      · dsimp only at h
        split at h
        · cases h
        · next hnone => exact ⟨hone, hzero, hnone, Sum.inr.inj h⟩

theorem index_simplify (h : t.simplify = .inr (t', b)) : t'.test.index = t.test.index := by
  obtain ⟨-, -, -, h⟩ := simplify_eq_inr h
  obtain rfl : t.dropRepeats.uncomplementTest.uncomplementYes.1 = t' := congrArg Prod.fst h
  rw [test_uncomplementYes, index_uncomplementTest]
  rfl

theorem weight_simplify (htest : t.test.index ≠ 0) (h : t.simplify = .inr (t', b)) : t'.weight ≤ t.weight := by
  obtain ⟨-, -, -, h⟩ := simplify_eq_inr h
  obtain rfl : t.dropRepeats.uncomplementTest.uncomplementYes.1 = t' := congrArg Prod.fst h
  rw [weight_uncomplementYes, weight_uncomplementTest]
  exact weight_dropRepeats htest

/-- **The normal form** of a triple has an inner test, is no heavier, and has the function up to a complement. -/
theorem simplify_inr (hm : m.Ordered) (ht : m.HoldsTriple t) (h : t.simplify = .inr (t', b)) :
    m.HoldsTriple t' ∧ t'.weight ≤ t.weight ∧ t'.test.index ≠ 1 ∧ ∀ a, m.choice t a = (b ^^ m.choice t' a) := by
  have hindex := index_simplify h
  have hweight := weight_simplify ht.test.index_ne_zero h
  obtain ⟨hone, hzero, -, h⟩ := simplify_eq_inr h
  have hdrop := holds_dropRepeats hm ht
  have huncomp := holds_uncomplementTest hdrop
  obtain rfl : t.dropRepeats.uncomplementTest.uncomplementYes.1 = t' := congrArg Prod.fst h
  obtain rfl : t.dropRepeats.uncomplementTest.uncomplementYes.2 = b := congrArg Prod.snd h
  refine ⟨holds_uncomplementYes huncomp, hweight, fun hi => ?_, fun a => ?_⟩
  · rcases Ref.eq_one_or_eq_zero (hindex ▸ hi) with he | he
    · exact hone he
    · exact hzero he
  · rw [← choice_uncomplementYes huncomp, choice_uncomplementTest hdrop, choice_dropRepeats ht]

end Triple

/-! ### cofactors -/

theorem node_of_value? {n : Node} (hn : m.nodes.value? r.index = some n) : m.node r = .ok n := by
  rw [Manager.node, hn]

theorem variableOf_of_value? {n : Node} (hn : m.nodes.value? r.index = some n) : m.variableOf r = .ok n.var := by
  rw [Manager.variableOf, node_of_value? hn]
  rfl

theorem low_of_value? {n : Node} (hn : m.nodes.value? r.index = some n) :
    m.low r = .ok (n.low.negateIf r.isNegated) := by
  rw [Manager.low, node_of_value? hn]
  rfl

theorem high_of_value? {n : Node} (hn : m.nodes.value? r.index = some n) :
    m.high r = .ok (n.high.negateIf r.isNegated) := by
  rw [Manager.high, node_of_value? hn]
  rfl

/-- the terminal is taken to be on the level of the last variable. -/
theorem levelOf_eq (hm : m.Ordered) (hr : m.Holds r) : levelOf r m = .ok (min (m.level r) terminalLevel) m := by
  have hlevels : lastLevel = terminalLevel + 1 := rfl
  unfold levelOf
  by_cases hi : r.index = 1
  · have hmin : min (m.level r) terminalLevel = terminalLevel := by
      rw [Manager.level_of_terminal hi]
      omega
    rw [if_pos (Ref.isTerminal_iff.2 hi), hmin]
    rfl
  · obtain ⟨n, hn, hin, hl⟩ := hm.exists_inner hr hi
    have hmin : min (m.level r) terminalLevel = n.var := by
      have := hin.var_lt
      omega
    rw [if_neg (mt Ref.isTerminal_iff.1 hi), hmin]
    exact ask_eq (variableOf_of_value? hn)

/-- `c` is what `r` is with `v` fixed to `b`; below `v` it is a child. -/
structure IsCofactor (m : Manager) (r : Ref) (v : Nat) (b : Bool) (c : Ref) : Prop where
  denotes : m.Denotes c fun a => m.eval (Function.update a v b) r
  index_le : c.index ≤ r.index
  index_lt : m.level r = v → c.index < r.index

theorem isCofactor_child (hm : m.Ordered) (hi : r.index ≠ 1) {n : Node} (hn : m.nodes.value? r.index = some n)
    (b : Bool) : IsCofactor m r n.var b ((if b then n.high else n.low).negateIf r.isNegated) := by
  have hin := hm.inner _ n hi hn
  have hlt : ((if b then n.high else n.low).negateIf r.isNegated).index < r.index := by
    rw [Ref.index_negateIf]
    exact hin.child_index b
  refine ⟨⟨(hin.holds_child b).negateIf _, fun a => ?_⟩, Nat.le_of_lt hlt, fun _ => hlt⟩
  rw [Manager.eval_negateIf (hin.holds_child b), Manager.eval_update hm hi hn]

/-- a reference below `v` is its own cofactor. -/
theorem isCofactor_self (hm : m.Ordered) (hr : m.Holds r) (hv : v < m.level r) (b : Bool) : IsCofactor m r v b r := by
  refine ⟨⟨hr, fun a => (Manager.ignores_of_lt_level hm hr hv a b).symm⟩, Nat.le_refl _, fun he => ?_⟩
  omega

/-- **Cofactors** for a variable that is not below the reference. -/
theorem exists_cofactors (hm : m.Ordered) (hr : m.Holds r) (hpos : 0 < v) (hv : v ≤ m.level r)
    (hlt : v < lastLevel) :
    ∃ c d, cofactors r v m = .ok (c, d) m ∧ IsCofactor m r v false c ∧ IsCofactor m r v true d := by
  unfold cofactors
  rw [if_neg (by omega)]
  by_cases hi : r.index = 1
  · rw [if_pos (Ref.isTerminal_iff.2 hi)]
    have hv' : v < m.level r := by rw [Manager.level_of_terminal hi]; exact hlt
    exact ⟨r, r, rfl, isCofactor_self hm hr hv' false, isCofactor_self hm hr hv' true⟩
  · rw [if_neg (mt Ref.isTerminal_iff.1 hi)]
    obtain ⟨n, hn, -, hl⟩ := hm.exists_inner hr hi
    have hvar : ask (·.variableOf r) m = .ok n.var m := ask_eq (variableOf_of_value? hn)
    by_cases hvn : v < n.var
    · have hv' : v < m.level r := by omega
      refine ⟨r, r, ?_, isCofactor_self hm hr hv' false, isCofactor_self hm hr hv' true⟩
      simp [bind, EStateM.bind, hvar, hvn, pure, EStateM.pure]
    · have he : v = n.var := by omega
      subst he
      refine ⟨_, _, ?_, isCofactor_child hm hi hn false, isCofactor_child hm hi hn true⟩
      have hlow : ask (·.low r) m = .ok _ m := ask_eq (low_of_value? hn)
      have hhigh : ask (·.high r) m = .ok _ m := ask_eq (high_of_value? hn)
      simp [bind, EStateM.bind, hvar, hlow, hhigh, pure, EStateM.pure]

/-! ### the last variable -/

/-- the last variable has one node. -/
theorem eq_node_of_last (hm : m.Ordered) {n : Node} (hi : r.index ≠ 1) (hn : m.nodes.value? r.index = some n)
    (hlast : terminalLevel ≤ m.level r) : n = ⟨terminalLevel, .zero, .one⟩ := by
  have hin := hm.inner _ n hi hn
  rw [Manager.level_of_node hi hn] at hlast
  have hvar : n.var = terminalLevel := Nat.le_antisymm (Nat.le_of_lt_succ hin.var_lt) hlast
  have hchild : ∀ {c : Ref}, m.Holds c → n.var < m.level c → c.index = 1 := by
    intro c hc hlt
    by_contra hci
    obtain ⟨k, -, hik, hl⟩ := hm.exists_inner hc hci
    have hbound := hik.var_lt
    have hlevels : lastLevel = terminalLevel + 1 := rfl
    omega
  have hhigh : n.high = .one :=
    Ref.ext_index (hchild hin.high_holds hin.high_level) (hin.high_regular.trans (by decide))
  have hne : n.low ≠ .one := fun h => hin.low_ne_high (h.trans hhigh.symm)
  have hlow : n.low = .zero := (Ref.eq_one_or_eq_zero (hchild hin.low_holds hin.low_level)).resolve_left hne
  cases n
  rw [Node.mk.injEq]
  exact ⟨hvar, hlow, hhigh⟩

/-- so inner references to it are the same, but for the sign. -/
theorem eq_or_eq_neg_of_last (hm : m.Ordered) {s : Ref} (hr : m.Holds r) (hs : m.Holds s) (hir : r.index ≠ 1)
    (his : s.index ≠ 1) (hlast : terminalLevel ≤ m.level r) (hlast' : terminalLevel ≤ m.level s) : s = r ∨ s = -r := by
  obtain ⟨n, hn⟩ := hr
  obtain ⟨k, hk⟩ := hs
  obtain rfl := eq_node_of_last hm hir hn hlast
  obtain rfl := eq_node_of_last hm his hk hlast'
  have hindex : s.index = r.index := hm.lawful.distinct _ _ _ hk hn
  have hr0 : r.index ≠ 0 := Manager.Holds.index_ne_zero ⟨_, hn⟩
  by_cases he : s.isNegated = r.isNegated
  · exact Or.inl (Ref.ext_index hindex he)
  · have hneg : s.isNegated = (-r).isNegated := (Bool.eq_not_of_ne he).trans (Ref.isNegated_neg hr0).symm
    exact Or.inr (Ref.ext_index (hindex.trans (Ref.index_neg r).symm) hneg)

namespace Triple

variable {t t' : Triple} {b : Bool}

theorem trivial?_of_constants (hyes : t.yes.index = 1) (hno : t.no.index = 1) : t.trivial? ≠ none := by
  unfold trivial?
  split
  · simp
  next hne =>
  split
  · simp
  next hne₁ =>
  split
  · simp
  next hne₂ =>
  rcases Ref.eq_one_or_eq_zero hyes with he | he <;> rcases Ref.eq_one_or_eq_zero hno with he' | he'
  · exact absurd (he.trans he'.symm) hne
  · exact absurd ⟨he, he'⟩ hne₁
  · exact absurd ⟨he, he'⟩ hne₂
  · exact absurd (he.trans he'.symm) hne

/-- the branches of a normal form are those without repeated tests, in some order and with some sign. -/
theorem index_branches (h : t.simplify = .inr (t', b)) :
    t'.yes.index = t.dropRepeats.yes.index ∧ t'.no.index = t.dropRepeats.no.index ∨
      t'.yes.index = t.dropRepeats.no.index ∧ t'.no.index = t.dropRepeats.yes.index := by
  obtain ⟨-, -, -, h⟩ := simplify_eq_inr h
  obtain rfl : t.dropRepeats.uncomplementTest.uncomplementYes.1 = t' := congrArg Prod.fst h
  have hyes : ∀ u : Triple,
      u.uncomplementYes.1.yes.index = u.yes.index ∧ u.uncomplementYes.1.no.index = u.no.index := fun u => by
    unfold uncomplementYes
    split
    · exact ⟨Ref.index_neg _, Ref.index_neg _⟩
    · exact ⟨rfl, rfl⟩
  rw [(hyes _).1, (hyes _).2]
  unfold uncomplementTest
  split
  · exact Or.inr ⟨rfl, rfl⟩
  · exact Or.inl ⟨rfl, rfl⟩

/-- **Only a triple with a part above the last variable is split.** -/
theorem exists_level_lt (hm : m.Ordered) (ht : m.HoldsTriple t) (h : t.simplify = .inr (t', b)) :
    min (min (m.level t'.test) (m.level t'.yes)) (m.level t'.no) < terminalLevel := by
  by_contra hge
  obtain ⟨hone, hzero, hnone, -⟩ := simplify_eq_inr h
  have hlevel : ∀ {r s : Ref}, r.index = s.index → m.level r = m.level s := fun h => by unfold Manager.level; rw [h]
  have htest : terminalLevel ≤ m.level t.test := by
    rw [← hlevel (index_simplify h)]
    omega
  obtain ⟨hyes, hno⟩ : terminalLevel ≤ m.level t.dropRepeats.yes ∧ terminalLevel ≤ m.level t.dropRepeats.no := by
    rcases index_branches h with ⟨he, he'⟩ | ⟨he, he'⟩
    · rw [← hlevel he, ← hlevel he']
      omega
    · rw [← hlevel he, ← hlevel he']
      omega
  have hi : t.test.index ≠ 1 := fun hi => (Ref.eq_one_or_eq_zero hi).elim hone hzero
  -- a branch of the last variable would repeat the test, so that it has been replaced by a constant
  have hbranch : ∀ {c : Ref}, m.Holds c → terminalLevel ≤ m.level c → c ≠ t.test ∧ c ≠ -t.test → c.index = 1 := by
    intro c hc hlast ⟨hne, hne'⟩
    by_contra hci
    exact (eq_or_eq_neg_of_last hm ht.test hc hi hci htest hlast).elim hne hne'
  refine trivial?_of_constants ?_ ?_ hnone
  · rcases t.yes_dropRepeats with ⟨-, he⟩ | ⟨-, he⟩ | ⟨hne, he⟩
    · exact congrArg Ref.index he
    · exact congrArg Ref.index he
    · rw [he] at hyes ⊢
      exact hbranch ht.yes hyes hne
  · rcases t.no_dropRepeats with ⟨-, he⟩ | ⟨-, he⟩ | ⟨hne, he⟩
    · exact congrArg Ref.index he
    · exact congrArg Ref.index he
    · rw [he] at hno ⊢
      exact hbranch ht.no hno hne

end Triple

/-! ### the recursion -/

/-- a lookup among the computed results changes the counters only. -/
theorem yields_computed? (h : m.WellFormed) (t : Triple) :
    Yields m (computed? t) fun o _ => ∀ r, o = some r → m.Answers t r := by
  obtain ⟨hall, hget⟩ := h.computed.get t
  exact ⟨_, ⟨m.nodes, (m.computed.get t).2⟩, rfl, h.withComputed hall, fun _ _ hi => hi, hget⟩

theorem yields_remember (h : m.WellFormed) {t : Triple} (hr : m.Answers t r) :
    Yields m (remember t r) fun _ _ => True :=
  ⟨(), ⟨m.nodes, m.computed.insert t r⟩, rfl, h.withComputed (h.computed.insert hr), fun _ _ hi => hi, trivial⟩

theorem ignores_choice (hm : m.Ordered) {t : Triple} (ht : m.HoldsTriple t) (htest : v < m.level t.test)
    (hyes : v < m.level t.yes) (hno : v < m.level t.no) : Ignores (m.choice t) v := by
  intro a b
  have h₁ : m.eval (Function.update a v b) t.test = m.eval a t.test := Manager.ignores_of_lt_level hm ht.test htest a b
  have h₂ : m.eval (Function.update a v b) t.yes = m.eval a t.yes := Manager.ignores_of_lt_level hm ht.yes hyes a b
  have h₃ : m.eval (Function.update a v b) t.no = m.eval a t.no := Manager.ignores_of_lt_level hm ht.no hno a b
  rw [Manager.choice, Manager.choice, h₁, h₂, h₃]

theorem choice_cofactors {t : Triple} {b : Bool} {c d e : Ref} (hc : IsCofactor m t.test v b c)
    (hd : IsCofactor m t.yes v b d) (he : IsCofactor m t.no v b e) (a : Assignment) :
    m.choice ⟨c, d, e⟩ a = m.choice t (Function.update a v b) := by
  rw [Manager.choice, Manager.choice, hc.denotes.eval, hd.denotes.eval, he.denotes.eval]

/-- a triple all of whose parts are split is lighter. -/
theorem weight_cofactors {t : Triple} {b : Bool} {c d e : Ref} (hc : IsCofactor m t.test v b c)
    (hd : IsCofactor m t.yes v b d) (he : IsCofactor m t.no v b e)
    (hv : m.level t.test = v ∨ m.level t.yes = v ∨ m.level t.no = v) :
    (⟨c, d, e⟩ : Triple).weight < t.weight := by
  have hle := hc.index_le
  have hle' := hd.index_le
  have hle'' := he.index_le
  have hlt : c.index < t.test.index ∨ d.index < t.yes.index ∨ e.index < t.no.index :=
    hv.imp hc.index_lt (Or.imp hd.index_lt he.index_lt)
  show c.index + d.index + e.index < t.test.index + t.yes.index + t.no.index
  omega

theorem level_pos (hm : m.Ordered) (hr : m.Holds r) : 0 < m.level r := by
  by_cases hi : r.index = 1
  · rw [Manager.level_of_terminal hi]
    decide
  · obtain ⟨n, -, hin, hl⟩ := hm.exists_inner hr hi
    rw [hl]
    exact hin.var_pos

/-- **If-then-else.** Fuel for the weight of the triple is enough, and the result has the function of the triple. -/
theorem yields_iteWithin (h : m.WellFormed) {t : Triple} (ht : m.HoldsTriple t) {fuel : Nat} (hf : t.weight < fuel) :
    Yields m (iteWithin fuel t) fun r m' => m'.Denotes r (m.choice t) := by
  induction fuel generalizing m t with
  | zero => omega
  | succ fuel ih =>
    rw [iteWithin]
    cases hs : t.simplify with
    | inl r => exact yields_pure h (Triple.simplify_inl h.toOrdered ht hs)
    | inr p =>
      obtain ⟨t', b⟩ := p
      obtain ⟨ht', hw, hi, hchoice⟩ := Triple.simplify_inr h.toOrdered ht hs
      simp only
      refine (yields_computed? h t').bind fun o m₁ h₁ hle₁ ho => ?_
      cases o with
      | some r =>
        have hr := ((ho r rfl).2.mono h.toOrdered hle₁).negateIf b
        exact yields_pure h₁ (hr.congr fun a => (hchoice a).symm)
      | none =>
        have hm₁ := h₁.toOrdered
        have ht₁ := ht'.mono hle₁
        simp only
        refine yields_bind_of_eq (levelOf_eq hm₁ ht₁.test) ?_
        refine yields_bind_of_eq (levelOf_eq hm₁ ht₁.yes) ?_
        refine yields_bind_of_eq (levelOf_eq hm₁ ht₁.no) ?_
        have hpos : 0 < min (min (m₁.level t'.test) (m₁.level t'.yes)) (m₁.level t'.no) := by
          have := level_pos hm₁ ht₁.test
          have := level_pos hm₁ ht₁.yes
          have := level_pos hm₁ ht₁.no
          omega
        have hbelow := Triple.exists_level_lt hm₁ (ht.mono hle₁) hs
        have hmin : min (min (min (m₁.level t'.test) terminalLevel) (min (m₁.level t'.yes) terminalLevel))
            (min (m₁.level t'.no) terminalLevel) = min (min (m₁.level t'.test) (m₁.level t'.yes)) (m₁.level t'.no) := by
          omega
        rw [hmin]
        generalize htop : min (min (m₁.level t'.test) (m₁.level t'.yes)) (m₁.level t'.no) = top at hpos hbelow
        have hlt : top < lastLevel := Nat.lt_succ_of_lt hbelow
        rw [if_neg (Nat.ne_of_lt hbelow)]
        obtain ⟨c₀, c₁, hc, hc₀, hc₁⟩ := exists_cofactors hm₁ ht₁.test hpos (by omega) hlt
        obtain ⟨d₀, d₁, hd, hd₀, hd₁⟩ := exists_cofactors hm₁ ht₁.yes hpos (by omega) hlt
        obtain ⟨e₀, e₁, he, he₀, he₁⟩ := exists_cofactors hm₁ ht₁.no hpos (by omega) hlt
        refine yields_bind_of_eq hc (yields_bind_of_eq hd (yields_bind_of_eq he ?_))
        -- both branches, each lighter than the triple
        have hsplit : m₁.level t'.test = top ∨ m₁.level t'.yes = top ∨ m₁.level t'.no = top := by omega
        have hw₀ := weight_cofactors hc₀ hd₀ he₀ hsplit
        have hw₁ := weight_cofactors hc₁ hd₁ he₁ hsplit
        have ht₀' : m₁.HoldsTriple ⟨c₀, d₀, e₀⟩ := ⟨hc₀.denotes.holds, hd₀.denotes.holds, he₀.denotes.holds⟩
        have ht₁' : m₁.HoldsTriple ⟨c₁, d₁, e₁⟩ := ⟨hc₁.denotes.holds, hd₁.denotes.holds, he₁.denotes.holds⟩
        refine (ih h₁ ht₀' (by omega)).bind fun low m₂ h₂ hle₂ hlow => ?_
        refine (ih h₂ (ht₁'.mono hle₂) (by omega)).bind fun high m₃ h₃ hle₃ hhigh => ?_
        have hlow' := (hlow.mono h₂.toOrdered hle₃).congr (choice_cofactors hc₀ hd₀ he₀)
        have hhigh' := (hhigh.congr (Manager.choice_mono ht₁' hm₁ hle₂)).congr (choice_cofactors hc₁ hd₁ he₁)
        have hignores : ∀ b, ∀ u ≤ top, Ignores (fun a => m₁.choice t' (Function.update a top b)) u := by
          intro b u hu
          rcases Nat.lt_or_eq_of_le hu with hlt | rfl
          · exact (ignores_choice hm₁ ht₁ (by omega) (by omega) (by omega)).update top b
          · exact ignores_update _ _ b
        refine (yields_mkNode_of_ignores h₃ hpos hlt hlow' hhigh' (hignores false) (hignores true)).bind
          fun r m₄ h₄ hle₄ hr => ?_
        have hr' := hr.congr (shannon (m₁.choice t') top)
        have hle := Manager.le_trans (Manager.le_trans hle₂ hle₃) hle₄
        have hanswer : m₄.Answers t' r :=
          ⟨ht₁.mono hle, hr'.congr fun a => (Manager.choice_mono ht₁ hm₁ hle a).symm⟩
        refine (yields_remember h₄ hanswer).bind fun _ m₅ h₅ hle₅ _ => yields_pure h₅ ?_
        refine ((hr'.mono h₄.toOrdered hle₅).negateIf b).congr ?_
        intro a
        rw [Manager.choice_mono ht' h.toOrdered hle₁, hchoice]

/-! ### connectives -/

section connectives

variable {f g e : Ref} {F G E : Assignment → Bool}

theorem yields_ite (h : m.WellFormed) (hf : m.Denotes f F) (hg : m.Denotes g G) (he : m.Denotes e E) :
    Yields m (ite f g e) fun r m' => m'.Denotes r fun a => if F a then G a else E a := by
  have ht : m.HoldsTriple ⟨f, g, e⟩ := ⟨hf.holds, hg.holds, he.holds⟩
  refine (yields_iteWithin h ht (Nat.lt_succ_self _)).imp fun r m' _ _ hr => hr.congr ?_
  intro a
  rw [Manager.choice, hf.eval, hg.eval, he.eval]

theorem yields_conj (h : m.WellFormed) (hf : m.Denotes f F) (hg : m.Denotes g G) :
    Yields m (conj f g) fun r m' => m'.Denotes r fun a => F a && G a :=
  (yields_ite h hf hg h.denotes_zero).imp fun r m' _ _ hr => hr.congr fun a => by cases F a <;> rfl

theorem yields_disj (h : m.WellFormed) (hf : m.Denotes f F) (hg : m.Denotes g G) :
    Yields m (disj f g) fun r m' => m'.Denotes r fun a => F a || G a :=
  (yields_ite h hf h.denotes_one hg).imp fun r m' _ _ hr => hr.congr fun a => by cases F a <;> rfl

theorem yields_xor (h : m.WellFormed) (hf : m.Denotes f F) (hg : m.Denotes g G) :
    Yields m (xor f g) fun r m' => m'.Denotes r fun a => F a ^^ G a :=
  (yields_ite h hf hg.neg hg).imp fun r m' _ _ hr => hr.congr fun a => by cases F a <;> simp

theorem yields_iff (h : m.WellFormed) (hf : m.Denotes f F) (hg : m.Denotes g G) :
    Yields m (iff f g) fun r m' => m'.Denotes r fun a => F a == G a :=
  (yields_ite h hf hg hg.neg).imp fun r m' _ _ hr => hr.congr fun a => by cases F a <;> cases G a <;> rfl

theorem yields_imply (h : m.WellFormed) (hf : m.Denotes f F) (hg : m.Denotes g G) :
    Yields m (imply f g) fun r m' => m'.Denotes r fun a => !F a || G a :=
  (yields_ite h hf hg h.denotes_one).imp fun r m' _ _ hr => hr.congr fun a => by cases F a <;> rfl

/-- each computation yields its function from every well-formed manager above `m`. -/
def YieldsEach (m : Manager) (xs : List (BddM Ref)) (Fs : List (Assignment → Bool)) : Prop :=
  List.Forall₂ (fun x F => ∀ m', m'.WellFormed → m ≤ m' → Yields m' x fun r m'' => m''.Denotes r F) xs Fs

theorem yieldsEach_map {ι : Type} {is : List ι} {x : ι → BddM Ref} {F : ι → Assignment → Bool}
    (h : ∀ i ∈ is, ∀ m', m'.WellFormed → m ≤ m' → Yields m' (x i) fun r m'' => m''.Denotes r (F i)) :
    YieldsEach m (is.map x) (is.map F) := by
  unfold YieldsEach
  rw [List.forall₂_map_left_iff, List.forall₂_map_right_iff, List.forall₂_same]
  exact h

/-- a conjunction ends early only if it is zero. -/
theorem yields_conjAll_go {m₀ : Manager} {xs : List (BddM Ref)} {Fs : List (Assignment → Bool)}
    (hxs : YieldsEach m₀ xs Fs) (hle : m₀ ≤ m) (h : m.WellFormed) (hf : m.Denotes f F) :
    Yields m (conjAll.go f xs) fun r m' => m'.Denotes r fun a => F a && Fs.all (· a) := by
  unfold YieldsEach at hxs
  induction hxs generalizing m f F with
  | nil => exact yields_pure h (hf.congr fun a => by simp)
  | @cons x G xs Fs hx _ ih =>
    rw [conjAll.go]
    refine (hx m h hle).bind fun g m₁ h₁ hle₁ hg => ?_
    refine (yields_conj h₁ (hf.mono h.toOrdered hle₁) hg).bind fun r m₂ h₂ hle₂ hr => ?_
    split
    · next hz =>
      refine yields_pure h₂ (hr.congr ?_)
      intro a
      have hzero : (F a && G a) = false := by rw [← hr.eval, hz, Manager.eval_zero]
      rw [List.all_cons, ← Bool.and_assoc, hzero, Bool.false_and]
    · refine (ih (Manager.le_trans hle (Manager.le_trans hle₁ hle₂)) h₂ hr).imp fun s m' _ _ hs => hs.congr ?_
      intro a
      rw [List.all_cons, Bool.and_assoc]

theorem yields_conjAll (h : m.WellFormed) {xs : List (BddM Ref)} {Fs : List (Assignment → Bool)}
    (hxs : YieldsEach m xs Fs) : Yields m (conjAll xs) fun r m' => m'.Denotes r fun a => Fs.all (· a) :=
  (yields_conjAll_go hxs m.le_refl h h.denotes_one).imp fun _ _ _ _ hr => hr.congr fun _ => Bool.true_and _

end connectives

end ReversibleLogic.Bdd
