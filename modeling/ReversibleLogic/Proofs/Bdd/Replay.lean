import ReversibleLogic.Proofs.Bdd.Recall

/-!
# Replaying an if-then-else

What has been computed once can be computed again, later and without the computed table: it adds no nodes, and the
result is the same.

* `Stable` — a computation that adds no nodes, and has its result in every larger manager;
* `Grows` — a computation that keeps all nodes;
* `Falling` — children have smaller numbers than their parents, so a split makes a triple lighter (`halves_spec`);
* `Settled` — from some manager on, a computation gives the same result and adds no nodes: `settled_mkNode`,
  `settled_split`, and `settled_iteWithin` for any fuel that covers the weight.
-/

namespace ReversibleLogic.Bdd

variable {α β : Type} {m m' M : Manager} {r : Ref} {v : Nat}

/-! ### computations that add no nodes -/

/-- a computation that changes nothing, and succeeds in every larger manager with the same result. -/
def Stable (x : BddM α) : Prop := ∀ m a m', x m = .ok a m' → m' = m ∧ ∀ m'', m ≤ m'' → x m'' = .ok a m''

section stable

variable {x : BddM α} {f : α → BddM β}

theorem stable_pure (a : α) : Stable (pure a) := by
  intro m b m' h
  cases h
  exact ⟨rfl, fun _ _ => rfl⟩

theorem stable_misuse (cause : Misuse) : Stable (misuse cause : BddM α) := by
  intro m a m' h
  cases h

theorem Stable.bind (hx : Stable x) (hf : ∀ a, Stable (f a)) : Stable (x >>= f) := by
  intro m b m₂ h
  obtain ⟨a, m₁, ha, hb⟩ := exists_of_bind_eq_ok h
  obtain ⟨rfl, hsame⟩ := hx m a m₁ ha
  obtain ⟨rfl, hsame'⟩ := hf a m₁ b m₂ hb
  exact ⟨rfl, fun m'' hle => (bind_of_ok (hsame m'' hle) f).trans (hsame' m'' hle)⟩

theorem stable_ask {q : Manager → Except Error α} (hq : ∀ m m' a, m ≤ m' → q m = .ok a → q m' = .ok a) :
    Stable (ask q) := by
  intro m a m' h
  cases hm : q m with
  | error e =>
    rw [ask, hm] at h
    cases h
  | ok b =>
    rw [ask_eq hm] at h
    cases h
    exact ⟨rfl, fun m'' hle => ask_eq (hq _ _ _ hle hm)⟩

theorem value?_of_node {n : Node} (h : m.node r = .ok n) : m.nodes.value? r.index = some n := by
  unfold Manager.node at h
  split at h
  · next hn =>
    cases h
    exact hn
  · cases h

theorem stable_ask_node (r : Ref) (g : Node → α) : Stable (ask fun m => return g (← m.node r)) := by
  refine stable_ask fun m m' a hle h => ?_
  cases hn : m.node r with
  | error e =>
    rw [hn] at h
    cases h
  | ok n =>
    rw [node_of_value? (hle _ _ (value?_of_node hn))]
    rwa [hn] at h

theorem stable_variableOf (r : Ref) : Stable (ask (·.variableOf r)) := stable_ask_node r (·.var)

theorem stable_low (r : Ref) : Stable (ask (·.low r)) := stable_ask_node r fun n => n.low.negateIf r.isNegated

theorem stable_high (r : Ref) : Stable (ask (·.high r)) := stable_ask_node r fun n => n.high.negateIf r.isNegated

theorem stable_levelOf (r : Ref) : Stable (levelOf r) := by
  unfold levelOf
  split
  · exact stable_pure _
  · exact stable_variableOf r

theorem stable_cofactors (r : Ref) (v : Nat) : Stable (cofactors r v) := by
  unfold cofactors
  split
  · exact stable_misuse _
  · split
    · exact stable_pure _
    · refine (stable_variableOf r).bind fun top => ?_
      split
      · exact stable_pure _
      · split
        · exact (stable_misuse _).bind fun _ => (stable_low r).bind fun _ => (stable_high r).bind fun _ => stable_pure _
        · exact (stable_low r).bind fun _ => (stable_high r).bind fun _ => stable_pure _

theorem stable_topOf (t : Triple) : Stable (topOf t) := by
  refine (stable_levelOf _).bind fun a => (stable_levelOf _).bind fun b => (stable_levelOf _).bind fun c => ?_
  dsimp only
  split
  · exact (stable_misuse _).bind fun _ => stable_pure _
  · exact stable_pure _

theorem stable_halves (t : Triple) : Stable (halves t) :=
  (stable_topOf t).bind fun _ => (stable_cofactors _ _).bind fun _ => (stable_cofactors _ _).bind fun _ =>
    (stable_cofactors _ _).bind fun _ => stable_pure _

end stable

/-! ### computations that keep all nodes -/

def Grows (x : BddM α) : Prop := ∀ m a m', x m = .ok a m' → m ≤ m'

section grows

variable {x : BddM α} {f : α → BddM β}

theorem Stable.grows (h : Stable x) : Grows x := by
  intro m a m' hok
  obtain ⟨rfl, -⟩ := h m a m' hok
  exact Manager.le_refl _

theorem Grows.bind (hx : Grows x) (hf : ∀ a, Grows (f a)) : Grows (x >>= f) := by
  intro m b m₂ h
  obtain ⟨a, m₁, ha, hb⟩ := exists_of_bind_eq_ok h
  exact Manager.le_trans (hx m a m₁ ha) (hf a m₁ b m₂ hb)

theorem store_eq (n : Node) (m : Manager) :
    store n m = .ok (.ofIndex (m.nodes.put n).1) ⟨(m.nodes.put n).2, m.computed⟩ := rfl

theorem grows_store (n : Node) : Grows (store n) := by
  intro m r m' h
  rw [store_eq] at h
  cases h
  exact fun i k hk => Storage.Table.value?_put_of_some n hk

theorem grows_mkRegular (v : Nat) (low high : Ref) : Grows (mkRegular v low high) := by
  unfold mkRegular
  split
  · exact (stable_pure _).grows
  · exact grows_store _

theorem grows_mkNode (v : Nat) (low high : Ref) : Grows (mkNode v low high) := by
  unfold mkNode
  split
  · exact (stable_misuse _).grows
  · split
    · exact (grows_mkRegular _ _ _).bind fun _ => (stable_pure _).grows
    · exact grows_mkRegular _ _ _

theorem grows_split {choose : Triple → BddM Ref} (hchoose : ∀ t, Grows (choose t)) (t : Triple) :
    Grows (split choose t) :=
  (stable_halves t).grows.bind fun _ => (hchoose _).bind fun _ => (hchoose _).bind fun _ => grows_mkNode _ _ _

structure Recall.Keeps (c : Recall) : Prop where
  lookup : ∀ t, Grows (c.lookup t)
  keep : ∀ t r, Grows (c.keep t r)

theorem Recall.table_keeps : Recall.table.Keeps := by
  refine ⟨fun t m o m' h => ?_, fun t r m u m' h => ?_⟩
  · cases h
    exact fun i n hn => hn
  · cases h
    exact fun i n hn => hn

theorem Recall.missing_keeps : Recall.missing.Keeps :=
  ⟨fun _ => (stable_pure _).grows, fun _ _ => (stable_pure _).grows⟩

theorem Recall.Keeps.iteWithin {c : Recall} (hc : c.Keeps) (fuel : Nat) (t : Triple) : Grows (c.iteWithin fuel t) := by
  induction fuel generalizing t with
  | zero => exact (stable_misuse _).grows
  | succ fuel ih =>
    rw [Recall.iteWithin]
    split
    · exact (stable_pure _).grows
    · refine (hc.lookup _).bind fun found => ?_
      cases found with
      | some r => exact (stable_pure _).grows
      | none => exact (grows_split ih _).bind fun r => (hc.keep _ r).bind fun _ => (stable_pure _).grows

end grows

/-! ### splits -/

/-- children have smaller numbers than their parents. -/
def Falling (m : Manager) : Prop :=
  ∀ i n, i ≠ 1 → m.nodes.value? i = some n → n.low.index < i ∧ n.high.index < i

theorem Manager.Ordered.falling (h : m.Ordered) : Falling m := fun i n hi hn =>
  ⟨(h.inner i n hi hn).low_index, (h.inner i n hi hn).high_index⟩

theorem Falling.of_le (h : Falling M) (hle : m ≤ M) : Falling m := fun i n hi hn => h i n hi (hle i n hn)

theorem exists_node_of_ask {g : Node → α} {a : α} (h : ask (fun m => return g (← m.node r)) m = .ok a m') :
    m' = m ∧ ∃ n, m.nodes.value? r.index = some n ∧ a = g n := by
  cases hn : m.node r with
  | error e =>
    rw [ask, hn] at h
    cases h
  | ok n =>
    rw [ask, hn] at h
    cases h
    exact ⟨rfl, n, value?_of_node hn, rfl⟩

/-- a level that is found is the last one, or the variable of a node. -/
theorem levelOf_spec {l : Nat} (h : levelOf r m = .ok l m') :
    m' = m ∧ ((r.index = 1 ∧ l = terminalLevel) ∨
      (r.index ≠ 1 ∧ ∃ n, m.nodes.value? r.index = some n ∧ l = n.var)) := by
  unfold levelOf at h
  split at h
  · next hi =>
    cases h
    exact ⟨rfl, Or.inl ⟨Ref.isTerminal_iff.1 hi, rfl⟩⟩
  · next hi =>
    obtain ⟨rfl, hn⟩ := exists_node_of_ask (g := (·.var)) h
    exact ⟨rfl, Or.inr ⟨mt Ref.isTerminal_iff.2 hi, hn⟩⟩

/-- cofactors are no larger, and smaller for the variable of the reference. -/
theorem cofactors_spec (hm : Falling m) {c d : Ref} (h : cofactors r v m = .ok (c, d) m') :
    c.index ≤ r.index ∧ d.index ≤ r.index ∧
      ∀ n, r.index ≠ 1 → m.nodes.value? r.index = some n → n.var = v → c.index < r.index ∧ d.index < r.index := by
  unfold cofactors at h
  split at h
  · cases h
  · split at h
    · next hi =>
      cases h
      exact ⟨Nat.le_refl _, Nat.le_refl _, fun n hne => absurd (Ref.isTerminal_iff.1 hi) hne⟩
    · next hi =>
      obtain ⟨top, m₁, htop, h⟩ := exists_of_bind_eq_ok h
      obtain ⟨rfl, n, hn, rfl⟩ := exists_node_of_ask (g := (·.var)) htop
      split at h
      · next hlt =>
        cases h
        refine ⟨Nat.le_refl _, Nat.le_refl _, fun k _ hk hv => ?_⟩
        obtain rfl : n = k := Option.some.inj (hn.symm.trans hk)
        omega
      · split at h
        · obtain ⟨_, _, h', -⟩ := exists_of_bind_eq_ok h
          cases h'
        · obtain ⟨low, m₂, hlow, h⟩ := exists_of_bind_eq_ok h
          obtain ⟨rfl, k, hk, rfl⟩ := exists_node_of_ask (g := fun n => n.low.negateIf r.isNegated) hlow
          obtain ⟨high, m₃, hhigh, h⟩ := exists_of_bind_eq_ok h
          obtain ⟨rfl, k', hk', rfl⟩ := exists_node_of_ask (g := fun n => n.high.negateIf r.isNegated) hhigh
          cases h
          obtain rfl : k = k' := Option.some.inj (hk.symm.trans hk')
          obtain ⟨hl, hh⟩ := hm _ k (mt Ref.isTerminal_iff.2 hi) hk
          rw [Ref.index_negateIf, Ref.index_negateIf]
          exact ⟨Nat.le_of_lt hl, Nat.le_of_lt hh, fun _ _ _ _ => ⟨hl, hh⟩⟩

theorem topOf_spec {t : Triple} (h : topOf t m = .ok v m') :
    t.test.index ≠ 0 ∧ ∃ r, (r = t.test ∨ r = t.yes ∨ r = t.no) ∧ r.index ≠ 1 ∧
      ∃ n, m.nodes.value? r.index = some n ∧ n.var = v := by
  obtain ⟨a, m₁, hoka, h₁⟩ := exists_of_bind_eq_ok h
  obtain ⟨he₁, ha⟩ := levelOf_spec hoka
  obtain ⟨b, m₂, hokb, h₂⟩ := exists_of_bind_eq_ok h₁
  obtain ⟨he₂, hb⟩ := levelOf_spec hokb
  obtain ⟨c, m₃, hokc, h₃⟩ := exists_of_bind_eq_ok h₂
  obtain ⟨-, hc⟩ := levelOf_spec hokc
  rw [he₂] at hc
  rw [he₁] at hb hc
  dsimp only at h₃
  split at h₃
  · obtain ⟨_, _, h', -⟩ := exists_of_bind_eq_ok h₃
    cases h'
  · next hne =>
    cases h₃
    refine ⟨?_, ?_⟩
    · rcases ha with ⟨hi, -⟩ | ⟨-, n, hn, -⟩
      · omega
      · obtain ⟨k, hk, -⟩ := Storage.Table.value?_eq_some.1 hn
        omega
    · -- a level that is not the last one belongs to a node
      have hpart : ∀ {r : Ref} {l : Nat}, (r.index = 1 ∧ l = terminalLevel) ∨
          (r.index ≠ 1 ∧ ∃ n : Node, m.nodes.value? r.index = some n ∧ l = n.var) → l = min (min a b) c →
          r.index ≠ 1 ∧ ∃ n : Node, m.nodes.value? r.index = some n ∧ n.var = min (min a b) c := by
        rintro r l (⟨-, rfl⟩ | ⟨hi, n, hn, rfl⟩) hl
        · exact absurd hl.symm hne
        · exact ⟨hi, n, hn, hl⟩
      have hmin : a = min (min a b) c ∨ b = min (min a b) c ∨ c = min (min a b) c := by omega
      rcases hmin with hl | hl | hl
      · exact ⟨_, Or.inl rfl, hpart ha hl⟩
      · exact ⟨_, Or.inr (Or.inl rfl), hpart hb hl⟩
      · exact ⟨_, Or.inr (Or.inr rfl), hpart hc hl⟩

/-- **A split makes a triple lighter**, since a part with the topmost variable falls. -/
theorem halves_spec (hm : Falling m) {t t₀ t₁ : Triple} (h : halves t m = .ok (v, t₀, t₁) m') :
    t₀.weight < t.weight ∧ t₁.weight < t.weight := by
  obtain ⟨top, m₁, htop, h₁⟩ := exists_of_bind_eq_ok h
  obtain ⟨rfl, -⟩ := stable_topOf t m top m₁ htop
  obtain ⟨-, r, hr, hi, n, hn, hvar⟩ := topOf_spec htop
  obtain ⟨⟨c₀, c₁⟩, m₂, hc, h₂⟩ := exists_of_bind_eq_ok h₁
  obtain ⟨rfl, -⟩ := stable_cofactors _ _ _ _ _ hc
  obtain ⟨⟨d₀, d₁⟩, m₃, hd, h₃⟩ := exists_of_bind_eq_ok h₂
  obtain ⟨rfl, -⟩ := stable_cofactors _ _ _ _ _ hd
  obtain ⟨⟨e₀, e₁⟩, m₄, he, h₄⟩ := exists_of_bind_eq_ok h₃
  obtain ⟨rfl, -⟩ := stable_cofactors _ _ _ _ _ he
  cases h₄
  have hc := cofactors_spec hm hc
  have hd := cofactors_spec hm hd
  have he := cofactors_spec hm he
  unfold Triple.weight
  rcases hr with rfl | rfl | rfl
  · have := hc.2.2 n hi hn hvar
    dsimp only
    omega
  · have := hd.2.2 n hi hn hvar
    dsimp only
    omega
  · have := he.2.2 n hi hn hvar
    dsimp only
    omega

theorem test_of_split {choose : Triple → BddM Ref} {t : Triple} (h : split choose t m = .ok r m') :
    t.test.index ≠ 0 := by
  obtain ⟨_, _, hhalves, -⟩ := exists_of_bind_eq_ok h
  obtain ⟨top, _, htop, -⟩ := exists_of_bind_eq_ok hhalves
  exact (topOf_spec htop).1

/-! ### what has been computed -/

/-- from `m` on, the computation gives `a` and changes nothing. -/
def Settled (m : Manager) (x : BddM α) (a : α) : Prop :=
  ∀ m', m ≤ m' → m'.nodes.Lawful → x m' = .ok a m'

section settled

variable {x : BddM α} {f : α → BddM β} {a : α} {b : β}

theorem Settled.mono (h : Settled m x a) (hle : m ≤ m') : Settled m' x a := fun m'' hle' =>
  h m'' (Manager.le_trans hle hle')

theorem settled_pure (a : α) : Settled m (pure a) a := fun _ _ _ => rfl

theorem Settled.bind (hx : Settled m x a) (hf : Settled m (f a) b) : Settled m (x >>= f) b := fun m' hle hlawful =>
  (bind_of_ok (hx m' hle hlawful) f).trans (hf m' hle hlawful)

theorem Stable.settled (hx : Stable x) (h : x m = .ok a m') : Settled m x a := fun m'' hle _ => (hx m a m' h).2 m'' hle

theorem settled_store {n : Node} (h : store n m = .ok r m') : Settled m' (store n) r := by
  intro m'' hle hlawful
  rw [store_eq] at h
  cases h
  rw [store_eq, Storage.Table.put_of_value? hlawful (hle _ n (Storage.Table.value?_put m.nodes n))]

theorem settled_mkRegular {low high : Ref} (h : mkRegular v low high m = .ok r m') :
    Settled m' (mkRegular v low high) r := by
  unfold mkRegular at h ⊢
  split at h
  · next he =>
    cases h
    rw [if_pos he]
    exact settled_pure _
  · next he =>
    rw [if_neg he]
    exact settled_store h

theorem settled_mkNode {low high : Ref} (h : mkNode v low high m = .ok r m') : Settled m' (mkNode v low high) r := by
  unfold mkNode at h ⊢
  split at h
  · cases h
  · next hv =>
    rw [if_neg hv]
    split at h
    · next hn =>
      rw [if_pos hn]
      obtain ⟨s, m₁, hs, h₁⟩ := exists_of_bind_eq_ok h
      cases h₁
      exact (settled_mkRegular hs).bind (settled_pure _)
    · next hn =>
      rw [if_neg hn]
      exact settled_mkRegular h

variable {choose choose' : Triple → BddM Ref} {t : Triple}

/-- a split is settled if the two choices that it makes are. -/
theorem settled_split (hgrows : ∀ t, Grows (choose t)) (hm : Falling m') (h : split choose t m = .ok r m')
    (hchoose : ∀ t' r' m₁ m₂, t'.weight < t.weight → choose t' m₁ = .ok r' m₂ → m₂ ≤ m' →
      Settled m₂ (choose' t') r') : Settled m' (split choose' t) r := by
  obtain ⟨⟨top, t₀, t₁⟩, m₀, hhalves, h₁⟩ := exists_of_bind_eq_ok h
  obtain ⟨rfl, -⟩ := stable_halves t m _ m₀ hhalves
  obtain ⟨low, m₁, hlow, h₂⟩ := exists_of_bind_eq_ok h₁
  obtain ⟨high, m₂, hhigh, h₃⟩ := exists_of_bind_eq_ok h₂
  have hle₁ := hgrows _ _ _ _ hlow
  have hle₂ := hgrows _ _ _ _ hhigh
  have hle₃ := grows_mkNode _ _ _ _ _ _ h₃
  have hle₁' := Manager.le_trans hle₂ hle₃
  obtain ⟨hlight₀, hlight₁⟩ := halves_spec (hm.of_le (Manager.le_trans hle₁ hle₁')) hhalves
  have hhalves' := ((stable_halves t).settled hhalves).mono (Manager.le_trans hle₁ hle₁')
  have hlow' := (hchoose t₀ low _ m₁ hlight₀ hlow hle₁').mono hle₁'
  have hhigh' := (hchoose t₁ high m₁ m₂ hlight₁ hhigh hle₃).mono hle₃
  exact hhalves'.bind (hlow'.bind (hhigh'.bind (settled_mkNode h₃)))

/-- **An if-then-else is settled**: once it has been computed, every fuel that covers the weight gives the same result
in every larger manager, and no new nodes. -/
theorem settled_iteWithin {k fuel : Nat} (hM : Falling M) (h : Recall.missing.iteWithin k t m = .ok r m') (hle : m' ≤ M)
    (hf : t.weight < fuel) : Settled m' (Recall.missing.iteWithin fuel t) r := by
  induction fuel generalizing k t r m m' with
  | zero => omega
  | succ fuel ih =>
    cases k with
    | zero => cases h
    | succ k =>
      rw [Recall.iteWithin] at h ⊢
      cases hs : t.simplify with
      | inl s =>
        rw [hs] at h
        cases h
        exact settled_pure _
      | inr p =>
        obtain ⟨t', b⟩ := p
        rw [hs] at h
        obtain ⟨s, m₁, hsplit, h₁⟩ := exists_of_bind_eq_ok (x := split (Recall.missing.iteWithin k) t') h
        cases h₁
        have htest : t.test.index ≠ 0 := Triple.index_simplify hs ▸ test_of_split hsplit
        have hw := Triple.weight_simplify htest hs
        have hsettled : Settled m' (split (Recall.missing.iteWithin fuel) t') s :=
          settled_split (Recall.missing_keeps.iteWithin k) (hM.of_le hle) hsplit
            fun t₂ r₂ m₂ m₃ hlight hok hle' => ih hok (Manager.le_trans hle' hle) (by omega)
        exact Settled.bind (settled_pure none) (hsettled.bind (settled_pure _))

end settled

end ReversibleLogic.Bdd
