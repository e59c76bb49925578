import ReversibleLogic.Proofs.Bdd.Replay

/-!
# Managers of different sizes

Neither the buckets nor the computed table of a manager show in its results or in the numbers of its nodes.

* `Twin` — managers with the same nodes; what the computed table of the first one holds is settled (`Replays`);
* `Follows` — a computation of the first manager is repeated in the second one, with the same result;
* `follows_iteWithin` — an if-then-else that looks results up is followed by one that computes them all again;
* `Call.follows`, `Call.exists_twin` — so is every call;
* `observe` — what a client sees of a sequence of calls;
* `same_observations` — managers of any sizes, and one without a computed table, look the same.
-/

namespace ReversibleLogic.Bdd

variable {α β : Type} {m m' m₁ m₂ M : Manager}

/-! ### managers with the same nodes -/

/-- splitting the triple again gives `r`, now and later. -/
def Replays (m : Manager) (t : Triple) (r : Ref) : Prop :=
  t.test.index ≠ 0 ∧ ∀ fuel, t.weight ≤ fuel → Settled m (split (Recall.missing.iteWithin fuel) t) r

theorem Replays.mono {t : Triple} {r : Ref} (h : Replays m t r) (hle : m ≤ m') : Replays m' t r :=
  ⟨h.1, fun fuel hf => (h.2 fuel hf).mono hle⟩

/-- managers with the same nodes in any buckets; the second one can do without the computed table of the first one. -/
structure Twin (m₁ m₂ : Manager) : Prop where
  values : m₂.nodes.values = m₁.nodes.values
  lawful_fst : m₁.nodes.Lawful
  lawful_snd : m₂.nodes.Lawful
  replays : m₁.computed.All (Replays m₁)

theorem Twin.le (h : Twin m₁ m₂) : m₁ ≤ m₂ := fun i n hn => by
  rw [Storage.Table.value?, h.values]
  exact hn

theorem Twin.ge (h : Twin m₁ m₂) : m₂ ≤ m₁ := fun i n hn => by
  rw [Storage.Table.value?, ← h.values]
  exact hn

theorem Twin.size_eq (h : Twin m₁ m₂) : m₂.size = m₁.size := congrArg Array.size h.values

/-! ### computations side by side -/

/-- whenever `x` succeeds below `M`, `y` succeeds in every twin, with the same result and with twins as managers. -/
structure Follows (M : Manager) (x y : BddM α) : Prop where
  grows : Grows x
  exists_twin : ∀ m₁ m₂ a m₁', Twin m₁ m₂ → x m₁ = .ok a m₁' → m₁' ≤ M → ∃ m₂', y m₂ = .ok a m₂' ∧ Twin m₁' m₂'

section follows

variable {x y : BddM α} {f g : α → BddM β}

theorem Stable.follows (hx : Stable x) : Follows M x x := by
  refine ⟨hx.grows, fun m₁ m₂ a m₁' htwin hok _ => ?_⟩
  obtain ⟨rfl, hsame⟩ := hx m₁ a m₁' hok
  exact ⟨m₂, hsame m₂ htwin.le, htwin⟩

theorem Follows.bind (hxy : Follows M x y) (hfg : ∀ a, Follows M (f a) (g a)) : Follows M (x >>= f) (y >>= g) := by
  refine ⟨hxy.grows.bind fun a => (hfg a).grows, fun m₁ m₂ b m₁'' htwin hok hle => ?_⟩
  obtain ⟨a, m₁', ha, hb⟩ := exists_of_bind_eq_ok hok
  have hle' : m₁' ≤ M := Manager.le_trans ((hfg a).grows _ _ _ hb) hle
  obtain ⟨m₂', ha', htwin'⟩ := hxy.exists_twin m₁ m₂ a m₁' htwin ha hle'
  obtain ⟨m₂'', hb', htwin''⟩ := (hfg a).exists_twin m₁' m₂' b m₁'' htwin' hb hle
  exact ⟨m₂'', (bind_of_ok ha' g).trans hb', htwin''⟩

theorem follows_store (n : Node) : Follows M (store n) (store n) := by
  refine ⟨grows_store n, fun m₁ m₂ r m₁' htwin hok _ => ?_⟩
  have hgrows := grows_store n m₁ r m₁' hok
  obtain ⟨hnumber, hvalues⟩ := Storage.Table.put_congr htwin.lawful_fst htwin.lawful_snd htwin.values n
  rw [store_eq] at hok
  cases hok
  refine ⟨⟨(m₂.nodes.put n).2, m₂.computed⟩, ?_, hvalues, ?_, ?_, ?_⟩
  · rw [store_eq, hnumber]
  · exact (Storage.Table.lawful_put htwin.lawful_fst n).1
  · exact (Storage.Table.lawful_put htwin.lawful_snd n).1
  · exact htwin.replays.imp fun t r hr => hr.mono hgrows

theorem follows_mkRegular (v : Nat) (low high : Ref) : Follows M (mkRegular v low high) (mkRegular v low high) := by
  unfold mkRegular
  split
  · exact (stable_pure _).follows
  · exact follows_store _

theorem follows_mkNode (v : Nat) (low high : Ref) : Follows M (mkNode v low high) (mkNode v low high) := by
  unfold mkNode
  split
  · exact (stable_misuse _).follows
  · split
    · exact (follows_mkRegular _ _ _).bind fun _ => (stable_pure _).follows
    · exact follows_mkRegular _ _ _

theorem follows_literal (v : Nat) (positive : Bool) : Follows M (literal v positive) (literal v positive) :=
  (follows_mkNode _ _ _).bind fun _ => (stable_pure _).follows

theorem follows_conjoinLiteral (r : Ref) (l : Int) : Follows M (conjoinLiteral r l) (conjoinLiteral r l) := by
  unfold conjoinLiteral
  split
  · exact (stable_misuse _).follows
  · split
    · exact follows_mkNode _ _ _
    · exact follows_mkNode _ _ _

theorem follows_cube (ls : List Int) : Follows M (cube ls) (cube ls) := by
  unfold cube
  generalize sortLiterals ls = ls
  generalize Ref.one = r
  induction ls generalizing r with
  | nil => exact (stable_pure _).follows
  | cons l ls ih =>
    rw [List.foldlM_cons]
    exact (follows_conjoinLiteral r l).bind ih

end follows

/-! ### if-then-else -/

section recursion

variable {choose choose' : Triple → BddM Ref} {t : Triple} {r : Ref}

/-- splits follow each other if the choices of lighter triples do. -/
theorem follows_split (hM : Falling M) (hgrows : ∀ t', Grows (choose t'))
    (hchoose : ∀ t', t'.weight < t.weight → Follows M (choose t') (choose' t')) :
    Follows M (split choose t) (split choose' t) := by
  refine ⟨grows_split hgrows t, fun m₁ m₂ r m₁' htwin hok hle => ?_⟩
  have hle' := Manager.le_trans (grows_split hgrows t m₁ r m₁' hok) hle
  obtain ⟨⟨top, t₀, t₁⟩, m₀, hhalves, hrest⟩ := exists_of_bind_eq_ok hok
  obtain ⟨rfl, hsame⟩ := stable_halves t m₁ _ m₀ hhalves
  obtain ⟨hlight₀, hlight₁⟩ := halves_spec (hM.of_le hle') hhalves
  have hfollows := (hchoose t₀ hlight₀).bind fun low => (hchoose t₁ hlight₁).bind fun high =>
    follows_mkNode top low high
  obtain ⟨m₂', hrest', htwin'⟩ := hfollows.exists_twin _ m₂ r m₁' htwin hrest hle
  exact ⟨m₂', (bind_of_ok (hsame m₂ htwin.le) _).trans hrest', htwin'⟩

/-- what has just been split without the table replays. -/
theorem replays_of_split {fuel : Nat} (hm : Falling m') (h : split (Recall.missing.iteWithin fuel) t m = .ok r m') :
    Replays m' t r := by
  refine ⟨test_of_split h, fun fuel' hf => ?_⟩
  refine settled_split (fun t' => Recall.missing_keeps.iteWithin fuel t') hm h ?_
  intro t' r' m₃ m₄ hlight hok hle
  exact settled_iteWithin hm hok hle (by omega)

/-- a lookup keeps the nodes, and what it finds replays. -/
theorem Twin.computed? (h : Twin m₁ m₂) {found : Option Ref} (hok : Bdd.computed? t m₁ = .ok found m') :
    Twin m' m₂ ∧ ∀ r, found = some r → Replays m' t r := by
  obtain ⟨hall, hget⟩ := h.replays.get t
  cases hok
  exact ⟨⟨h.values, h.lawful_fst, h.lawful_snd, hall⟩, hget⟩

theorem Twin.remember (h : Twin m₁ m₂) (hr : Replays m₁ t r) (hok : Bdd.remember t r m₁ = .ok () m') :
    Twin m' m₂ := by
  cases hok
  exact ⟨h.values, h.lawful_fst, h.lawful_snd, h.replays.insert hr⟩

/-- **The computed table does not show.** An if-then-else that looks results up is followed by one that computes each
of them again: where the first one finds a result, the second one replays its split. -/
theorem follows_iteWithin (hM : Falling M) {k fuel : Nat} (hf : t.weight < fuel) :
    Follows M (Recall.table.iteWithin k t) (Recall.missing.iteWithin fuel t) := by
  induction k generalizing t fuel with
  | zero =>
    refine ⟨(stable_misuse _).grows, fun m₁ m₂ r m₁' _ hok _ => ?_⟩
    cases hok
  | succ k ih =>
    obtain ⟨fuel, rfl⟩ : ∃ n, fuel = n + 1 := ⟨fuel - 1, by omega⟩
    refine ⟨Recall.table_keeps.iteWithin (k + 1) t, fun m₁ m₂ r m₁' htwin hok hle => ?_⟩
    rw [Recall.iteWithin] at hok ⊢
    cases hs : t.simplify with
    | inl s =>
      rw [hs] at hok
      cases hok
      exact ⟨m₂, rfl, htwin⟩
    | inr p =>
      obtain ⟨t', b⟩ := p
      rw [hs] at hok
      dsimp only at hok ⊢
      have hindex := Triple.index_simplify hs
      obtain ⟨found, m₀, hlookup, hok⟩ := exists_of_bind_eq_ok hok
      obtain ⟨htwin, hfound⟩ := htwin.computed? hlookup
      cases found with
      | some s =>
        cases hok
        obtain ⟨htest, hreplays⟩ := hfound s rfl
        have hw := Triple.weight_simplify (hindex ▸ htest) hs
        have hsplit := hreplays fuel (by omega) m₂ htwin.le htwin.lawful_snd
        exact ⟨m₂, bind_of_ok hsplit _, htwin⟩
      | none =>
        obtain ⟨s, m₃, hsplit, hok⟩ := exists_of_bind_eq_ok hok
        obtain ⟨u, m₄, hkeep, hok⟩ := exists_of_bind_eq_ok hok
        cases hok
        have hw := Triple.weight_simplify (hindex ▸ test_of_split hsplit) hs
        have hle₃ := Manager.le_trans (Recall.table_keeps.keep _ _ _ _ _ hkeep) hle
        obtain ⟨m₂', hsplit', htwin'⟩ := (follows_split hM (Recall.table_keeps.iteWithin k)
          fun t'' hlight => ih (show t''.weight < fuel by omega)).exists_twin m₀ m₂ s m₃ htwin hsplit hle₃
        have hreplays := replays_of_split (hM.of_le (Manager.le_trans htwin'.ge hle₃)) hsplit'
        exact ⟨m₂', bind_of_ok hsplit' _, htwin'.remember (hreplays.mono htwin'.ge) hkeep⟩

theorem follows_ite (hM : Falling M) (f g h : Ref) : Follows M (Recall.table.ite f g h) (Recall.missing.ite f g h) :=
  follows_iteWithin hM (Nat.lt_succ_self _)

theorem follows_conjAll (hM : Falling M) (r : Ref) (fs : List Ref) :
    Follows M (Recall.table.conjAll r fs) (Recall.missing.conjAll r fs) := by
  induction fs generalizing r with
  | nil => exact (stable_pure _).follows
  | cons f fs ih =>
    refine (follows_ite hM r f .zero).bind fun next => ?_
    split
    · exact (stable_pure _).follows
    · exact ih next

theorem follows_disjAll (hM : Falling M) (r : Ref) (fs : List Ref) :
    Follows M (Recall.table.disjAll r fs) (Recall.missing.disjAll r fs) := by
  induction fs generalizing r with
  | nil => exact (stable_pure _).follows
  | cons f fs ih =>
    refine (follows_ite hM r .one f).bind fun next => ?_
    split
    · exact (stable_pure _).follows
    · exact ih next

end recursion

/-! ### walks -/

section walks

variable {x y : MemoM α} {f g : α → MemoM β}

/-- the same for computations that keep results of their own: they keep the same ones. -/
def FollowsKeeping (M : Manager) (x y : MemoM α) : Prop := ∀ memo, Follows M (x memo) (y memo)

theorem Follows.lift {x y : BddM α} (h : Follows M x y) :
    FollowsKeeping M (monadLift x : MemoM α) (monadLift y : MemoM α) :=
  fun _ => h.bind fun _ => (stable_pure _).follows

theorem followsKeeping_pure (a : α) : FollowsKeeping M (pure a) (pure a) := fun _ => (stable_pure _).follows

theorem FollowsKeeping.bind (hxy : FollowsKeeping M x y) (hfg : ∀ a, FollowsKeeping M (f a) (g a)) :
    FollowsKeeping M (x >>= f) (y >>= g) :=
  fun memo => (hxy memo).bind fun p => hfg p.1 p.2

theorem followsKeeping_memoized {x y : MemoM Ref} (f : Ref) (h : FollowsKeeping M x y) :
    FollowsKeeping M (memoized f x) (memoized f y) := by
  unfold memoized
  refine FollowsKeeping.bind (fun _ => (stable_pure _).follows) fun memo => ?_
  split
  · exact followsKeeping_pure _
  · exact h.bind fun r => FollowsKeeping.bind (fun _ => (stable_pure _).follows) fun _ => followsKeeping_pure r

theorem FollowsKeeping.run' (h : FollowsKeeping M x y) (memo : Memo) : Follows M (x.run' memo) (y.run' memo) := by
  show Follows M (Prod.fst <$> x memo) (Prod.fst <$> y memo)
  rw [map_eq_pure_bind, map_eq_pure_bind]
  exact (h memo).bind fun _ => (stable_pure _).follows

theorem followsKeeping_restrictWithin (values : Binding Bool) (fuel : Nat) (f : Ref) :
    FollowsKeeping M (restrictWithin values fuel f) (restrictWithin values fuel f) := by
  induction fuel generalizing f with
  | zero => exact (stable_misuse _).follows.lift
  | succ fuel ih =>
    rw [restrictWithin]
    split
    · exact followsKeeping_pure f
    · refine followsKeeping_memoized f ?_
      refine (stable_variableOf f).follows.lift.bind fun v => ?_
      split
      · exact (stable_high f).follows.lift.bind ih
      · exact (stable_low f).follows.lift.bind ih
      · exact (stable_low f).follows.lift.bind fun low => (ih low).bind fun low =>
          (stable_high f).follows.lift.bind fun high => (ih high).bind fun high => (follows_mkNode v low high).lift

theorem followsKeeping_composeWithin (hM : Falling M) (map : Binding Ref) (fuel : Nat) (f : Ref) :
    FollowsKeeping M (Recall.table.composeWithin map fuel f) (Recall.missing.composeWithin map fuel f) := by
  induction fuel generalizing f with
  | zero => exact (stable_misuse _).follows.lift
  | succ fuel ih =>
    rw [Recall.composeWithin, Recall.composeWithin]
    split
    · exact followsKeeping_pure f
    · refine (followsKeeping_memoized _ ?_).bind fun r => followsKeeping_pure _
      refine (stable_variableOf _).follows.lift.bind fun v => ?_
      refine (stable_low _).follows.lift.bind fun low => (ih low).bind fun low => ?_
      refine (stable_high _).follows.lift.bind fun high => (ih high).bind fun high => ?_
      split
      · exact (followsKeeping_pure _).bind fun selector => (follows_ite hM selector high low).lift
      · exact (follows_mkNode v _ _).lift.bind fun selector => (follows_ite hM selector high low).lift

theorem followsKeeping_existsWithin (hM : Falling M) (fuel : Nat) (f : Ref) (vars : List Nat) :
    FollowsKeeping M (Recall.table.existsWithin fuel f vars) (Recall.missing.existsWithin fuel f vars) := by
  induction fuel generalizing f vars with
  | zero => exact (stable_misuse _).follows.lift
  | succ fuel ih =>
    rw [Recall.existsWithin, Recall.existsWithin]
    split
    · exact followsKeeping_pure f
    · refine (stable_variableOf f).follows.lift.bind fun v => ?_
      cases vars.dropWhile (· < v) with
      | nil => exact followsKeeping_pure f
      | cons u us =>
        refine followsKeeping_memoized f ?_
        refine (stable_low f).follows.lift.bind fun low => (ih low _).bind fun low => ?_
        split
        · split
          · exact followsKeeping_pure low
          · exact (stable_high f).follows.lift.bind fun high => (ih high _).bind fun high =>
              (follows_ite hM low .one high).lift
        · exact (stable_high f).follows.lift.bind fun high => (ih high _).bind fun high =>
            (follows_mkNode v low high).lift

end walks

/-! ### calls -/

/-- every call follows itself in a manager without a computed table. -/
theorem Call.follows (hM : Falling M) (call : Call) : Follows M (call.runWith .table) (call.runWith .missing) := by
  cases call with
  | op o =>
    cases o with
    | var v => exact follows_mkNode v _ _
    | literal v positive => exact follows_literal v positive
    | node v low high => exact follows_mkNode v low high
    | cube ls => exact follows_cube ls
    | ite f g h => exact follows_ite hM f g h
    | restrict f values => exact (followsKeeping_restrictWithin values _ f).run' ∅
    | compose f map => exact (followsKeeping_composeWithin hM map _ f).run' ∅
    | existsOver f vars => exact (followsKeeping_existsWithin hM _ f _).run' ∅
    | forallOver f vars =>
      exact ((followsKeeping_existsWithin hM _ (-f) _).run' ∅).bind fun r => (stable_pure _).follows
  | conj f g => exact follows_ite hM _ _ _
  | disj f g => exact follows_ite hM _ _ _
  | xor f g => exact follows_ite hM _ _ _
  | iff f g => exact follows_ite hM _ _ _
  | imply f g => exact follows_ite hM _ _ _
  | conjAll fs => exact follows_conjAll hM _ _
  | disjAll fs => exact follows_disjAll hM _ _

/-- an allowed call succeeds in a twin without a computed table as well, with the same result. -/
theorem Call.exists_twin {call : Call} (h : Reached m₁) (htwin : Twin m₁ m₂) (hcall : call.Allowed m₁) :
    ∃ r m₁' m₂', call.run m₁ = .ok r m₁' ∧ call.runWith .missing m₂ = .ok r m₂' ∧ Reached m₁' ∧ Twin m₁' m₂' := by
  obtain ⟨r, m₁', hok, h'⟩ := Call.exists_run h hcall
  have hfollows := Call.follows (wellFormed_of_reached h').toOrdered.falling call
  rw [Call.runWith_table] at hfollows
  obtain ⟨m₂', hok', htwin'⟩ := hfollows.exists_twin m₁ m₂ r m₁' htwin hok (Manager.le_refl _)
  exact ⟨r, m₁', m₂', hok, hok', h', htwin'⟩

/-! ### what a client sees -/

/-- a sequence of calls, with the result of each one and the number of nodes after it. -/
def observe (exec : Call → BddM Ref) : List Call → BddM (List (Ref × Nat))
  | [] => pure []
  | call :: calls => do
    let r ← exec call
    let size ← ask fun m => return m.size
    return (r, size) :: (← observe exec calls)

/-- each call is allowed in the manager that the calls before it lead to. -/
def AllowedInTurn (m : Manager) : List Call → Prop
  | [] => True
  | call :: calls => call.Allowed m ∧ ∀ r m', call.run m = .ok r m' → AllowedInTurn m' calls

variable {calls : List Call} {seen : List (Ref × Nat)} {b₁ b₂ b₃ : Nat}

theorem observe_cons {exec : Call → BddM Ref} {call : Call} {r : Ref} {m'' : Manager} (hcall : exec call m = .ok r m')
    (hcalls : observe exec calls m' = .ok seen m'') :
    observe exec (call :: calls) m = .ok ((r, m'.size) :: seen) m'' := by
  have hsize : ask (fun m => return m.size) m' = .ok m'.size m' := ask_eq rfl
  rw [observe, bind_of_ok hcall]
  exact (bind_of_ok hsize _).trans (bind_of_ok hcalls _)

/-- two managers and a third one, which is a twin of both, show the same. -/
theorem exists_observe {m₃ : Manager} (h₁ : Reached m₁) (h₂ : Reached m₂) (htwin₁ : Twin m₁ m₃) (htwin₂ : Twin m₂ m₃)
    (hcalls : AllowedInTurn m₁ calls) :
    ∃ seen m₁' m₂' m₃', observe Call.run calls m₁ = .ok seen m₁' ∧ observe Call.run calls m₂ = .ok seen m₂' ∧
      observe (Call.runWith .missing) calls m₃ = .ok seen m₃' := by
  induction calls generalizing m₁ m₂ m₃ with
  | nil => exact ⟨[], m₁, m₂, m₃, rfl, rfl, rfl⟩
  | cons call calls ih =>
    obtain ⟨hcall, hrest⟩ := hcalls
    obtain ⟨r, m₁', m₃', hok₁, hok₃, h₁', htwin₁'⟩ := Call.exists_twin h₁ htwin₁ hcall
    have hcall₂ := hcall.mono (Manager.le_trans htwin₁.le htwin₂.ge)
    obtain ⟨r', m₂', m₃'', hok₂, hok₃', h₂', htwin₂'⟩ := Call.exists_twin h₂ htwin₂ hcall₂
    -- both runs without a table are the same one
    rw [hok₃] at hok₃'
    cases hok₃'
    obtain ⟨seen, m₁'', m₂'', m₃'', hseen₁, hseen₂, hseen₃⟩ := ih h₁' h₂' htwin₁' htwin₂' (hrest r m₁' hok₁)
    refine ⟨(r, m₃'.size) :: seen, m₁'', m₂'', m₃'', ?_, ?_, observe_cons hok₃ hseen₃⟩
    · rw [htwin₁'.size_eq]
      exact observe_cons hok₁ hseen₁
    · rw [htwin₂'.size_eq]
      exact observe_cons hok₂ hseen₂

/-! ### new managers -/

theorem exists_empty {b : Nat} (h : b ≤ 30) : ∃ m, Manager.empty b = .ok m := by
  have hnodes : ¬ Storage.Table.maxBits < b := by
    unfold Storage.Table.maxBits
    omega
  have hcomputed : ¬ Storage.Cache.maxBits < min (max b 10) 20 := by
    unfold Storage.Cache.maxBits
    omega
  unfold Manager.empty
  rw [Storage.Table.empty, if_neg hnodes, ok_bind, Storage.Cache.empty, if_neg hcomputed, ok_bind]
  exact ⟨_, rfl⟩

theorem twin_empty (h₁ : Manager.empty b₁ = .ok m₁) (h₂ : Manager.empty b₂ = .ok m₂) : Twin m₁ m₂ := by
  have hlawful₁ := (wellFormed_empty h₁).lawful
  have hlawful₂ := (wellFormed_empty h₂).lawful
  obtain ⟨nodes₁, computed₁, hn₁, hc₁, rfl⟩ := exists_of_empty h₁
  obtain ⟨nodes₂, computed₂, hn₂, -, rfl⟩ := exists_of_empty h₂
  have hvalues : nodes₂.values = nodes₁.values := by
    rw [Storage.Table.values_empty hn₁, Storage.Table.values_empty hn₂]
  have hput := Storage.Table.put_congr (Storage.Table.lawful_empty hn₁) (Storage.Table.lawful_empty hn₂) hvalues
    (⟨0, ⟨0⟩, ⟨0⟩⟩ : Node)
  exact ⟨hput.2, hlawful₁, hlawful₂, Storage.Cache.all_empty hc₁⟩

/-- **Storage does not show.** Managers of any two sizes, and a manager of any size whose computed table always misses,
give the same references, and have the same number of nodes after each call. -/
theorem same_observations (h₁ : b₁ ≤ 30) (h₂ : b₂ ≤ 30) (h₃ : b₃ ≤ 30) :
    ∃ m₁ m₂ m₃, Manager.empty b₁ = .ok m₁ ∧ Manager.empty b₂ = .ok m₂ ∧ Manager.empty b₃ = .ok m₃ ∧
      ∀ calls, AllowedInTurn m₁ calls → ∃ seen m₁' m₂' m₃', observe Call.run calls m₁ = .ok seen m₁' ∧
        observe Call.run calls m₂ = .ok seen m₂' ∧ observe (Call.runWith .missing) calls m₃ = .ok seen m₃' := by
  obtain ⟨m₁, hm₁⟩ := exists_empty h₁
  obtain ⟨m₂, hm₂⟩ := exists_empty h₂
  obtain ⟨m₃, hm₃⟩ := exists_empty h₃
  exact ⟨m₁, m₂, m₃, hm₁, hm₂, hm₃, fun calls hcalls =>
    exists_observe (.empty hm₁) (.empty hm₂) (twin_empty hm₁ hm₃) (twin_empty hm₂ hm₃) hcalls⟩

theorem same_observations_difference :
    ∃ m₁ m₂ m₃, Manager.empty 0 = .ok m₁ ∧ Manager.empty 30 = .ok m₂ ∧ Manager.empty 12 = .ok m₃ ∧
      ∃ seen m₁' m₂' m₃', observe Call.run [.op (.var 1), .op (.var 2), .xor ⟨2⟩ ⟨3⟩, .op (.existsOver ⟨4⟩ [2])] m₁ =
          .ok seen m₁' ∧
        observe Call.run [.op (.var 1), .op (.var 2), .xor ⟨2⟩ ⟨3⟩, .op (.existsOver ⟨4⟩ [2])] m₂ = .ok seen m₂' ∧
        observe (Call.runWith .missing) [.op (.var 1), .op (.var 2), .xor ⟨2⟩ ⟨3⟩, .op (.existsOver ⟨4⟩ [2])] m₃ =
          .ok seen m₃' := by
  obtain ⟨m₁, m₂, m₃, h₁, h₂, h₃, hsame⟩ :=
    same_observations (by decide : 0 ≤ 30) (by decide : 30 ≤ 30) (by decide : 12 ≤ 30)
  refine ⟨m₁, m₂, m₃, h₁, h₂, h₃, hsame _ ?_⟩
  cases h₁
  refine ⟨⟨by decide, by decide⟩, fun r m hok => ?_⟩
  cases hok
  refine ⟨⟨by decide, by decide⟩, fun r m hok => ?_⟩
  cases hok
  refine ⟨⟨⟨_, rfl⟩, ⟨_, rfl⟩⟩, fun r m hok => ?_⟩
  cases hok
  refine ⟨⟨_, rfl⟩, fun r m hok => trivial⟩

end ReversibleLogic.Bdd
