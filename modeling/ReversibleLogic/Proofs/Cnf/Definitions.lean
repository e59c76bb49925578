import Mathlib.Data.List.Forall2
import Mathlib.Logic.Function.Basic
import ReversibleLogic.Cnf.Builder
import ReversibleLogic.Proofs.Computation
import ReversibleLogic.Proofs.Sat.Laws

/-!
# Clauses that define literals

Only the models of the clauses matter, with the variables in use and the literal that is true in all of them.

* `Theory` — models, variables and the true literal of a builder;
* `Theory.Means T l f` — in every model the literal `l` has the value `f`;
* `T ≤ T'` — every model of `T'` is one of `T`, and every model of `T` extends to one of `T'`;
* `Theory.Defines T T'` — it extends in exactly one way;
* `good_of_clauses` — clauses over the variables in use, with the unit clause of `top` among them, can be extended;
* `Encodes b x Q` — the computation `x` succeeds from the builder `b`, extends its theory, and its result satisfies `Q`;
* `Defines b x Q` — the same, and all that is added are definitions.
-/

namespace ReversibleLogic.Cnf

open ReversibleLogic.Sat

/-- the models of some clauses, the variables in use, and a literal that is true in all models. -/
structure Theory where
  IsModel : Assignment → Prop
  inUse : Set Nat
  top : Literal

namespace Theory

variable {T T' T'' : Theory} {l : Literal} {f g : Assignment → Bool} {a a' : Assignment}

/-- the literal has a variable in use. -/
def Knows (T : Theory) (l : Literal) : Prop := l.On T.inUse

/-- the models depend on the variables in use only, and `top` is true in them. -/
structure Good (T : Theory) : Prop where
  congr : ∀ a a', (∀ v ∈ T.inUse, a v = a' v) → T.IsModel a → T.IsModel a'
  knows_top : T.Knows T.top
  holds_top : ∀ a, T.IsModel a → T.top.holds a = true

/-- definitions have been added. -/
structure Extends (T T' : Theory) : Prop where
  top_eq : T'.top = T.top
  inUse : T.inUse ⊆ T'.inUse
  sound : ∀ a, T'.IsModel a → T.IsModel a
  complete : ∀ a, T.IsModel a → ∃ a', T'.IsModel a' ∧ ∀ v ∈ T.inUse, a' v = a v

instance : LE Theory := ⟨Extends⟩

/-- only definitions have been added: the old variables determine the new ones. -/
structure Defines (T T' : Theory) : Prop where
  le : T ≤ T'
  unique : ∀ a a', T'.IsModel a → T'.IsModel a' → (∀ v ∈ T.inUse, a v = a' v) → ∀ v ∈ T'.inUse, a v = a' v

/-- in every model the literal has the value `f`. -/
structure Means (T : Theory) (l : Literal) (f : Assignment → Bool) : Prop where
  knows : T.Knows l
  eval : ∀ a, T.IsModel a → l.holds a = f a

theorem le_refl (T : Theory) : T ≤ T := ⟨rfl, fun _ hv => hv, fun _ ha => ha, fun a ha => ⟨a, ha, fun _ _ => rfl⟩⟩

theorem le_trans (h : T ≤ T') (h' : T' ≤ T'') : T ≤ T'' := by
  refine ⟨h'.top_eq.trans h.top_eq, fun v hv => h'.inUse (h.inUse hv), fun a ha => h.sound a (h'.sound a ha),
    fun a ha => ?_⟩
  obtain ⟨a', ha', he⟩ := h.complete a ha
  obtain ⟨a'', ha'', he'⟩ := h'.complete a' ha'
  exact ⟨a'', ha'', fun v hv => (he' v (h.inUse hv)).trans (he v hv)⟩

theorem defines_refl (T : Theory) : T.Defines T := ⟨T.le_refl, fun _ _ _ _ h => h⟩

theorem Defines.trans (h : T.Defines T') (h' : T'.Defines T'') : T.Defines T'' :=
  ⟨le_trans h.le h'.le, fun a a' ha ha' he =>
    h'.unique a a' ha ha' (h.unique a a' (h'.le.sound a ha) (h'.le.sound a' ha') he)⟩

theorem Knows.mono (h : T.Knows l) (hle : T ≤ T') : T'.Knows l := Literal.On.mono h hle.inUse

theorem Knows.neg (h : T.Knows l) : T.Knows (-l) := Literal.On.neg h

theorem exists_model (hle : T ≤ T') (ha : T.IsModel a) :
    ∃ a', T'.IsModel a' ∧ ∀ l, T.Knows l → l.holds a' = l.holds a := by
  obtain ⟨a', ha', he⟩ := hle.complete a ha
  exact ⟨a', ha', fun l hl => Literal.holds_congr (he _ hl.2)⟩

theorem Knows.means (h : T.Knows l) : T.Means l (l.holds ·) := ⟨h, fun _ _ => rfl⟩

theorem Means.mono (h : T.Means l f) (hle : T ≤ T') : T'.Means l f :=
  ⟨h.knows.mono hle, fun a ha => h.eval a (hle.sound a ha)⟩

theorem Means.congr (h : T.Means l f) (hfg : ∀ a, T.IsModel a → f a = g a) : T.Means l g :=
  ⟨h.knows, fun a ha => (h.eval a ha).trans (hfg a ha)⟩

theorem Means.neg (h : T.Means l f) : T.Means (-l) fun a => !f a :=
  ⟨h.knows.neg, fun a ha => by rw [Literal.holds_neg a h.knows.1, h.eval a ha]⟩

theorem Good.means_top (h : T.Good) : T.Means T.top fun _ => true := ⟨h.knows_top, h.holds_top⟩

theorem Good.means_bottom (h : T.Good) : T.Means (-T.top) fun _ => false := h.means_top.neg

/-! ### variables and clauses -/

def allocate (T : Theory) (v : Nat) : Theory := ⟨T.IsModel, insert v T.inUse, T.top⟩

def add (T : Theory) (c : Clause) : Theory := ⟨fun a => T.IsModel a ∧ c.holds a = true, T.inUse, T.top⟩

def addAll (T : Theory) (cs : List Clause) : Theory := cs.foldl add T

theorem addAll_inUse (T : Theory) (cs : List Clause) : (T.addAll cs).inUse = T.inUse := by
  induction cs generalizing T with
  | nil => rfl
  | cons c cs ih => exact ih (T.add c)

theorem addAll_top (T : Theory) (cs : List Clause) : (T.addAll cs).top = T.top := by
  induction cs generalizing T with
  | nil => rfl
  | cons c cs ih => exact ih (T.add c)

theorem isModel_addAll {cs : List Clause} : (T.addAll cs).IsModel a ↔ T.IsModel a ∧ ∀ c ∈ cs, c.holds a = true := by
  induction cs generalizing T with
  | nil => simp [addAll]
  | cons c cs ih =>
    refine (ih (T := T.add c)).trans ?_
    rw [List.forall_mem_cons, ← and_assoc]
    rfl

theorem Good.allocate (h : T.Good) (v : Nat) : (T.allocate v).Good :=
  ⟨fun a a' hv ha => h.congr a a' (fun u hu => hv u (Set.mem_insert_of_mem v hu)) ha,
    Literal.On.mono h.knows_top (Set.subset_insert _ _), h.holds_top⟩

theorem Good.add (h : T.Good) {c : Clause} (hc : ∀ l ∈ c, T.Knows l) : (T.add c).Good :=
  ⟨fun a a' hv ha => ⟨h.congr a a' hv ha.1, (Clause.holds_congr hc hv).symm.trans ha.2⟩, h.knows_top,
    fun a ha => h.holds_top a ha.1⟩

theorem Good.addAll {cs : List Clause} (h : T.Good) (hcs : ∀ c ∈ cs, ∀ l ∈ c, T.Knows l) : (T.addAll cs).Good := by
  induction cs generalizing T with
  | nil => exact h
  | cons c cs ih =>
    obtain ⟨hc, hcs⟩ := List.forall_mem_cons.1 hcs
    exact ih (h.add hc) hcs

theorem le_allocate (T : Theory) (v : Nat) : T ≤ T.allocate v :=
  ⟨rfl, Set.subset_insert _ _, fun _ ha => ha, fun a ha => ⟨a, ha, fun _ _ => rfl⟩⟩

theorem knows_allocate {v : Nat} (hv : 0 < v) : (T.allocate v).Knows (v : Literal) :=
  ⟨Int.natCast_ne_zero.2 (Nat.ne_of_gt hv), Set.mem_insert _ _⟩

/-- a fresh variable can have any value. -/
theorem Good.exists_update (h : T.Good) {v : Nat} (hv : v ∉ T.inUse) (ha : T.IsModel a) (b : Bool) :
    ∃ a', T.IsModel a' ∧ a' v = b ∧ ∀ u ∈ T.inUse, a' u = a u := by
  have hne : ∀ u ∈ T.inUse, Function.update a v b u = a u := by
    intro u hu
    refine Function.update_of_ne ?_ _ _
    rintro rfl
    exact hv hu
  exact ⟨Function.update a v b, h.congr _ _ (fun u hu => (hne u hu).symm) ha, Function.update_self .., hne⟩

/-- **A definition** of a fresh variable. -/
theorem Good.define (h : T.Good) {v : Nat} (hv : v ∉ T.inUse) (hpos : 0 < v) {cs : List Clause}
    (hcs : ∀ c ∈ cs, ∀ l ∈ c, (T.allocate v).Knows l)
    (hf : ∀ a a', (∀ u ∈ T.inUse, a u = a' u) → f a = f a')
    (hdef : ∀ a, T.IsModel a → ((∀ c ∈ cs, c.holds a = true) ↔ (v : Literal).holds a = f a)) :
    ((T.allocate v).addAll cs).Good ∧ T.Defines ((T.allocate v).addAll cs) ∧
      ((T.allocate v).addAll cs).Means v f := by
  -- in a model the new variable has the value of the definition
  have hvalue : ∀ a, ((T.allocate v).addAll cs).IsModel a → a v = f a := fun a ha => by
    obtain ⟨ha, hc⟩ := isModel_addAll.1 ha
    exact (Literal.holds_natCast a v).symm.trans ((hdef a ha).1 hc)
  refine ⟨(h.allocate v).addAll hcs, ⟨⟨addAll_top _ _, ?_, fun a ha => (isModel_addAll.1 ha).1, fun a ha => ?_⟩,
    fun a a' ha ha' he u hu => ?_⟩, ?_, fun a ha => (Literal.holds_natCast a v).trans (hvalue a ha)⟩
  · rw [addAll_inUse]
    exact Set.subset_insert _ _
  · obtain ⟨a', ha', hv', he⟩ := h.exists_update hv ha (f a)
    refine ⟨a', isModel_addAll.2 ⟨ha', (hdef a' ha').2 ?_⟩, he⟩
    rw [Literal.holds_natCast, hv', hf a' a he]
  · rw [addAll_inUse] at hu
    rcases hu with rfl | hu
    · rw [hvalue a ha, hvalue a' ha', hf a a' he]
    · exact he u hu
  · rw [Knows, addAll_inUse]
    exact knows_allocate hpos

end Theory

/-! ### builders -/

variable {σ : Type} [Solver σ] [LawfulStore σ] {α β : Type}

def Builder.theory (b : Builder σ) : Theory :=
  ⟨fun a => (LawfulStore.formula b.solver).holds a = true, LawfulStore.inUse b.solver, b.top⟩

variable {b b' : Builder σ}

/-- clauses over the variables in use, with the unit clause of `top` among them. -/
theorem good_of_clauses (hclauses : ∀ c ∈ LawfulStore.formula b.solver, ∀ l ∈ c, b.theory.Knows l)
    (htop : [b.top] ∈ LawfulStore.formula b.solver) : b.theory.Good := by
  refine ⟨fun s s' he hs => (Formula.holds_congr hclauses he).symm.trans hs,
    hclauses _ htop _ (List.mem_singleton_self _), fun s hs => ?_⟩
  have hunit : Clause.holds s [b.top] = true := List.all_eq_true.1 hs _ htop
  rwa [Clause.holds, List.any_cons, List.any_nil, Bool.or_false] at hunit

theorem newVar_eq (b : Builder σ) : ∃ (v : Nat) (b' : Builder σ), newVar b = .ok (v : Literal) b' ∧ 0 < v ∧
    v ∉ b.theory.inUse ∧ b'.theory = b.theory.allocate v := by
  obtain ⟨v, s', hnew, hpos, hfresh, hvars, hformula⟩ := LawfulStore.newVar b.solver
  refine ⟨v, ⟨s', b.top⟩, ?_, hpos, hfresh, ?_⟩
  · rw [newVar]
    simp only [StateT.run]
    rw [hnew]
  · rw [Builder.theory, hvars, hformula]
    rfl

theorem addClause_eq {c : Clause} (hc : ∀ l ∈ c, b.theory.Knows l) :
    ∃ b', addClause c b = .ok () b' ∧ b'.theory = b.theory.add c := by
  obtain ⟨s', hadd, hvars, hformula⟩ := LawfulStore.addClause b.solver c hc
  refine ⟨⟨s', b.top⟩, ?_, ?_⟩
  · rw [addClause, onSolver, hadd]
  · have hmodels : (fun a => (LawfulStore.formula s').holds a = true) = (b.theory.add c).IsModel := by
      funext a
      rw [hformula a, Bool.and_eq_true]
      rfl
    rw [Builder.theory, hvars, hmodels]
    rfl

theorem addClauses_eq {cs : List Clause} (hcs : ∀ c ∈ cs, ∀ l ∈ c, b.theory.Knows l) :
    ∃ b', cs.forM addClause b = .ok () b' ∧ b'.theory = b.theory.addAll cs := by
  induction cs generalizing b with
  | nil => exact ⟨b, rfl, rfl⟩
  | cons c cs ih =>
    obtain ⟨hc, hcs⟩ := List.forall_mem_cons.1 hcs
    obtain ⟨b₁, hadd, htheory⟩ := addClause_eq hc
    obtain ⟨b₂, hadds, htheory'⟩ := ih (b := b₁) fun c hc l hl => by
      rw [htheory]
      exact hcs c hc l hl
    refine ⟨b₂, (bind_of_ok hadd _).trans hadds, htheory'.trans ?_⟩
    rw [htheory]
    rfl

/-- from `b` the computation succeeds with a result and a theory that satisfy `Q`. -/
def Encodes (b : Builder σ) (x : CnfM σ α) (Q : α → Theory → Prop) : Prop :=
  ∃ r b', x b = .ok r b' ∧ b'.theory.Good ∧ b.theory ≤ b'.theory ∧ Q r b'.theory

/-- the same, and only definitions are added. -/
def Defines (b : Builder σ) (x : CnfM σ α) (Q : α → Theory → Prop) : Prop :=
  ∃ r b', x b = .ok r b' ∧ b'.theory.Good ∧ b.theory.Defines b'.theory ∧ Q r b'.theory

section defines

variable {x : CnfM σ α} {k : α → CnfM σ β} {Q : α → Theory → Prop} {R : β → Theory → Prop}

theorem encodes_pure (h : b.theory.Good) {r : α} (hQ : Q r b.theory) : Encodes b (pure r : CnfM σ α) Q :=
  ⟨r, b, rfl, h, b.theory.le_refl, hQ⟩

theorem Defines.encodes (hx : Defines b x Q) : Encodes b x Q := by
  obtain ⟨r, b', hok, hb', hdef, hQ⟩ := hx
  exact ⟨r, b', hok, hb', hdef.le, hQ⟩

theorem defines_pure (h : b.theory.Good) {r : α} (hQ : Q r b.theory) : Defines b (pure r : CnfM σ α) Q :=
  ⟨r, b, rfl, h, b.theory.defines_refl, hQ⟩

theorem Defines.bind (hx : Defines b x Q)
    (hk : ∀ (r : α) (b' : Builder σ), b'.theory.Good → b.theory ≤ b'.theory → Q r b'.theory → Defines b' (k r) R) :
    Defines b (x >>= k) R := by
  obtain ⟨r, b', hok, hb', hdef, hQ⟩ := hx
  obtain ⟨r', b'', hok', hb'', hdef', hR⟩ := hk r b' hb' hdef.le hQ
  exact ⟨r', b'', (bind_of_ok hok k).trans hok', hb'', hdef.trans hdef', hR⟩

theorem Defines.imp {Q' : α → Theory → Prop} (hx : Defines b x Q) (h : ∀ r T, T.Good → b.theory ≤ T → Q r T → Q' r T) :
    Defines b x Q' := by
  obtain ⟨r, b', hok, hb', hdef, hQ⟩ := hx
  exact ⟨r, b', hok, hb', hdef, h r _ hb' hdef.le hQ⟩

/-- a first computation that leaves the builder as it is. -/
theorem defines_bind_of_eq {r : α} (hx : x b = .ok r b) (hk : Defines b (k r) R) : Defines b (x >>= k) R := by
  obtain ⟨r', b', hok, hb', hdef, hR⟩ := hk
  exact ⟨r', b', (bind_of_ok hx k).trans hok, hb', hdef, hR⟩

theorem top_eq (b : Builder σ) : (top : CnfM σ Literal) b = .ok b.theory.top b := rfl

theorem defines_mapM {f : α → CnfM σ β} {P : α → β → Theory → Prop} {xs : List α} (h : b.theory.Good)
    (hmono : ∀ x y (T T' : Theory), T ≤ T' → P x y T → P x y T')
    (hf : ∀ x ∈ xs, ∀ b' : Builder σ, b'.theory.Good → b.theory ≤ b'.theory → Defines b' (f x) (P x)) :
    Defines b (xs.mapM f) fun ys T => List.Forall₂ (fun x y => P x y T) xs ys := by
  induction xs generalizing b with
  | nil => exact defines_pure h .nil
  | cons x xs ih =>
    rw [List.mapM_cons]
    refine (hf x List.mem_cons_self b h b.theory.le_refl).bind fun y b₁ h₁ hle₁ hy => ?_
    refine (ih h₁ fun x' hx' b' h' hle' => hf x' (List.mem_cons_of_mem _ hx') b' h' (Theory.le_trans hle₁ hle')).bind
      fun ys b₂ h₂ hle₂ hys => defines_pure h₂ (.cons (hmono _ _ _ _ hle₂ hy) hys)

end defines

end ReversibleLogic.Cnf
