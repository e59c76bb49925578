import ReversibleLogic.Proofs.Cnf.Graphs
import ReversibleLogic.Proofs.Transform.Layers

/-!
# The check for a bijection

A graph is encoded once more over other inputs, and a guard asks for different inputs with equal outputs.

* `IsTable g n t` — the graph has `n` inputs and outputs, and simulates the table;
* `Collides n t` — two different words have the same image;
* `Harmless T g T'` — what has been added since `T` can be satisfied with the guard `g` off;
* `exists_model_iff_collides` — with the guard on, there is a model exactly if there is a collision;
* `checkInjective_eq` — so the check fails exactly if there is a collision, and excludes no model.
-/

namespace ReversibleLogic.Transform.Solving

open Cnf (Builder CnfM Theory Encodes wordOf)
open ReversibleLogic.Sat

variable {n : Nat} {l : Layers} {t : Array Nat} {T T' T'' : Theory} {g : Aig} {guard k : Literal} {s : Assignment}
  {ins others : List Literal}

/-! ### tables -/

/-- the graph has as many inputs as outputs, and simulates the table. -/
structure IsTable (g : Aig) (n : Nat) (t : Array Nat) : Prop where
  closed : g.Closed
  inputs : g.numInputs = n
  outputs : g.outputs.size = n
  simulate : ∀ x < 2 ^ n, g.simulate x = .ok (t.getD x 0)

theorem exists_isTable (hg : g.Closed) (hinputs : g.numInputs = n) (houtputs : g.outputs.size = n) :
    ∃ f : Nat → Nat, (∀ w, g.simulate w = .ok (f w)) ∧ (∀ w, f w < 2 ^ n) ∧
      IsTable g n ((Array.range (2 ^ n)).map f) := by
  refine ⟨_, hg.simulate_eq, fun w => ?_, hg, hinputs, houtputs, fun x hx => ?_⟩
  · simpa [houtputs] using Word.ofBits_lt (g.outputs.toList.map (g.eval w))
  · rw [getD_map_range _ hx, hg.simulate_eq]

/-- two different words have the same image. -/
def Collides (n : Nat) (t : Array Nat) : Prop := ∃ x < 2 ^ n, ∃ y < 2 ^ n, x ≠ y ∧ t.getD x 0 = t.getD y 0

theorem not_collides (ht : Bijection n t) : ¬ Collides n t := by
  rintro ⟨x, hx, y, hy, hne, he⟩
  exact hne (ht.inj x hx y hy he)

/-- a table without a collision, of images below `2 ^ n`, is a bijection. -/
theorem bijection_of_not_collides {f : Nat → Nat} (hlt : ∀ x < 2 ^ n, f x < 2 ^ n)
    (h : ¬ Collides n ((Array.range (2 ^ n)).map f)) : Bijection n ((Array.range (2 ^ n)).map f) := by
  refine .of_map_range hlt fun x hx y hy he => by_contra fun hne => h ⟨x, hx, y, hy, hne, ?_⟩
  rw [getD_map_range f hx, getD_map_range f hy, he]

/-! ### guarded clauses -/

/-- what has been added since `T` can be satisfied with the guard off. -/
structure Harmless (T : Theory) (guard : Literal) (T' : Theory) : Prop where
  top_eq : T'.top = T.top
  inUse : T.inUse ⊆ T'.inUse
  sound : ∀ s, T'.IsModel s → T.IsModel s
  knows : T'.Knows guard
  complete : ∀ s, T.IsModel s → ∃ s', T'.IsModel s' ∧ (∀ v ∈ T.inUse, s' v = s v) ∧ guard.holds s' = false

theorem harmless_allocate (h : T.Good) {v : Nat} (hv : v ∉ T.inUse) (hpos : 0 < v) : Harmless T v (T.allocate v) := by
  refine ⟨rfl, Set.subset_insert _ _, fun s hs => hs, Theory.knows_allocate hpos, fun s hs => ?_⟩
  obtain ⟨s', hs', hval, he⟩ := h.exists_update hv hs false
  refine ⟨s', hs', he, ?_⟩
  rw [Literal.holds_natCast, hval]

theorem Harmless.mono (h : Harmless T guard T') (hle : T' ≤ T'') : Harmless T guard T'' := by
  refine ⟨hle.top_eq.trans h.top_eq, fun v hv => hle.inUse (h.inUse hv), fun s hs => h.sound s (hle.sound s hs),
    h.knows.mono hle, fun s hs => ?_⟩
  obtain ⟨s', hs', he, hoff⟩ := h.complete s hs
  obtain ⟨s'', hs'', he'⟩ := hle.complete s' hs'
  refine ⟨s'', hs'', fun v hv => (he' v (h.inUse hv)).trans (he v hv), ?_⟩
  rw [← hoff]
  exact Literal.holds_congr (he' _ h.knows.2)

theorem Harmless.add (h : Harmless T guard T') {c : Clause} (hc : -guard ∈ c) : Harmless T guard (T'.add c) := by
  refine ⟨h.top_eq, h.inUse, fun s hs => h.sound s hs.1, h.knows, fun s hs => ?_⟩
  obtain ⟨s', hs', he, hoff⟩ := h.complete s hs
  refine ⟨s', ⟨hs', List.any_eq_true.2 ⟨-guard, hc, ?_⟩⟩, he, hoff⟩
  rw [Literal.holds_neg s' h.knows.1, hoff, Bool.not_false]

theorem Harmless.le (h : Harmless T guard T') : T ≤ T' := by
  refine ⟨h.top_eq, h.inUse, h.sound, fun s hs => ?_⟩
  obtain ⟨s', hs', he, -⟩ := h.complete s hs
  exact ⟨s', hs', he⟩

/-- **The question of the check.** With the guard on, there is a model exactly if there is a collision: `d` says that
the inputs differ from the others, `d'` that the outputs do. -/
theorem exists_model_iff_collides {T₂ T₄ T₆ : Theory} {v : Nat} {d d' : Literal} (h : Encoded T n l [] t)
    (hpos : 0 < v) (hfresh : v ∉ T.inUse) (hle₂ : T.allocate v ≤ T₂) (hothers : Fresh (T.allocate v) n others T₂)
    (hle₄ : T₂ ≤ T₄) (hd : T₄.Means d fun s => decide (wordOf s l.inputs ≠ wordOf s others))
    (hle₆ : T₄.add [-(v : Literal), d] ≤ T₆)
    (hd' : T₆.Means d' fun s => decide (t.getD (wordOf s l.inputs) 0 ≠ t.getD (wordOf s others) 0)) :
    (∃ s, (T₆.add [-(v : Literal), -d']).IsModel s ∧ Literal.holds s v = true) ↔ Collides n t := by
  have hv : (T.allocate v).Knows (v : Literal) := Theory.knows_allocate hpos
  have hv₄ : T₄.Knows (v : Literal) := (hv.mono hle₂).mono hle₄
  have hv₆ : T₆.Knows (v : Literal) := Theory.Knows.mono (T := T₄.add _) hv₄ hle₆
  have hnot : ∀ s, Literal.holds s (-d') = !d'.holds s := fun s => Literal.holds_neg s hd'.knows.1
  constructor
  · rintro ⟨s, hs, hon⟩
    obtain ⟨hs₆, hequal⟩ := (isModel_guarded hv₆).1 hs
    obtain ⟨hs₄, hdiffer⟩ := (isModel_guarded hv₄).1 (hle₆.sound s hs₆)
    have hdiffer := hdiffer hon
    have hequal := hequal hon
    rw [hd.eval s hs₄, decide_eq_true_iff] at hdiffer
    rw [hnot, hd'.eval s hs₆, Bool.not_eq_true', decide_eq_false_iff_not, not_not] at hequal
    exact ⟨_, h.inputs.length ▸ Cnf.wordOf_lt s _, _, hothers.length ▸ Cnf.wordOf_lt s _, hdiffer, hequal⟩
  · rintro ⟨x, hx, y, hy, hne, he⟩
    -- the inputs hold `x`, the guard is on, and the others hold `y`
    obtain ⟨s₀, hs₀, hx₀, -⟩ := h.free x hx
    obtain ⟨s₁, hs₁, hon₁, he₁⟩ := h.good.exists_update hfresh hs₀ true
    obtain ⟨s₂, hs₂, he₂, hy₂⟩ := hothers.free s₁ hs₁ y hy
    have hon₂ : Literal.holds s₂ v = true := by
      rw [Literal.holds_natCast, he₂ v hv.2, hon₁]
    have hx₂ : wordOf s₂ l.inputs = x := by
      rw [← hx₀]
      refine Cnf.wordOf_congr fun k hk => Literal.holds_congr ?_
      have hk := (h.inputs.knows k hk).2
      rw [he₂ _ (Set.mem_insert_of_mem v hk), he₁ _ hk]
    -- definitions keep these words
    have hin₂ : ∀ k ∈ l.inputs, T₂.Knows k := fun k hk =>
      ((h.inputs.knows k hk).mono (T.le_allocate v)).mono hle₂
    obtain ⟨s₄, hs₄, he₄⟩ := Theory.exists_model hle₄ hs₂
    have hx₄ : wordOf s₄ l.inputs = x := (Cnf.wordOf_congr fun k hk => he₄ k (hin₂ k hk)).trans hx₂
    have hy₄ : wordOf s₄ others = y := (Cnf.wordOf_congr fun k hk => he₄ k (hothers.knows k hk)).trans hy₂
    have hs₅ : (T₄.add [-(v : Literal), d]).IsModel s₄ := by
      refine (isModel_guarded hv₄).2 ⟨hs₄, fun _ => ?_⟩
      rw [hd.eval s₄ hs₄, hx₄, hy₄, decide_eq_true_iff]
      exact hne
    obtain ⟨s₆, hs₆, he₆⟩ := Theory.exists_model hle₆ hs₅
    have hsame : ∀ k, T₂.Knows k → k.holds s₆ = k.holds s₄ := fun k hk => he₆ k (hk.mono hle₄ : T₄.Knows k)
    have hx₆ : wordOf s₆ l.inputs = x := (Cnf.wordOf_congr fun k hk => hsame k (hin₂ k hk)).trans hx₄
    have hy₆ : wordOf s₆ others = y := (Cnf.wordOf_congr fun k hk => hsame k (hothers.knows k hk)).trans hy₄
    refine ⟨s₆, (isModel_guarded hv₆).2 ⟨hs₆, fun _ => ?_⟩, ?_⟩
    · rw [hnot, hd'.eval s₆ hs₆, hx₆, hy₆, he]
      simp
    · rw [hsame _ (hv.mono hle₂), he₄ _ (hv.mono hle₂), hon₂]

/-! ### the check -/

variable {σ : Type} [Solver σ] [LawfulSolver σ] {b : Builder σ}

/-- **Graphs** of tables. -/
theorem encodes_table (h : b.theory.Good) (hg : IsTable g n t) {F : Assignment → Nat}
    (hins : b.theory.MeansWord n ins F) :
    Encodes b (Cnf.encodeGraph g ins : CnfM σ (List Literal)) fun layer T =>
      T.MeansWord n layer fun s => t.getD (F s) 0 := by
  obtain ⟨hclosed, rfl, houtputs, hsimulate⟩ := hg
  have hencoded := (Cnf.defines_encodeGraph h hclosed hins hsimulate).encodes
  rwa [houtputs] at hencoded

theorem Harmless.addClause {v : Nat} (h : Harmless T v b.theory) (hb : b.theory.Good) (hk : b.theory.Knows k) :
    ∃ b', Cnf.addClause [-(v : Literal), k] b = .ok () b' ∧ b'.theory.Good ∧ Harmless T v b'.theory ∧
      b'.theory = b.theory.add [-(v : Literal), k] := by
  have hclause : ∀ j ∈ [-(v : Literal), k], b.theory.Knows j := by
    intro j hj
    rcases List.mem_pair.1 hj with rfl | rfl
    · exact h.knows.neg
    · exact hk
  obtain ⟨b', hok, htheory⟩ := Cnf.addClause_eq hclause
  refine ⟨b', hok, ?_, ?_, htheory⟩
  · rw [htheory]
    exact hb.add hclause
  · rw [htheory]
    exact h.add List.mem_cons_self

/-- **The check for a bijection** excludes no model, and fails exactly if there is a collision; then it reads two
words. -/
theorem checkInjective_eq (h : Encoded b.theory n l [] t) (hg : IsTable g n t) :
    ∃ others collision b', b'.theory.Good ∧ b.theory ≤ b'.theory ∧ (∀ k ∈ others, b'.theory.Knows k) ∧
      (collision = true ↔ Collides n t) ∧
      checkInjective g l b = (if collision = true then (do
          let first ← modelBits l.inputs
          let second ← modelBits others
          throw (.inconsistent (.notInjective (Word.ofBits first) (Word.ofBits second))))
        else pure () : CnfM σ Unit) b' := by
  obtain ⟨v, b₁, hnew, hpos, hfresh, htheory₁⟩ := Cnf.newVar_eq b
  have hb₁ : b₁.theory.Good := htheory₁ ▸ h.good.allocate v
  have hharmless₁ : Harmless b.theory v b₁.theory := htheory₁ ▸ harmless_allocate h.good hfresh hpos
  obtain ⟨others, b₂, hok₂, hb₂, hle₂, hothers⟩ := encodes_newVars hb₁ n
  have hword₂ := Theory.meansWord_wordOf hothers.length hothers.knows
  obtain ⟨otherLayer, b₃, hok₃, hb₃, hle₃, hlayer₃⟩ := encodes_table hb₂ hg hword₂
  have hharmless₃ := (hharmless₁.mono hle₂).mono hle₃
  -- the guard says that the inputs differ
  obtain ⟨d, b₄, hok₄, hb₄, hle₄, hd⟩ :=
    (Cnf.defines_encodeMismatch hb₃ (h.inputs.mono hharmless₃.le) (hword₂.mono hle₃)).encodes
  have hharmless₄ := hharmless₃.mono hle₄
  obtain ⟨b₅, hok₅, hb₅, hharmless₅, htheory₅⟩ := hharmless₄.addClause hb₄ hd.knows
  have hlayer₅ : b₅.theory.MeansWord n otherLayer _ := htheory₅ ▸ (hlayer₃.mono hle₄).add _
  -- and that the outputs do not
  obtain ⟨d', b₆, hok₆, hb₆, hle₆, hd'⟩ :=
    (Cnf.defines_encodeMismatch hb₅ (h.layer.mono hharmless₅.le) hlayer₅).encodes
  have hharmless₆ := hharmless₅.mono hle₆
  obtain ⟨b₇, hok₇, hb₇, hharmless₇, htheory₇⟩ := hharmless₆.addClause hb₆ hd'.knows.neg
  have hassume : ∀ k ∈ [(v : Literal)], b₇.theory.Knows k := fun k hk => List.mem_singleton.1 hk ▸ hharmless₇.knows
  obtain ⟨collision, b₈, hok₈, htheory₈, hcollision, -⟩ := solve_eq hassume
  have hiff : collision = true ↔ Collides n t := by
    rw [hcollision, htheory₇, ← exists_model_iff_collides h hpos hfresh (htheory₁ ▸ hle₂) (htheory₁ ▸ hothers)
      (Theory.le_trans hle₃ hle₄) hd (htheory₅ ▸ hle₆) hd']
    simp [allHold]
  -- afterwards the guard is switched off
  rw [← htheory₈] at hb₇ hharmless₇
  have hclause : ∀ k ∈ [-(v : Literal)], b₈.theory.Knows k := fun k hk => List.mem_singleton.1 hk ▸ hharmless₇.knows.neg
  obtain ⟨b₉, hok₉, htheory₉⟩ := Cnf.addClause_eq hclause
  have hharmless₉ : Harmless b.theory v b₉.theory := htheory₉ ▸ hharmless₇.add List.mem_cons_self
  have hknown : ∀ k ∈ others, b₉.theory.Knows k := by
    intro k hk
    have hk₄ : b₄.theory.Knows k := ((hothers.knows k hk).mono hle₃).mono hle₄
    have hk₅ : b₅.theory.Knows k := htheory₅ ▸ hk₄
    have hk₇ : b₇.theory.Knows k := htheory₇ ▸ (hk₅.mono hle₆ : b₆.theory.Knows k)
    have hk₈ : b₈.theory.Knows k := htheory₈ ▸ hk₇
    exact htheory₉ ▸ hk₈
  refine ⟨others, collision, b₉, htheory₉ ▸ hb₇.add hclause, hharmless₉.le, hknown, hiff, ?_⟩
  unfold checkInjective
  rw [h.inputs.length]
  exact (bind_of_ok hnew _).trans ((bind_of_ok hok₂ _).trans ((bind_of_ok hok₃ _).trans
    ((bind_of_ok hok₄ _).trans ((bind_of_ok hok₅ _).trans ((bind_of_ok hok₆ _).trans
    ((bind_of_ok hok₇ _).trans ((bind_of_ok hok₈ _).trans (bind_of_ok hok₉ _))))))))

/-- the check of a table without a collision. -/
theorem encodes_checkInjective (h : Encoded b.theory n l [] t) (hg : IsTable g n t) (hnone : ¬ Collides n t) :
    Encodes b (checkInjective g l : CnfM σ Unit) fun _ _ => True := by
  obtain ⟨others, collision, b', hb', hle, -, hiff, hok⟩ := checkInjective_eq h hg
  refine ⟨(), b', ?_, hb', hle, trivial⟩
  rw [hok, if_neg (mt hiff.1 hnone)]
  rfl

/-- the check of a table with a collision, if the values of the literals can be read. -/
theorem checkInjective_eq_error (h : Encoded b.theory n l [] t) (hg : IsTable g n t) (hcollides : Collides n t)
    (hread : ∀ (solver : σ) k, Literal.On (LawfulSolver.inUse solver) k → ∃ o, Solver.value solver k = .ok o) :
    ∃ x y b', checkInjective g l b = .error (.inconsistent (.notInjective x y)) b' ∧ b'.theory.Good ∧
      b.theory ≤ b'.theory := by
  obtain ⟨others, collision, b', hb', hle, hothers, hiff, hok⟩ := checkInjective_eq h hg
  have hvalue : ∀ k, ∃ o, b'.theory.Knows k → Solver.value b'.solver k = .ok o := fun k => by
    by_cases hk : b'.theory.Knows k
    · obtain ⟨o, ho⟩ := hread b'.solver k hk
      exact ⟨o, fun _ => ho⟩
    · exact ⟨none, fun hk' => absurd hk' hk⟩
  choose o ho using hvalue
  have hfirst : modelBits l.inputs b' = .ok _ b' :=
    modelBits_eq_map fun k hk => ho k ((h.inputs.knows k hk).mono hle)
  have hsecond : modelBits others b' = .ok _ b' := modelBits_eq_map fun k hk => ho k (hothers k hk)
  rw [if_pos (hiff.2 hcollides)] at hok
  exact ⟨_, _, b', hok.trans ((bind_of_ok hfirst _).trans (bind_of_ok hsecond _)), hb', hle⟩

end ReversibleLogic.Transform.Solving
