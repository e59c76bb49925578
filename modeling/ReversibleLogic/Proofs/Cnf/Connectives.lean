import ReversibleLogic.Proofs.Cnf.Definitions

/-!
# Connectives

* `holds_andClauses`, `holds_xorClauses`, `holds_iteClauses`, `holds_orClauses` — the clauses of a connective say that
  the new literal has its value;
* `defines_and`, `defines_or`, `defines_xor`, `defines_ite`, `defines_andAll`, `defines_orAll` — the literals of the
  connectives; `connectives_define` states all of them;
* `start_eq` — the builder on a solver.
-/

namespace ReversibleLogic.Cnf

open ReversibleLogic.Sat

/-! ### clauses -/

section clauses

variable {p q r x : Literal} {s : Assignment}

theorem holds_andClauses (hp : p ≠ 0) (hq : q ≠ 0) (hx : x ≠ 0) :
    (∀ c ∈ andClauses p q x, c.holds s = true) ↔ x.holds s = (p.holds s && q.holds s) := by
  simp only [andClauses, List.forall_mem_cons, Clause.holds, List.any_cons, List.any_nil, Literal.holds_neg s hp,
    Literal.holds_neg s hq, Literal.holds_neg s hx]
  cases p.holds s <;> cases q.holds s <;> cases x.holds s <;> simp

theorem holds_xorClauses (hp : p ≠ 0) (hq : q ≠ 0) (hx : x ≠ 0) :
    (∀ c ∈ xorClauses p q x, c.holds s = true) ↔ x.holds s = (p.holds s ^^ q.holds s) := by
  simp only [xorClauses, List.forall_mem_cons, Clause.holds, List.any_cons, List.any_nil, Literal.holds_neg s hp,
    Literal.holds_neg s hq, Literal.holds_neg s hx]
  cases p.holds s <;> cases q.holds s <;> cases x.holds s <;> simp

theorem holds_iteClauses (hp : p ≠ 0) (hq : q ≠ 0) (hr : r ≠ 0) (hx : x ≠ 0) :
    (∀ c ∈ iteClauses p q r x, c.holds s = true) ↔ x.holds s = if p.holds s then q.holds s else r.holds s := by
  simp only [iteClauses, List.forall_mem_cons, Clause.holds, List.any_cons, List.any_nil, Literal.holds_neg s hp,
    Literal.holds_neg s hq, Literal.holds_neg s hr, Literal.holds_neg s hx]
  cases p.holds s <;> cases q.holds s <;> cases r.holds s <;> cases x.holds s <;> simp

theorem holds_orClauses {ls : List Literal} (hls : ∀ l ∈ ls, l ≠ 0) (hx : x ≠ 0) :
    (∀ c ∈ orClauses ls x, c.holds s = true) ↔ x.holds s = ls.any (Literal.holds s) := by
  have himplied : (∀ c ∈ ls.map fun l => [-l, x], Clause.holds s c = true) ↔
      (ls.any (Literal.holds s) = true → x.holds s = true) := by
    rw [List.forall_mem_map, List.any_eq_true]
    simp only [Clause.holds, List.any_cons, List.any_nil, Bool.or_false]
    constructor
    · rintro h ⟨l, hl, hls'⟩
      have := h l hl
      rwa [Literal.holds_neg s (hls l hl), hls', Bool.not_true, Bool.false_or] at this
    · intro h l hl
      rw [Literal.holds_neg s (hls l hl), Bool.or_eq_true, Bool.not_eq_true']
      by_cases hl' : l.holds s = true
      · exact Or.inr (h ⟨l, hl, hl'⟩)
      · exact Or.inl (Bool.eq_false_iff.2 hl')
  rw [orClauses, List.forall_mem_cons, himplied, Clause.holds, List.any_append, List.any_cons, List.any_nil,
    Literal.holds_neg s hx, Bool.or_false]
  cases ls.any (Literal.holds s) <;> cases x.holds s <;> simp

/-! the literals of a connective are its arguments and the new literal, with either sign. -/

variable {P : Literal → Prop}

theorem forall_mem_andClauses (hneg : ∀ l, P l → P (-l)) (hp : P p) (hq : P q) (hx : P x) :
    ∀ c ∈ andClauses p q x, ∀ l ∈ c, P l := by
  simp [andClauses, hneg, hp, hq, hx]

theorem forall_mem_xorClauses (hneg : ∀ l, P l → P (-l)) (hp : P p) (hq : P q) (hx : P x) :
    ∀ c ∈ xorClauses p q x, ∀ l ∈ c, P l := by
  simp [xorClauses, hneg, hp, hq, hx]

theorem forall_mem_iteClauses (hneg : ∀ l, P l → P (-l)) (hp : P p) (hq : P q) (hr : P r) (hx : P x) :
    ∀ c ∈ iteClauses p q r x, ∀ l ∈ c, P l := by
  simp [iteClauses, hneg, hp, hq, hr, hx]

theorem forall_mem_orClauses {ls : List Literal} (hneg : ∀ l, P l → P (-l)) (hls : ∀ l ∈ ls, P l) (hx : P x) :
    ∀ c ∈ orClauses ls x, ∀ l ∈ c, P l := by
  intro c hc l hl
  rcases List.mem_cons.1 hc with rfl | hc
  · rcases List.mem_append.1 hl with hl | hl
    · exact hls l hl
    · rw [List.mem_singleton.1 hl]
      exact hneg x hx
  · obtain ⟨k, hk, rfl⟩ := List.mem_map.1 hc
    rcases List.mem_pair.1 hl with rfl | rfl
    · exact hneg k (hls k hk)
    · exact hx

end clauses

/-! ### connectives -/

/-- the literal is known, or it is the new one. -/
def Theory.Admits (T : Theory) (x l : Literal) : Prop := T.Knows l ∨ l = x ∨ l = -x

theorem Theory.Admits.neg {T : Theory} {x l : Literal} (h : T.Admits x l) : T.Admits x (-l) := by
  rcases h with h | rfl | rfl
  · exact Or.inl h.neg
  · exact Or.inr (Or.inr rfl)
  · exact Or.inr (Or.inl (Int.neg_neg x))

theorem Theory.admits_self (T : Theory) (x : Literal) : T.Admits x x := Or.inr (Or.inl rfl)

section connectives

variable {σ : Type} [Solver σ] [LawfulStore σ] {b : Builder σ} {p q r : Literal} {ls : List Literal}

theorem defines_define {clauses : Literal → List Clause} {f : Assignment → Bool} (h : b.theory.Good)
    (hknown : ∀ x, ∀ c ∈ clauses x, ∀ l ∈ c, b.theory.Admits x l)
    (hf : ∀ s s', (∀ v ∈ b.theory.inUse, s v = s' v) → f s = f s')
    (hdef : ∀ x s, x ≠ 0 → ((∀ c ∈ clauses x, c.holds s = true) ↔ x.holds s = f s)) :
    Defines b (define clauses) fun x T => T.Means x f := by
  obtain ⟨v, b₁, hnew, hpos, hfresh, htheory⟩ := newVar_eq b
  have hv : (b.theory.allocate v).Knows (v : Literal) := Theory.knows_allocate hpos
  have hcs : ∀ c ∈ clauses v, ∀ l ∈ c, (b.theory.allocate v).Knows l := by
    intro c hc l hl
    rcases hknown v c hc l hl with hl | rfl | rfl
    · exact hl.mono (b.theory.le_allocate v)
    · exact hv
    · exact hv.neg
  obtain ⟨b₂, hadd, htheory'⟩ := addClauses_eq (b := b₁) (by rw [htheory]; exact hcs)
  rw [htheory] at htheory'
  have hdefine := h.define hfresh hpos hcs hf fun s _ => hdef v s hv.1
  rw [← htheory'] at hdefine
  exact ⟨v, b₂, (bind_of_ok hnew _).trans ((bind_of_ok hadd _).trans rfl), hdefine⟩

theorem defines_bottom (h : b.theory.Good) : Defines b (bottom : CnfM σ Literal) fun x T => T.Means x fun _ => false :=
  ⟨_, b, rfl, h, b.theory.defines_refl, h.means_bottom⟩

theorem defines_top (h : b.theory.Good) : Defines b (top : CnfM σ Literal) fun x T => T.Means x fun _ => true :=
  ⟨_, b, rfl, h, b.theory.defines_refl, h.means_top⟩

/-- values of known literals depend on the variables in use. -/
theorem holds_local (hp : b.theory.Knows p) {s s' : Assignment} (h : ∀ v ∈ b.theory.inUse, s v = s' v) :
    p.holds s = p.holds s' := Literal.holds_congr (h _ hp.2)

/-- **Conjunction.** -/
theorem defines_and (h : b.theory.Good) (hp : b.theory.Knows p) (hq : b.theory.Knows q) :
    Defines b (and p q) fun x T => T.Means x fun s => p.holds s && q.holds s := by
  have htop := h.holds_top
  have hneg := fun s => Literal.holds_neg s h.knows_top.1
  unfold and
  refine defines_bind_of_eq (top_eq b) ?_
  split
  · next hcase =>
    refine defines_pure h (h.means_bottom.congr ?_)
    intro s hs
    rcases hcase with rfl | rfl | rfl
    · rw [hneg, htop s hs, Bool.not_true, Bool.false_and]
    · rw [hneg, htop s hs, Bool.not_true, Bool.and_false]
    · rw [Literal.holds_neg s hq.1, Bool.not_and_self]
  split
  · next hcase =>
    refine defines_pure h (hq.means.congr ?_)
    intro s hs
    rcases hcase with rfl | rfl
    · rw [htop s hs, Bool.true_and]
    · rw [Bool.and_self]
  split
  · next hcase =>
    subst hcase
    refine defines_pure h (hp.means.congr ?_)
    intro s hs
    rw [htop s hs, Bool.and_true]
  · refine defines_define h (fun x => ?_) (fun s s' hs => ?_) fun x s hx => holds_andClauses hp.1 hq.1 hx
    · exact forall_mem_andClauses (fun _ => Theory.Admits.neg) (Or.inl hp) (Or.inl hq) (b.theory.admits_self x)
    · rw [holds_local hp hs, holds_local hq hs]

/-- **Exclusive disjunction.** -/
theorem defines_xor (h : b.theory.Good) (hp : b.theory.Knows p) (hq : b.theory.Knows q) :
    Defines b (xor p q) fun x T => T.Means x fun s => p.holds s ^^ q.holds s := by
  have htop := h.holds_top
  have hneg := fun s => Literal.holds_neg s h.knows_top.1
  unfold xor
  refine defines_bind_of_eq (top_eq b) ?_
  split
  · next hcase =>
    subst hcase
    exact defines_pure h (hq.means.congr fun s hs => by rw [hneg, htop s hs, Bool.not_true, Bool.false_xor])
  split
  · next hcase =>
    subst hcase
    exact defines_pure h (hp.means.congr fun s hs => by rw [hneg, htop s hs, Bool.not_true, Bool.xor_false])
  split
  · next hcase =>
    subst hcase
    exact defines_pure h (hq.means.neg.congr fun s hs => by rw [htop s hs, Bool.true_xor])
  split
  · next hcase =>
    subst hcase
    exact defines_pure h (hp.means.neg.congr fun s hs => by rw [htop s hs, Bool.xor_true])
  split
  · next hcase =>
    subst hcase
    exact defines_pure h (h.means_bottom.congr fun s _ => by rw [Bool.xor_self])
  split
  · next hcase =>
    subst hcase
    exact defines_pure h (h.means_top.congr fun s _ => by rw [Literal.holds_neg s hq.1, Bool.not_xor_self])
  · refine defines_define h (fun x => ?_) (fun s s' hs => ?_) fun x s hx => holds_xorClauses hp.1 hq.1 hx
    · exact forall_mem_xorClauses (fun _ => Theory.Admits.neg) (Or.inl hp) (Or.inl hq) (b.theory.admits_self x)
    · rw [holds_local hp hs, holds_local hq hs]

/-- **If-then-else.** -/
theorem defines_ite (h : b.theory.Good) (hp : b.theory.Knows p) (hq : b.theory.Knows q) (hr : b.theory.Knows r) :
    Defines b (ite p q r) fun x T => T.Means x fun s => if p.holds s then q.holds s else r.holds s := by
  have htop := h.holds_top
  have hneg := fun s => Literal.holds_neg s h.knows_top.1
  unfold ite
  refine defines_bind_of_eq (top_eq b) ?_
  split
  · next hcase =>
    refine defines_pure h (hq.means.congr ?_)
    intro s hs
    rcases hcase with rfl | rfl
    · rw [if_pos (htop s hs)]
    · rw [ite_self]
  split
  · next hcase =>
    subst hcase
    refine defines_pure h (hr.means.congr ?_)
    intro s hs
    rw [hneg, htop s hs, Bool.not_true, if_neg Bool.false_ne_true]
  split
  · next hcase =>
    obtain ⟨rfl, rfl⟩ := hcase
    refine defines_pure h (hp.means.congr ?_)
    intro s hs
    rw [hneg, htop s hs]
    cases p.holds s <;> rfl
  split
  · next hcase =>
    obtain ⟨rfl, rfl⟩ := hcase
    refine defines_pure h (hp.means.neg.congr ?_)
    intro s hs
    rw [hneg, htop s hs]
    cases p.holds s <;> rfl
  · refine defines_define h (fun x => ?_) (fun s s' hs => ?_) fun x s hx => holds_iteClauses hp.1 hq.1 hr.1 hx
    · exact forall_mem_iteClauses (fun _ => Theory.Admits.neg) (Or.inl hp) (Or.inl hq) (Or.inl hr)
        (b.theory.admits_self x)
    · rw [holds_local hp hs, holds_local hq hs, holds_local hr hs]

/-- **Disjunction**, by De Morgan's law. -/
theorem defines_or (h : b.theory.Good) (hp : b.theory.Knows p) (hq : b.theory.Knows q) :
    Defines b (or p q) fun x T => T.Means x fun s => p.holds s || q.holds s := by
  unfold or
  refine (defines_and h hp.neg hq.neg).bind fun x b' h' _ hx => defines_pure h' (hx.neg.congr fun s _ => ?_)
  rw [Literal.holds_neg s hp.1, Literal.holds_neg s hq.1, Bool.not_and, Bool.not_not, Bool.not_not]

/-! ### lists -/

theorem defines_foldl_and (h : b.theory.Good) {F : Assignment → Bool} (hp : b.theory.Means p F)
    (hls : ∀ l ∈ ls, b.theory.Knows l) :
    Defines b (ls.foldlM and p) fun x T => T.Means x fun s => F s && ls.all (Literal.holds s) := by
  induction ls generalizing b p F with
  | nil => exact defines_pure h (hp.congr fun s _ => by rw [List.all_nil, Bool.and_true])
  | cons l ls ih =>
    obtain ⟨hl, hls⟩ := List.forall_mem_cons.1 hls
    rw [List.foldlM_cons]
    refine (defines_and h hp.knows hl).bind fun x b₁ h₁ hle₁ hx => ?_
    have hx' : b₁.theory.Means x fun s => F s && l.holds s :=
      hx.congr fun s hs => by rw [hp.eval s (hle₁.sound s hs)]
    refine (ih h₁ hx' fun k hk => (hls k hk).mono hle₁).imp fun y T _ _ hy => hy.congr ?_
    intro s _
    rw [List.all_cons, Bool.and_assoc]

/-- **Conjunction of a list.** -/
theorem defines_andAll (h : b.theory.Good) (hls : ∀ l ∈ ls, b.theory.Knows l) :
    Defines b (andAll ls) fun x T => T.Means x fun s => ls.all (Literal.holds s) := by
  unfold andAll
  refine defines_bind_of_eq (top_eq b) ((defines_foldl_and h h.means_top hls).imp fun x T _ _ hx =>
    hx.congr fun s _ => Bool.true_and _)

/-- **Disjunction of a list.** -/
theorem defines_orAll (h : b.theory.Good) (hls : ∀ l ∈ ls, b.theory.Knows l) :
    Defines b (orAll ls) fun x T => T.Means x fun s => ls.any (Literal.holds s) := by
  unfold orAll
  refine defines_bind_of_eq (top_eq b) ?_
  split
  · next hcase =>
    refine defines_pure h (h.means_top.congr ?_)
    intro s hs
    exact (List.any_eq_true.2 ⟨_, List.contains_iff_mem.1 hcase, h.holds_top s hs⟩).symm
  -- the literals that are false in all models do not count
  have hfilter : ∀ s, b.theory.IsModel s →
      (ls.filter (· ≠ -b.theory.top)).any (Literal.holds s) = ls.any (Literal.holds s) := by
    intro s hs
    rw [List.any_filter, Bool.eq_iff_iff, List.any_eq_true, List.any_eq_true]
    refine exists_congr fun l => and_congr_right ?_
    intro _
    rw [Bool.and_eq_true, decide_eq_true_iff, and_iff_right_iff_imp]
    rintro hl rfl
    rw [Literal.holds_neg s h.knows_top.1, h.holds_top s hs] at hl
    cases hl
  have hkept : ∀ l ∈ ls.filter (· ≠ -b.theory.top), b.theory.Knows l := fun l hl => hls l (List.mem_of_mem_filter hl)
  cases hkeep : ls.filter (· ≠ -b.theory.top) with
  | nil => exact defines_pure h (h.means_bottom.congr fun s hs => by rw [← hfilter s hs, hkeep, List.any_nil])
  | cons k ks =>
    rw [hkeep] at hkept hfilter
    cases ks with
    | nil =>
      refine defines_pure h ((hkept k List.mem_cons_self).means.congr ?_)
      intro s hs
      rw [← hfilter s hs, List.any_cons, List.any_nil, Bool.or_false]
    | cons k' ks =>
      have hdefine : Defines b (define (orClauses (k :: k' :: ks)) : CnfM σ Literal) fun x T =>
          T.Means x fun s => (k :: k' :: ks).any (Literal.holds s) := by
        refine defines_define h (fun x => ?_) (fun s s' hs => ?_) fun x s hx =>
          holds_orClauses (fun l hl => (hkept l hl).1) hx
        · exact forall_mem_orClauses (fun _ => Theory.Admits.neg) (fun l hl => Or.inl (hkept l hl))
            (b.theory.admits_self x)
        · exact Clause.holds_congr hkept hs
      exact hdefine.imp fun x T _ hle hx => hx.congr fun s hs => hfilter s (hle.sound s hs)

/-! ### all connectives -/

/-- **Connectives are definitional extensions.** The clauses so far are about variables in use, and say that `top` is
true. From there, a connective of any known literals, constants and repeated or opposite ones among them, succeeds and
leaves every assignment of the old variables that satisfies the old clauses with exactly one extension to the new ones.
In all models of all clauses the literal that is returned has the value of the connective. -/
theorem connectives_define (hclauses : ∀ c ∈ LawfulStore.formula b.solver, ∀ l ∈ c, b.theory.Knows l)
    (htop : [b.top] ∈ LawfulStore.formula b.solver) :
    (∀ p q, b.theory.Knows p → b.theory.Knows q →
      (Defines b (and p q) fun x T => T.Means x fun s => p.holds s && q.holds s) ∧
      (Defines b (or p q) fun x T => T.Means x fun s => p.holds s || q.holds s) ∧
      Defines b (xor p q) fun x T => T.Means x fun s => p.holds s ^^ q.holds s) ∧
    (∀ p q r, b.theory.Knows p → b.theory.Knows q → b.theory.Knows r →
      Defines b (ite p q r) fun x T => T.Means x fun s => if p.holds s then q.holds s else r.holds s) ∧
    ∀ ls, (∀ l ∈ ls, b.theory.Knows l) →
      (Defines b (andAll ls) fun x T => T.Means x fun s => ls.all (Literal.holds s)) ∧
      Defines b (orAll ls) fun x T => T.Means x fun s => ls.any (Literal.holds s) := by
  have h := good_of_clauses hclauses htop
  refine ⟨fun p q hp hq => ⟨defines_and h hp hq, defines_or h hp hq, defines_xor h hp hq⟩,
    fun p q r hp hq hr => defines_ite h hp hq hr, fun ls hls => ⟨defines_andAll h hls, defines_orAll h hls⟩⟩

end connectives

theorem connectives_define_aliases :
    ∃ b : Builder TrialSolver, b.top = 1 ∧ LawfulStore.formula b.solver = [[1], [2, -3]] ∧
      LawfulStore.inUse b.solver = Set.Icc 1 3 ∧
      (Defines b (and 2 (-2)) fun x T => T.Means x fun s => Literal.holds s 2 && Literal.holds s (-2)) ∧
      (Defines b (or 2 3) fun x T => T.Means x fun s => Literal.holds s 2 || Literal.holds s 3) ∧
      (Defines b (xor (-1) 3) fun x T => T.Means x fun s => Literal.holds s (-1) ^^ Literal.holds s 3) ∧
      (Defines b (ite 3 2 (-2)) fun x T =>
        T.Means x fun s => if Literal.holds s 3 then Literal.holds s 2 else Literal.holds s (-2)) ∧
      (Defines b (andAll [2, 1, 2, -3]) fun x T => T.Means x fun s => [2, 1, 2, -3].all (Literal.holds s)) ∧
      Defines b (orAll [2, -1, -2, 2]) fun x T => T.Means x fun s => [2, -1, -2, 2].any (Literal.holds s) := by
  let b : Builder TrialSolver := ⟨⟨3, [[1], [2, -3]], by decide, none⟩, 1⟩
  have hknown : ∀ ls : List Literal, (∀ l ∈ ls, Literal.On (Set.Icc 1 3) l) → ∀ l ∈ ls, b.theory.Knows l :=
    fun _ hls => hls
  have hone : ∀ l : Literal, Literal.On (Set.Icc 1 3) l → b.theory.Knows l := fun _ hl => hl
  obtain ⟨hbinary, hite, hlists⟩ := connectives_define (b := b) b.solver.inRange List.mem_cons_self
  exact ⟨b, rfl, rfl, rfl, (hbinary _ _ (hone 2 (by decide)) (hone (-2) (by decide))).1,
    (hbinary _ _ (hone 2 (by decide)) (hone 3 (by decide))).2.1,
    (hbinary _ _ (hone (-1) (by decide)) (hone 3 (by decide))).2.2,
    hite _ _ _ (hone 3 (by decide)) (hone 2 (by decide)) (hone (-2) (by decide)),
    (hlists _ (hknown _ (by decide))).1, (hlists _ (hknown _ (by decide))).2⟩

/-! ### the first clause -/

/-- **A new builder** says what the solver says, and that `top` is true. -/
theorem start_eq {σ : Type} [Solver σ] [LawfulSolver σ] {solver : σ}
    (hvars : ∀ c ∈ LawfulSolver.formula solver, ∀ l ∈ c, Literal.On (LawfulSolver.inUse solver) l)
    (hmodel : ∃ a, (LawfulSolver.formula solver).holds a = true) :
    ∃ b, Builder.start solver = .ok b ∧ b.theory.Good ∧ ∃ a, b.theory.IsModel a := by
  obtain ⟨v, s₁, hnew, hpos, hfresh, hinUse, hformula⟩ := LawfulSolver.newVar solver
  have hv : Literal.On (LawfulSolver.inUse s₁) (v : Literal) := by
    rw [hinUse]
    exact ⟨Int.natCast_ne_zero.2 (Nat.ne_of_gt hpos), Set.mem_insert _ _⟩
  obtain ⟨s₂, hadd, hinUse', hformula'⟩ := LawfulSolver.addClause s₁ [(v : Literal)] fun l hl => by
    rw [List.mem_singleton.1 hl]
    exact hv
  have hmodels : ∀ a, (LawfulSolver.formula s₂).holds a = true ↔
      (LawfulSolver.formula solver).holds a = true ∧ (v : Literal).holds a = true := by
    intro a
    rw [hformula', hformula, Bool.and_eq_true, Clause.holds, List.any_cons, List.any_nil, Bool.or_false]
  rw [← hinUse'] at hv
  have hsubset : LawfulSolver.inUse solver ⊆ LawfulSolver.inUse s₂ := by
    rw [hinUse', hinUse]
    exact Set.subset_insert _ _
  refine ⟨⟨s₂, v⟩, ?_, ⟨fun a a' haa' ha => ?_, hv, fun a ha => ((hmodels a).1 ha).2⟩, ?_⟩
  · rw [Builder.start]
    simp only [StateT.run, hnew, hadd]
  · obtain ⟨hold, htop⟩ := (hmodels a).1 ha
    refine (hmodels a').2 ⟨?_, (Literal.holds_congr (haa' _ hv.2)).symm.trans htop⟩
    exact (Formula.holds_congr hvars fun u hu => haa' u (hsubset hu)).symm.trans hold
  · obtain ⟨a, ha⟩ := hmodel
    refine ⟨Function.update a v true, (hmodels _).2 ⟨?_, ?_⟩⟩
    · rw [← ha]
      refine Formula.holds_congr hvars fun u hu => Function.update_of_ne ?_ _ _
      rintro rfl
      exact hfresh hu
    · rw [Literal.holds_natCast, Function.update_self]

end ReversibleLogic.Cnf
