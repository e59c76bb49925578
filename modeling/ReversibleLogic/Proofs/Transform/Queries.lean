import ReversibleLogic.Proofs.Cnf.Cascades
import ReversibleLogic.Transform.Solving

/-!
# Queries to a lawful solver

* `encodes_newVars` — new variables can hold every word;
* `query_eq` — a query finds some model of the clauses and the assumptions, if there is one;
* `Settled` — the upper bits of the inputs are those of all smallest models, and the assumptions say so;
* `minimize_eq` — whatever models the solver picks, the input that is found in the end is the smallest one.
-/

namespace ReversibleLogic.Transform.Solving

open Cnf (Builder CnfM Theory Encodes wordOf)
open ReversibleLogic.Sat

variable {σ : Type} [Solver σ] {b : Builder σ} {n k w : Nat} {a s : Assignment} {ls assumptions : List Literal}
  {x : Literal}

/-- bits that can be read; a bit without a value counts as clear. -/
theorem modelBits_eq_map {f : Literal → Option Bool} (h : ∀ l ∈ ls, Solver.value b.solver l = .ok (f l)) :
    modelBits ls b = .ok (ls.map fun l => (f l).getD false) b := by
  have hmap : (ls.mapM fun l => do return (← Solver.value b.solver l).getD false : Except Error (List Bool)) =
      .ok (ls.map fun l => (f l).getD false) :=
    mapM_eq_ok fun l hl => by rw [h l hl]; rfl
  have hget : (get : CnfM σ (Builder σ)) b = .ok b b := rfl
  refine (bind_of_ok hget _).trans ?_
  show Cnf.ofExcept _ b = _
  rw [hmap]
  rfl

theorem modelBits_eq (h : ∀ l ∈ ls, Solver.value b.solver l = .ok (some (l.holds s))) :
    modelBits ls b = .ok (ls.map (Literal.holds s)) b :=
  modelBits_eq_map (f := fun l => some (l.holds s)) h

variable [LawfulSolver σ]

/-! ### new variables -/

/-- the literals are known, and next to every model of `T` they can hold every word. -/
structure Fresh (T : Theory) (n : Nat) (ls : List Literal) (T' : Theory) : Prop where
  length : ls.length = n
  knows : ∀ l ∈ ls, T'.Knows l
  free : ∀ s, T.IsModel s → ∀ w < 2 ^ n, ∃ s', T'.IsModel s' ∧ (∀ v ∈ T.inUse, s' v = s v) ∧ wordOf s' ls = w

theorem Fresh.cons {T T₁ T₂ : Theory} (h : T.Good) {v : Nat} (hv : v ∉ T.inUse) (hpos : 0 < v)
    (h₁ : T₁ = T.allocate v) (hls : Fresh T₁ n ls T₂) (hle : T₁ ≤ T₂) : Fresh T (n + 1) ((v : Literal) :: ls) T₂ := by
  subst h₁
  have hknown : (T.allocate v).Knows (v : Literal) := Theory.knows_allocate hpos
  refine ⟨by rw [List.length_cons, hls.length], List.forall_mem_cons.2 ⟨hknown.mono hle, hls.knows⟩,
    fun s hs w hw => ?_⟩
  -- the new variable holds the lowest bit, the others hold the upper bits
  obtain ⟨s₁, hs₁, hbit, he₁⟩ := h.exists_update hv hs (w.testBit 0)
  have hw' : w / 2 < 2 ^ n := by
    rw [Nat.pow_succ] at hw
    omega
  obtain ⟨s₂, hs₂, he₂, hword⟩ := hls.free s₁ hs₁ (w / 2) hw'
  have hsub : ∀ u ∈ T.inUse, u ∈ (T.allocate v).inUse := fun u hu => Set.mem_insert_of_mem v hu
  refine ⟨s₂, hs₂, fun u hu => (he₂ u (hsub u hu)).trans (he₁ u hu), ?_⟩
  have hlit : (v : Literal).holds s₂ = w.testBit 0 := by
    rw [Literal.holds_natCast, ← hbit]
    exact he₂ v hknown.2
  have hcons : wordOf s₂ ((v : Literal) :: ls) = ((v : Literal).holds s₂).toNat + 2 * wordOf s₂ ls := rfl
  rw [hcons, hlit, hword, Nat.toNat_testBit, Nat.pow_zero, Nat.div_one, Nat.mod_add_div]

theorem encodes_mapM_newVar (h : b.theory.Good) (xs : List Nat) :
    Encodes b (xs.mapM fun _ => Cnf.newVar : CnfM σ (List Literal)) (Fresh b.theory xs.length) := by
  induction xs generalizing b with
  | nil =>
    refine Cnf.encodes_pure h ⟨rfl, List.forall_mem_nil _, fun s hs w hw => ⟨s, hs, fun _ _ => rfl, ?_⟩⟩
    rw [List.length_nil, Nat.pow_zero] at hw
    exact (Nat.lt_one_iff.1 hw).symm
  | cons x xs ih =>
    obtain ⟨v, b₁, hnew, hpos, hfresh, htheory⟩ := Cnf.newVar_eq b
    obtain ⟨ls, b₂, hok, h₂, hle, hls⟩ := ih (htheory ▸ h.allocate v)
    refine ⟨(v : Literal) :: ls, b₂, ?_, h₂, ?_, hls.cons h hfresh hpos htheory hle⟩
    · rw [List.mapM_cons]
      exact (bind_of_ok hnew _).trans (bind_of_ok hok _)
    · refine Theory.le_trans ?_ hle
      rw [htheory]
      exact b.theory.le_allocate v

/-- **New variables** can hold every word. -/
theorem encodes_newVars (h : b.theory.Good) (n : Nat) : Encodes b (newVars n) (Fresh b.theory n) := by
  have hvars := encodes_mapM_newVar h (List.range n)
  rwa [List.length_range] at hvars

/-! ### answers -/

theorem solve_eq (h : ∀ l ∈ assumptions, b.theory.Knows l) :
    ∃ answer b', solve assumptions b = .ok answer b' ∧ b'.theory = b.theory ∧
      (answer = true ↔ ∃ s, b.theory.IsModel s ∧ allHold s assumptions = true) ∧
      (answer = true → ∃ s, b.theory.IsModel s ∧ allHold s assumptions = true ∧
        ∀ l, b.theory.Knows l → Solver.value b'.solver l = .ok (some (l.holds s))) := by
  obtain ⟨answer, s', hok, hinUse, hformula, hiff, hmodel⟩ := LawfulSolver.solve b.solver assumptions h
  refine ⟨answer, ⟨s', b.top⟩, ?_, ?_, hiff, hmodel⟩
  · rw [solve, Cnf.onSolver, hok]
  · show Theory.mk (fun a => (LawfulSolver.formula s').holds a = true) (LawfulSolver.inUse s') b.top = _
    rw [hinUse, hformula]
    rfl

def modelOf (l : Layers) (s : Assignment) : Model :=
  ⟨l.inputs.map (Literal.holds s), l.layer.map (Literal.holds s)⟩

theorem query_eq {l : Layers} (hin : ∀ x ∈ l.inputs, b.theory.Knows x) (hlayer : ∀ x ∈ l.layer, b.theory.Knows x)
    (h : ∀ x ∈ assumptions, b.theory.Knows x) :
    ∃ o b', query l assumptions b = .ok o b' ∧ b'.theory = b.theory ∧
      ((o = none ∧ ∀ s, b.theory.IsModel s → allHold s assumptions = false) ∨
        ∃ s, o = some (modelOf l s) ∧ b.theory.IsModel s ∧ allHold s assumptions = true) := by
  obtain ⟨answer, b', hok, htheory, hiff, hmodel⟩ := solve_eq h
  unfold query
  rw [bind_of_ok hok]
  cases answer with
  | false =>
    refine ⟨none, b', rfl, htheory, Or.inl ⟨rfl, fun s hs => Bool.eq_false_iff.2 fun hall => ?_⟩⟩
    exact absurd (hiff.2 ⟨s, hs, hall⟩) Bool.false_ne_true
  | true =>
    obtain ⟨s, hs, hall, hvalue⟩ := hmodel rfl
    refine ⟨some (modelOf l s), b', ?_, htheory, Or.inr ⟨s, rfl, hs, hall⟩⟩
    rw [if_pos rfl, bind_of_ok (modelBits_eq fun x hx => hvalue x (hin x hx)),
      bind_of_ok (modelBits_eq fun x hx => hvalue x (hlayer x hx))]
    rfl

/-! ### the smallest input -/

theorem shiftRight_split (w k : Nat) : w >>> k = 2 * (w >>> (k + 1)) + (w.testBit k).toNat := by
  rw [Nat.toNat_testBit, Nat.shiftRight_eq_div_pow, Nat.shiftRight_eq_div_pow, Nat.pow_succ, ← Nat.div_div_eq_div_mul,
    Nat.div_add_mod]

/-- in the set `S` of models, the inputs of `s` are smallest from bit `k` on, and the assumptions select the models with
these bits. -/
structure Settled (T : Theory) (inputs : List Literal) (S : Assignment → Prop) (k : Nat) (assumptions : List Literal)
    (s : Assignment) : Prop where
  model : S s
  knows : ∀ x ∈ assumptions, T.Knows x
  selects : ∀ a, T.IsModel a ∧ allHold a assumptions = true ↔ S a ∧ wordOf a inputs >>> k = wordOf s inputs >>> k
  least : ∀ a, S a → wordOf s inputs >>> k ≤ wordOf a inputs >>> k

theorem allHold_concat (a : Assignment) (ls : List Literal) (x : Literal) :
    allHold a (ls ++ [x]) = (allHold a ls && x.holds a) := by
  simp [allHold]

/-- one more bit is settled: it is as in `s'`, which has the upper bits of `s`, and it is set only if it has to be. -/
theorem Settled.concat {T : Theory} {inputs : List Literal} {S : Assignment → Prop} {s' : Assignment} {x y : Literal}
    (h : Settled T inputs S (k + 1) assumptions s) (hx : inputs[k]? = some x) (hs' : S s')
    (hupper : wordOf s' inputs >>> (k + 1) = wordOf s inputs >>> (k + 1)) (hy : T.Knows y)
    (hbit : ∀ a, y.holds a = true ↔ x.holds a = x.holds s')
    (hset : x.holds s' = true → ∀ a, S a → wordOf a inputs >>> (k + 1) = wordOf s inputs >>> (k + 1) →
      x.holds a = true) : Settled T inputs S k (assumptions ++ [y]) s' := by
  have hsplit : ∀ a, wordOf a inputs >>> k = 2 * (wordOf a inputs >>> (k + 1)) + (x.holds a).toNat := fun a => by
    rw [shiftRight_split, Cnf.testBit_wordOf hx]
  refine ⟨hs', fun l hl => ?_, fun a => ?_, fun a ha => ?_⟩
  · rcases List.mem_append.1 hl with hl | hl
    · exact h.knows l hl
    · rw [List.mem_singleton.1 hl]
      exact hy
  · rw [allHold_concat, Bool.and_eq_true, ← and_assoc, h.selects a, hbit a, hsplit a, hsplit s', hupper, and_assoc,
      and_congr_right_iff]
    intro _
    cases x.holds a <;> cases x.holds s' <;> simp <;> omega
  · have hle := h.least a ha
    rw [hsplit a, hsplit s', hupper]
    cases hc : x.holds s' with
    | false =>
      rw [Bool.toNat_false]
      omega
    | true =>
      by_cases he : wordOf a inputs >>> (k + 1) = wordOf s inputs >>> (k + 1)
      · rw [he, hset hc a ha he]
      · have hbound := Bool.toNat_le true
        omega

/-- **Minimization.** Whatever models the solver picks, the input that is found is the smallest one. -/
theorem minimize_eq {l : Layers} {S : Assignment → Prop} (hin : ∀ x ∈ l.inputs, b.theory.Knows x)
    (hlayer : ∀ x ∈ l.layer, b.theory.Knows x) (hk : k ≤ l.inputs.length)
    (h : Settled b.theory l.inputs S k assumptions s) :
    ∃ s' b', minimize l ((l.inputs.take k).zipIdx.reverse) assumptions (modelOf l s) b = .ok (modelOf l s') b' ∧
      b'.theory = b.theory ∧ S s' ∧ ∀ a, S a → wordOf s' l.inputs ≤ wordOf a l.inputs := by
  induction k generalizing b s assumptions with
  | zero => exact ⟨s, b, rfl, rfl, h.model, h.least⟩
  | succ k ih =>
    have hx : l.inputs[k]? = some l.inputs[k] := List.getElem?_eq_getElem hk
    generalize l.inputs[k] = x at hx
    have hrest : (l.inputs.take (k + 1)).zipIdx.reverse = (x, k) :: (l.inputs.take k).zipIdx.reverse := by
      rw [List.take_add_one, hx, List.zipIdx_append, List.reverse_append, List.length_take, Nat.min_eq_left (by omega)]
      simp
    have hxknown := hin x (List.mem_of_getElem? hx)
    have hbit : (modelOf l s).inputs.getD k false = x.holds s := by
      rw [modelOf, List.getD_eq_getElem?_getD, List.getElem?_map, hx]
      rfl
    have hneg : ∀ a, Literal.holds a (-x) = !x.holds a := fun a => Literal.holds_neg a hxknown.1
    rw [hrest, minimize, hbit]
    cases hsx : x.holds s with
    | false =>
      refine ih hin hlayer (by omega) (h.concat hx h.model rfl hxknown.neg (fun a => ?_)
        fun hc => absurd (hsx.symm.trans hc) Bool.false_ne_true)
      rw [hneg, hsx, Bool.not_eq_true']
    | true =>
      have hassume : ∀ y ∈ assumptions ++ [-x], b.theory.Knows y := by
        intro y hy
        rcases List.mem_append.1 hy with hy | hy
        · exact h.knows y hy
        · rw [List.mem_singleton.1 hy]
          exact hxknown.neg
      obtain ⟨o, b₁, hok, htheory, ho⟩ := query_eq hin hlayer hassume
      rw [Bool.not_true, if_neg Bool.false_ne_true, bind_of_ok hok]
      rw [← htheory] at hin hlayer h
      rcases ho with ⟨rfl, hnone⟩ | ⟨s', rfl, hs', hall⟩
      · -- no smaller model, so the bit is set in all smallest models
        have hset : ∀ a, S a → wordOf a l.inputs >>> (k + 1) = wordOf s l.inputs >>> (k + 1) → x.holds a = true := by
          intro a ha he
          have hsel := (h.selects a).2 ⟨ha, he⟩
          have hall := hnone a (htheory ▸ hsel.1)
          rw [allHold_concat, hsel.2, hneg, Bool.true_and, Bool.not_eq_false'] at hall
          exact hall
        obtain ⟨s'', b', hok', htheory', hmin⟩ := ih hin hlayer (by omega) (h.concat hx h.model rfl
          (hin x (List.mem_of_getElem? hx)) (fun a => by rw [hsx]) fun _ => hset)
        exact ⟨s'', b', hok', htheory'.trans htheory, hmin⟩
      · rw [allHold_concat, hneg, Bool.and_eq_true, Bool.not_eq_true'] at hall
        obtain ⟨hS, hupper⟩ := (h.selects s').1 ⟨htheory ▸ hs', hall.1⟩
        obtain ⟨s'', b', hok', htheory', hmin⟩ := ih hin hlayer (by omega) (h.concat hx hS hupper
          (hin x (List.mem_of_getElem? hx)).neg (fun a => by rw [hneg, hall.2, Bool.not_eq_true'])
          fun hc => absurd (hall.2.symm.trans hc) Bool.false_ne_true)
        exact ⟨s'', b', hok', htheory'.trans htheory, hmin⟩

end ReversibleLogic.Transform.Solving
