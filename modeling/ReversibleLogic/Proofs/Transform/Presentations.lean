import ReversibleLogic.Proofs.Cnf.Diagrams
import ReversibleLogic.Proofs.Relation.Functions
import ReversibleLogic.Proofs.Transform.Injectivity

/-!
# Encodings of the presentations

* `Presents p n t` — the presentation stands for the table `t`;
* `encode_eq` — the clauses of a presentation stand for its table.
-/

namespace ReversibleLogic.Transform.Solving

open Bdd (Manager)
open Cnf (Builder CnfM Theory Encodes wordOf valuesOf)
open ReversibleLogic.Relation (Represents graph graph_iff pairAssignment)
open ReversibleLogic.Sat

variable {n : Nat} {l : Layers} {t : Array Nat} {T T' T'' : Theory} {g : Aig} {m : Manager} {r : Relation}
  {xs ys layer : List Literal}

/-! ### presentations of tables -/

/-- the presentation stands for the table. -/
inductive Presents : Presentation → Nat → Array Nat → Prop
  | relation {m : Manager} {r : Relation} {t : Array Nat} (hm : m.Ordered) (hr : Represents m r (graph t)) :
    Presents (.relation m r) r.lines t
  | functions {g : Aig} {n : Nat} {t : Array Nat} (hg : IsTable g n t) : Presents (.functions n g) n t
  | circuit {c : Circuit} {t : Array Nat} (hc : ∀ g ∈ c.gates, g.Within c.lines)
    (ht : ∀ x < 2 ^ c.lines, c.simulate x = t.getD x 0) : Presents (.circuit c) c.lines t
  | graph {g : Aig} {n : Nat} {t : Array Nat} (hg : IsTable g n t) : Presents (.graph g) n t

/-! ### relations -/

def lineVars (r : Relation) (xs ys : List Literal) : Bdd.Binding Literal :=
  .ofEntries (((List.range r.lines).zip (xs.zip ys)).flatMap fun p =>
    [(r.inputVar p.1, p.2.1), (r.outputVar p.1, p.2.2)])

theorem nodup_lineVars (hxs : xs.length = r.lines) (hys : ys.length = r.lines) :
    ((((List.range r.lines).zip (xs.zip ys)).flatMap fun p =>
      [(r.inputVar p.1, p.2.1), (r.outputVar p.1, p.2.2)]).map Prod.fst).Nodup := by
  have hkeys : (((List.range r.lines).zip (xs.zip ys)).flatMap fun p =>
      [(r.inputVar p.1, p.2.1), (r.outputVar p.1, p.2.2)]).map Prod.fst =
        (List.range r.lines).flatMap fun line => [r.inputVar line, r.outputVar line] := by
    have hzip : (List.range r.lines).length ≤ (xs.zip ys).length := by simp [hxs, hys]
    conv_rhs => rw [← List.map_fst_zip hzip]
    rw [List.map_flatMap, List.flatMap_map]
    rfl
  rw [hkeys, List.nodup_flatMap]
  refine ⟨fun i _ => ?_, List.nodup_range.imp_of_mem fun {i j} hi hj hij => ?_⟩
  · simpa using Relation.inputVar_ne_outputVar r i i
  · rw [List.mem_range] at hi hj
    have hne : r.inputVar j ≠ r.inputVar i := fun h => by
      unfold Relation.inputVar at h
      omega
    have hne' : r.outputVar j ≠ r.outputVar i := fun h => hne (Nat.succ.inj h)
    simp [Function.onFun, hne, hne', Relation.inputVar_ne_outputVar, (Relation.inputVar_ne_outputVar r i j).symm]

theorem getElem?_lineVars (hxs : xs.length = r.lines) (hys : ys.length = r.lines) {i : Nat} (hi : i < r.lines) :
    (lineVars r xs ys)[r.inputVar i]? = xs[i]? ∧ (lineVars r xs ys)[r.outputVar i]? = ys[i]? := by
  have hkeys := nodup_lineVars hxs hys
  have hmem : (i, xs[i], ys[i]) ∈ (List.range r.lines).zip (xs.zip ys) :=
    List.mem_iff_getElem.2 ⟨i, by simp [hxs, hys, hi], by simp⟩
  constructor
  · rw [List.getElem?_eq_getElem (hxs ▸ hi)]
    refine Bdd.Binding.getElem?_ofEntries_of_mem (List.mem_flatMap.2 ⟨_, hmem, ?_⟩) hkeys
    exact List.mem_cons_self
  · rw [List.getElem?_eq_getElem (hys ▸ hi)]
    refine Bdd.Binding.getElem?_ofEntries_of_mem (List.mem_flatMap.2 ⟨_, hmem, ?_⟩) hkeys
    exact List.mem_cons_of_mem _ List.mem_cons_self

theorem eval_lineVars (hr : Represents m r (graph t)) (hxs : xs.length = r.lines) (hys : ys.length = r.lines)
    (s : Assignment) :
    m.eval (valuesOf (lineVars r xs ys) s) r.root = graph t (wordOf s xs) (wordOf s ys) := by
  rw [← hr.value _ (hxs ▸ Cnf.wordOf_lt s xs) _ (hys ▸ Cnf.wordOf_lt s ys)]
  refine hr.onLines _ _ (Relation.agree_of_lines ?_)
  intro i hi
  obtain ⟨hx, hy⟩ := getElem?_lineVars hxs hys hi
  have hx' : xs[i]? = some xs[i] := List.getElem?_eq_getElem (hxs ▸ hi)
  have hy' : ys[i]? = some ys[i] := List.getElem?_eq_getElem (hys ▸ hi)
  rw [Relation.pairAssignment_input hi, Relation.pairAssignment_output hi, Cnf.testBit_wordOf hx',
    Cnf.testBit_wordOf hy']
  exact ⟨Cnf.valuesOf_of_some (hx.trans hx') s, Cnf.valuesOf_of_some (hy.trans hy') s⟩

theorem maps_lineVars (hr : Represents m r (graph t)) (hxs : xs.length = r.lines) (hys : ys.length = r.lines)
    (hknown : ∀ x ∈ xs, T.Knows x) (hknown' : ∀ y ∈ ys, T.Knows y) : Cnf.Maps m (lineVars r xs ys) r.root T := by
  intro v hv
  have hin : 1 ≤ v ∧ v ≤ 2 * r.lines := by
    by_contra hout
    exact hv (hr.onLines.ignores hout)
  obtain ⟨i, hi, rfl | rfl⟩ := Relation.exists_line hin
  · refine ⟨xs[i], (getElem?_lineVars hxs hys hi).1.trans (List.getElem?_eq_getElem (hxs ▸ hi)), hknown _ ?_⟩
    exact List.getElem_mem _
  · refine ⟨ys[i], (getElem?_lineVars hxs hys hi).2.trans (List.getElem?_eq_getElem (hys ▸ hi)), hknown' _ ?_⟩
    exact List.getElem_mem _

/-! ### presentations -/

theorem encoded_of_fresh (hmodel : ∃ s, T.IsModel s) (hxs : Fresh T n xs T') (hle : T' ≤ T'') (h'' : T''.Good)
    (hlayer : T''.MeansWord n layer fun s => t.getD (wordOf s xs) 0) : Encoded T'' n ⟨xs, layer⟩ [] t := by
  have hknown : ∀ x ∈ xs, T''.Knows x := fun x hx => (hxs.knows x hx).mono hle
  refine ⟨h'', Theory.meansWord_wordOf hxs.length hknown, hlayer, List.forall_mem_nil _, fun x hx => ?_⟩
  obtain ⟨s, hs⟩ := hmodel
  obtain ⟨s', hs', -, hword⟩ := hxs.free s hs x hx
  obtain ⟨s'', hs'', he⟩ := Theory.exists_model hle hs'
  refine ⟨s'', hs'', ?_, List.forall_mem_nil _⟩
  rw [Cnf.wordOf_congr fun k hk => he k (hxs.knows k hk), hword]

theorem checkWidth_eq {σ : Type} {b : Builder σ} (hn : n ≤ maxRelationLines) :
    (Cnf.ofExcept (checkWidth n) : CnfM σ Unit) b = .ok () b := by
  rw [checkWidth, if_neg (Nat.not_lt.2 hn)]
  rfl

theorem checkWidth_eq_error {σ : Type} {b : Builder σ} (hn : maxRelationLines < n) :
    (Cnf.ofExcept (checkWidth n) : CnfM σ Unit) b = .error (.capacity n maxRelationLines) b := by
  rw [checkWidth, if_pos hn]
  rfl

variable {σ : Type} [Solver σ] [LawfulSolver σ] {b : Builder σ}

theorem encode_relation_eq (h : b.theory.Good) (hmodel : ∃ s, b.theory.IsModel s) (hm : m.Ordered)
    (hr : Represents m r (graph t)) (ht : Bijection r.lines t) :
    ∃ l b', encode (.relation m r) b = .ok l b' ∧ Encoded b'.theory r.lines l [] t := by
  obtain ⟨xs, b₁, hok₁, hb₁, hle₁, hxs⟩ := encodes_newVars h r.lines
  obtain ⟨ys, b₂, hok₂, hb₂, hle₂, hys⟩ := encodes_newVars hb₁ r.lines
  have hxs₂ : ∀ x ∈ xs, b₂.theory.Knows x := fun x hx => (hxs.knows x hx).mono hle₂
  obtain ⟨k, b₃, hok₃, hb₃, hle₃, hk⟩ :=
    (Cnf.defines_encodeDiagram hm hb₂ hr.holds (maps_lineVars hr hxs.length hys.length hxs₂ hys.knows)).encodes
  have hclause : ∀ j ∈ [k], b₃.theory.Knows j := fun j hj => List.mem_singleton.1 hj ▸ hk.knows
  obtain ⟨b₄, hok₄, htheory⟩ := Cnf.addClause_eq hclause
  -- the diagram is true exactly if the layer holds the image of the inputs
  have hholds : ∀ s, b₃.theory.IsModel s → (Clause.holds s [k] = true ↔ t.getD (wordOf s xs) 0 = wordOf s ys) := by
    intro s hs
    rw [Clause.holds, List.any_cons, List.any_nil, Bool.or_false, hk.eval s hs, eval_lineVars hr hxs.length hys.length,
      graph_iff]
  refine ⟨⟨xs, ys⟩, b₄, ?_, ?_⟩
  · refine (bind_of_ok hok₁ _).trans ((bind_of_ok hok₂ _).trans ((bind_of_ok hok₃ _).trans ?_))
    exact bind_of_ok hok₄ _
  · rw [htheory]
    have hin := Theory.meansWord_wordOf (T := b₃.theory) hxs.length fun x hx => (hxs₂ x hx).mono hle₃
    have hys₃ : ∀ y ∈ ys, b₃.theory.Knows y := fun y hy => (hys.knows y hy).mono hle₃
    refine ⟨hb₃.add hclause, hin.add _, ⟨hys.length, hys₃, fun s hs => ((hholds s hs.1).1 hs.2).symm⟩,
      List.forall_mem_nil _, fun x hx => ?_⟩
    obtain ⟨s, hs⟩ := hmodel
    obtain ⟨s₁, hs₁, -, hword₁⟩ := hxs.free s hs x hx
    obtain ⟨s₂, hs₂, he₂, hword₂⟩ := hys.free s₁ hs₁ _ (ht.lt x hx)
    obtain ⟨s₃, hs₃, he₃⟩ := Theory.exists_model hle₃ hs₂
    have hinput : wordOf s₃ xs = x := by
      rw [← hword₁]
      exact Cnf.wordOf_congr fun j hj => (he₃ j (hxs₂ j hj)).trans (Literal.holds_congr (he₂ _ (hxs.knows j hj).2))
    have hlayer : wordOf s₃ ys = t.getD x 0 := by
      rw [← hword₂]
      exact Cnf.wordOf_congr fun j hj => he₃ j (hys.knows j hj)
    refine ⟨s₃, ⟨hs₃, (hholds s₃ hs₃).2 ?_⟩, hinput, List.forall_mem_nil _⟩
    rw [hinput, hlayer]

/-- the clauses of a graph stand for its table before they are checked. -/
theorem encode_graph_eq (h : b.theory.Good) (hmodel : ∃ s, b.theory.IsModel s) (hg : IsTable g n t)
    (hn : n ≤ maxRelationLines) : ∃ l b', Encoded b'.theory n l [] t ∧
      encode (.graph g) b = (do checkInjective g l; return l : CnfM σ Layers) b' := by
  obtain ⟨xs, b₁, hok₁, hb₁, hle₁, hxs⟩ := encodes_newVars h n
  obtain ⟨layer, b₂, hok₂, hb₂, hle₂, hlayer⟩ := encodes_table hb₁ hg (Theory.meansWord_wordOf hxs.length hxs.knows)
  refine ⟨⟨xs, layer⟩, b₂, encoded_of_fresh hmodel hxs hle₂ hb₂ hlayer, ?_⟩
  rw [encode, hg.inputs, hg.outputs, if_neg (not_not.2 rfl)]
  exact (bind_of_ok (checkWidth_eq hn) _).trans ((bind_of_ok hok₁ _).trans (bind_of_ok hok₂ _))

/-- the encoding of a graph with a collision, if the values of the literals can be read. -/
theorem encode_graph_eq_error (h : b.theory.Good) (hmodel : ∃ s, b.theory.IsModel s) (hg : IsTable g n t)
    (hn : n ≤ maxRelationLines) (hcollides : Collides n t)
    (hread : ∀ (solver : σ) k, Literal.On (LawfulSolver.inUse solver) k → ∃ o, Solver.value solver k = .ok o) :
    ∃ x y b', encode (.graph g) b = .error (.inconsistent (.notInjective x y)) b' := by
  obtain ⟨l, b₁, hencoded, hok⟩ := encode_graph_eq h hmodel hg hn
  obtain ⟨x, y, b₂, herror, -⟩ := checkInjective_eq_error hencoded hg hcollides hread
  exact ⟨x, y, b₂, hok.trans (bind_of_error herror _)⟩

/-- **Encodings.** The clauses of a presentation stand for its table. -/
theorem encode_eq (h : b.theory.Good) (hmodel : ∃ s, b.theory.IsModel s) {p : Presentation} (hp : Presents p n t)
    (hn : n ≤ maxRelationLines) (ht : Bijection n t) :
    ∃ l b', encode p b = .ok l b' ∧ Encoded b'.theory n l [] t := by
  cases hp with
  | relation hm hr => exact encode_relation_eq h hmodel hm hr ht
  | functions hg =>
    obtain ⟨xs, b₁, hok₁, hb₁, hle₁, hxs⟩ := encodes_newVars h n
    obtain ⟨layer, b₂, hok₂, hb₂, hle₂, hlayer⟩ := encodes_table hb₁ hg (Theory.meansWord_wordOf hxs.length hxs.knows)
    exact ⟨⟨xs, layer⟩, b₂, (bind_of_ok hok₁ _).trans (bind_of_ok hok₂ _), encoded_of_fresh hmodel hxs hle₂ hb₂ hlayer⟩
  | @circuit c _ hc htable =>
    obtain ⟨xs, b₁, hok₁, hb₁, hle₁, hxs⟩ := encodes_newVars h c.lines
    obtain ⟨layer, b₂, hok₂, hb₂, hle₂, hlayer⟩ :=
      (Cnf.defines_encodeGates hb₁ hc (Theory.meansWord_wordOf hxs.length hxs.knows)).encodes
    have hlayer' : b₂.theory.MeansWord c.lines layer fun s => t.getD (wordOf s xs) 0 :=
      hlayer.congr fun s _ => htable _ (hxs.length ▸ Cnf.wordOf_lt s xs)
    refine ⟨⟨xs, layer⟩, b₂, ?_, encoded_of_fresh hmodel hxs hle₂ hb₂ hlayer'⟩
    exact (bind_of_ok (checkWidth_eq hn) _).trans ((bind_of_ok hok₁ _).trans (bind_of_ok hok₂ _))
  | graph hg =>
    obtain ⟨l, b₁, hencoded, hok⟩ := encode_graph_eq h hmodel hg hn
    obtain ⟨_, b₂, hok₂, hb₂, hle₂, -⟩ := encodes_checkInjective hencoded hg (not_collides ht)
    exact ⟨l, b₂, hok.trans (bind_of_ok hok₂ _), hencoded.mono hle₂ hb₂⟩

end ReversibleLogic.Transform.Solving
