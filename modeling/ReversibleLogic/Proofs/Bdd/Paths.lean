import ReversibleLogic.Proofs.Bdd.Labels
import ReversibleLogic.Proofs.Bdd.Models

/-!
# The satisfying path of a reference

A walk that takes the high child unless it is zero ends at the constant one, as two children of a reference with a
model are not both zero.

* `Implicant m f ls` — the literals `ls`, of ascending variables that `f` depends on, imply `f`; a child's implicant
  becomes one of the parent with the literal that chooses the child (`Implicant.cons`);
* `pathWithin_spec` — the literals on the path are an implicant;
* `path?_of_reached` — in a reachable manager whose variables fit 31 bits every reference but zero has such a path.
-/

namespace ReversibleLogic.Bdd

variable {m : Manager} {f : Ref} {n : Node} {ls : List Int} {fuel : Nat}

/-! ### implicants -/

theorem apply_eq_of_literalHolds {p : Nat × Bool} {a : Assignment} (hpos : 0 < p.1)
    (h : literalHolds a (literalOf p) = true) : a p.1 = p.2 := by
  rw [literalHolds_literalOf hpos] at h
  exact of_decide_eq_true h

/-- literals of ascending variables in the support of `f` whose conjunction implies `f`. -/
structure Implicant (m : Manager) (f : Ref) (ls : List Int) : Prop where
  ascending : (ls.map Int.natAbs).Pairwise (· < ·)
  depends : ∀ l ∈ ls, ¬ Ignores (m.eval · f) l.natAbs
  implies : ∀ a, ls.all (literalHolds a) = true → m.eval a f = true

theorem implicant_one (m : Manager) : Implicant m .one [] where
  ascending := .nil
  depends := List.forall_mem_nil _
  implies := fun a _ => Manager.eval_one m a

/-- **A step of a path**: the literal that chooses a child in front of an implicant of the child. -/
theorem Implicant.cons {b : Bool} (h : Implicant m (childOf f n b) ls) (hc : Children m f n) (hm : m.Ordered)
    (hf : m.Holds f) (hi : f.index ≠ 1) : Implicant m f (literalOf (n.var, b) :: ls) where
  ascending := by
    rw [List.map_cons, natAbs_literalOf]
    refine List.pairwise_cons.2 ⟨fun v hv => ?_, h.ascending⟩
    obtain ⟨l, hl, rfl⟩ := List.mem_map.1 hv
    -- the child depends on the variable of the literal, and it ignores those up to the variable of the node
    by_contra hle
    exact h.depends l hl (hc.ignores_of_le hm (Nat.not_lt.1 hle) b)
  depends := by
    refine List.forall_mem_cons.2 ⟨?_, fun l hl hignores => h.depends l hl (hc.ignores hignores b)⟩
    rw [natAbs_literalOf]
    exact hc.level ▸ Manager.not_ignores_level hm hf hi
  implies := by
    intro a ha
    rw [List.all_cons, Bool.and_eq_true] at ha
    have hvalue : a n.var = b := apply_eq_of_literalHolds (p := (n.var, b)) hc.inner.var_pos ha.1
    rw [← hc.eval_child hvalue]
    exact h.implies a ha.2

/-! ### the path -/

/-- the value of the variable on top of `f` on the path: the high child is taken unless it is zero. -/
def pathValue (f : Ref) (n : Node) : Bool := decide (childOf f n true ≠ .zero)

theorem Children.pathValue_ne_zero (hc : Children m f n) (hm : m.Ordered) (hf : m.Holds f) (hne : f ≠ .zero) :
    childOf f n (pathValue f n) ≠ .zero := by
  unfold pathValue
  by_cases hhigh : childOf f n true = .zero
  · rw [decide_eq_false (not_not.2 hhigh)]
    exact hc.ne_zero_of_sibling hm hf hne hhigh
  · rw [decide_eq_true hhigh]
    exact hhigh

/-- the path of an inner reference goes on with that of the child that is taken. -/
theorem Children.pathWithin_eq (hc : Children m f n) (hi : f.index ≠ 1) (hv : n.var < 2 ^ 31)
    (hok : m.pathWithin fuel (childOf f n (pathValue f n)) = .ok ls) :
    m.pathWithin (fuel + 1) f = .ok (literalOf (n.var, pathValue f n) :: ls) := by
  have hone : f ≠ .one := fun he => hi (he ▸ rfl)
  have hword : literalWord n.var (pathValue f n) = .ok (literalOf (n.var, pathValue f n)) :=
    literalWord_eq (p := (n.var, pathValue f n)) hv
  rw [Manager.pathWithin, if_neg hone, hc.variableOf_eq m.le_refl, ok_bind, hc.high_eq m.le_refl, ok_bind,
    hc.low_eq m.le_refl, ok_bind]
  unfold pathValue at hok hword ⊢
  by_cases hhigh : childOf f n true ≠ .zero
  · rw [decide_eq_true hhigh] at hok hword ⊢
    rw [if_pos hhigh, hword, ok_bind, hok]
    rfl
  · rw [decide_eq_false hhigh] at hok hword ⊢
    rw [if_neg hhigh, hword, ok_bind, hok]
    rfl

/-- **The path** of a reference other than zero ends, and its literals are an implicant. -/
theorem pathWithin_spec (hm : m.Ordered) (hlabels : Labelled (· < 2 ^ 31) m) (hf : m.Holds f) (hne : f ≠ .zero)
    (hfuel : f.index < fuel) : ∃ ls, m.pathWithin fuel f = .ok ls ∧ Implicant m f ls := by
  -- children are older than their parents
  induction fuel generalizing f with
  | zero => omega
  | succ fuel ih =>
    by_cases hi : f.index = 1
    · obtain rfl : f = .one := (Ref.eq_one_or_eq_zero hi).resolve_right hne
      exact ⟨[], by rw [Manager.pathWithin, if_pos rfl], implicant_one m⟩
    · obtain ⟨n, hc⟩ := exists_children hm hf hi
      have hindex := hc.index_lt (pathValue f n)
      obtain ⟨ls, hok, hls⟩ := ih (hc.holds _) (hc.pathValue_ne_zero hm hf hne) (by omega)
      exact ⟨_, hc.pathWithin_eq hi (hlabels _ n hi hc.node) hok, hls.cons hc hm hf hi⟩

/-- **The satisfying path.** In a manager that operations on variables of 31 bits lead to, the walk from any reference
ends. There is no path exactly if the reference is zero. Otherwise the variables of its literals are in the support, in
ascending order, and every assignment in which the literals hold is a model. -/
theorem path?_of_reached (h : ReachedWith (· < 2 ^ 31) m) (hf : m.Holds f) :
    ∃ found, m.path? f = .ok found ∧ (found = none ↔ f = .zero) ∧ ∀ ls, found = some ls →
      (ls.map Int.natAbs).Pairwise (· < ·) ∧
      (∃ vars, m.support f = .ok vars ∧ ∀ l ∈ ls, l.natAbs ∈ vars) ∧
      ∀ a : Assignment, ls.all (literalHolds a) = true → m.eval a f = true := by
  have hm : m.Ordered := h.reached.ordered
  unfold Manager.path?
  by_cases hzero : f = .zero
  · rw [if_pos hzero]
    exact ⟨none, rfl, iff_of_true rfl hzero, fun ls hls => nomatch hls⟩
  · obtain ⟨ls, hok, hls⟩ := pathWithin_spec hm h.labelled hf hzero (Nat.lt_succ_self _)
    obtain ⟨vars, hsupport, -, hmem⟩ := support_spec hm hf
    rw [if_neg hzero, hok]
    refine ⟨some ls, rfl, iff_of_false (Option.some_ne_none _) hzero, ?_⟩
    rintro _ ⟨⟩
    exact ⟨hls.ascending, ⟨vars, hsupport, fun l hl => (hmem _).2 (hls.depends l hl)⟩, hls.implies⟩

/-- the path of a cube of a positive and a negative literal forces both values. -/
theorem path?_of_reached_cube :
    ∃ m f, ReachedWith (· < 2 ^ 31) m ∧ m.Holds f ∧ ∃ ls, m.path? f = .ok (some ls) ∧
      ∀ a : Assignment, ls.all (literalHolds a) = true → a 1 = true ∧ a 2 = false := by
  obtain ⟨m₀, hm₀⟩ : ∃ m₀, Manager.empty 4 = .ok m₀ := ⟨_, rfl⟩
  have hnew : ReachedWith (· < 2 ^ 31) m₀ := .empty hm₀
  have hvars : ∀ l ∈ ([1, -2] : List Int), Op.IsVariable l.natAbs := by
    rw [List.forall_mem_cons, List.forall_mem_singleton]
    exact ⟨⟨by decide, by decide⟩, by decide, by decide⟩
  have hop : Op.Allowed m₀ (.cube [1, -2]) := ⟨hvars, by decide⟩
  have hnames : ∀ l ∈ ([1, -2] : List Int), l.natAbs < 2 ^ 31 := by decide
  obtain ⟨f, m, hrun, -, -, hf⟩ := yields_op (wellFormed_of_reached hnew.reached) hop
  have h : ReachedWith (· < 2 ^ 31) m := hnew.run hop hnames hrun
  obtain ⟨found, hok, hnone, hpath⟩ := path?_of_reached h hf.holds
  have hne : f ≠ .zero := by
    intro hzero
    have hfalse := (hf.eq_zero_iff h.reached.ordered).1 hzero fun v => decide (v = 1)
    have htrue : Op.meaning m₀ (.cube [1, -2]) (fun v => decide (v = 1)) = true := rfl
    exact Bool.false_ne_true (hfalse.symm.trans htrue)
  obtain ⟨ls, rfl⟩ := Option.ne_none_iff_exists'.1 (mt hnone.1 hne)
  obtain ⟨-, -, himplies⟩ := hpath ls rfl
  refine ⟨m, f, h, hf.holds, ls, hok, fun a ha => ?_⟩
  have hvalue : [1, -2].all (literalHolds a) = true := (hf.eval a).symm.trans (himplies a ha)
  simpa [literalHolds] using hvalue

end ReversibleLogic.Bdd
