import ReversibleLogic.Cnf.Encoding
import ReversibleLogic.Proofs.Bdd.Walks
import ReversibleLogic.Proofs.Cnf.Connectives

/-!
# Diagrams as clauses

The encoder keeps a literal for each node it has met, and the literal has the value of the node in every model.

* `valuesOf vars s` — the values that the literals of the variables hold;
* `Keeps m vars memo T` — every kept literal is right;
* `Visits b m vars memo x Q` — the encoder `x` succeeds with `Q`, and keeps right literals only;
* `defines_encodeDiagram` — the literal of a diagram has the value of the diagram.
-/

namespace ReversibleLogic.Cnf

open Bdd (Manager Ref Binding Ignores Children childOf)
open ReversibleLogic.Sat

/-- the values of the diagram variables that their literals hold. -/
def valuesOf (vars : Binding Literal) (s : Assignment) : Bdd.Assignment := fun v =>
  match vars[v]? with
  | some l => l.holds s
  | none => false

theorem valuesOf_of_some {vars : Binding Literal} {v : Nat} {l : Literal} (h : vars[v]? = some l) (s : Assignment) :
    valuesOf vars s v = l.holds s := by
  rw [valuesOf, h]

def Keeps (m : Manager) (vars : Binding Literal) (memo : Std.TreeMap Nat Literal) (T : Theory) : Prop :=
  ∀ (i : Nat) l, memo[i]? = some l → T.Means l fun s => m.eval (valuesOf vars s) (.ofIndex i)

/-- the variables that `f` depends on have known literals. -/
def Maps (m : Manager) (vars : Binding Literal) (f : Ref) (T : Theory) : Prop :=
  ∀ v, ¬ Ignores (m.eval · f) v → ∃ l, vars[v]? = some l ∧ T.Knows l

section keeps

variable {m : Manager} {vars : Binding Literal} {memo : Std.TreeMap Nat Literal} {T T' : Theory} {f : Ref}

theorem keeps_empty (m : Manager) (vars : Binding Literal) (T : Theory) : Keeps m vars ∅ T := by
  intro i l h
  simp at h

theorem Keeps.mono (h : Keeps m vars memo T) (hle : T ≤ T') : Keeps m vars memo T' :=
  fun i l hl => (h i l hl).mono hle

theorem Keeps.insert (h : Keeps m vars memo T) {i : Nat} {l : Literal}
    (hl : T.Means l fun s => m.eval (valuesOf vars s) (.ofIndex i)) : Keeps m vars (memo.insert i l) T := by
  intro j k hk
  rw [Std.TreeMap.getElem?_insert] at hk
  split at hk
  · next he =>
    obtain rfl := Std.LawfulEqCmp.eq_of_compare he
    obtain rfl := Option.some.inj hk
    exact hl
  · exact h j k hk

theorem Maps.mono (h : Maps m vars f T) (hle : T ≤ T') : Maps m vars f T' := by
  intro v hv
  obtain ⟨l, hl, hknown⟩ := h v hv
  exact ⟨l, hl, hknown.mono hle⟩

theorem Maps.child (h : Maps m vars f T) {n : Bdd.Node} (hc : Children m f n) (b : Bool) :
    Maps m vars (childOf f n b) T :=
  fun v hv => h v fun hignores => hv (hc.ignores hignores b)

theorem maps_regular (hf : m.Holds f) (h : Maps m vars f T) : Maps m vars f.regular T := by
  intro v hv
  exact h v (mt (Manager.ignores_regular hf) hv)

end keeps

/-! ### encoders that keep literals -/

variable {σ : Type} [Solver σ] [LawfulStore σ] {α β : Type} {b : Builder σ} {m : Manager} {vars : Binding Literal}
  {memo : Std.TreeMap Nat Literal} {f : Ref}

/-- from `b` and right literals the encoder succeeds, with right literals. -/
def Visits (b : Builder σ) (m : Manager) (vars : Binding Literal) (memo : Std.TreeMap Nat Literal) (x : NodeM σ α)
    (Q : α → Theory → Prop) : Prop :=
  Defines b (x memo) fun p T => Keeps m vars p.2 T ∧ Q p.1 T

section visits

variable {Q : α → Theory → Prop} {R : β → Theory → Prop}

theorem visits_pure (h : b.theory.Good) (hmemo : Keeps m vars memo b.theory) {r : α} (hQ : Q r b.theory) :
    Visits b m vars memo (pure r) Q :=
  defines_pure h ⟨hmemo, hQ⟩

theorem Visits.bind {x : NodeM σ α} {k : α → NodeM σ β} (hx : Visits b m vars memo x Q)
    (hk : ∀ r memo' (b' : Builder σ), b'.theory.Good → b.theory ≤ b'.theory → Keeps m vars memo' b'.theory →
      Q r b'.theory → Visits b' m vars memo' (k r) R) : Visits b m vars memo (x >>= k) R :=
  Defines.bind hx fun p b' h hle ⟨hmemo, hQ⟩ => hk p.1 p.2 b' h hle hmemo hQ

theorem visits_plain (hmemo : Keeps m vars memo b.theory) {x : CnfM σ α} (hx : Defines b x Q) :
    Visits b m vars memo (plain x) Q :=
  hx.bind fun _ _ h hle hQ => defines_pure h ⟨hmemo.mono hle, hQ⟩

theorem visits_ofExcept_bind {x : Except Error α} {r : α} (hx : x = .ok r) {k : α → NodeM σ β}
    (hk : Visits b m vars memo (k r) R) : Visits b m vars memo (plain (ofExcept x) >>= k) R := by
  subst hx
  exact hk

theorem visits_get_bind {k : Std.TreeMap Nat Literal → NodeM σ β} (hk : Visits b m vars memo (k memo) R) :
    Visits b m vars memo (get >>= k) R :=
  hk

theorem visits_modify_bind {g : Std.TreeMap Nat Literal → Std.TreeMap Nat Literal} {k : PUnit → NodeM σ β}
    (hk : Visits b m vars (g memo) (k ⟨⟩) R) : Visits b m vars memo (modify g >>= k) R :=
  hk

end visits

/-! ### diagrams -/

/-- a kept literal, with the sign of the reference. -/
theorem means_signed (hf : m.Holds f) {T : Theory} {l : Literal}
    (hl : T.Means l fun s => m.eval (valuesOf vars s) f.regular) :
    T.Means (if f.isNegated then -l else l) fun s => m.eval (valuesOf vars s) f := by
  cases hn : f.isNegated with
  | false => exact hl.congr fun s _ => by rw [Manager.eval_regular hf, hn, Bool.false_xor]
  | true => exact hl.neg.congr fun s _ => by rw [Manager.eval_regular hf, hn, Bool.true_xor, Bool.not_not]

theorem visits_diagramWithin (hm : m.Ordered) (h : b.theory.Good) (hmemo : Keeps m vars memo b.theory) (hf : m.Holds f)
    (hvars : Maps m vars f b.theory) {fuel : Nat} (hfuel : f.index < fuel) :
    Visits b m vars memo (diagramWithin m vars fuel f) fun l T => T.Means l fun s => m.eval (valuesOf vars s) f := by
  induction fuel generalizing b memo f with
  | zero => omega
  | succ fuel ih =>
    rw [diagramWithin]
    split
    · next hzero =>
      subst hzero
      refine visits_plain hmemo (defines_bottom h |>.imp fun l T _ _ hl => hl.congr ?_)
      intro s _
      rw [Manager.eval_zero]
    split
    · next hone =>
      subst hone
      refine visits_plain hmemo (defines_top h |>.imp fun l T _ _ hl => hl.congr ?_)
      intro s _
      rw [Manager.eval_one]
    next hzero hone =>
    refine visits_get_bind ?_
    cases hget : memo[f.index]? with
    | some l => exact visits_pure h hmemo (means_signed hf (hmemo _ _ hget))
    | none =>
      -- the node is encoded uncomplemented
      have hi : f.regular.index ≠ 1 := fun hi => by
        rcases Ref.eq_one_or_eq_zero (r := f) hi with he | he
        · exact hone he
        · exact hzero he
      have hg : m.Holds f.regular := hf
      have hmaps := maps_regular hf hvars
      obtain ⟨n, hc⟩ := Bdd.exists_children hm hg hi
      have hfuel' : ∀ b, (childOf f.regular n b).index < fuel := fun b => by
        have hlt : (childOf f.regular n b).index < f.index := hc.index_lt b
        omega
      refine visits_ofExcept_bind (hc.variableOf_eq m.le_refl) ?_
      obtain ⟨c, hget', hknown⟩ := hmaps n.var (hc.level ▸ Manager.not_ignores_level hm hg hi)
      simp only [hget']
      refine visits_ofExcept_bind (hc.low_eq m.le_refl) ?_
      refine (ih h hmemo (hc.holds false) (hmaps.child hc false) (hfuel' false)).bind
        fun low memo₁ b₁ h₁ hle₁ hmemo₁ hlow => ?_
      refine visits_ofExcept_bind (hc.high_eq m.le_refl) ?_
      refine (ih h₁ hmemo₁ (hc.holds true) ((hmaps.mono hle₁).child hc true) (hfuel' true)).bind
        fun high memo₂ b₂ h₂ hle₂ hmemo₂ hhigh => ?_
      have hite := defines_ite h₂ (hknown.mono (Theory.le_trans hle₁ hle₂)) hhigh.knows (hlow.knows.mono hle₂)
      refine (visits_plain hmemo₂ hite).bind fun l memo₃ b₃ h₃ hle₃ hmemo₃ hl => ?_
      have hl' : b₃.theory.Means l fun s => m.eval (valuesOf vars s) f.regular := by
        refine hl.congr ?_
        intro s hs
        have hs₂ := hle₃.sound s hs
        rw [hhigh.eval s hs₂, hlow.eval s (hle₂.sound s hs₂), ← valuesOf_of_some hget' s, hc.eval_eq]
      exact visits_modify_bind (visits_pure h₃ (hmemo₃.insert hl') (means_signed hf hl'))

/-- **Diagrams.** The literal has the value of the diagram. -/
theorem defines_encodeDiagram (hm : m.Ordered) (h : b.theory.Good) (hf : m.Holds f) (hvars : Maps m vars f b.theory) :
    Defines b (encodeDiagram m f vars) fun l T => T.Means l fun s => m.eval (valuesOf vars s) f := by
  obtain ⟨p, b', hok, h', hle, -, hl⟩ := visits_diagramWithin hm h (keeps_empty m vars _) hf hvars (Nat.lt_succ_self _)
  refine ⟨p.1, b', ?_, h', hle, hl⟩
  show EStateM.map _ (diagramWithin m vars (f.index + 1) f ∅) b = _
  rw [EStateM.map, hok]

end ReversibleLogic.Cnf
