import ReversibleLogic.Cnf.Encoding
import ReversibleLogic.Proofs.Cnf.Connectives
import ReversibleLogic.Proofs.Gate.Cascade

/-!
# Words of literals

* `wordOf s ls` — the word that some literals hold;
* `Theory.MeansWord T n ls F` — in every model the literals hold the word `F`;
* `defines_encodeGate`, `defines_encodeGates` — the lines after a gate, or after a cascade, hold the word it computes;
* `defines_encodeMismatch` — the literal that is true where two words differ.
-/

namespace ReversibleLogic.Cnf

open ReversibleLogic.Sat

variable {n i w : Nat} {s s' : Assignment} {l : Literal} {ls xs ys : List Literal}

/-! ### words -/

def wordOf (s : Assignment) (ls : List Literal) : Nat := Word.ofBits (ls.map (Literal.holds s))

theorem wordOf_lt (s : Assignment) (ls : List Literal) : wordOf s ls < 2 ^ ls.length := by
  simpa [wordOf] using Word.ofBits_lt (ls.map (Literal.holds s))

theorem testBit_wordOf (hi : ls[i]? = some l) : (wordOf s ls).testBit i = l.holds s := by
  rw [wordOf, Word.testBit_ofBits, List.getD_eq_getElem?_getD, List.getElem?_map, hi]
  rfl

theorem wordOf_congr (h : ∀ l ∈ ls, l.holds s = l.holds s') : wordOf s ls = wordOf s' ls := by
  rw [wordOf, wordOf, List.map_congr_left h]

/-- words differ exactly if they differ on some line. -/
theorem any_zip_xor (s : Assignment) (h : xs.length = ys.length) :
    (xs.zip ys).any (fun p => p.1.holds s ^^ p.2.holds s) = decide (wordOf s xs ≠ wordOf s ys) := by
  induction xs generalizing ys with
  | nil =>
    obtain rfl := List.length_eq_zero_iff.1 h.symm
    simp
  | cons x xs ih =>
    obtain ⟨y, ys, rfl⟩ : ∃ y ys', ys = y :: ys' := List.exists_cons_of_length_eq_add_one h.symm
    have ih := ih (by simpa using h)
    have hcons : ∀ (l : Literal) ls, wordOf s (l :: ls) = (l.holds s).toNat + 2 * wordOf s ls := fun _ _ => rfl
    rw [List.zip_cons_cons, List.any_cons, ih, hcons, hcons, Bool.eq_iff_iff]
    cases x.holds s <;> cases y.holds s <;> simp <;> omega

namespace Theory

variable {T T' : Theory} {F G : Assignment → Nat}

/-- the literals are known, and in every model they hold the word `F`. -/
structure MeansWord (T : Theory) (n : Nat) (ls : List Literal) (F : Assignment → Nat) : Prop where
  length : ls.length = n
  knows : ∀ l ∈ ls, T.Knows l
  eval : ∀ s, T.IsModel s → wordOf s ls = F s

theorem MeansWord.mono (h : T.MeansWord n ls F) (hle : T ≤ T') : T'.MeansWord n ls F :=
  ⟨h.length, fun l hl => (h.knows l hl).mono hle, fun s hs => h.eval s (hle.sound s hs)⟩

theorem MeansWord.congr (h : T.MeansWord n ls F) (hFG : ∀ s, T.IsModel s → F s = G s) : T.MeansWord n ls G :=
  ⟨h.length, h.knows, fun s hs => (h.eval s hs).trans (hFG s hs)⟩

theorem MeansWord.add (h : T.MeansWord n ls F) (c : Clause) : (T.add c).MeansWord n ls F :=
  ⟨h.length, h.knows, fun s hs => h.eval s hs.1⟩

theorem MeansWord.lt (h : T.MeansWord n ls F) (hs : T.IsModel s) : F s < 2 ^ n := by
  rw [← h.eval s hs, ← h.length]
  exact wordOf_lt s ls

theorem meansWord_wordOf (hlen : ls.length = n) (hknows : ∀ l ∈ ls, T.Knows l) : T.MeansWord n ls (wordOf · ls) :=
  ⟨hlen, hknows, fun _ _ => rfl⟩

theorem MeansWord.means (h : T.MeansWord n ls F) (hi : ls[i]? = some l) : T.Means l fun s => (F s).testBit i :=
  ⟨h.knows l (List.mem_of_getElem? hi), fun s hs => by rw [← h.eval s hs, testBit_wordOf hi]⟩

theorem meansWord_of_means (hlen : ls.length = n) (hF : ∀ s, T.IsModel s → F s < 2 ^ n)
    (h : ∀ i l, ls[i]? = some l → T.Means l fun s => (F s).testBit i) : T.MeansWord n ls F := by
  refine ⟨hlen, fun l hl => ?_, fun s hs => ?_⟩
  · obtain ⟨i, hi⟩ := List.getElem?_of_mem hl
    exact (h i l hi).knows
  · refine Word.eq_of_testBit_lt (n := n) (hlen ▸ wordOf_lt s ls) (hF s hs) ?_
    intro i hi
    have hget : ls[i]? = some ls[i] := List.getElem?_eq_getElem (hlen ▸ hi)
    rw [testBit_wordOf hget, (h i _ hget).eval s hs]

theorem MeansWord.set (h : T.MeansWord n ls F) {t : Nat} {f : Assignment → Bool} (hl : T.Means l f)
    (hG : ∀ s, T.IsModel s → G s < 2 ^ n) (ht : ∀ s, T.IsModel s → (G s).testBit t = f s)
    (hrest : ∀ s, T.IsModel s → ∀ i ≠ t, (G s).testBit i = (F s).testBit i) : T.MeansWord n (ls.set t l) G := by
  refine meansWord_of_means (by rw [List.length_set, h.length]) hG ?_
  intro i k hi
  rw [List.getElem?_set] at hi
  split at hi
  · next hti =>
    subst hti
    split at hi
    · obtain rfl := Option.some.inj hi
      exact hl.congr fun s hs => (ht s hs).symm
    · cases hi
  · next hti => exact (h.means hi).congr fun s hs => (hrest s hs i (Ne.symm hti)).symm

end Theory

/-! ### gates -/

variable {σ : Type} {b : Builder σ} {F G : Assignment → Nat} {layer : List Literal}

theorem literalAt_eq (hi : ls[i]? = some l) : (literalAt ls.toArray i : CnfM σ Literal) b = .ok l b := by
  rw [literalAt, List.getElem?_toArray, hi]
  rfl

variable [Solver σ] [LawfulStore σ]

theorem exists_line (hw : b.theory.MeansWord n ls F) (hi : i < n) :
    ∃ l, ls[i]? = some l ∧ b.theory.Means l fun s => (F s).testBit i := by
  have hget : ls[i]? = some _ := List.getElem?_eq_getElem (hw.length.symm ▸ hi)
  exact ⟨_, hget, hw.means hget⟩

theorem defines_controls (h : b.theory.Good) (hw : b.theory.MeansWord n ls F) {cs : List Control}
    (hcs : ∀ c ∈ cs, c.line < n) :
    Defines b (cs.mapM fun c => do
        let l ← literalAt ls.toArray c.line
        return if c.positive then l else -l : CnfM σ (List Literal)) fun ks T =>
      List.Forall₂ (fun (c : Control) k => T.Means k fun s => c.isSatisfied (F s)) cs ks := by
  refine defines_mapM h (fun _ _ _ _ hle hk => hk.mono hle) ?_
  intro c hc b' h' hle'
  obtain ⟨l, hget, hl⟩ := exists_line (hw.mono hle') (hcs c hc)
  refine defines_bind_of_eq (literalAt_eq hget) (defines_pure h' ?_)
  cases hp : c.positive with
  | false => exact hl.neg.congr fun s _ => by simp [Control.isSatisfied, hp]
  | true => exact hl.congr fun s _ => by simp [Control.isSatisfied, hp]

theorem Theory.knows_of_forall₂ {α : Type} {T : Theory} {f : α → Assignment → Bool} {as : List α} {ks : List Literal}
    (h : List.Forall₂ (fun a k => T.Means k (f a)) as ks) : ∀ k ∈ ks, T.Knows k := by
  induction h with
  | nil => exact List.forall_mem_nil _
  | cons hk _ ih => exact List.forall_mem_cons.2 ⟨hk.knows, ih⟩

theorem all_of_means {α : Type} {T : Theory} {f : α → Assignment → Bool} {as : List α} {ks : List Literal}
    (h : List.Forall₂ (fun a k => T.Means k (f a)) as ks) (hs : T.IsModel s) :
    ks.all (Literal.holds s) = as.all (f · s) := by
  induction h with
  | nil => rfl
  | cons hk _ ih => rw [List.all_cons, List.all_cons, hk.eval s hs, ih]

theorem any_of_means {α : Type} {T : Theory} {f : α → Assignment → Bool} {as : List α} {ks : List Literal}
    (h : List.Forall₂ (fun a k => T.Means k (f a)) as ks) (hs : T.IsModel s) :
    ks.any (Literal.holds s) = as.any (f · s) := by
  induction h with
  | nil => rfl
  | cons hk _ ih => rw [List.any_cons, List.any_cons, hk.eval s hs, ih]

theorem defines_activity (h : b.theory.Good) (hw : b.theory.MeansWord n ls F) {cs : List Control}
    (hcs : ∀ c ∈ cs, c.line < n) :
    Defines b (do
        let controls ← cs.mapM fun c => do
          let l ← literalAt ls.toArray c.line
          return if c.positive then l else -l
        andAll controls : CnfM σ Literal) fun x T => T.Means x fun s => Gate.allSatisfied cs (F s) := by
  refine (defines_controls h hw hcs).bind fun ks b₁ h₁ _ hks => ?_
  refine (defines_andAll h₁ (Theory.knows_of_forall₂ hks)).imp fun x T _ hle hx => hx.congr ?_
  intro s hs
  exact all_of_means hks (hle.sound s hs)

namespace Theory

variable {T : Theory} {x y z l k : Literal} {cs : List Control} {i j : Nat}

/-- the target of a Toffoli gate is flipped where the gate is active. -/
theorem MeansWord.toffoli (h : T.MeansWord n ls F) (hg : (Gate.toffoli cs i).Within n)
    (hx : T.Means x fun s => Gate.allSatisfied cs (F s)) (hl : ls[i]? = some l)
    (hy : T.Means y fun s => l.holds s ^^ x.holds s) :
    T.MeansWord n (ls.set i y) fun s => Gate.apply (.toffoli cs i) (F s) := by
  refine h.set hy (fun s hs => Gate.apply_lt hg (h.lt hs)) (fun s hs => ?_) fun s hs j hj => ?_
  · rw [(h.means hl).eval s hs, hx.eval s hs, Gate.testBit_apply_toffoli]
    simp
  · rw [Gate.testBit_apply_toffoli]
    simp [Ne.symm hj]

/-- the targets of a Fredkin gate are exchanged where the gate is active. -/
theorem MeansWord.fredkin (h : T.MeansWord n ls F) (hg : (Gate.fredkin cs i j).Within n)
    (hx : T.Means x fun s => Gate.allSatisfied cs (F s)) (hl : ls[i]? = some l) (hk : ls[j]? = some k)
    (hy : T.Means y fun s => if x.holds s then k.holds s else l.holds s)
    (hz : T.Means z fun s => if x.holds s then l.holds s else k.holds s) :
    T.MeansWord n ((ls.set i y).set j z) fun s => Gate.apply (.fredkin cs i j) (F s) := by
  have hlt : ∀ s, T.IsModel s → Gate.apply (.fredkin cs i j) (F s) < 2 ^ n := fun s hs => Gate.apply_lt hg (h.lt hs)
  refine meansWord_of_means (by simp [h.length]) hlt ?_
  intro v u hu
  -- the value of a line after the gate, in terms of the literals before it
  have hbit : ∀ s, T.IsModel s → (Gate.apply (.fredkin cs i j) (F s)).testBit v =
      if x.holds s then (if v = i then k.holds s else if v = j then l.holds s else (F s).testBit v)
      else (F s).testBit v := by
    intro s hs
    rw [Gate.testBit_apply_fredkin, hx.eval s hs, (h.means hk).eval s hs, (h.means hl).eval s hs]
  rw [List.getElem?_set, List.getElem?_set] at hu
  split at hu
  · next hjv =>
    subst hjv
    split at hu
    · obtain rfl := Option.some.inj hu
      refine hz.congr ?_
      intro s hs
      have hsame : j = i → l.holds s = k.holds s := by
        rintro rfl
        rw [(h.means hl).eval s hs, (h.means hk).eval s hs]
      rw [hbit s hs, if_pos rfl]
      split
      · split
        · next hji => exact hsame hji
        · rfl
      · rw [(h.means hk).eval s hs]
    · cases hu
  · next hjv =>
    split at hu
    · next hiv =>
      subst hiv
      split at hu
      · obtain rfl := Option.some.inj hu
        refine hy.congr ?_
        intro s hs
        rw [hbit s hs, if_pos rfl, (h.means hl).eval s hs]
      · cases hu
    · next hiv =>
      refine (h.means hu).congr ?_
      intro s hs
      rw [hbit s hs, if_neg (Ne.symm hiv), if_neg (Ne.symm hjv), ite_self]

end Theory

/-- **Gates.** The lines after a gate hold the word after the gate. -/
theorem defines_encodeGate (h : b.theory.Good) {g : Gate} (hg : g.Within n) (hw : b.theory.MeansWord n layer F) :
    Defines b (encodeGate g layer : CnfM σ (List Literal)) fun layer' T =>
      T.MeansWord n layer' fun s => g.apply (F s) := by
  obtain ⟨hcs, hts⟩ := hg
  unfold encodeGate
  rw [← bind_assoc]
  refine (defines_activity h hw hcs).bind fun x b₁ h₁ hle₁ hx => ?_
  have hw₁ := hw.mono hle₁
  cases g with
  | toffoli cs t =>
    obtain ⟨l, hget, hl⟩ := exists_line hw₁ (hts t (by simp [Gate.targets]))
    refine defines_bind_of_eq (literalAt_eq hget) ?_
    refine (defines_xor h₁ hl.knows hx.knows).bind fun y b₂ h₂ hle₂ hy => defines_pure h₂ ?_
    exact (hw₁.mono hle₂).toffoli ⟨hcs, hts⟩ (hx.mono hle₂) hget hy
  | fredkin cs a c =>
    obtain ⟨lc, hgetc, hlc⟩ := exists_line hw₁ (hts c (by simp [Gate.targets]))
    obtain ⟨la, hgeta, hla⟩ := exists_line hw₁ (hts a (by simp [Gate.targets]))
    refine defines_bind_of_eq (literalAt_eq hgetc) (defines_bind_of_eq (literalAt_eq hgeta) ?_)
    refine (defines_ite h₁ hx.knows hlc.knows hla.knows).bind fun y b₂ h₂ hle₂ hy => ?_
    refine (defines_ite h₂ (hx.knows.mono hle₂) (hla.knows.mono hle₂) (hlc.knows.mono hle₂)).bind
      fun z b₃ h₃ hle₃ hz => defines_pure h₃ ?_
    have hle := Theory.le_trans hle₂ hle₃
    exact (hw₁.mono hle).fredkin ⟨hcs, hts⟩ (hx.mono hle) hgeta hgetc (hy.mono hle₃) hz

/-- **Cascades.** -/
theorem defines_encodeGates (h : b.theory.Good) {gs : List Gate} (hgs : ∀ g ∈ gs, g.Within n)
    (hw : b.theory.MeansWord n layer F) :
    Defines b (encodeGates gs layer : CnfM σ (List Literal)) fun layer' T =>
      T.MeansWord n layer' fun s => Gate.applyAll gs (F s) := by
  induction gs generalizing b layer F with
  | nil => exact defines_pure h hw
  | cons g gs ih =>
    obtain ⟨hg, hgs⟩ := List.forall_mem_cons.1 hgs
    exact (defines_encodeGate h hg hw).bind fun layer' b₁ h₁ _ hw₁ => ih h₁ hgs hw₁

/-- **Mismatch** of two words. -/
theorem defines_encodeMismatch (h : b.theory.Good) (hx : b.theory.MeansWord n xs F) (hy : b.theory.MeansWord n ys G) :
    Defines b (encodeMismatch xs ys : CnfM σ Literal) fun x T => T.Means x fun s => decide (F s ≠ G s) := by
  have hlen : xs.length = ys.length := hx.length.trans hy.length.symm
  unfold encodeMismatch
  rw [if_neg (not_not.2 hlen)]
  have hdiff : Defines b ((xs.zip ys).mapM fun p => xor p.1 p.2 : CnfM σ (List Literal)) fun ks T =>
      List.Forall₂ (fun (p : Literal × Literal) k => T.Means k fun s => p.1.holds s ^^ p.2.holds s) (xs.zip ys) ks := by
    refine defines_mapM h (fun _ _ _ _ hle hk => hk.mono hle) ?_
    intro p hp b' h' hle'
    obtain ⟨hpx, hpy⟩ := List.of_mem_zip hp
    exact defines_xor h' ((hx.knows _ hpx).mono hle') ((hy.knows _ hpy).mono hle')
  refine hdiff.bind fun ks b₁ h₁ hle₁ hks => (defines_orAll h₁ (Theory.knows_of_forall₂ hks)).imp
    fun x T _ hle hx' => hx'.congr fun s hs => ?_
  have hs₁ := hle.sound s hs
  have hs₀ := hle₁.sound s hs₁
  rw [any_of_means hks hs₁, any_zip_xor s hlen, hx.eval s hs₀, hy.eval s hs₀]

end ReversibleLogic.Cnf
