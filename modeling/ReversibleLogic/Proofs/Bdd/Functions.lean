import ReversibleLogic.Bdd.Function
import ReversibleLogic.Proofs.Bdd.Walks
import ReversibleLogic.Proofs.Words

/-!
# References as properties and as bits of words

* `Expresses m r P` — the reference is true exactly under the assignments with the property `P`;
* `wordAt vars a` — the word that the variables spell, lowest bit first;
* `DenotesWord m n rs W` — the references are the bits `0, …, n - 1` of the word `W a`; `DenotesWord.yields_mapM`
  changes them one by one;
* `yields_ofTable` — the diagrams of a table have the rows of the table.
-/

namespace ReversibleLogic.Bdd

variable {m m' : Manager} {n : Nat} {rs : List Ref} {W V : Assignment → Nat} {vars : List Nat} {a : Assignment}

/-! ### properties -/

section properties

variable {f g r : Ref} {P Q : Assignment → Prop} {F : Assignment → Bool} {v : Nat}

/-- the reference is true exactly under the assignments with the property. -/
structure Expresses (m : Manager) (r : Ref) (P : Assignment → Prop) : Prop where
  holds : m.Holds r
  eval_iff : ∀ a, m.eval a r = true ↔ P a

theorem Manager.Denotes.expresses (h : m.Denotes r F) (hP : ∀ a, F a = true ↔ P a) : Expresses m r P :=
  ⟨h.holds, fun a => by rw [h.eval, hP]⟩

namespace Expresses

theorem mono (h : Expresses m r P) (hm : m.Ordered) (hle : m ≤ m') : Expresses m' r P :=
  ⟨h.holds.mono hle, fun a => by rw [Manager.eval_mono hm hle h.holds, h.eval_iff]⟩

theorem congr (h : Expresses m r P) (hPQ : ∀ a, P a ↔ Q a) : Expresses m r Q :=
  ⟨h.holds, fun a => (h.eval_iff a).trans (hPQ a)⟩

theorem neg (h : Expresses m r P) : Expresses m (-r) fun a => ¬ P a :=
  ⟨h.holds.neg, fun a => by rw [Manager.eval_neg h.holds, Bool.not_eq_true', ← Bool.not_eq_true, h.eval_iff]⟩

theorem conj (h : m.WellFormed) (hf : Expresses m f P) (hg : Expresses m g Q) :
    Yields m (conj f g) fun r m' => Expresses m' r fun a => P a ∧ Q a :=
  (yields_conj h hf.holds.denotes hg.holds.denotes).imp fun r m' _ _ hr => hr.expresses fun a => by
    rw [Bool.and_eq_true, hf.eval_iff, hg.eval_iff]

theorem disj (h : m.WellFormed) (hf : Expresses m f P) (hg : Expresses m g Q) :
    Yields m (disj f g) fun r m' => Expresses m' r fun a => P a ∨ Q a :=
  (yields_disj h hf.holds.denotes hg.holds.denotes).imp fun r m' _ _ hr => hr.expresses fun a => by
    rw [Bool.or_eq_true, hf.eval_iff, hg.eval_iff]

theorem imply (h : m.WellFormed) (hf : Expresses m f P) (hg : Expresses m g Q) :
    Yields m (imply f g) fun r m' => Expresses m' r fun a => P a → Q a :=
  (yields_imply h hf.holds.denotes hg.holds.denotes).imp fun r m' _ _ hr => hr.expresses fun a => by
    rw [Bool.or_eq_true, Bool.not_eq_true', ← Bool.not_eq_true, hf.eval_iff, hg.eval_iff, imp_iff_not_or]

theorem var (h : m.WellFormed) (hpos : 0 < v) (hlt : v < lastLevel) :
    Yields m (var v) fun r m' => Expresses m' r fun a => a v = true :=
  (yields_var h hpos hlt).imp fun _ _ _ _ hr => hr.expresses fun _ => Iff.rfl

theorem forallOver (h : m.WellFormed) (hf : Expresses m f P) (vars : List Nat) :
    Yields m (forallOver f vars) fun r m' =>
      Expresses m' r fun a => ∀ b : Assignment, (∀ v, v ∉ vars → b v = a v) → P b :=
  (yields_forallOver h hf.holds.denotes vars).imp fun r m' _ _ hr => hr.expresses fun a => by
    simp only [everySetting_eq_true, hf.eval_iff]

theorem eq_zero_iff (h : Expresses m r P) (hm : m.Ordered) : r = .zero ↔ ∀ a, ¬ P a := by
  rw [h.holds.denotes.eq_zero_iff hm]
  exact forall_congr' fun a => by rw [← h.eval_iff, Bool.not_eq_true]

end Expresses

end properties

/-! ### words -/

/-- the word that the variables spell. -/
def wordAt (vars : List Nat) (a : Assignment) : Nat := Word.ofBits (vars.map a)

theorem wordAt_lt (vars : List Nat) (a : Assignment) : wordAt vars a < 2 ^ vars.length := by
  have hlt := Word.ofBits_lt (vars.map a)
  rwa [List.length_map] at hlt

theorem testBit_wordAt {i : Nat} (hi : i < vars.length) (a : Assignment) : (wordAt vars a).testBit i = a vars[i] := by
  simp [wordAt, hi]

theorem map_eq_toBits {x : Nat} (hx : x < 2 ^ vars.length) :
    vars.map a = Word.toBits x vars.length ↔ wordAt vars a = x := by
  constructor
  · intro h
    rw [wordAt, h, Word.ofBits_toBits, Nat.mod_eq_of_lt hx]
  · rintro rfl
    have hbits := Word.toBits_ofBits (vars.map a)
    rw [List.length_map] at hbits
    exact hbits.symm

/-- the references are the bits of a word. -/
structure DenotesWord (m : Manager) (n : Nat) (rs : List Ref) (W : Assignment → Nat) : Prop where
  length : rs.length = n
  bit : ∀ (j : Nat) (r : Ref), rs[j]? = some r → m.Denotes r fun a => (W a).testBit j

theorem DenotesWord.mono (h : DenotesWord m n rs W) (hm : m.Ordered) (hle : m ≤ m') : DenotesWord m' n rs W :=
  ⟨h.length, fun j r hr => (h.bit j r hr).mono hm hle⟩

theorem DenotesWord.congr (h : DenotesWord m n rs W) (hWV : ∀ a, W a = V a) : DenotesWord m n rs V :=
  ⟨h.length, fun j r hr => (h.bit j r hr).congr fun a => by rw [hWV]⟩

theorem DenotesWord.unique (h : DenotesWord m n rs W) (hm : m.Ordered) {ss : List Ref} (h' : DenotesWord m n ss W) :
    rs = ss := by
  refine List.ext_getElem (h.length.trans h'.length.symm) fun j hj hj' => ?_
  exact (h.bit j _ (List.getElem?_eq_getElem hj)).unique hm (h'.bit j _ (List.getElem?_eq_getElem hj'))

theorem denotesWord_zero (h : m.WellFormed) (n : Nat) : DenotesWord m n (List.replicate n .zero) fun _ => 0 := by
  refine ⟨List.length_replicate, fun j r hr => ?_⟩
  rw [List.eq_of_mem_replicate (List.mem_of_getElem? hr)]
  exact h.denotes_zero.congr fun a => (Nat.zero_testBit j).symm

/-- results that are the bits of a word, one for each member of a list. -/
theorem DenotesWord.of_forall₂ {α : Type} {xs : List α} {i : α → Nat}
    (h : List.Forall₂ (fun x r => m.Denotes r fun a => (W a).testBit (i x)) xs rs)
    (hi : ∀ (j : Nat) x, xs[j]? = some x → i x = j) :
    DenotesWord m xs.length rs W := by
  refine ⟨h.length_eq.symm, fun j r hr => ?_⟩
  obtain ⟨hj, hr⟩ := List.getElem?_eq_some_iff.1 hr
  have hj' : j < xs.length := by rw [h.length_eq]; exact hj
  have hone := (List.forall₂_iff_get.1 h).2 j hj' hj
  have hij := hi j xs[j] (List.getElem?_eq_getElem hj')
  simp only [List.get_eq_getElem] at hone
  rwa [hij, hr] at hone

theorem DenotesWord.yields_mapM (h : m.WellFormed) (hrs : DenotesWord m n rs W) {f : Ref × Nat → BddM Ref}
    (hf : ∀ j < n, ∀ r m', m'.WellFormed → m ≤ m' → m'.Denotes r (fun a => (W a).testBit j) →
      Yields m' (f (r, j)) fun s m'' => m''.Denotes s fun a => (V a).testBit j) :
    Yields m (rs.zipIdx.mapM f) fun ss m' => DenotesWord m' n ss V := by
  refine (Bdd.yields_mapM h (P := fun (p : Ref × Nat) (s : Ref) m' => m'.Denotes s fun a => (V a).testBit p.2)
    (fun _ _ _ _ h' hle hs => hs.mono h'.toOrdered hle) fun p hp m' h' hle => ?_).imp fun ss m' _ _ hss => ?_
  · have hget : rs[p.2]? = some p.1 := List.mk_mem_zipIdx_iff_getElem?.1 hp
    have hlt : p.2 < n := by
      rw [← hrs.length]
      exact (List.getElem?_eq_some_iff.1 hget).1
    exact hf p.2 hlt p.1 m' h' hle ((hrs.bit _ _ hget).mono h.toOrdered hle)
  · have hword := DenotesWord.of_forall₂ hss fun j p hp => by
      rw [List.getElem?_zipIdx] at hp
      obtain ⟨r, -, rfl⟩ := Option.map_eq_some_iff.1 hp
      exact Nat.zero_add j
    rwa [List.length_zipIdx, hrs.length] at hword

/-- the inputs under which two words have the same bits. -/
theorem DenotesWord.yields_agree (h : m.WellFormed) {ss : List Ref} (hrs : DenotesWord m n rs W)
    (hss : DenotesWord m n ss V) :
    Yields m (conjAll (List.zipWith iff rs ss)) fun r m' =>
      Expresses m' r fun a => ∀ j < n, (W a).testBit j = (V a).testBit j := by
  have heach : YieldsEach m (List.zipWith iff rs ss)
      ((List.range n).map fun j a => (W a).testBit j == (V a).testBit j) := by
    have hlen : (List.zipWith iff rs ss).length = n := by simp [hrs.length, hss.length]
    refine List.forall₂_iff_get.2 ⟨by simpa using hlen, fun j hj hj' m' h' hle => ?_⟩
    have hr : j < rs.length := by rw [hrs.length, ← hlen]; exact hj
    have hs : j < ss.length := by rw [hss.length, ← hlen]; exact hj
    have hbit := hrs.bit j rs[j] (List.getElem?_eq_getElem hr)
    have hbit' := hss.bit j ss[j] (List.getElem?_eq_getElem hs)
    simpa using yields_iff h' (hbit.mono h.toOrdered hle) (hbit'.mono h.toOrdered hle)
  refine (yields_conjAll h heach).imp fun r m' _ _ hr => hr.expresses fun a => ?_
  simp

theorem yields_vars (h : m.WellFormed) (hvars : ∀ v ∈ vars, 0 < v ∧ v < lastLevel) :
    Yields m (vars.mapM var) fun rs m' => DenotesWord m' vars.length rs (wordAt vars) := by
  refine (yields_mapM h (P := fun v s m' => m'.Denotes s fun a => a v)
    (fun _ _ _ _ h' hle hs => hs.mono h'.toOrdered hle) fun v hv m' h' _ =>
      yields_var h' (hvars v hv).1 (hvars v hv).2).imp fun rs m' _ _ hrs => ?_
  refine ⟨hrs.length_eq.symm, fun j r hr => ?_⟩
  obtain ⟨hj, hr⟩ := List.getElem?_eq_some_iff.1 hr
  have hj' : j < vars.length := by rw [hrs.length_eq]; exact hj
  have hone := (List.forall₂_iff_get.1 hrs).2 j hj' hj
  rw [List.get_eq_getElem, hr] at hone
  refine hone.congr ?_
  intro a
  simp [wordAt, hj']

/-! ### tables -/

namespace Function

variable {f : Function} {C : Assignment → Bool} {x y : Nat}

/-- the function of the variables `vars` has the output words `W` and the care set `C`. -/
structure Denotes (m : Manager) (f : Function) (vars : List Nat) (n : Nat) (W : Assignment → Nat)
    (C : Assignment → Bool) : Prop where
  inputs : f.inputs = vars
  outputs : DenotesWord m n f.outputs W
  care : m.Denotes f.care C

/-- one more row, on the assignments of its cube. -/
theorem yields_addRow_of_cube (h : m.WellFormed) (hf : Denotes m f vars n W C) {P : Assignment → Bool}
    (hcube : Yields m (cubeOfBits vars (Word.toBits x vars.length)) fun r m' => m'.Denotes r P) :
    Yields m (f.addRow x y) fun f' m' =>
      Denotes m' f' vars n (fun a => if P a then W a ||| y else W a) fun a => C a || P a := by
  unfold addRow
  rw [hf.inputs]
  refine hcube.bind fun cube m₁ h₁ hle₁ hcube => ?_
  refine (yields_disj h₁ (hf.care.mono h.toOrdered hle₁) hcube).bind fun care m₂ h₂ hle₂ hcare => ?_
  refine ((hf.outputs.mono h.toOrdered (Manager.le_trans hle₁ hle₂)).yields_mapM h₂
    (V := fun a => if P a then W a ||| y else W a) fun j _ r m' h' hle' hr => ?_).bind
    fun outputs m₃ h₃ hle₃ houtputs => yields_pure h₃ ⟨rfl, houtputs, hcare.mono h₂.toOrdered hle₃⟩
  dsimp only
  split
  · next hbit =>
    refine (yields_disj h' hr (hcube.mono h₁.toOrdered (Manager.le_trans hle₂ hle'))).imp
      fun s _ _ _ hs => hs.congr fun a => ?_
    split <;> simp_all
  · next hbit =>
    refine yields_pure h' (hr.congr fun a => ?_)
    split <;> simp_all

theorem yields_addRow (h : m.WellFormed) (hvars : ∀ v ∈ vars, 0 < v ∧ v < 2 ^ 31) (hnodup : vars.Nodup)
    (hf : Denotes m f vars n W C) (hx : x < 2 ^ vars.length) :
    Yields m (f.addRow x y) fun f' m' =>
      Denotes m' f' vars n (fun a => if wordAt vars a = x then W a ||| y else W a)
        (fun a => C a || decide (wordAt vars a = x)) := by
  have hcube := (yields_cubeOfBits h (by simp) hvars hnodup).imp fun cube m' _ _ hcube =>
    hcube.congr (G := fun a => decide (wordAt vars a = x)) fun a => decide_eq_decide.2 (map_eq_toBits hx)
  simpa only [decide_eq_true_iff] using yields_addRow_of_cube (y := y) h hf hcube

theorem yields_addRows (h : m.WellFormed) (hvars : ∀ v ∈ vars, 0 < v ∧ v < 2 ^ 31) (hnodup : vars.Nodup)
    (rows : List (Option Nat)) (hrows : rows.length ≤ 2 ^ vars.length)
    (hf : Denotes m f vars n (fun _ => 0) fun _ => false) :
    Yields m (rows.zipIdx.foldlM (fun f (y, x) => match y with
        | some y => f.addRow x y
        | none => pure f) f) fun f' m' =>
      Denotes m' f' vars n (fun a => rows[wordAt vars a]?.join.getD 0) fun a => rows[wordAt vars a]?.join.isSome := by
  have hstart : Denotes m f vars n (fun a => (rows.take 0)[wordAt vars a]?.join.getD 0)
      fun a => (rows.take 0)[wordAt vars a]?.join.isSome :=
    ⟨hf.inputs, hf.outputs.congr fun a => by simp, hf.care.congr fun a => by simp⟩
  -- the invariant: the rows that are done are denoted
  refine (yields_foldlM h (I := fun i f' m' => Denotes m' f' vars n
    (fun a => (rows.take i)[wordAt vars a]?.join.getD 0) fun a => (rows.take i)[wordAt vars a]?.join.isSome)
    hstart ?_).imp fun f' m' _ _ hf' => by rwa [List.length_zipIdx, List.take_length] at hf'
  rintro i ⟨row, x⟩ hrow f₁ m₁ h₁ - hf₁
  rw [List.getElem?_zipIdx, Nat.zero_add, Option.map_eq_some_iff] at hrow
  obtain ⟨_, hi, he⟩ := hrow
  cases he
  have hnext : ∀ w : Nat, (rows.take (i + 1))[w]?.join = if w = i then row else (rows.take i)[w]?.join := by
    intro w
    rw [List.getElem?_take, List.getElem?_take]
    rcases Nat.lt_trichotomy w i with hw | rfl | hw
    · rw [if_pos hw, if_pos (by omega), if_neg (Nat.ne_of_lt hw)]
    · simp [hi]
    · rw [if_neg (by omega), if_neg (Nat.ne_of_gt hw), if_neg (by omega)]
  have hnone : (rows.take i)[i]?.join = none := by rw [List.getElem?_eq_none (List.length_take_le i rows)]; rfl
  have hlt : i < rows.length := (List.getElem?_eq_some_iff.1 hi).1
  cases row with
  | none =>
    have hsame : ∀ w : Nat, (rows.take (i + 1))[w]?.join = (rows.take i)[w]?.join := by
      intro w
      rw [hnext]
      split
      · next hw => rw [hw, hnone]
      · rfl
    exact yields_pure h₁ ⟨hf₁.inputs, hf₁.outputs.congr fun a => by rw [hsame], hf₁.care.congr fun a => by rw [hsame]⟩
  | some y =>
    refine (yields_addRow h₁ hvars hnodup hf₁ (by omega)).imp fun f₂ m₂ _ _ hf₂ =>
      ⟨hf₂.inputs, hf₂.outputs.congr fun a => ?_, hf₂.care.congr fun a => ?_⟩
    · rw [hnext]
      split
      · next hw => rw [hw, hnone]; simp
      · rfl
    · rw [hnext]
      split
      · next hw => simp [hw]
      · next hw => simp [hw]

theorem variablesFrom_eq {first : Nat} (hmax : first ≤ maxVariable) (hlt : ∀ i < n, first + i < 2 ^ 31) :
    variablesFrom first n = .ok ((List.range n).map (first + ·)) := by
  have hlast : first + n - 1 ≤ maxVariable := by
    have hbound : 2 ^ 31 ≤ maxVariable := by decide
    cases n with
    | zero => omega
    | succ n => exact (hlt n (Nat.lt_succ_self n)).le.trans hbound
  rw [variablesFrom, if_neg (Nat.not_lt.2 (Nat.max_le.2 ⟨hmax, hlast⟩))]

/-- **The diagrams of a table**: the outputs are the rows, the care set is where rows are specified. -/
theorem yields_ofTable (h : m.WellFormed) {t : BooleanFunction} (hrows : t.rows.size ≤ 2 ^ t.inputs) {first : Nat}
    (hfirst : 0 < first) (hmax : first ≤ maxVariable) (hlt : ∀ i < t.inputs, first + i < 2 ^ 31) :
    Yields m (ofTable t first) fun f m' =>
      Denotes m' f ((List.range t.inputs).map (first + ·)) t.outputs
        (fun a => t.rows[wordAt ((List.range t.inputs).map (first + ·)) a]?.join.getD 0)
        fun a => t.rows[wordAt ((List.range t.inputs).map (first + ·)) a]?.join.isSome := by
  have hvars : ∀ v ∈ (List.range t.inputs).map (first + ·), 0 < v ∧ v < 2 ^ 31 := by
    intro v hv
    obtain ⟨i, hi, rfl⟩ := List.mem_map.1 hv
    exact ⟨by omega, hlt i (List.mem_range.1 hi)⟩
  have hnodup : ((List.range t.inputs).map (first + ·)).Nodup :=
    List.nodup_range.map fun i j hij => Nat.add_left_cancel hij
  unfold ofTable
  refine yields_bind_of_eq (ask_eq (variablesFrom_eq hmax hlt)) ?_
  have hadd := yields_addRows h hvars hnodup t.rows.toList (by simpa using hrows)
    (f := ⟨_, _, .zero⟩) ⟨rfl, denotesWord_zero h t.outputs, h.denotes_zero⟩
  simp only [Array.getElem?_toList] at hadd
  exact hadd

end Function

end ReversibleLogic.Bdd
