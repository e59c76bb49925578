import ReversibleLogic.Proofs.BooleanFunction
import ReversibleLogic.Proofs.Bdd.Functions
import ReversibleLogic.Proofs.Bdd.ModelLists

/-!
# The table of a function given by diagrams

* `spelling vars x` — the assignment under which the variables spell the word `x`;
* `Function.tableOf`, `Function.yields_toTable` — the rows are the values under these assignments;
* `length_modelList` — there are as many models over the variables as words that spell one, in whatever order the
  variables are listed;
* `Function.multiplicity_tableOf` — so multiplicities are numbers of models.
-/

namespace ReversibleLogic.Bdd

variable {α : Type} {m m' : Manager} {n x y : Nat} {vars : List Nat} {F : Assignment → Bool} {a b : Assignment}

/-! ### spelled words -/

/-- the variables have the bits of `x`, all others are clear. -/
def spelling (vars : List Nat) (x : Nat) : Assignment := setting vars (Word.toBits x vars.length) fun _ => false

theorem spelling_getElem (hvars : vars.Nodup) (x : Nat) {i : Nat} (hi : i < vars.length) :
    spelling vars x vars[i] = x.testBit i := by
  rw [spelling, setting_getElem hvars _ hi (by simpa using hi)]
  simp [Word.toBits]

theorem wordAt_spelling (hvars : vars.Nodup) (hx : x < 2 ^ vars.length) : wordAt vars (spelling vars x) = x := by
  refine Word.eq_of_testBit_lt (wordAt_lt _ _) hx fun i hi => ?_
  rw [testBit_wordAt hi, spelling_getElem hvars x hi]

theorem spelling_wordAt (hvars : vars.Nodup) (a : Assignment) : ∀ v ∈ vars, spelling vars (wordAt vars a) v = a v := by
  intro v hv
  obtain ⟨i, hi, rfl⟩ := List.getElem_of_mem hv
  rw [spelling_getElem hvars _ hi, testBit_wordAt hi]

/-! ### models and words -/

/-- models in one order of the variables are as many as in another one. -/
theorem length_modelList_perm {us : List Nat} (h : us.Perm vars) (F : Assignment → Bool) :
    (modelList us F).length = (modelList vars F).length := by
  induction h generalizing F with
  | nil => rfl
  | cons v _ ih => simp only [modelList, List.length_append, List.length_map, ih]
  | swap u v us =>
    by_cases huv : u = v
    · rw [huv]
    · have hcomm : ∀ c d, (fun a : Assignment => F (Function.update (Function.update a v d) u c)) =
          fun a : Assignment => F (Function.update (Function.update a u c) v d) := fun c d =>
        funext fun a => by rw [Function.update_comm (Ne.symm huv)]
      simp only [modelList, List.length_append, List.length_map, hcomm]
      omega
  | trans _ _ ih ih' => exact (ih F).trans (ih' F)

theorem sortedSet_perm (hvars : vars.Nodup) : (sortedSet vars).Perm vars :=
  (List.perm_ext_iff_of_nodup ((sortedSet_pairwise vars).imp Nat.ne_of_lt) hvars).2 fun _ => mem_sortedSet

/-- **Models are words**: those whose spelling satisfies the function. -/
theorem length_modelList (vars : List Nat) (F : Assignment → Bool) :
    (modelList vars F).length = ((List.range (2 ^ vars.length)).filter fun x => F (spelling vars x)).length := by
  have hinj : ((List.range (2 ^ vars.length)).filter fun x => F (spelling vars x)).Nodup := List.nodup_range.filter _
  have hbits : ∀ bits : List Bool, bits.length = vars.length →
      Word.ofBits bits < 2 ^ vars.length ∧ Word.toBits (Word.ofBits bits) vars.length = bits := by
    intro bits hlen
    rw [← hlen]
    exact ⟨Word.ofBits_lt bits, Word.toBits_ofBits bits⟩
  have hperm : (modelList vars F).Perm
      (((List.range (2 ^ vars.length)).filter fun x => F (spelling vars x)).map (Word.toBits · vars.length)) := by
    refine (List.perm_ext_iff_of_nodup (modelList_nodup vars F) ?_).2 fun bits => ?_
    · refine List.Nodup.map_on (fun x hx y hy he => ?_) hinj
      have hx := List.mem_range.1 (List.mem_filter.1 hx).1
      have hy := List.mem_range.1 (List.mem_filter.1 hy).1
      have := congrArg Word.ofBits he
      rwa [Word.ofBits_toBits, Word.ofBits_toBits, Nat.mod_eq_of_lt hx, Nat.mod_eq_of_lt hy] at this
    · rw [mem_modelList, List.mem_map]
      constructor
      · rintro ⟨hlen, hF⟩
        obtain ⟨hlt, he⟩ := hbits bits hlen
        refine ⟨Word.ofBits bits, List.mem_filter.2 ⟨List.mem_range.2 hlt, ?_⟩, he⟩
        rw [spelling, he]
        exact hF
      · rintro ⟨x, hx, rfl⟩
        exact ⟨Word.length_toBits _ _, (List.mem_filter.1 hx).2⟩
  rw [hperm.length_eq, List.length_map]

/-! ### rows -/

namespace Function

variable {f : Function} {W : Assignment → Nat} {C : Assignment → Bool} {rs : List Ref}

theorem Denotes.mono (h : Denotes m f vars n W C) (hm : m.Ordered) (hle : m ≤ m') : Denotes m' f vars n W C :=
  ⟨h.inputs, h.outputs.mono hm hle, h.care.mono hm hle⟩

theorem denotes_self (hcare : m.Holds f.care) (houtputs : ∀ r ∈ f.outputs, m.Holds r) :
    Denotes m f f.inputs f.outputs.length (fun a => Word.ofBits (f.outputs.map (m.eval a))) (m.eval · f.care) := by
  refine ⟨rfl, ⟨rfl, fun j r hr => ?_⟩, hcare.denotes⟩
  refine (houtputs r (List.mem_of_getElem? hr)).denotes.congr fun a => ?_
  rw [Word.testBit_ofBits, List.getD_eq_getElem?_getD, List.getElem?_map, hr]
  rfl

theorem ofBits_eval (h : DenotesWord m n rs W) {a : Assignment} (hlt : W a < 2 ^ n) :
    Word.ofBits (rs.map (m.eval a)) = W a := by
  refine Word.eq_of_testBit_lt (n := n) ?_ hlt fun j hj => ?_
  · rw [← h.length, ← List.length_map (m.eval a)]
    exact Word.ofBits_lt _
  · have hj' : j < rs.length := by rw [h.length]; exact hj
    have hget : rs[j]? = some rs[j] := List.getElem?_eq_getElem hj'
    rw [Word.testBit_ofBits, List.getD_eq_getElem?_getD, List.getElem?_map, hget, Option.map_some, Option.getD_some,
      (h.bit j _ hget).eval]

/-- the rows that a function with these words has on its care set. -/
def rowOf (vars : List Nat) (W : Assignment → Nat) (C : Assignment → Bool) (x : Nat) : Option Nat :=
  if C (spelling vars x) then some (W (spelling vars x)) else none

def tableOf (vars : List Nat) (n : Nat) (W : Assignment → Nat) (C : Assignment → Bool) : BooleanFunction :=
  ⟨vars.length, n, ((List.range (2 ^ vars.length)).map (rowOf vars W C)).toArray⟩

theorem override_assignment (hinputs : f.inputs.Nodup) (x : Nat) (a : Assignment) :
    ∀ v ∈ f.inputs, override (f.assignment x) a v = spelling f.inputs x v := by
  intro v hv
  obtain ⟨i, hi, rfl⟩ := List.mem_iff_getElem.1 hv
  have hentry : (f.inputs[i], x.testBit i) ∈ f.inputs.zipIdx.map fun p => (p.1, x.testBit p.2) :=
    List.mem_map.2 ⟨(f.inputs[i], i), List.mk_mem_zipIdx_iff_getElem?.2 (List.getElem?_eq_getElem hi), rfl⟩
  have hfst : (f.inputs.zipIdx.map fun p => (p.1, x.testBit p.2)).map Prod.fst = f.inputs := by
    rw [List.map_map]
    exact List.zipIdx_map_fst 0 f.inputs
  have hget := Binding.getElem?_ofEntries_of_mem hentry (by rw [hfst]; exact hinputs)
  rw [override, assignment, hget, spelling_getElem hinputs x hi, Option.getD_some]

/-- what the table of a function needs: different inputs on which the words depend, and words that fit. -/
structure Tabular (vars : List Nat) (n : Nat) (W : Assignment → Nat) (C : Assignment → Bool) : Prop where
  nodup : vars.Nodup
  word : DependsOn vars W
  care : DependsOn vars C
  lt : ∀ a, W a < 2 ^ n

/-- a function of references that depend on its different inputs. -/
theorem tabular_self (hinputs : f.inputs.Nodup) (hdep : ∀ r ∈ f.outputs ++ [f.care], DependsOn f.inputs (m.eval · r)) :
    Tabular f.inputs f.outputs.length (fun a => Word.ofBits (f.outputs.map (m.eval a))) (m.eval · f.care) := by
  refine ⟨hinputs, fun a b hab => congrArg Word.ofBits (List.map_congr_left fun r hr => ?_), hdep _ (by simp),
    fun a => ?_⟩
  · exact hdep r (List.mem_append_left _ hr) a b hab
  · simpa using Word.ofBits_lt (f.outputs.map (m.eval a))

theorem rows_tableOf (ht : Tabular vars n W C) (a : Assignment) :
    (tableOf vars n W C).rows[wordAt vars a]? = some (if C a then some (W a) else none) := by
  have hlt := wordAt_lt vars a
  have hspell := spelling_wordAt ht.nodup a
  simp only [tableOf, List.getElem?_toArray, List.getElem?_map, List.getElem?_range hlt, Option.map_some, rowOf,
    ht.care _ _ hspell, ht.word _ _ hspell]

section rows

variable (hf : Denotes m f vars n W C) (ht : Tabular vars n W C)
include hf ht

theorem yields_restrict_assignment (h : m.WellFormed) {r : Ref} (hr : m.Denotes r F) (hF : DependsOn vars F) (x : Nat) :
    Yields m (restrict r (f.assignment x)) fun s m' => m'.Denotes s fun _ => F (spelling vars x) := by
  refine (yields_restrict h hr _).imp fun s m' _ _ hs => hs.congr fun a => hF _ _ ?_
  rw [← hf.inputs]
  exact override_assignment (by rw [hf.inputs]; exact ht.nodup) x a

/-- **One row.** -/
theorem yields_eval (h : m.WellFormed) (x : Nat) : Yields m (f.eval x) fun row _ => row = rowOf vars W C x := by
  unfold eval
  refine (yields_restrict_assignment hf ht h hf.care ht.care x).bind fun care m₁ h₁ hle₁ hcare => ?_
  split
  · next hzero =>
    refine yields_pure h₁ ?_
    have hfalse := hcare.eval fun _ => false
    rw [hzero, Manager.eval_zero] at hfalse
    rw [rowOf, ← hfalse, if_neg Bool.false_ne_true]
  · next hne =>
    have htrue : C (spelling vars x) = true := by
      by_contra hfalse
      rw [Bool.not_eq_true] at hfalse
      exact hne (hcare.unique h₁.toOrdered (h₁.denotes_zero.congr fun _ => hfalse.symm))
    -- the outputs one after the other, each with its value in the old manager
    have hbits : Yields m₁ (f.outputs.mapM fun output => do
        return decide ((← restrict output (f.assignment x)) = .one)) fun bits m' =>
        List.Forall₂ (fun output b => b = m.eval (spelling vars x) output) f.outputs bits := by
      refine yields_mapM h₁ (P := fun output b _ => b = m.eval (spelling vars x) output)
        (fun _ _ _ _ _ _ he => he) fun output houtput m₂ h₂ hle₂ => ?_
      have hle := Manager.le_trans hle₁ hle₂
      obtain ⟨j, hj⟩ := List.mem_iff_getElem?.1 houtput
      have hbit := hf.outputs.bit j output hj
      have hdep : DependsOn vars fun a => (W a).testBit j := fun a b hab =>
        congrArg (Nat.testBit · j) (ht.word a b hab)
      refine (yields_restrict_assignment (hf.mono h.toOrdered hle) ht h₂ (hbit.mono h.toOrdered hle) hdep x).bind
        fun s m₃ h₃ _ hs => yields_pure h₃ ?_
      rw [hbit.eval, Bool.eq_iff_iff, decide_eq_true_iff, hs.eq_one_iff h₃.toOrdered]
      exact forall_const _
    refine hbits.bind fun bits m₂ h₂ _ hbits => yields_pure h₂ ?_
    have hmap : bits = f.outputs.map (m.eval (spelling vars x)) := by
      rw [← List.forall₂_eq_eq_eq, List.forall₂_map_right_iff]
      exact hbits.flip
    rw [rowOf, if_pos htrue, hmap, ofBits_eval hf.outputs (ht.lt _)]

omit hf in
theorem valid_tableOf (hvars : vars.length ≤ maxTableLines) (hn : n ≤ maxTableLines) : (tableOf vars n W C).Valid := by
  refine ⟨hvars, hn, by simp [tableOf], fun x y hx => ?_⟩
  simp only [tableOf, List.getElem?_toArray, List.getElem?_map, Option.map_eq_some_iff] at hx
  obtain ⟨w, -, hw⟩ := hx
  unfold rowOf at hw
  split at hw
  · cases hw
    exact ht.lt _
  · cases hw

/-- **The table of a function.** -/
theorem yields_toTable (h : m.WellFormed) (hvars : vars.length ≤ maxTableLines) (hn : n ≤ maxTableLines) :
    Yields m f.toTable fun t _ => t = tableOf vars n W C := by
  unfold toTable
  rw [hf.inputs, hf.outputs.length]
  dsimp only
  rw [if_neg (Nat.not_lt.2 hvars)]
  refine (yields_mapM h (P := fun x row _ => row = rowOf vars W C x) (fun _ _ _ _ _ _ he => he)
    fun x _ m' h' hle => yields_eval (hf.mono h.toOrdered hle) ht h' x).bind fun rows m₁ h₁ _ hrows => ?_
  have hmap : rows = (List.range (2 ^ vars.length)).map (rowOf vars W C) := by
    rw [← List.forall₂_eq_eq_eq, List.forall₂_map_right_iff]
    exact hrows.flip
  have hok := BooleanFunction.ofRows_eq_ok.2 ⟨rfl, valid_tableOf ht hvars hn⟩
  refine ⟨_, m₁, ask_eq ?_, h₁, m₁.le_refl, rfl⟩
  rw [hmap]
  exact hok

end rows

/-! ### multiplicities -/

/-- **Multiplicities are numbers of models**: of the inputs in the care set that have the word. -/
theorem multiplicity_tableOf (vars : List Nat) (n : Nat) (W : Assignment → Nat) (C : Assignment → Bool) (y : Nat) :
    (tableOf vars n W C).multiplicity y = (modelList vars fun a => C a && decide (W a = y)).length := by
  rw [length_modelList, BooleanFunction.multiplicity, tableOf, List.count_eq_countP, List.countP_map,
    List.countP_eq_length_filter]
  refine congrArg List.length (List.filter_congr fun x _ => ?_)
  rw [Function.comp_apply, rowOf]
  split
  · next hC => simp [hC, beq_eq_decide]
  · next hC => simp [hC]

end Function

end ReversibleLogic.Bdd
