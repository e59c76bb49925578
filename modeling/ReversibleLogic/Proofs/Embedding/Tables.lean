import Mathlib.Order.Bounds.Defs
import ReversibleLogic.Proofs.Embedding.Multiplicity

/-!
# The table of an embedding

* `numbered` — the rows with their outputs numbered (`mapM_numberRow`); the numbered words are different and fit the
  lines (`numberedWord_lt`, `numberedWord_injective`);
* `filled` — free words in place of the unspecified rows, one after the other (`mapM_fillRow`);
* `freeWords_eq` — the free words are the unused ones, as many as there are rows to fill (`length_freeInputs`);
* `Embeds` — what a permutation does that embeds a function; `embedTable_embeds`;
* `Keeps`, `embedTable_lines_isLeast` — no bijection on fewer lines keeps the outputs.
-/

namespace ReversibleLogic

variable {f : BooleanFunction} {m lines x y z w : Nat}

/-! ### numbered rows -/

/-- the rows, each output word followed by the number of earlier rows that share it, if the words of `counts` have been
met before. -/
def numbered (m : Nat) (counts : Nat → Nat) (rows : List (Option Nat)) : List (Option Nat) :=
  rows.mapIdx fun x row => row.map fun y => y ||| ((counts y + (rows.take x).count (some y)) <<< m)

theorem numbered_none (m : Nat) (counts : Nat → Nat) (rows : List (Option Nat)) :
    numbered m counts (none :: rows) = none :: numbered m counts rows := by
  simp [numbered, List.mapIdx_cons]

theorem numbered_some (m : Nat) (counts : Nat → Nat) (rows : List (Option Nat)) (y : Nat) :
    numbered m counts (some y :: rows) =
      some (y ||| (counts y <<< m)) :: numbered m (Function.update counts y (counts y + 1)) rows := by
  rw [numbered, List.mapIdx_cons, numbered]
  refine congrArg₂ _ (by simp) (List.ext_getElem? fun x => ?_)
  rw [List.getElem?_mapIdx, List.getElem?_mapIdx]
  refine congrArg (Option.map · _) (funext fun row => ?_)
  refine congrArg (Option.map · row) (funext fun z => ?_)
  rw [List.take_succ_cons, List.count_cons]
  by_cases hz : z = y
  · subst hz
    simp [Nat.add_assoc, Nat.add_comm 1]
  · simp [hz, Ne.symm hz]

theorem mapM_numberRow (m : Nat) (rows : List (Option Nat)) (counts : Std.TreeMap Nat Nat) :
    ((rows.mapM (numberRow m)).run counts).1 = numbered m (counts.getD · 0) rows := by
  induction rows generalizing counts with
  | nil => rfl
  | cons row rows ih =>
    rw [List.mapM_cons]
    cases row with
    | none =>
      rw [numbered_none, ← ih]
      rfl
    | some y =>
      have hcounts : (fun z => (counts.insert y (counts.getD y 0 + 1)).getD z 0) =
          Function.update (counts.getD · 0) y (counts.getD y 0 + 1) := by
        funext z
        rw [Std.TreeMap.getD_insert, Function.update_apply]
        by_cases hz : z = y
        · simp [hz]
        · simp [hz, Ne.symm hz]
      rw [numbered_some, ← hcounts, ← ih]
      rfl

/-- the output word of row `x`, numbered. -/
def BooleanFunction.numberedWord (f : BooleanFunction) (x y : Nat) : Nat := y ||| (f.earlier x y <<< f.outputs)

section words

variable (hf : f.Valid)
include hf

theorem numberedWord_eq (hx : f.rows[x]? = some (some y)) :
    f.numberedWord x y = 2 ^ f.outputs * f.earlier x y + y := by
  rw [BooleanFunction.numberedWord, Nat.or_comm, ← Nat.shiftLeft_add_eq_or_of_lt (hf.lt x y hx), Nat.shiftLeft_eq,
    Nat.mul_comm]

theorem embeddedOutput_numberedWord (hx : f.rows[x]? = some (some y)) :
    embeddedOutput (f.numberedWord x y) f.outputs = y := by
  rw [embeddedOutput, numberedWord_eq hf hx, Nat.mul_add_mod, Nat.mod_eq_of_lt (hf.lt x y hx)]

theorem numberedWord_lt (hx : f.rows[x]? = some (some y)) (hlines : f.outputs + additionalLines f ≤ lines) :
    f.numberedWord x y < 2 ^ lines := by
  have hy := hf.lt x y hx
  have hk : f.earlier x y < 2 ^ additionalLines f :=
    Nat.lt_of_lt_of_le (BooleanFunction.earlier_lt_multiplicity hx) (additionalLines_le_iff.1 (Nat.le_refl _) y)
  calc f.numberedWord x y = 2 ^ f.outputs * f.earlier x y + y := numberedWord_eq hf hx
    _ < 2 ^ f.outputs * (f.earlier x y + 1) := by rw [Nat.mul_succ]; omega
    _ ≤ 2 ^ f.outputs * 2 ^ additionalLines f := Nat.mul_le_mul_left _ hk
    _ = 2 ^ (f.outputs + additionalLines f) := (Nat.pow_add _ _ _).symm
    _ ≤ 2 ^ lines := Nat.pow_le_pow_right (by decide) hlines

theorem numberedWord_injective (hx : f.rows[x]? = some (some y)) (hz : f.rows[z]? = some (some w))
    (he : f.numberedWord x y = f.numberedWord z w) : x = z := by
  obtain rfl : y = w := by
    rw [← embeddedOutput_numberedWord hf hx, he, embeddedOutput_numberedWord hf hz]
  rw [numberedWord_eq hf hx, numberedWord_eq hf hz, Nat.add_right_cancel_iff] at he
  exact BooleanFunction.eq_of_earlier_eq hx hz (Nat.eq_of_mul_eq_mul_left (Nat.two_pow_pos _) he)

end words

def BooleanFunction.numberedWords (f : BooleanFunction) : List Nat :=
  f.rows.toList.zipIdx.filterMap fun (row, x) => row.map (f.numberedWord x)

theorem mem_numberedWords : w ∈ f.numberedWords ↔ ∃ x y : Nat, f.rows[x]? = some (some y) ∧ f.numberedWord x y = w := by
  rw [BooleanFunction.numberedWords, List.mem_filterMap]
  constructor
  · rintro ⟨⟨row, x⟩, hmem, he⟩
    obtain ⟨y, rfl, hw⟩ : ∃ y, row = some y ∧ f.numberedWord x y = w := Option.map_eq_some_iff.1 he
    rw [List.mk_mem_zipIdx_iff_getElem?, Array.getElem?_toList] at hmem
    exact ⟨x, y, hmem, hw⟩
  · rintro ⟨x, y, hx, rfl⟩
    refine ⟨(some y, x), ?_, rfl⟩
    rw [List.mk_mem_zipIdx_iff_getElem?, Array.getElem?_toList]
    exact hx

/-! ### filled rows -/

/-- the words of the rows, with the free words in order in place of the unspecified ones. -/
def filled : List (Option Nat) → List Nat → List Nat
  | [], _ => []
  | some y :: rows, free => y :: filled rows free
  | none :: rows, free => free.headD 0 :: filled rows free.tail

theorem mapM_fillRow (rows : List (Option Nat)) (free : List Nat) :
    ((rows.mapM fillRow).run free).1 = filled rows free := by
  induction rows generalizing free with
  | nil => rfl
  | cons row rows ih =>
    rw [List.mapM_cons]
    cases row with
    | none =>
      rw [filled, ← ih]
      rfl
    | some y =>
      rw [filled, ← ih]
      rfl

theorem getElem?_filled {rows : List (Option Nat)} (h : rows[x]? = some (some y)) (free : List Nat) :
    (filled rows free)[x]? = some y := by
  induction rows generalizing x free with
  | nil => simp at h
  | cons row rows ih =>
    cases x with
    | zero =>
      rw [List.getElem?_cons_zero, Option.some.injEq] at h
      rw [h, filled, List.getElem?_cons_zero]
    | succ x =>
      rw [List.getElem?_cons_succ] at h
      cases row with
      | none => exact ih h free.tail
      | some _ => exact ih h free

def openRows (rows : List (Option Nat)) : List Nat := (List.range rows.length).filter fun x => rows[x]? = some none

theorem openRows_cons (row : Option Nat) (rows : List (Option Nat)) :
    openRows (row :: rows) = (if row = none then [0] else []) ++ (openRows rows).map (· + 1) := by
  rw [openRows, List.length_cons, List.range_succ_eq_map, List.filter_cons, List.filter_map, openRows]
  cases row <;> simp [Function.comp_def]

variable {rows : List (Option Nat)} {free : List Nat}

theorem length_openRows (rows : List (Option Nat)) :
    (openRows rows).length + (rows.filterMap id).length = rows.length := by
  induction rows with
  | nil => rfl
  | cons row rows ih =>
    rw [openRows_cons]
    cases row with
    | none =>
      rw [if_pos rfl, List.filterMap_cons_none (by rfl), List.length_append, List.length_map, List.length_singleton,
        List.length_cons]
      omega
    | some y =>
      rw [if_neg (by simp), List.filterMap_cons_some (b := y) (by rfl), List.length_append, List.length_map,
        List.length_nil, List.length_cons, List.length_cons]
      omega

/-- **The free words fill the unspecified rows** in order, if there are as many of them. -/
theorem map_openRows (h : (openRows rows).length = free.length) :
    (openRows rows).map ((filled rows free).getD · 0) = free := by
  induction rows generalizing free with
  | nil => exact (List.eq_nil_of_length_eq_zero h.symm).symm
  | cons row rows ih =>
    rw [openRows_cons] at h ⊢
    cases row with
    | none =>
      cases free with
      | nil => simp at h
      | cons w free => simpa [filled, Function.comp_def] using ih (by simpa using h)
    | some y => simpa [filled, Function.comp_def] using ih (by simpa using h)

/-- all words, specified and free, in some order. -/
theorem filled_perm (h : (openRows rows).length = free.length) :
    (filled rows free).Perm (rows.filterMap id ++ free) := by
  induction rows generalizing free with
  | nil => rw [List.eq_nil_of_length_eq_zero h.symm]; exact List.Perm.refl _
  | cons row rows ih =>
    rw [openRows_cons] at h
    cases row with
    | none =>
      cases free with
      | nil => simp at h
      | cons w free =>
        have hperm : (filled rows free).Perm (rows.filterMap id ++ free) := ih (by simpa using h)
        simpa [filled] using (hperm.cons w).trans List.perm_middle.symm
    | some y => simpa [filled] using ih (by simpa using h)

/-! ### free words -/

theorem getD_mark (rows : List (Option Nat)) {used : Array Bool} (hw : w < used.size) :
    (rows.foldl (fun used row => match row with
      | some y => used.setIfInBounds y true
      | none => used) used).getD w false = true ↔ used.getD w false = true ∨ some w ∈ rows := by
  induction rows generalizing used with
  | nil => simp
  | cons row rows ih =>
    rw [List.foldl_cons, List.mem_cons]
    cases row with
    | none =>
      rw [ih hw]
      simp
    | some y =>
      rw [ih (by rwa [Array.size_setIfInBounds]), Array.getD_eq_getD_getElem?, Array.getD_eq_getD_getElem?]
      by_cases hy : y = w
      · subst hy
        simp [hw]
      · rw [Array.getElem?_setIfInBounds_ne hy]
        simp [Ne.symm hy]

/-- the free words are those that no row has. -/
theorem freeWords_eq (size : Nat) (rows : Array (Option Nat)) :
    freeWords size rows = (List.range size).filter fun w => some w ∉ rows.toList := by
  unfold freeWords
  refine List.filter_congr fun w hw => ?_
  have hsize : w < (Array.replicate size false).size := by simpa using hw
  have hmark := getD_mark rows.toList hsize
  have hnone : (Array.replicate size false).getD w false = false := by
    rw [Array.getD_eq_getD_getElem?, Array.getElem?_replicate]
    split <;> rfl
  rw [Array.foldl_toList, hnone] at hmark
  have hused : _ = decide (some w ∈ rows.toList) := Bool.eq_iff_iff.2 (hmark.trans (by simp))
  refine (congrArg Bool.not hused).trans ?_
  simp

/-! ### the table -/

def paddedRows (f : BooleanFunction) (lines : Nat) : List (Option Nat) :=
  numbered f.outputs (fun _ => 0) f.rows.toList ++ List.replicate (2 ^ lines - f.rows.size) none

theorem toList_embeddedTable (f : BooleanFunction) (lines : Nat) :
    (embeddedTable f lines).toList =
      filled (paddedRows f lines) ((List.range (2 ^ lines)).filter fun w => some w ∉ paddedRows f lines) := by
  have hrows : ((f.rows.mapM (numberRow f.outputs)).run ∅).1 =
      (numbered f.outputs (fun _ => 0) f.rows.toList).toArray := by
    rw [Array.mapM_eq_mapM_toList]
    exact congrArg List.toArray (mapM_numberRow f.outputs f.rows.toList ∅)
  have hfill : ∀ (padded : Array (Option Nat)) (free : List Nat),
      ((padded.mapM fillRow).run free).1.toList = filled padded.toList free := by
    intro padded free
    rw [Array.mapM_eq_mapM_toList]
    exact mapM_fillRow padded.toList free
  have hsize : (numbered f.outputs (fun _ => 0) f.rows.toList).length = f.rows.size := by simp [numbered]
  unfold embeddedTable
  dsimp only
  generalize (f.rows.mapM (numberRow f.outputs)).run ∅ = run at hrows ⊢
  obtain ⟨rows, counts⟩ := run
  dsimp only at hrows ⊢
  rw [hfill, freeWords_eq, hrows]
  simp [paddedRows, hsize]

section table

variable (hsize : f.rows.size ≤ 2 ^ lines)
include hsize

theorem length_paddedRows : (paddedRows f lines).length = 2 ^ lines := by
  simp [paddedRows, numbered]
  omega

/-- a padded row is specified if the function is, with the numbered word. -/
theorem getElem?_paddedRows (hx : x < 2 ^ lines) :
    (paddedRows f lines)[x]? = some (f.rows[x]?.join.map (f.numberedWord x)) := by
  have hlen : (numbered f.outputs (fun _ => 0) f.rows.toList).length = f.rows.size := by simp [numbered]
  rw [paddedRows]
  rcases Nat.lt_or_ge x f.rows.size with hlt | hge
  · rw [List.getElem?_append_left (by omega), numbered, List.getElem?_mapIdx, Array.getElem?_toList,
      Array.getElem?_eq_getElem hlt, Option.map_some, Option.join_some]
    simp only [Nat.zero_add]
    rfl
  · rw [List.getElem?_append_right (by omega), hlen, List.getElem?_replicate, if_pos (by omega),
      Array.getElem?_eq_none hge]
    rfl

theorem paddedRows_eq_some :
    (paddedRows f lines)[x]? = some (some w) ↔ ∃ y, f.rows[x]? = some (some y) ∧ f.numberedWord x y = w := by
  rcases Nat.lt_or_ge x (2 ^ lines) with hx | hx
  · rw [getElem?_paddedRows hsize hx]
    simp [Option.join_eq_some_iff]
  · rw [List.getElem?_eq_none (by rw [length_paddedRows hsize]; exact hx), Array.getElem?_eq_none (by omega)]
    simp

theorem mem_paddedRows : some w ∈ paddedRows f lines ↔ w ∈ f.numberedWords := by
  rw [mem_numberedWords, List.mem_iff_getElem?]
  exact exists_congr fun x => paddedRows_eq_some hsize

end table

def BooleanFunction.freeInputs (f : BooleanFunction) (lines : Nat) : List Nat :=
  (List.range (2 ^ lines)).filter fun x => f.rows[x]?.join = none

def BooleanFunction.unusedWords (f : BooleanFunction) (lines : Nat) : List Nat :=
  (List.range (2 ^ lines)).filter (· ∉ f.numberedWords)

theorem openRows_paddedRows (hsize : f.rows.size ≤ 2 ^ lines) : openRows (paddedRows f lines) = f.freeInputs lines := by
  rw [openRows, length_paddedRows hsize, BooleanFunction.freeInputs]
  refine List.filter_congr fun x hx => ?_
  rw [getElem?_paddedRows hsize (List.mem_range.1 hx)]
  simp

theorem toList_embeddedTable_eq (hsize : f.rows.size ≤ 2 ^ lines) :
    (embeddedTable f lines).toList = filled (paddedRows f lines) (f.unusedWords lines) := by
  rw [toList_embeddedTable, BooleanFunction.unusedWords]
  simp only [mem_paddedRows hsize]

theorem getElem?_embeddedTable (hsize : f.rows.size ≤ 2 ^ lines) (hx : f.rows[x]? = some (some y)) :
    (embeddedTable f lines)[x]? = some (f.numberedWord x y) := by
  rw [← Array.getElem?_toList, toList_embeddedTable_eq hsize]
  exact getElem?_filled ((paddedRows_eq_some hsize).2 ⟨y, hx, rfl⟩) _

section bijection

variable (hf : f.Valid) (hinputs : f.inputs ≤ lines) (houtputs : f.outputs + additionalLines f ≤ lines)
include hf hinputs

theorem size_rows_le : f.rows.size ≤ 2 ^ lines := by
  rw [hf.size]
  exact Nat.pow_le_pow_right (by decide) hinputs

theorem words_nodup : ((paddedRows f lines).filterMap id).Nodup := by
  have hsize := size_rows_le hf hinputs
  rw [List.Nodup, List.pairwise_filterMap, List.pairwise_iff_getElem]
  rintro i j hi hj hlt w hw w' hw' rfl
  -- two rows with one word would be one row
  have hrow : ∀ {k : Nat} (hk : k < (paddedRows f lines).length), (paddedRows f lines)[k] = some w →
      ∃ y, f.rows[k]? = some (some y) ∧ f.numberedWord k y = w := by
    intro k hk he
    rw [← paddedRows_eq_some hsize, List.getElem?_eq_getElem hk, he]
  obtain ⟨y, hy, he⟩ := hrow hi hw
  obtain ⟨y', hy', he'⟩ := hrow hj hw'
  have := numberedWord_injective hf hy hy' (he.trans he'.symm)
  omega

include houtputs

/-- **Words and free words** are all words below `2 ^ lines`, each once. -/
theorem words_append_perm :
    ((paddedRows f lines).filterMap id ++ f.unusedWords lines).Perm (List.range (2 ^ lines)) := by
  have hsize := size_rows_le hf hinputs
  have hmem : ∀ w, w ∈ (paddedRows f lines).filterMap id ↔ w ∈ f.numberedWords := by
    intro w
    rw [List.mem_filterMap, ← mem_paddedRows hsize]
    simp
  have hlt : ∀ w ∈ f.numberedWords, w < 2 ^ lines := by
    intro w hw
    obtain ⟨x, y, hx, rfl⟩ := mem_numberedWords.1 hw
    exact numberedWord_lt hf hx houtputs
  have hunused : ∀ w, w ∈ f.unusedWords lines ↔ w < 2 ^ lines ∧ w ∉ f.numberedWords := by
    intro w
    simp [BooleanFunction.unusedWords]
  rw [List.perm_ext_iff_of_nodup ?_ List.nodup_range]
  · intro w
    rw [List.mem_append, hmem, hunused, List.mem_range]
    by_cases hw : w ∈ f.numberedWords
    · simp [hw, hlt w hw]
    · simp [hw]
  · refine List.nodup_append'.2 ⟨words_nodup hf hinputs, List.nodup_range.filter _, fun w hw hw' => ?_⟩
    exact ((hunused w).1 hw').2 ((hmem w).1 hw)

/-- there are as many free words as inputs that need one. -/
theorem length_freeInputs : (f.freeInputs lines).length = (f.unusedWords lines).length := by
  have hsize := size_rows_le hf hinputs
  have hopen := length_openRows (paddedRows f lines)
  have hwords := (words_append_perm hf hinputs houtputs).length_eq
  rw [openRows_paddedRows hsize, length_paddedRows hsize] at hopen
  rw [List.length_append, List.length_range] at hwords
  omega

/-- **The table of an embedding is a bijection.** -/
theorem bijection_embeddedTable : Bijection lines (embeddedTable f lines) := by
  have hsize := size_rows_le hf hinputs
  have hperm : (embeddedTable f lines).toList.Perm (List.range (2 ^ lines)) := by
    rw [toList_embeddedTable_eq hsize]
    refine (filled_perm ?_).trans (words_append_perm hf hinputs houtputs)
    rw [openRows_paddedRows hsize, length_freeInputs hf hinputs houtputs]
  refine Bijection.of_nodup ?_ (fun y hy => ?_) (hperm.nodup_iff.2 List.nodup_range)
  · rw [← Array.length_toList, hperm.length_eq, List.length_range]
  · exact List.mem_range.1 (hperm.mem_iff.1 hy)

end bijection

/-! ### embeddings -/

/-- what a permutation does that embeds a function: the specified rows have their output word, followed by the number
of earlier rows that share it; the other inputs have the other words, both in increasing order. -/
structure Embeds (p : Permutation) (f : BooleanFunction) : Prop where
  valid : p.Valid
  specified : ∀ x y : Nat, f.rows[x]? = some (some y) → p.apply x = .ok (f.numberedWord x y)
  output : ∀ x y : Nat, f.rows[x]? = some (some y) → embeddedOutput (f.numberedWord x y) f.outputs = y
  free : (f.freeInputs p.lines).map (p.table.getD · 0) = f.unusedWords p.lines

/-- the number of lines of an embedding. -/
def embeddingLines (f : BooleanFunction) : Nat := max f.inputs (f.outputs + additionalLines f)

theorem embeds_embeddedTable (hf : f.Valid) (hlines : embeddingLines f ≤ maxTableLines) :
    Embeds ⟨embeddingLines f, embeddedTable f (embeddingLines f)⟩ f := by
  have hinputs : f.inputs ≤ embeddingLines f := Nat.le_max_left _ _
  have houtputs : f.outputs + additionalLines f ≤ embeddingLines f := Nat.le_max_right _ _
  have hsize := size_rows_le hf hinputs
  have hvalid : Permutation.Valid ⟨embeddingLines f, embeddedTable f (embeddingLines f)⟩ :=
    ⟨hlines, bijection_embeddedTable hf hinputs houtputs⟩
  refine ⟨hvalid, fun x y hx => ?_, fun x y hx => embeddedOutput_numberedWord hf hx, ?_⟩
  · rw [Permutation.apply, getElem?_embeddedTable hsize hx]
  · have hopen := length_freeInputs hf hinputs houtputs
    rw [← openRows_paddedRows hsize] at hopen ⊢
    rw [← map_openRows hopen, ← toList_embeddedTable_eq hsize]
    simp

/-- **Embeddings.** The embedding fails if it needs more lines than a table can have, and otherwise gives a permutation
that embeds the function. -/
theorem embedTable_embeds (hf : f.Valid) :
    (maxTableLines < embeddingLines f →
        embedTable f false = .error (.capacity (embeddingLines f) maxTableLines)) ∧
      (embeddingLines f ≤ maxTableLines → ∃ p, p.lines = embeddingLines f ∧ Embeds p f ∧
        embedTable f false = .ok ⟨f.inputs, f.outputs, additionalLines f, embeddingLines f, some p⟩) := by
  refine ⟨fun hlines => ?_, fun hlines => ?_⟩
  · exact if_pos hlines
  · have hembeds := embeds_embeddedTable hf hlines
    have htable := Permutation.ofTable_eq_ok.2 ⟨rfl, hembeds.valid⟩
    refine ⟨_, rfl, hembeds, (if_neg (Nat.not_lt.2 hlines)).trans ?_⟩
    show (Permutation.ofTable (embeddingLines f) (embeddedTable f (embeddingLines f)) >>= _) = _
    rw [htable]
    rfl

/-- two rows share an output word and one is not specified. -/
def sharedOutput : BooleanFunction := ⟨2, 2, #[some 1, none, some 1, some 2]⟩

theorem valid_sharedOutput : sharedOutput.Valid := by
  have hall : ∀ row ∈ sharedOutput.rows.toList, ∀ y ∈ row, y < 2 ^ 2 := by decide
  exact ⟨by decide, by decide, rfl, fun x y hx => hall _ (Array.mem_toList_iff.2 (Array.mem_of_getElem? hx)) y rfl⟩

theorem embedTable_embeds_sharedOutput :
    ∃ p, p.lines = 3 ∧ Embeds p sharedOutput ∧ embedTable sharedOutput false = .ok ⟨2, 2, 1, 3, some p⟩ :=
  (embedTable_embeds valid_sharedOutput).2 (by decide)

/-! ### the least number of lines -/

/-- a bijection on `lines` lines keeps the outputs of a function. -/
def Keeps (f : BooleanFunction) (lines : Nat) : Prop :=
  ∃ p : Nat → Nat, Set.BijOn p (Set.Iio (2 ^ lines)) (Set.Iio (2 ^ lines)) ∧
    ∀ x y : Nat, f.rows[x]? = some (some y) → embeddedOutput (p x) f.outputs = y

theorem keeps_embeddingLines (hf : f.Valid) : Keeps f (embeddingLines f) := by
  have hinputs : f.inputs ≤ embeddingLines f := Nat.le_max_left _ _
  have houtputs : f.outputs + additionalLines f ≤ embeddingLines f := Nat.le_max_right _ _
  refine ⟨_, (bijection_embeddedTable hf hinputs houtputs).bijOn, fun x y hx => ?_⟩
  rw [Array.getD_eq_getD_getElem?, getElem?_embeddedTable (size_rows_le hf hinputs) hx]
  exact embeddedOutput_numberedWord hf hx

/-- **Minimality.** Among the numbers of lines that take all inputs and all outputs, the embedding has the least one on
which some bijection keeps the outputs of the specified rows. -/
theorem embedTable_lines_isLeast (hf : f.Valid) :
    ∃ e, embedTable f true = .ok e ∧ e.lines = max f.inputs (f.outputs + additionalLines f) ∧
      IsLeast {lines | max f.inputs f.outputs ≤ lines ∧ Keeps f lines} e.lines := by
  refine ⟨_, rfl, rfl, ⟨max_le_max (Nat.le_refl _) (Nat.le_add_right _ _), keeps_embeddingLines hf⟩, ?_⟩
  rintro lines ⟨hlines, p, hp, hout⟩
  have hinputs : f.inputs ≤ lines := Nat.le_trans (Nat.le_max_left _ _) hlines
  have houtputs : f.outputs ≤ lines := Nat.le_trans (Nat.le_max_right _ _) hlines
  have hbound : additionalLines f ≤ lines - f.outputs :=
    additionalLines_le_iff.2 (multiplicity_le_two_pow hp (size_rows_le hf hinputs) houtputs hout)
  refine Nat.max_le.2 ⟨hinputs, ?_⟩
  show f.outputs + additionalLines f ≤ lines
  omega

theorem embedTable_lines_isLeast_sharedOutput :
    ∃ e, embedTable sharedOutput true = .ok e ∧ e.lines = 3 ∧
      IsLeast {lines | 2 ≤ lines ∧ Keeps sharedOutput lines} e.lines :=
  embedTable_lines_isLeast valid_sharedOutput

end ReversibleLogic
