import ReversibleLogic.Exact.Search
import ReversibleLogic.Proofs.Bdd.Enumeration
import ReversibleLogic.Proofs.Exact.Symbolic

/-!
# The search for smallest cascades

* `Tracks` — what the references of a search know after some blocks; `Tracks.step` is one more block, and
  `yields_solutionSet` makes the set of solutions out of them;
* `Reports p s gss sol` — the solution gives all cascades `gss`; `yields_report` reads it off the set;
* `deepen_eq` — the search reports at the least length of a cascade, unless that is beyond the largest depth;
* `synthesize_finds_least`, `synthesize_solutions` — the smallest cascades of a permutation.
-/

namespace ReversibleLogic.Exact

open Gate
open Bdd (Manager Ref Assignment Yields Expresses DenotesWord Ignores modelList setting wordAt yields_pure ask_eq
  yields_bind_of_eq)

variable {m : Manager} {p : Permutation} {l : Layout} {s : Settings} {depth : Nat} {fs lines : List Ref}
  {wellFormed set : Ref} {bits : List Bool}

/-! ### the set of solutions -/

/-- the outputs of the permutation, and what the first blocks describe: their lines and whether they are all usable. -/
structure Tracks (m : Manager) (p : Permutation) (l : Layout) (depth : Nat) (fs lines : List Ref) (wellFormed : Ref) :
    Prop where
  table : DenotesWord m l.lines fs fun a => p.table.getD (wordAt l.inputs a) 0
  lines : DenotesWord m l.lines lines fun a => applyAll (l.gatesAt depth a) (wordAt l.inputs a)
  wellFormed : Expresses m wellFormed fun a => ∀ g ∈ l.gatesAt depth a, Usable l.lines l.negative g

theorem Tracks.mono {m' : Manager} (ht : Tracks m p l depth fs lines wellFormed) (hm : m.Ordered) (hle : m ≤ m') :
    Tracks m' p l depth fs lines wellFormed :=
  ⟨ht.table.mono hm hle, ht.lines.mono hm hle, ht.wellFormed.mono hm hle⟩

/-- **Step lemma.** One more block. -/
theorem Tracks.step (ht : Tracks m p l depth fs lines wellFormed) (h : m.WellFormed) (hfits : l.Fits depth) :
    Yields m (l.performGate depth lines) fun lines' m₁ =>
      Yields m₁ (l.wellFormed depth) fun r m₂ =>
        Yields m₂ (Bdd.conj wellFormed r) fun wellFormed' m₃ => Tracks m₃ p l (depth + 1) fs lines' wellFormed' := by
  refine (Layout.yields_performGate h hfits ht.lines).imp fun lines' m₁ h₁ hle₁ hlines => ?_
  refine (Layout.yields_wellFormed h₁ hfits).imp fun r m₂ h₂ hle₂ hr => ?_
  have hle := Manager.le_trans hle₁ hle₂
  refine (Expresses.conj h₂ (ht.wellFormed.mono h.toOrdered hle) hr).imp fun wellFormed' m₃ _ hle₃ hwellFormed => ?_
  refine ⟨ht.table.mono h.toOrdered (Manager.le_trans hle hle₃),
    (hlines.mono h₁.toOrdered (Manager.le_trans hle₂ hle₃)).congr fun a => ?_, hwellFormed.congr fun a => ?_⟩
  · rw [Layout.gatesAt_succ, applyAll_append]
    rfl
  · rw [Layout.gatesAt_succ, List.forall_mem_append, List.forall_mem_singleton]

/-- **The set of solutions** is expressed by one reference. -/
theorem yields_solutionSet (h : m.WellFormed) (hp : p.Valid) (hl : l.lines = p.lines)
    (ht : Tracks m p l depth fs lines wellFormed) :
    Yields m (solutionSet l fs lines wellFormed) fun set m' =>
      Expresses m' set fun a => Solves p l.negative (l.gatesAt depth a) := by
  unfold solutionSet
  refine (ht.lines.yields_agree h ht.table).bind fun agree m₁ h₁ hle₁ hagree => ?_
  refine (Expresses.forallOver h₁ hagree l.inputs).bind fun always m₂ h₂ hle₂ halways => ?_
  refine (Expresses.conj h₂ halways (ht.wellFormed.mono h.toOrdered (Manager.le_trans hle₁ hle₂))).imp
    fun set m' _ _ hset => hset.congr fun a => ?_
  rw [solves_iff hp, ← hl, and_comm]
  refine and_congr_right fun husable => ?_
  -- the descriptors are no inputs, so the cascade is the same for all of these
  have hgates : ∀ b : Assignment, (∀ v, v ∉ l.inputs → b v = a v) → l.gatesAt depth b = l.gatesAt depth a := by
    intro b hb
    refine Layout.gatesAt_congr fun v hv => hb v fun hin => ?_
    have hge := (Layout.mem_descriptors.1 hv).1
    have hlt := (Layout.mem_inputs.1 hin).2
    omega
  constructor
  · intro hsame x hx
    have hx' : x < 2 ^ l.inputs.length := by rwa [Layout.length_inputs]
    have hout : ∀ v, v ∉ l.inputs → setting l.inputs (Word.toBits x l.inputs.length) a v = a v := fun v hv =>
      Bdd.setting_of_not_mem hv _ _
    have hword : wordAt l.inputs (setting l.inputs (Word.toBits x l.inputs.length) a) = x :=
      (Bdd.map_eq_toBits hx').1 (Bdd.map_setting l.inputs_nodup (Word.length_toBits _ _) a)
    have hbits := hsame _ hout
    rw [hgates _ hout, hword] at hbits
    have hlt : p.table.getD x 0 < 2 ^ l.lines := by
      rw [hl] at hx ⊢
      exact hp.bijection.lt x hx
    exact Word.eq_of_testBit_lt (applyAll_lt (fun g hg => (husable g hg).within) hx) hlt hbits
  · intro hsame b hb j hj
    have hlt := Bdd.wordAt_lt l.inputs b
    rw [Layout.length_inputs] at hlt
    rw [hgates b hb, hsame _ hlt]

/-- there are solutions exactly for the lengths of cascades. -/
theorem exists_gatesAt_iff (hl : l.lines = p.lines) :
    (∃ a, Solves p l.negative (l.gatesAt depth a)) ↔ depth ∈ lengths p l.negative := by
  constructor
  · rintro ⟨a, ha⟩
    exact ⟨_, ha, l.length_gatesAt depth a⟩
  · rintro ⟨gs, hgs, rfl⟩
    obtain ⟨bits, hlen, hbits⟩ := Layout.exists_gatesOf fun g hg => hl ▸ hgs.usable g hg
    exact ⟨setting (l.descriptors gs.length) bits fun _ => false, by rwa [Layout.gatesAt_setting hlen, hbits]⟩

/-! ### reading the set -/

theorem descriptors_pos : ∀ v ∈ l.descriptors depth, 0 < v := fun _ hv =>
  (Nat.succ_pos _).trans_le (Layout.mem_descriptors.1 hv).1

section set

variable (hset : Expresses m set fun a => Solves p l.negative (l.gatesAt depth a))

include hset

theorem ignores_set {v : Nat} (hv : v ∉ l.descriptors depth) : Ignores (m.eval · set) v := by
  intro a b
  have hgates : l.gatesAt depth (Function.update a v b) = l.gatesAt depth a :=
    Layout.gatesAt_congr fun u hu => Function.update_of_ne (by rintro rfl; exact hv hu) _ _
  rw [Bool.eq_iff_iff, hset.eval_iff, hset.eval_iff, hgates]

theorem mem_models :
    bits ∈ modelList (l.descriptors depth) (m.eval · set) ↔
      bits.length = depth * l.blockSize ∧ Solves p l.negative (l.gatesOf depth bits) := by
  rw [Bdd.mem_modelList, Layout.length_descriptors]
  refine and_congr_right fun hlen => ?_
  rw [hset.eval_iff, Layout.gatesAt_setting hlen]

theorem mem_map_models (hl : l.lines = p.lines) {gs : List Gate} :
    gs ∈ (modelList (l.descriptors depth) (m.eval · set)).map (l.gatesOf depth) ↔
      Solves p l.negative gs ∧ gs.length = depth := by
  rw [List.mem_map]
  constructor
  · rintro ⟨bits, hbits, rfl⟩
    exact ⟨((mem_models hset).1 hbits).2, Layout.length_gatesOf depth bits⟩
  · rintro ⟨hgs, rfl⟩
    obtain ⟨bits, hlen, hbits⟩ := Layout.exists_gatesOf fun g hg => hl ▸ hgs.usable g hg
    exact ⟨bits, (mem_models hset).2 ⟨hlen, by rwa [hbits]⟩, hbits⟩

theorem nodup_map_models :
    ((modelList (l.descriptors depth) (m.eval · set)).map (l.gatesOf depth)).Nodup := by
  refine (Bdd.modelList_nodup _ _).map_on fun bits hbits bits' hbits' he => ?_
  exact Layout.gatesOf_injective ((mem_models hset).1 hbits).1 ((mem_models hset).1 hbits').1 he

theorem decode_model (hl : l.lines = p.lines) (hbits : bits ∈ modelList (l.descriptors depth) (m.eval · set)) :
    l.decode depth bits = .ok { Circuit.empty p.lines with gates := l.gatesOf depth bits } := by
  rw [Layout.decode_eq fun g hg => hl ▸ ((mem_models hset).1 hbits).2.usable g hg, hl]

theorem least?_models (h : m.Ordered) (hl : l.lines = p.lines) (hdepth : depth ∈ lengths p l.negative) :
    ∃ bits, m.least? set (l.descriptors depth) = .ok (some bits) ∧
      (modelList (l.descriptors depth) (m.eval · set)).head? = some bits := by
  rcases Bdd.least?_spec h (l.descriptors_pairwise depth) hset.holds.denotes fun v hv => ignores_set hset hv with
    ⟨-, hnone⟩ | ⟨bits, hok, hleast⟩
  · obtain ⟨a, ha⟩ := (exists_gatesAt_iff hl).2 hdepth
    rw [← hset.eval_iff, hnone] at ha
    cases ha
  · exact ⟨bits, hok, hleast.head?_modelList⟩

end set

/-! ### the report -/

/-- the circuit with the given gates, and the data of the template's lines if there is one. -/
def Settings.circuitOf (s : Settings) (n : Nat) (gs : List Gate) : Circuit :=
  match s.template with
  | some t => { t with lines := n, gates := gs }
  | none => { Circuit.empty n with gates := gs }

@[simp] theorem Settings.gates_circuitOf (s : Settings) (n : Nat) (gs : List Gate) : (s.circuitOf n gs).gates = gs := by
  unfold circuitOf
  split <;> rfl

@[simp] theorem Settings.lines_circuitOf (s : Settings) (n : Nat) (gs : List Gate) : (s.circuitOf n gs).lines = n := by
  unfold circuitOf
  split <;> rfl

/-- a circuit can be dressed exactly if the template has its lines. -/
theorem Settings.dress_eq_ok {n : Nat} {gs : List Gate} {c : Circuit} :
    s.dress { Circuit.empty n with gates := gs } = .ok c ↔
      (∀ t, s.template = some t → t.lines = n) ∧ c = s.circuitOf n gs := by
  unfold dress circuitOf
  cases s.template with
  | none => simp [eq_comm]
  | some t =>
    refine Circuit.checkLength_seq_eq_ok.trans (and_congr ?_ eq_comm)
    exact ⟨fun hlines t' ht' => Option.some.inj ht' ▸ hlines, fun h => h t rfl⟩

/-- the solution stands for the cascades `gss`: all that compute `p` in the least number of gates. -/
structure Reports (p : Permutation) (s : Settings) (gss : List (List Gate)) (sol : Solution) : Prop where
  nodup : gss.Nodup
  mem_iff : ∀ gs, gs ∈ gss ↔ Solves p s.negative gs ∧ gs.length = sol.depth
  circuit : (gss.map (s.circuitOf p.lines)).head? = some sol.circuit
  count : sol.count = gss.length
  solutions : sol.solutions = if s.allSolutions then some (gss.map (s.circuitOf p.lines)) else none

/-- **The report** on a set that is not empty. -/
theorem yields_report (h : m.WellFormed) (hl : l.lines = p.lines) (hnegative : l.negative = s.negative)
    (hset : Expresses m set fun a => Solves p l.negative (l.gatesAt depth a))
    (hdepth : depth ∈ lengths p l.negative) (hfits : ∀ t, s.template = some t → t.lines = p.lines) :
    Yields m (report s l depth set) fun sol _ => sol.depth = depth ∧ ∃ gss, Reports p s gss sol := by
  obtain ⟨bits, hleast, hhead⟩ := least?_models hset h.toOrdered hl hdepth
  have hsorted := l.descriptors_pairwise depth
  have hdecode : ∀ bits ∈ modelList (l.descriptors depth) (m.eval · set),
      (l.decode depth bits >>= s.dress) = .ok (s.circuitOf p.lines (l.gatesOf depth bits)) := by
    intro bits hbits
    rw [decode_model hset hl hbits, ok_bind]
    exact Settings.dress_eq_ok.2 ⟨hfits, rfl⟩
  have hcount := Bdd.countOver_modelList h.toOrdered descriptors_pos hset.holds.denotes
    fun v hv => ignores_set hset hv
  rw [Bdd.sortedSet_of_pairwise hsorted] at hcount
  have hmodels := Bdd.yields_models h hsorted descriptors_pos hset.holds.denotes fun v hv => ignores_set hset hv
  have hnodup := nodup_map_models hset
  have hmem := fun gs => @mem_map_models _ _ _ _ _ hset hl gs
  generalize modelList (l.descriptors depth) (m.eval · set) = models at *
  have hcircuit : ((models.map (l.gatesOf depth)).map (s.circuitOf p.lines)).head? =
      some (s.circuitOf p.lines (l.gatesOf depth bits)) := by
    rw [List.head?_map, List.head?_map, hhead]
    rfl
  rw [hnegative] at hmem
  unfold report
  refine yields_bind_of_eq (ask_eq hleast) ?_
  refine yields_bind_of_eq (ask_eq (hdecode bits (List.mem_of_mem_head? hhead))) ?_
  refine yields_bind_of_eq (ask_eq hcount) ?_
  dsimp only
  split
  · next hall =>
    refine hmodels.bind fun found m₁ h₁ hle₁ hfound => ?_
    subst hfound
    have hdecoded : found.mapM (fun bits => l.decode depth bits >>= s.dress) =
        .ok (found.map fun bits => s.circuitOf p.lines (l.gatesOf depth bits)) := mapM_eq_ok hdecode
    refine yields_bind_of_eq (ask_eq hdecoded) ?_
    rw [pure_bind]
    refine yields_bind_of_eq (ask_eq rfl) (yields_pure h₁ ⟨rfl, found.map (l.gatesOf depth), ?_⟩)
    exact ⟨hnodup, hmem, hcircuit, (List.length_map _).symm, by rw [if_pos hall, List.map_map]; rfl⟩
  · next hall =>
    rw [pure_bind]
    refine yields_bind_of_eq (ask_eq rfl) (yields_pure h ⟨rfl, models.map (l.gatesOf depth), ?_⟩)
    exact ⟨hnodup, hmem, hcircuit, (List.length_map _).symm, by rw [if_neg hall]⟩

/-- there is no report under a template on other lines. -/
theorem templateFits_of_report (h : m.Ordered) (hl : l.lines = p.lines)
    (hset : Expresses m set fun a => Solves p l.negative (l.gatesAt depth a))
    (hdepth : depth ∈ lengths p l.negative) {sol : Solution} {m' : Manager}
    (hreport : report s l depth set m = .ok sol m') : ∀ t, s.template = some t → t.lines = p.lines := by
  obtain ⟨bits, hleast, hhead⟩ := least?_models hset h hl hdepth
  have hdecode := decode_model hset hl (List.mem_of_mem_head? hhead)
  unfold report at hreport
  dsimp only at hreport
  rw [bind_of_ok (ask_eq hleast)] at hreport
  dsimp only at hreport
  rw [hdecode, ok_bind] at hreport
  cases hdress : s.dress { Circuit.empty p.lines with gates := l.gatesOf depth bits } with
  | ok c => exact (Settings.dress_eq_ok.1 hdress).1
  | error e =>
    have hask : Bdd.ask (fun _ => s.dress { Circuit.empty p.lines with gates := l.gatesOf depth bits }) m =
        .error e m := by rw [Bdd.ask, hdress]
    rw [bind_of_error hask] at hreport
    cases hreport

/-! ### the search -/

theorem zero_iff (h : m.WellFormed) (hl : l.lines = p.lines)
    (hset : Expresses m set fun a => Solves p l.negative (l.gatesAt depth a)) :
    set = .zero ↔ depth ∉ lengths p l.negative := by
  rw [hset.eq_zero_iff h.toOrdered, ← exists_gatesAt_iff hl, not_exists]

/-- at the length of a cascade, the search reports on the set of all solutions. -/
theorem deepen_found (h : m.WellFormed) (hp : p.Valid) (hl : l.lines = p.lines)
    (ht : Tracks m p l depth fs lines wellFormed) (hdepth : depth ∈ lengths p l.negative) (more : Nat) :
    ∃ set m', m'.WellFormed ∧ (Expresses m' set fun a => Solves p l.negative (l.gatesAt depth a)) ∧
      deepen s l fs more depth lines wellFormed m = (report s l depth set >>= fun sol => pure (some sol)) m' := by
  obtain ⟨set, m', hok, h', -, hset⟩ := yields_solutionSet h hp hl ht
  have hsome : set ≠ .zero := fun hzero => (zero_iff h' hl hset).1 hzero hdepth
  refine ⟨set, m', h', hset, ?_⟩
  cases more with
  | zero => rw [deepen, bind_of_ok hok, if_pos hsome]
  | succ more => rw [deepen, bind_of_ok hok, if_pos hsome]

/-- there is nothing at other lengths, which may be the end of the search. -/
theorem deepen_last (h : m.WellFormed) (hp : p.Valid) (hl : l.lines = p.lines)
    (ht : Tracks m p l depth fs lines wellFormed) (hdepth : depth ∉ lengths p l.negative) :
    ∃ m', deepen s l fs 0 depth lines wellFormed m = .ok none m' := by
  obtain ⟨set, m', hok, h', -, hset⟩ := yields_solutionSet h hp hl ht
  refine ⟨m', ?_⟩
  rw [deepen, bind_of_ok hok, if_neg (not_not.2 ((zero_iff h' hl hset).2 hdepth))]
  rfl

/-- there is nothing at other lengths, and the search goes on with one more block. -/
theorem deepen_next (h : m.WellFormed) (hp : p.Valid) (hl : l.lines = p.lines) (hfits : l.Fits depth)
    (ht : Tracks m p l depth fs lines wellFormed) (hdepth : depth ∉ lengths p l.negative) (more : Nat) :
    ∃ lines' wellFormed' m', m'.WellFormed ∧ Tracks m' p l (depth + 1) fs lines' wellFormed' ∧
      deepen s l fs (more + 1) depth lines wellFormed m = deepen s l fs more (depth + 1) lines' wellFormed' m' := by
  obtain ⟨set, m₁, hok₁, h₁, hle₁, hset⟩ := yields_solutionSet h hp hl ht
  obtain ⟨lines', m₂, hok₂, h₂, -, r, m₃, hok₃, h₃, -, wellFormed', m₄, hok₄, h₄, -, ht'⟩ :=
    (ht.mono h.toOrdered hle₁).step h₁ hfits
  refine ⟨lines', wellFormed', m₄, h₄, ht', ?_⟩
  rw [deepen, bind_of_ok hok₁, if_neg (not_not.2 ((zero_iff h₁ hl hset).2 hdepth))]
  rw [bind_of_ok hok₂, bind_of_ok hok₃, bind_of_ok hok₄]

/-- **Run lemma.** The search reports on the set of all solutions at the least length of a cascade, or ends before. -/
theorem deepen_eq (h : m.WellFormed) (hp : p.Valid) (hl : l.lines = p.lines) {k : Nat}
    (hk : IsLeast (lengths p l.negative) k) (hdepth : depth ≤ k) (hroom : ∀ j < k, l.Fits j)
    (ht : Tracks m p l depth fs lines wellFormed) (more : Nat) :
    (k ≤ depth + more ∧ ∃ set m', m'.WellFormed ∧
        (Expresses m' set fun a => Solves p l.negative (l.gatesAt k a)) ∧
        deepen s l fs more depth lines wellFormed m = (report s l k set >>= fun sol => pure (some sol)) m') ∨
      (depth + more < k ∧ ∃ m', deepen s l fs more depth lines wellFormed m = .ok none m') := by
  have hnot : ∀ {j}, j < k → j ∉ lengths p l.negative := fun hlt hmem => Nat.not_le_of_gt hlt (hk.2 hmem)
  -- on the number of depths that are left; `Tracks` is kept from block to block
  induction more generalizing m depth lines wellFormed with
  | zero =>
    rcases Nat.eq_or_lt_of_le hdepth with rfl | hlt
    · exact Or.inl ⟨Nat.le_refl _, deepen_found h hp hl ht hk.1 0⟩
    · exact Or.inr ⟨hlt, deepen_last h hp hl ht (hnot hlt)⟩
  | succ more ih =>
    rcases Nat.eq_or_lt_of_le hdepth with rfl | hlt
    · exact Or.inl ⟨Nat.le_add_right _ _, deepen_found h hp hl ht hk.1 (more + 1)⟩
    · obtain ⟨lines', wellFormed', m', h', ht', heq⟩ :=
        deepen_next (s := s) h hp hl (hroom depth hlt) ht (hnot hlt) more
      have hmore : depth + (more + 1) = depth + 1 + more := by omega
      rw [heq, hmore]
      exact ih h' hlt ht'

/-! ### smallest cascades -/

/-- the variables of all blocks that are tried can be used in cubes. -/
theorem fits_of_lt (hl : l.lines ≤ maxLines) {j : Nat} (hj : j < l.lines * 2 ^ l.lines) : l.Fits j := by
  have hlines : l.lines ≤ 6 := hl
  have hbits : l.targetBits ≤ 3 := by
    have hall : ∀ n ≤ 6, Word.bitsFor n ≤ 3 := by decide
    exact hall _ hlines
  have hsize : l.blockSize ≤ 15 := by
    unfold Layout.blockSize Layout.controlBits
    split <;> omega
  have hblocks : l.lines * 2 ^ l.lines ≤ 6 * 2 ^ 6 :=
    Nat.mul_le_mul hlines (Nat.pow_le_pow_right (by decide) hlines)
  have hvars : (j + 1) * l.blockSize ≤ 6 * 2 ^ 6 * 15 := Nat.mul_le_mul (by omega) hsize
  unfold Layout.Fits Layout.block
  rw [Nat.succ_mul] at hvars
  omega

/-- **Start of the search.** Before the first block, the lines are the inputs. -/
theorem yields_start (h : m.WellFormed) (hp : p.Valid) (hle : p.lines ≤ maxLines) (negative : Bool) :
    Yields m (Bdd.Function.ofTable (.ofPermutation p) 1) fun f m₁ =>
      Yields m₁ ((Layout.mk p.lines negative).inputs.mapM Bdd.var) fun lines m₂ =>
        Tracks m₂ p ⟨p.lines, negative⟩ 0 f.outputs lines .one := by
  have hlines : p.lines ≤ 6 := hle
  have hrows : (BooleanFunction.ofPermutation p).rows.size ≤ 2 ^ (BooleanFunction.ofPermutation p).inputs := by
    simp [BooleanFunction.ofPermutation, hp.bijection.size]
  have hinputs : (List.range p.lines).map (1 + ·) = (Layout.mk p.lines negative).inputs :=
    List.map_congr_left fun i _ => Nat.add_comm 1 i
  have hlt : ∀ i < p.lines, 1 + i < 2 ^ 31 := fun i hi => by omega
  refine (Bdd.Function.yields_ofTable h hrows Nat.one_pos (by decide) hlt).imp fun f m₁ h₁ hle₁ hf => ?_
  have hvars : ∀ v ∈ (Layout.mk p.lines negative).inputs, 0 < v ∧ v < Bdd.lastLevel := by
    intro v hv
    obtain ⟨i, hi, rfl⟩ := List.mem_map.1 hv
    have hi : i < p.lines := List.mem_range.1 hi
    have hterminal : 7 < Bdd.lastLevel := by decide
    exact ⟨Nat.succ_pos i, by omega⟩
  refine (Bdd.yields_vars h₁ hvars).imp fun lines m₂ h₂ hle₂ hlines => ⟨?_, ?_, ?_⟩
  · refine (hf.outputs.mono h₁.toOrdered hle₂).congr fun a => ?_
    show (p.table.map some)[wordAt ((List.range p.lines).map (1 + ·)) a]?.join.getD 0 = _
    rw [hinputs, Array.getElem?_map, Array.getD_eq_getD_getElem?]
    cases p.table[wordAt (Layout.mk p.lines negative).inputs a]? <;> rfl
  · rw [Layout.length_inputs] at hlines
    exact hlines
  · exact h₂.denotes_one.expresses fun a => by simp [Layout.gatesAt, Layout.gatesOf]

theorem synthesize_of_search (hpos : 0 < p.lines) (hle : p.lines ≤ maxLines)
    (hm : Manager.empty Bdd.defaultBits = .ok m) :
    (∀ found m', search p s m = .ok found m' → synthesize p s = .ok found) ∧
      ∀ e m', search p s m = .error e m' → synthesize p s = .error e := by
  constructor
  · intro found m' hsearch
    rw [synthesize, if_neg (by omega), hm]
    beta_reduce
    rw [ok_bind, hsearch]
    rfl
  · intro e m' hsearch
    rw [synthesize, if_neg (by omega), hm]
    beta_reduce
    rw [ok_bind, hsearch]
    rfl

/-- **Outcomes.** The synthesis ends as the report at the least length does, or with nothing. -/
theorem synthesize_of_report (hp : p.Valid) (hpos : 0 < p.lines) (hle : p.lines ≤ maxLines) {k : Nat}
    (hk : IsLeast (lengths p s.negative) k) (hroom : ∀ j < k, (Layout.mk p.lines s.negative).Fits j) :
    (k ≤ s.maxDepth ∧ ∃ set m, m.WellFormed ∧
        (Expresses m set fun a => Solves p s.negative (Layout.gatesAt ⟨p.lines, s.negative⟩ k a)) ∧
        (∀ sol m', report s ⟨p.lines, s.negative⟩ k set m = .ok sol m' → synthesize p s = .ok (some sol)) ∧
        ∀ e m', report s ⟨p.lines, s.negative⟩ k set m = .error e m' → synthesize p s = .error e) ∨
      (s.maxDepth < k ∧ synthesize p s = .ok none) := by
  obtain ⟨m₀, hm₀⟩ : ∃ m₀, Manager.empty Bdd.defaultBits = .ok m₀ := ⟨_, rfl⟩
  obtain ⟨f, m₁, hok₁, h₁, hle₁, lines, m₂, hok₂, h₂, hle₂, ht⟩ :=
    yields_start (Bdd.wellFormed_empty hm₀) hp hle s.negative
  have hsearch : search p s m₀ = deepen s ⟨p.lines, s.negative⟩ f.outputs s.maxDepth 0 lines .one m₂ := by
    unfold search
    rw [bind_of_ok hok₁, bind_of_ok hok₂]
  obtain ⟨hfound, hfailed⟩ := synthesize_of_search (s := s) hpos hle hm₀
  rw [hsearch] at hfound hfailed
  rcases deepen_eq (s := s) h₂ hp rfl hk (Nat.zero_le k) hroom ht s.maxDepth with
    ⟨hmore, set, m, h, hset, heq⟩ | ⟨hmore, m, heq⟩
  · rw [Nat.zero_add] at hmore
    refine Or.inl ⟨hmore, set, m, h, hset, fun sol m' hreport => hfound _ m' ?_, fun e m' hreport => hfailed e m' ?_⟩
    · rw [heq, bind_of_ok hreport]
      rfl
    · rw [heq, bind_of_error hreport]
  · rw [Nat.zero_add] at hmore
    exact Or.inr ⟨hmore, hfound none m heq⟩

/-- there is a least length, and all blocks up to it can be described. -/
theorem exists_isLeast (hp : p.Valid) (hle : p.lines ≤ maxLines) (negative : Bool) :
    ∃ k, IsLeast (lengths p negative) k ∧ ∀ j < k, (Layout.mk p.lines negative).Fits j := by
  classical
  obtain ⟨gs, hgs, hlen⟩ := exists_solves hp negative
  have hsome : ∃ k, k ∈ lengths p negative := ⟨_, gs, hgs, rfl⟩
  have hleast : IsLeast (lengths p negative) (Nat.find hsome) := Nat.isLeast_find hsome
  refine ⟨_, hleast, fun j hj => fits_of_lt hle ?_⟩
  exact (hj.trans_le (hleast.2 ⟨gs, hgs, rfl⟩)).trans_le hlen

/-- the outcome for a template on the right lines. -/
theorem synthesize_cases (hp : p.Valid) (hpos : 0 < p.lines) (hle : p.lines ≤ maxLines)
    (hfits : ∀ t, s.template = some t → t.lines = p.lines) {k : Nat} (hk : IsLeast (lengths p s.negative) k)
    (hroom : ∀ j < k, (Layout.mk p.lines s.negative).Fits j) :
    (k ≤ s.maxDepth ∧ ∃ sol gss, synthesize p s = .ok (some sol) ∧ sol.depth = k ∧ Reports p s gss sol) ∨
      (s.maxDepth < k ∧ synthesize p s = .ok none) := by
  rcases synthesize_of_report hp hpos hle hk hroom with ⟨hmore, set, m, h, hset, hfound, -⟩ | hnone
  · obtain ⟨sol, m', hok, -, -, hdepth, gss, hreports⟩ :=
      yields_report (l := ⟨p.lines, s.negative⟩) h rfl rfl hset hk.1 hfits
    exact Or.inl ⟨hmore, sol, gss, hfound sol m' hok, hdepth, hreports⟩
  · exact Or.inr hnone

/-- what is found comes with a report, which there is only under a template on the right lines. -/
theorem reports_of_synthesize (hp : p.Valid) {sol : Solution} (h : synthesize p s = .ok (some sol)) :
    ∃ gss, Reports p s gss sol := by
  have hlines : 0 < p.lines ∧ p.lines ≤ maxLines := by
    by_contra hnot
    unfold synthesize at h
    rw [if_pos (by omega)] at h
    cases h
  obtain ⟨k, hk, hroom⟩ := exists_isLeast hp hlines.2 s.negative
  have hfits : ∀ t, s.template = some t → t.lines = p.lines := by
    rcases synthesize_of_report hp hlines.1 hlines.2 hk hroom with ⟨-, set, m, hm, hset, -, hfailed⟩ | ⟨-, hnone⟩
    · cases hreport : report s ⟨p.lines, s.negative⟩ k set m with
      | ok sol m' => exact templateFits_of_report (l := ⟨p.lines, s.negative⟩) hm.toOrdered rfl hset hk.1 hreport
      | error e m' => rw [hfailed e m' hreport] at h; cases h
    · rw [hnone] at h
      cases h
  rcases synthesize_cases hp hlines.1 hlines.2 hfits hk hroom with ⟨-, sol', gss, hok, -, hreports⟩ | ⟨-, hnone⟩
  · rw [hok] at h
    cases h
    exact ⟨gss, hreports⟩
  · rw [hnone] at h
    cases h

theorem Reports.exists_gates {gss : List (List Gate)} {sol : Solution} (h : Reports p s gss sol) :
    ∃ gs, Solves p s.negative gs ∧ gs.length = sol.depth ∧ sol.circuit = s.circuitOf p.lines gs := by
  have hcircuit := h.circuit
  rw [List.head?_map] at hcircuit
  obtain ⟨gs, hgs, he⟩ := Option.map_eq_some_iff.1 hcircuit
  obtain ⟨hsolves, hlen⟩ := (h.mem_iff gs).1 (List.mem_of_mem_head? hgs)
  exact ⟨gs, hsolves, hlen, he.symm⟩

/-- **What is found** computes the permutation, with as many gates as its depth says. -/
theorem realizes_of_synthesize (hp : p.Valid) {sol : Solution} (h : synthesize p s = .ok (some sol)) :
    sol.circuit.lines = p.lines ∧ Solves p s.negative sol.circuit.gates ∧ sol.circuit.size = sol.depth ∧
      sol.circuit.realizes p = true := by
  obtain ⟨gss, hreports⟩ := reports_of_synthesize hp h
  obtain ⟨gs, hgs, hlen, he⟩ := hreports.exists_gates
  have hlines : sol.circuit.lines = p.lines := by rw [he, Settings.lines_circuitOf]
  have hgates : sol.circuit.gates = gs := by rw [he, Settings.gates_circuitOf]
  rw [Circuit.size, Circuit.realizes_iff hp hlines, hgates]
  exact ⟨hlines, hgs, hlen, hgs.computes⟩

/-- line 1 is inverted where line 0 is clear. -/
def guardedInverter : Permutation := ⟨2, #[2, 1, 0, 3]⟩

theorem valid_guardedInverter : guardedInverter.Valid := by
  have hok : Permutation.ofTable 2 #[2, 1, 0, 3] = .ok guardedInverter := rfl
  exact (Permutation.ofTable_eq_ok.1 hok).2

theorem solves_guardedInverter : Solves guardedInverter true [.toffoli [⟨0, false⟩] 1] := by
  have hbuilt : toffoli? [⟨0, false⟩] 1 = .ok (.toffoli [⟨0, false⟩] 1) := rfl
  refine ⟨List.forall_mem_singleton.2 ⟨.toffoli hbuilt, ⟨?_, ?_⟩, rfl, Or.inl rfl⟩, by decide⟩
  · exact List.forall_mem_singleton.2 (by decide)
  · exact List.forall_mem_singleton.2 (by decide)

theorem isLeast_guardedInverter : IsLeast (lengths guardedInverter true) 1 := by
  refine ⟨⟨_, solves_guardedInverter, rfl⟩, ?_⟩
  rintro k ⟨gs, hgs, rfl⟩
  cases gs with
  | nil => exact absurd (hgs.computes 0 (by decide)) (by decide)
  | cons g gs => exact Nat.succ_pos _

/-- **The search finds the least cascades.** A solution is found exactly at the least number of gates with which the
permutation can be computed, if this is at most the largest depth; there is none exactly if all cascades are longer. -/
theorem synthesize_finds_least (hp : p.Valid) (hpos : 0 < p.lines) (hle : p.lines ≤ maxLines)
    (hfits : ∀ t, s.template = some t → t.lines = p.lines) :
    (∀ k, (∃ sol, synthesize p s = .ok (some sol) ∧ sol.depth = k ∧ sol.circuit.size = k ∧
        sol.circuit.realizes p = true) ↔ k ≤ s.maxDepth ∧ IsLeast (lengths p s.negative) k) ∧
      (synthesize p s = .ok none ↔ ∀ gs, Solves p s.negative gs → s.maxDepth < gs.length) ∧
      (∀ sol, synthesize p s = .ok (some sol) →
        sol.circuit.lines = p.lines ∧ Solves p s.negative sol.circuit.gates) ∧
      ∀ e, synthesize p s ≠ .error e := by
  obtain ⟨k, hk, hroom⟩ := exists_isLeast hp hle s.negative
  have hfound : ∀ sol, synthesize p s = .ok (some sol) →
      sol.circuit.lines = p.lines ∧ Solves p s.negative sol.circuit.gates := fun sol hsol => by
    obtain ⟨hlines, hsolves, -, -⟩ := realizes_of_synthesize hp hsol
    exact ⟨hlines, hsolves⟩
  rcases synthesize_cases hp hpos hle hfits hk hroom with ⟨hdepth, sol, -, hok, hsol, -⟩ | ⟨hdepth, hnone⟩
  · obtain ⟨-, hsolves, hsize, hrealizes⟩ := realizes_of_synthesize hp hok
    refine ⟨fun j => ⟨?_, ?_⟩, ⟨fun hnone => ?_, fun hlong => ?_⟩, hfound, fun e herror => ?_⟩
    · rintro ⟨sol', hok', rfl, -⟩
      rw [hok] at hok'
      cases hok'
      rw [hsol]
      exact ⟨hdepth, hk⟩
    · rintro ⟨-, hj⟩
      obtain rfl := hj.unique hk
      exact ⟨sol, hok, hsol, hsize.trans hsol, hrealizes⟩
    · rw [hok] at hnone
      cases hnone
    · have hlong := hlong _ hsolves
      rw [Circuit.size] at hsize
      omega
    · rw [hok] at herror
      cases herror
  · refine ⟨fun j => ⟨?_, ?_⟩, ⟨fun _ gs hgs => ?_, fun _ => hnone⟩, hfound, fun e herror => ?_⟩
    · rintro ⟨sol, hok, -⟩
      rw [hnone] at hok
      cases hok
    · rintro ⟨hj, hleast⟩
      obtain rfl := hleast.unique hk
      omega
    · exact hdepth.trans_le (hk.2 ⟨gs, hgs, rfl⟩)
    · rw [hnone] at herror
      cases herror

theorem synthesize_finds_least_guardedInverter :
    ∃ sol, synthesize guardedInverter ⟨3, true, false, some (.empty 2)⟩ = .ok (some sol) ∧ sol.depth = 1 ∧
      sol.circuit.size = 1 ∧ sol.circuit.realizes guardedInverter = true := by
  have h := synthesize_finds_least valid_guardedInverter (s := ⟨3, true, false, some (.empty 2)⟩) (by decide)
    (by decide) fun t ht => by cases ht; rfl
  exact (h.1 1).2 ⟨by decide, isLeast_guardedInverter⟩

/-- **All solutions.** If all solutions are asked for, they are the circuits of all least cascades, each once. -/
theorem synthesize_solutions (hp : p.Valid) (hall : s.allSolutions = true) {sol : Solution}
    (h : synthesize p s = .ok (some sol)) :
    ∃ cs, sol.solutions = some cs ∧ (cs.map Circuit.gates).Nodup ∧
      (∀ gs, gs ∈ cs.map Circuit.gates ↔ Solves p s.negative gs ∧ gs.length = sol.depth) ∧
      (∀ c ∈ cs, c = s.circuitOf p.lines c.gates) ∧ sol.count = cs.length ∧ cs.head? = some sol.circuit := by
  obtain ⟨gss, hreports⟩ := reports_of_synthesize hp h
  have hgates : (gss.map (s.circuitOf p.lines)).map Circuit.gates = gss := by
    rw [List.map_map]
    refine (List.map_congr_left fun gs _ => ?_).trans (List.map_id gss)
    exact s.gates_circuitOf p.lines gs
  have hsolutions := hreports.solutions
  rw [if_pos hall] at hsolutions
  refine ⟨_, hsolutions, ?_, ?_, fun c hc => ?_, ?_, hreports.circuit⟩
  · rw [hgates]
    exact hreports.nodup
  · rw [hgates]
    exact hreports.mem_iff
  · obtain ⟨gs, -, rfl⟩ := List.mem_map.1 hc
    rw [Settings.gates_circuitOf]
  · rw [hreports.count, List.length_map]

theorem synthesize_solutions_guardedInverter :
    ∃ sol cs, synthesize guardedInverter ⟨3, true, true, some (.empty 2)⟩ = .ok (some sol) ∧
      sol.solutions = some cs ∧ [.toffoli [⟨0, false⟩] 1] ∈ cs.map Circuit.gates ∧ sol.count = cs.length := by
  rcases synthesize_cases valid_guardedInverter (s := ⟨3, true, true, some (.empty 2)⟩) (by decide) (by decide)
    (fun t ht => by cases ht; rfl) isLeast_guardedInverter (fun j hj => fits_of_lt (by decide) (hj.trans (by decide)))
    with ⟨-, sol, gss, hok, hdepth, -⟩ | ⟨hlong, -⟩
  · obtain ⟨cs, hsolutions, -, hmem, -, hcount, -⟩ := synthesize_solutions valid_guardedInverter rfl hok
    exact ⟨sol, cs, hok, hsolutions, (hmem _).2 ⟨solves_guardedInverter, hdepth.symm⟩, hcount⟩
  · exact absurd hlong (by decide)

end ReversibleLogic.Exact
