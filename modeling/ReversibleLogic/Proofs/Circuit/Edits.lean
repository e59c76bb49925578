import ReversibleLogic.Circuit.Edit
import ReversibleLogic.Proofs.Circuit
import ReversibleLogic.Proofs.Gate.Canonicity

/-!
# Edits keep circuits in order

* `atOnce` — an operation on circuits as values, as a computation that changes the circuit at once or not at all;
  `Edit.perform_eq`: the operations in place are those on values;
* `CascadeEdit.result_eq_ok`, `DataEdit.result_eq_ok` — what an operation asks for, and what it changes;
* `Fits n c` — one entry per line in all data, and gates on the lines only; one operation keeps it (`Fits.left`), and so
  does a run (`Fits.performAll`);
* `edits_keep_circuits` — this for all circuits that operations can make of a new one, and what a failing operation, one
  on the gates and one on the data leave as it was.
-/

namespace ReversibleLogic.Circuit

open Gate

variable {c c' : Circuit} {e : Edit} {es : List Edit} {g : Gate} {n pos : Nat}

/-! ### operations on values -/

/-- a computation that changes the circuit at once or not at all. -/
def atOnce {α : Type} (f : Circuit → Except Error (α × Circuit)) : EditM α := fun c =>
  match f c with
  | .ok (a, c') => .ok a c'
  | .error e => .error e c

theorem atOnce_eq_ok {α : Type} {f : Circuit → Except Error (α × Circuit)} {a : α} :
    atOnce f c = .ok a c' ↔ f c = .ok (a, c') := by
  rw [atOnce]
  cases f c with
  | ok r => simp [Prod.ext_iff]
  | error fault => simp

theorem atOnce_eq_error {α : Type} {f : Circuit → Except Error (α × Circuit)} {fault : Error} :
    atOnce f c = .error fault c' ↔ f c = .error fault ∧ c = c' := by
  rw [atOnce]
  cases f c with
  | ok r => simp
  | error fault => simp

def CascadeEdit.result (c : Circuit) : CascadeEdit → Except Error (Option Gate × Circuit)
  | append g => (none, ·) <$> c.append g
  | prepend g => (none, ·) <$> c.prepend g
  | insert pos g => (none, ·) <$> c.insert pos g
  | remove pos => (fun (g, c) => (some g, c)) <$> c.remove pos
  | appendToffoli cs target => (none, ·) <$> c.appendToffoli cs target
  | appendFredkin cs a b => (none, ·) <$> c.appendFredkin cs a b

def DataEdit.result (c : Circuit) : DataEdit → Except Error Circuit
  | setInputs names => c.setInputs names
  | setOutputs names => c.setOutputs names
  | setConstants values => c.setConstants values
  | setGarbage flags => c.setGarbage flags
  | setName name => .ok (c.setName name)
  | copyMetadata other => c.copyMetadata other

def Edit.result (c : Circuit) : Edit → Except Error (Option Gate × Circuit)
  | cascade e => e.result c
  | data e => (none, ·) <$> e.result c
  | reverse => .ok (none, c.reversed)

theorem check_bind {α β : Type} (f : Circuit → Except Error α) (k : α → EditM β) (c : Circuit) :
    (check f >>= k) c = match f c with
      | .ok a => k a c
      | .error e => .error e c := by
  cases h : f c with
  | ok a => exact bind_of_ok (by rw [check, h]) k
  | error e => exact bind_of_error (by rw [check, h]) k

theorem pushGate_eq (g : Gate) : pushGate g = atOnce fun c => ((), ·) <$> c.append g := by
  funext c
  rw [pushGate, check_bind, atOnce, append]
  cases c.checkGate g with
  | ok _ => rfl
  | error e => rfl

theorem insertGate_eq (pos : Nat) (g : Gate) : insertGate pos g = atOnce fun c => ((), ·) <$> c.insert pos g := by
  funext c
  rw [insertGate, check_bind, atOnce, insert]
  cases c.checkGate g with
  | error fault => rfl
  | ok _ =>
    -- the position is looked at only for a gate that fits
    by_cases hpos : c.size < pos
    · simp only [check_bind, if_pos hpos]
      rfl
    · simp only [check_bind, if_neg hpos]
      rfl

theorem takeGate_eq (pos : Nat) : takeGate pos = atOnce (·.remove pos) := by
  funext c
  rw [takeGate, check_bind, atOnce, remove]
  cases c.gates[pos]? with
  | none => rfl
  | some g => rfl

theorem atOnce_bind_pure {α β : Type} (f : Circuit → Except Error (α × Circuit)) (k : α → β) :
    (atOnce f >>= fun a => pure (k a)) = atOnce fun c => (fun (a, c') => (k a, c')) <$> f c := by
  funext c
  cases h : f c with
  | ok r =>
    have hr : atOnce f c = .ok r.1 r.2 := by rw [atOnce, h]
    rw [bind_of_ok hr, atOnce, h]
    rfl
  | error fault =>
    have hr : atOnce f c = .error fault c := by rw [atOnce, h]
    rw [bind_of_error hr, atOnce, h]
    rfl

theorem check_bind_atOnce {α β : Type} (r : Except Error α) (f : α → Circuit → Except Error (β × Circuit)) :
    (check (fun _ => r) >>= fun a => atOnce (f a)) = atOnce fun c => r >>= fun a => f a c := by
  funext c
  rw [check_bind]
  cases r with
  | ok a => rfl
  | error fault => rfl

theorem CascadeEdit.perform_eq (e : CascadeEdit) : e.perform = atOnce e.result := by
  cases e with
  | append g => simp only [perform, result, pushGate_eq, atOnce_bind_pure, Functor.map_map]
  | prepend g => simp only [perform, result, insertGate_eq, atOnce_bind_pure, Functor.map_map, Circuit.prepend]
  | insert pos g => simp only [perform, result, insertGate_eq, atOnce_bind_pure, Functor.map_map]
  | remove pos => simp only [perform, result, takeGate_eq, atOnce_bind_pure]
  | appendToffoli cs target =>
    simp only [perform, result, pushGate_eq, atOnce_bind_pure, check_bind_atOnce, Functor.map_map,
      Circuit.appendToffoli, map_bind]
  | appendFredkin cs a b =>
    simp only [perform, result, pushGate_eq, atOnce_bind_pure, check_bind_atOnce, Functor.map_map,
      Circuit.appendFredkin, map_bind]

theorem checkLength_bind (length : Nat) {assign : EditM Unit} {f : Circuit → Circuit}
    (h : ∀ c, assign c = .ok () (f c)) :
    (do check (·.checkLength length); assign) =
      atOnce fun c => ((), ·) <$> (do c.checkLength length; return f c) := by
  funext c
  rw [check_bind, atOnce]
  cases c.checkLength length with
  | ok _ => exact h c
  | error fault => rfl

theorem DataEdit.perform_eq (e : DataEdit) : e.perform = atOnce fun c => ((), ·) <$> e.result c := by
  cases e with
  | setName name => rfl
  | setInputs names => exact checkLength_bind _ fun _ => rfl
  | setOutputs names => exact checkLength_bind _ fun _ => rfl
  | setConstants values => exact checkLength_bind _ fun _ => rfl
  | setGarbage flags => exact checkLength_bind _ fun _ => rfl
  | copyMetadata other => exact checkLength_bind _ fun _ => rfl

/-- **Operations in place** are the operations on values. -/
theorem Edit.perform_eq (e : Edit) : e.perform = atOnce e.result := by
  cases e with
  | cascade e => exact e.perform_eq
  | data e => simp only [perform, result, e.perform_eq, atOnce_bind_pure, Functor.map_map]
  | reverse => rfl

/-! ### what an operation asks for and what it changes -/

def CascadeEdit.Accepts (c : Circuit) : CascadeEdit → Prop
  | append g | prepend g => g.Within c.lines
  | insert pos g => g.Within c.lines ∧ pos ≤ c.size
  | remove pos => pos < c.size
  | appendToffoli cs target =>
    ((cs.map Control.line).Nodup ∧ ∀ d ∈ cs, d.line ≠ target) ∧ (toffoli cs target).Within c.lines
  | appendFredkin cs a b =>
    (a ≠ b ∧ (cs.map Control.line).Nodup ∧ ∀ d ∈ cs, d.line ≠ a ∧ d.line ≠ b) ∧ (fredkin cs a b).Within c.lines

def CascadeEdit.edited (c : Circuit) : CascadeEdit → List Gate
  | append g => c.gates ++ [g]
  | prepend g => g :: c.gates
  | insert pos g => c.gates.insertIdx pos g
  | remove pos => c.gates.eraseIdx pos
  | appendToffoli cs target => c.gates ++ [toffoli (sortControls cs) target]
  | appendFredkin cs a b => c.gates ++ [fredkin (sortControls cs) (min a b) (max a b)]

def CascadeEdit.removed (c : Circuit) : CascadeEdit → Option Gate
  | remove pos => c.gates[pos]?
  | _ => none

def DataEdit.Accepts (c : Circuit) : DataEdit → Prop
  | setInputs names | setOutputs names => names.length = c.lines
  | setConstants values => values.length = c.lines
  | setGarbage flags => flags.length = c.lines
  | setName _ => True
  | copyMetadata other => other.lines = c.lines

def DataEdit.assigned (c : Circuit) : DataEdit → Circuit
  | setInputs names => { c with inputs := names }
  | setOutputs names => { c with outputs := names }
  | setConstants values => { c with constants := values }
  | setGarbage flags => { c with garbage := flags }
  | setName name => { c with name := name }
  | copyMetadata other => { other with lines := c.lines, gates := c.gates }

def Edit.Accepts (c : Circuit) : Edit → Prop
  | cascade e => e.Accepts c
  | data e => e.Accepts c
  | reverse => True

theorem insert_eq_ok :
    c.insert pos g = .ok c' ↔ (g.Within c.lines ∧ pos ≤ c.size) ∧ { c with gates := c.gates.insertIdx pos g } = c' := by
  rw [insert, seq_eq_ok, checkGate_eq_ok, ← Nat.not_lt, and_assoc]
  exact and_congr_right fun _ => ite_error_eq_ok.trans (and_congr_right fun _ => pure_eq_ok)

theorem appendToffoli_eq_ok {cs : List Control} {t : Nat} :
    c.appendToffoli cs t = .ok c' ↔
      (((cs.map Control.line).Nodup ∧ ∀ d ∈ cs, d.line ≠ t) ∧ (toffoli cs t).Within c.lines) ∧
        { c with gates := c.gates ++ [toffoli (sortControls cs) t] } = c' := by
  simp only [appendToffoli, bind_eq_ok, append_eq_ok, toffoli?_eq_ok, sortControls_pairwise_iff, mem_sortControls,
    List.mem_singleton, and_assoc, exists_eq_left, within_toffoli]

theorem appendFredkin_eq_ok {cs : List Control} {a b : Nat} :
    c.appendFredkin cs a b = .ok c' ↔
      ((a ≠ b ∧ (cs.map Control.line).Nodup ∧ ∀ d ∈ cs, d.line ≠ a ∧ d.line ≠ b) ∧ (fredkin cs a b).Within c.lines) ∧
        { c with gates := c.gates ++ [fredkin (sortControls cs) (min a b) (max a b)] } = c' := by
  simp only [appendFredkin, bind_eq_ok, append_eq_ok, fredkin?_eq_ok, sortControls_pairwise_iff, mem_sortControls,
    List.mem_cons, List.not_mem_nil, or_false, not_or, and_assoc, exists_and_left, exists_eq_left, within_fredkin,
    ne_eq]

theorem map_prod_eq_ok {r : Except Error Circuit} {out : Option Gate} {p : Prop} {d : Circuit}
    {x : Option Gate × Circuit} (h : ∀ c', r = .ok c' ↔ p ∧ d = c') :
    (out, ·) <$> r = .ok x ↔ p ∧ (out, d) = x := by
  simp only [map_eq_ok, h, and_assoc, exists_and_left, exists_eq_left']

theorem CascadeEdit.result_eq_ok {e : CascadeEdit} {r : Option Gate × Circuit} :
    e.result c = .ok r ↔ e.Accepts c ∧ (e.removed c, { c with gates := e.edited c }) = r := by
  cases e with
  | append g => exact map_prod_eq_ok fun _ => append_eq_ok
  | prepend g => exact map_prod_eq_ok fun _ => insert_eq_ok.trans (by rw [and_iff_left (Nat.zero_le _)]; rfl)
  | insert pos g => exact map_prod_eq_ok fun _ => insert_eq_ok
  | appendToffoli cs target => exact map_prod_eq_ok fun _ => appendToffoli_eq_ok
  | appendFredkin cs a b => exact map_prod_eq_ok fun _ => appendFredkin_eq_ok
  | remove pos =>
    rw [result, Circuit.remove, Accepts, removed, size]
    by_cases hpos : pos < c.gates.length
    · rw [List.getElem?_eq_getElem hpos, and_iff_right hpos]
      exact pure_eq_ok
    · rw [List.getElem?_eq_none (Nat.not_lt.1 hpos)]
      exact ⟨nofun, fun h => absurd h.1 hpos⟩

theorem DataEdit.result_eq_ok {e : DataEdit} : e.result c = .ok c' ↔ e.Accepts c ∧ e.assigned c = c' := by
  cases e with
  | setName name => exact pure_eq_ok.trans (and_iff_right trivial).symm
  | setInputs names => exact checkLength_seq_eq_ok
  | setOutputs names => exact checkLength_seq_eq_ok
  | setConstants values => exact checkLength_seq_eq_ok
  | setGarbage flags => exact checkLength_seq_eq_ok
  | copyMetadata other => exact checkLength_seq_eq_ok

theorem Edit.of_result {out : Option Gate} (h : e.result c = .ok (out, c')) :
    (∃ d, e = .cascade d ∧ d.Accepts c ∧ out = d.removed c ∧ c' = { c with gates := d.edited c }) ∨
      (∃ d, e = .data d ∧ d.Accepts c ∧ c' = d.assigned c) ∨ e = .reverse ∧ c' = c.reversed := by
  cases e with
  | cascade d =>
    obtain ⟨hd, h⟩ := CascadeEdit.result_eq_ok.1 h
    cases h
    exact .inl ⟨d, rfl, hd, rfl, rfl⟩
  | data d =>
    obtain ⟨hd, h⟩ := (map_prod_eq_ok fun _ => DataEdit.result_eq_ok).1 h
    cases h
    exact .inr (.inl ⟨d, rfl, hd, rfl⟩)
  | reverse =>
    cases h
    exact .inr (.inr ⟨rfl, rfl⟩)

/-- **An operation succeeds** exactly on what it asks for. -/
theorem Edit.exists_result_iff : (∃ r, e.result c = .ok r) ↔ e.Accepts c := by
  cases e with
  | cascade d => simp only [result, Accepts, CascadeEdit.result_eq_ok, exists_and_left, exists_eq', and_true]
  | data d =>
    simp only [result, Accepts, map_prod_eq_ok fun _ => DataEdit.result_eq_ok, exists_and_left, exists_eq', and_true]
  | reverse => exact ⟨fun _ => trivial, fun _ => ⟨_, rfl⟩⟩

/-! ### circuits in order -/

/-- all data have one entry per line. -/
structure Labelled (c : Circuit) : Prop where
  inputs : c.inputs.length = c.lines
  outputs : c.outputs.length = c.lines
  constants : c.constants.length = c.lines
  garbage : c.garbage.length = c.lines

/-- a circuit in order: one entry per line in all data, and all gates on the lines. -/
structure Fits (n : Nat) (c : Circuit) : Prop where
  lines : c.lines = n
  labelled : c.Labelled
  gates : ∀ g ∈ c.gates, g.Within n

theorem fits_ofLines (h : ofLines n = .ok c) : c.Fits n := by
  obtain ⟨-, h⟩ := ite_error_eq_ok.1 h
  cases h
  exact ⟨rfl, ⟨by simp [empty], by simp [empty], by simp [empty], by simp [empty]⟩, nofun⟩

theorem mem_concat_within {k : Gate} (hk : k.Within c.lines) (hg : g ∈ c.gates ++ [k]) :
    g ∈ c.gates ∨ g.Within c.lines := by
  refine (List.mem_append.1 hg).imp_right fun hg => ?_
  rw [List.mem_singleton.1 hg]
  exact hk

/-- the gates after an operation were there before or are on the lines. -/
theorem CascadeEdit.mem_edited {e : CascadeEdit} (he : e.Accepts c) (hg : g ∈ e.edited c) :
    g ∈ c.gates ∨ g.Within c.lines := by
  cases e with
  | append k => exact mem_concat_within he hg
  | prepend k =>
    obtain rfl | hg := List.mem_cons.1 hg
    · exact .inr he
    · exact .inl hg
  | insert pos k =>
    obtain rfl | hg := (List.mem_insertIdx he.2).1 hg
    · exact .inr he.1
    · exact .inl hg
  | remove pos => exact .inl (List.mem_of_mem_eraseIdx hg)
  | appendToffoli cs target => exact mem_concat_within (within_toffoli.2 he.2) hg
  | appendFredkin cs a b => exact mem_concat_within (within_fredkin.2 he.2) hg

theorem DataEdit.gates_assigned (e : DataEdit) (c : Circuit) : (e.assigned c).gates = c.gates := by
  cases e <;> rfl

theorem DataEdit.lines_assigned (e : DataEdit) (c : Circuit) : (e.assigned c).lines = c.lines := by
  cases e <;> rfl

/-- the circuit that an operation copies from, if any, is in order. -/
def Edit.Sourced : Edit → Prop
  | data (.copyMetadata other) => other.Labelled
  | _ => True

theorem DataEdit.labelled_assigned {e : DataEdit} (hc : c.Labelled) (hsource : (Edit.data e).Sourced)
    (he : e.Accepts c) : (e.assigned c).Labelled := by
  obtain ⟨hinputs, houtputs, hconstants, hgarbage⟩ := hc
  cases e with
  | setInputs names => exact ⟨he, houtputs, hconstants, hgarbage⟩
  | setOutputs names => exact ⟨hinputs, he, hconstants, hgarbage⟩
  | setConstants values => exact ⟨hinputs, houtputs, he, hgarbage⟩
  | setGarbage flags => exact ⟨hinputs, houtputs, hconstants, he⟩
  | setName name => exact ⟨hinputs, houtputs, hconstants, hgarbage⟩
  | copyMetadata other =>
    -- the data has one entry per line of the other circuit, which has as many lines
    exact ⟨hsource.inputs.trans he, hsource.outputs.trans he, hsource.constants.trans he, hsource.garbage.trans he⟩

/-! ### runs -/

theorem Fits.of_result {out : Option Gate} (hc : c.Fits n) (hsource : e.Sourced) (h : e.result c = .ok (out, c')) :
    c'.Fits n := by
  obtain ⟨rfl, ⟨hinputs, houtputs, hconstants, hgarbage⟩, hgates⟩ := hc
  obtain ⟨d, rfl, hd, -, rfl⟩ | ⟨d, rfl, hd, rfl⟩ | ⟨rfl, rfl⟩ := Edit.of_result h
  · refine ⟨rfl, ⟨hinputs, houtputs, hconstants, hgarbage⟩, fun g hg => ?_⟩
    exact (CascadeEdit.mem_edited hd hg).elim (hgates g) id
  · refine ⟨d.lines_assigned c, DataEdit.labelled_assigned ⟨hinputs, houtputs, hconstants, hgarbage⟩ hsource hd, ?_⟩
    rw [d.gates_assigned]
    exact hgates
  · exact ⟨rfl, ⟨houtputs, hinputs, hconstants, hgarbage⟩, fun g hg => hgates g (List.mem_reverse.1 hg)⟩

/-- **One operation** keeps circuits in order, whether it succeeds or fails. -/
theorem Fits.left (hc : c.Fits n) (hsource : e.Sourced) : (e.left c).Fits n := by
  rw [Edit.left, e.perform_eq]
  split
  case h_1 out c' h => exact hc.of_result hsource (atOnce_eq_ok.1 h)
  case h_2 fault c' h =>
    obtain ⟨-, rfl⟩ := atOnce_eq_error.1 h
    exact hc

/-- **A run** keeps circuits in order. -/
theorem Fits.performAll (hc : c.Fits n) (hsources : ∀ e ∈ es, e.Sourced) : (c.performAll es).Fits n := by
  induction es generalizing c with
  | nil => exact hc
  | cons e es ih =>
    obtain ⟨hsource, hsources⟩ := List.forall_mem_cons.1 hsources
    exact ih (hc.left hsource) hsources

/-- the circuits that operations make of new ones, where data is copied from circuits that are made in the same way. -/
inductive Made : Circuit → Prop
  | run {n : Nat} {c : Circuit} {es : List Edit} (hnew : ofLines n = .ok c)
      (hothers : ∀ other, .data (.copyMetadata other) ∈ es → Made other) : Made (c.performAll es)

theorem sourced_of_others (h : ∀ other, .data (.copyMetadata other) ∈ es → other.Labelled) : ∀ e ∈ es, e.Sourced := by
  intro e he
  unfold Edit.Sourced
  split
  case h_1 other => exact h other he
  case h_2 => trivial

theorem Made.labelled (hc : Made c) : c.Labelled := by
  induction hc with
  | run hnew _ ih => exact ((fits_ofLines hnew).performAll (sourced_of_others ih)).labelled

/-- **Edits keep circuits in order.** Whatever operations have been performed on a new circuit on `n` lines, also such
that have failed, all its data have `n` entries and its gates are on its lines. The next operation succeeds exactly on
what it asks for. If it fails, it leaves the circuit as it was; otherwise one on the gates edits the gates and nothing
else, and one on the data assigns to the data and leaves the gates as they were. -/
theorem edits_keep_circuits {c₀ : Circuit} (hnew : ofLines n = .ok c₀)
    (hothers : ∀ other, .data (.copyMetadata other) ∈ es → Made other) :
    let c := c₀.performAll es
    c.Fits n ∧ ∀ e : Edit, ((∃ out c', e.perform c = .ok out c') ↔ e.Accepts c) ∧
      (∀ fault c', e.perform c = .error fault c' → c' = c) ∧
      ∀ out c', e.perform c = .ok out c' →
        (∀ d, e = .cascade d → out = d.removed c ∧ c' = { c with gates := d.edited c }) ∧
        (∀ d, e = .data d → c' = d.assigned c ∧ c'.gates = c.gates) ∧
        (e = .reverse → c' = c.reversed) := by
  intro c
  have hsources := sourced_of_others fun other h => (hothers other h).labelled
  refine ⟨(fits_ofLines hnew).performAll hsources, fun e => ?_⟩
  -- a failure changes nothing, since every operation changes the circuit at once or not at all
  simp only [e.perform_eq, atOnce_eq_ok, atOnce_eq_error]
  refine ⟨Prod.exists.symm.trans Edit.exists_result_iff, fun fault c' h => h.2.symm, fun out c' h => ?_⟩
  obtain ⟨d, rfl, -, hout, hc'⟩ | ⟨d, rfl, -, rfl⟩ | ⟨rfl, rfl⟩ := Edit.of_result h
  · refine ⟨?_, nofun, nofun⟩
    rintro _ ⟨⟩
    exact ⟨hout, hc'⟩
  · refine ⟨nofun, ?_, nofun⟩
    rintro _ ⟨⟩
    exact ⟨rfl, d.gates_assigned c⟩
  · exact ⟨nofun, nofun, fun _ => rfl⟩

theorem edits_keep_circuits_pair :
    let other := (empty 2).performAll [.data (.setConstants [none, some false]), .data (.setGarbage [true])]
    let es : List Edit := [.cascade (.append (inverter 0)), .cascade (.append (inverter 2)),
      .cascade (.insert 5 (inverter 1)), .data (.copyMetadata other), .reverse]
    let c := (empty 2).performAll es
    c.Fits 2 ∧ c.gates = [inverter 0] ∧ c.constants = [none, some false] ∧
      (∀ fault c', (Edit.cascade (.remove 1)).perform c = .error fault c' → c' = c) ∧
      ∃ out c', (Edit.cascade (.prepend (inverter 1))).perform c = .ok out c' ∧
        c' = { c with gates := [inverter 1, inverter 0] } := by
  have hnew : ofLines 2 = .ok (empty 2) := by rw [ofLines, if_neg (by decide)]
  intro other es c
  have hother : Made other := .run hnew (by simp)
  have hothers : ∀ d, .data (.copyMetadata d) ∈ es → Made d := by simp [es, hother]
  obtain ⟨hfits, hnext⟩ := edits_keep_circuits hnew hothers
  obtain ⟨haccepts, -, hchange⟩ := hnext (.cascade (.prepend (inverter 1)))
  obtain ⟨out, c', h⟩ := haccepts.2 (maxLine_lt_iff.1 (by decide))
  exact ⟨hfits, by rfl, by rfl, (hnext _).2.1, out, c', h, ((hchange out c' h).1 _ rfl).2⟩

end ReversibleLogic.Circuit
