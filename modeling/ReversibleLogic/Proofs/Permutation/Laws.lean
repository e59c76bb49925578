import Mathlib.Data.Set.Basic
import Mathlib.Order.Bounds.Basic
import ReversibleLogic.Proofs.Permutation

/-!
# Refused tables and laws of composition

* `Records` — what the walk over the rows remembers; `checkRows_of_not_nodup`: it stops at the first output that it has
  met before;
* `repeats`, `ofTable_of_not_nodup` — the two rows that are named when a table is refused;
* `eq_of_images` — permutations are equal if their images are; `valid_inverse`, `valid_composed` — inverse and
  composition need no check;
* `checked_tables_form_group` — the tables that are accepted, those that are refused, and the laws of a group.
-/

namespace ReversibleLogic

def repeats (t : Array Nat) : Set Nat := {x | x < t.size ∧ ∃ x' < x, t.getD x' 0 = t.getD x 0}

namespace Permutation

variable {lines : Nat} {done rows : List Nat} {preimage : Array (Option Nat)} {table : Array Nat} {p q r : Permutation}

/-! ### refused tables -/

/-- `preimage` holds the row of every output met so far. -/
def Records (done : List Nat) (preimage : Array (Option Nat)) : Prop :=
  ∀ y x : Nat, preimage[y]?.join = some x ↔ done[x]? = some y

theorem records_nil (k : Nat) : Records [] (Array.replicate k none) := by
  intro y x
  rw [Array.getElem?_replicate]
  split <;> simp

theorem Records.concat (h : Records done preimage) {y : Nat} (hy : y < preimage.size) (hnew : y ∉ done) :
    Records (done ++ [y]) (preimage.setIfInBounds y (some done.length)) := by
  intro z x
  rw [List.getElem?_append]
  by_cases hz : z = y
  · subst hz
    rw [Array.getElem?_setIfInBounds_self_of_lt hy, Option.join_some, Option.some.injEq]
    split
    · next hlt =>
      have hne : done[x]? ≠ some z := fun he => hnew (List.mem_of_getElem? he)
      simp only [hne, iff_false]
      omega
    · next hge =>
      rw [List.getElem?_singleton]
      split <;> simp <;> omega
  · rw [Array.getElem?_setIfInBounds_ne (Ne.symm hz), h z x]
    split
    · exact Iff.rfl
    · next hge =>
      have hnone : done[x]? = none := List.getElem?_eq_none (Nat.le_of_not_lt hge)
      rw [hnone, List.getElem?_singleton]
      split <;> simp [Ne.symm hz]

/-- **The walk stops at the first repetition**, and names the row where the output has been met. -/
theorem checkRows_of_not_nodup (hrec : Records done preimage) (hsize : preimage.size = 2 ^ lines) (hdone : done.Nodup)
    (hrows : ∀ y ∈ rows, y < 2 ^ lines) (hrep : ¬ (done ++ rows).Nodup) :
    ∃ pre y post first, rows = pre ++ y :: post ∧ (done ++ pre).Nodup ∧ (done ++ pre)[first]? = some y ∧
      checkRows lines rows done.length preimage = .error (.notAPermutation y first (done ++ pre).length) := by
  induction rows generalizing done preimage with
  | nil =>
    rw [List.append_nil] at hrep
    exact absurd hdone hrep
  | cons y rows ih =>
    obtain ⟨hy, hrows⟩ := List.forall_mem_cons.1 hrows
    rw [checkRows, if_neg (Nat.not_le.2 hy)]
    cases hmet : preimage[y]?.join with
    | some first =>
      rw [← List.append_nil done] at hdone
      exact ⟨[], y, rows, first, rfl, hdone, by rw [List.append_nil]; exact (hrec y first).1 hmet,
        by rw [List.append_nil]⟩
    | none =>
      have hnew : y ∉ done := by
        intro hmem
        obtain ⟨x, hx⟩ := List.mem_iff_getElem?.1 hmem
        rw [(hrec y x).2 hx] at hmet
        cases hmet
      have hdone' : (done ++ [y]).Nodup := by
        rw [← List.concat_eq_append]
        exact hdone.concat hnew
      have hsplit : ∀ l, done ++ [y] ++ l = done ++ y :: l := fun l => by rw [List.append_assoc]; rfl
      obtain ⟨pre, y', post, first, rfl, hnodup, hfirst, hcheck⟩ :=
        ih (hrec.concat (hsize ▸ hy) hnew) (by rwa [Array.size_setIfInBounds]) hdone' hrows (by rwa [hsplit])
      rw [hsplit] at hnodup hfirst hcheck
      rw [List.length_append] at hcheck
      exact ⟨y :: pre, y', post, first, rfl, hnodup, hfirst, hcheck⟩

theorem getD_eq_of_getElem? {t : Array Nat} {x y : Nat} (h : t.toList[x]? = some y) : t.getD x 0 = y := by
  rw [Array.getD_eq_getD_getElem?, ← Array.getElem?_toList, h]
  rfl

/-- **A refused table**: the first row that repeats an output is named, with the one row before it that has it. -/
theorem ofTable_of_not_nodup (hn : lines ≤ maxTableLines) (hsize : table.size = 2 ^ lines)
    (hrows : ∀ y ∈ table.toList, y < 2 ^ lines) (hrep : ¬ table.toList.Nodup) :
    ∃ first second, ofTable lines table = .error (.notAPermutation (table.getD second 0) first second) ∧
      IsLeast (repeats table) second ∧ first < second ∧
      ∀ x < second, table.getD x 0 = table.getD second 0 ↔ x = first := by
  obtain ⟨pre, y, post, first, hsplit, hpre, hfirst, hcheck⟩ :=
    checkRows_of_not_nodup (records_nil _) Array.size_replicate List.nodup_nil hrows hrep
  rw [List.nil_append] at hpre hfirst
  rw [List.nil_append, List.length_nil] at hcheck
  -- the rows before the second one are those of `pre`
  have hbefore : ∀ x < pre.length, table.toList[x]? = pre[x]? := fun x hx => by
    rw [hsplit, List.getElem?_append_left hx]
  have hfirstLt : first < pre.length := (List.getElem?_eq_some_iff.1 hfirst).1
  have hsecond : table.getD pre.length 0 = y := getD_eq_of_getElem? (by rw [hsplit]; simp)
  have hinj : ∀ x < pre.length, ∀ x' < pre.length, table.getD x 0 = table.getD x' 0 → x = x' := by
    intro x hx x' hx' he
    rw [getD_eq_of_getElem? ((hbefore x hx).trans (List.getElem?_eq_getElem hx)),
      getD_eq_of_getElem? ((hbefore x' hx').trans (List.getElem?_eq_getElem hx'))] at he
    exact (List.Nodup.getElem_inj_iff hpre).1 he
  have hmet : table.getD first 0 = y := getD_eq_of_getElem? ((hbefore first hfirstLt).trans hfirst)
  have hlt : pre.length < table.size := by
    rw [← Array.length_toList, hsplit, List.length_append, List.length_cons]
    omega
  refine ⟨first, pre.length, ?_, ⟨⟨hlt, first, hfirstLt, hmet.trans hsecond.symm⟩, ?_⟩, hfirstLt, fun x hx => ?_⟩
  · rw [ofTable, if_neg (Nat.not_lt.2 hn), if_neg (not_not.2 hsize), hsecond, hcheck]
    rfl
  · rintro x ⟨-, x', hx', he⟩
    by_contra hx
    have hx := Nat.lt_of_not_le hx
    exact Nat.ne_of_lt hx' (hinj x' (hx'.trans hx) x hx he)
  · rw [hsecond, ← hmet]
    constructor
    · exact hinj x hx first hfirstLt
    · rintro rfl
      rfl

/-! ### images -/

theorem eq_of_images (hp : p.Valid) (hq : q.Valid) (hlines : q.lines = p.lines)
    (h : ∀ x < 2 ^ p.lines, p.table.getD x 0 = q.table.getD x 0) : p = q := by
  have htable : p.table = q.table := eq_of_getD hp.bijection.size (hlines ▸ hq.bijection.size) h
  cases p
  cases q
  cases hlines
  cases htable
  rfl

theorem getD_getD_inverse (hp : p.Valid) {y : Nat} (hy : y < 2 ^ p.lines) :
    p.table.getD (p.inverse.table.getD y 0) 0 = y := by
  obtain ⟨x, hx, rfl⟩ := hp.bijection.surj hy
  rw [getD_inverse hp.bijection hx]

theorem getD_inverse_lt (hp : p.Valid) {y : Nat} (hy : y < 2 ^ p.lines) : p.inverse.table.getD y 0 < 2 ^ p.lines := by
  obtain ⟨x, hx, rfl⟩ := hp.bijection.surj hy
  rwa [getD_inverse hp.bijection hx]

/-- **The inverse is a permutation.** -/
theorem valid_inverse (hp : p.Valid) : p.inverse.Valid where
  lines_le := hp.lines_le
  bijection := by
    refine ⟨(size_inverse p).trans hp.bijection.size, fun y hy => getD_inverse_lt hp hy, fun y hy y' hy' he => ?_⟩
    rw [← getD_getD_inverse hp hy, he, getD_getD_inverse hp hy']

/-- the permutation whose table is read off the tables of `p` and then of `q`. -/
def composed (p q : Permutation) : Permutation := ⟨p.lines, p.table.map fun y => q.table.getD y 0⟩

theorem getD_composed (hp : p.Valid) (q : Permutation) {x : Nat} (hx : x < 2 ^ p.lines) :
    (composed p q).table.getD x 0 = q.table.getD (p.table.getD x 0) 0 := by
  rw [composed, Array.getD_eq_getD_getElem?, Array.getElem?_map, hp.bijection.getElem? hx]
  rfl

/-- **The composition is a permutation.** -/
theorem valid_composed (hp : p.Valid) (hq : q.Valid) (hlines : q.lines = p.lines) : (composed p q).Valid where
  lines_le := hp.lines_le
  bijection := by
    have hlt : ∀ x < 2 ^ p.lines, p.table.getD x 0 < 2 ^ q.lines := fun x hx => hlines ▸ hp.bijection.lt x hx
    refine ⟨Array.size_map.trans hp.bijection.size, fun x hx => ?_, fun x hx x' hx' he => ?_⟩
    · rw [getD_composed hp q hx]
      exact hlines ▸ hq.bijection.lt _ (hlt x hx)
    · rw [getD_composed hp q hx, getD_composed hp q hx'] at he
      exact hp.bijection.inj x hx x' hx' (hq.bijection.inj _ (hlt x hx) _ (hlt x' hx') he)

theorem comp_eq_composed (hp : p.Valid) (hq : q.Valid) (hlines : q.lines = p.lines) :
    p.comp q = .ok (composed p q) := comp_eq hp.bijection hq hlines

/-! ### the identity -/

theorem identity_eq (hn : lines ≤ maxTableLines) : identity lines = .ok ⟨lines, Array.range (2 ^ lines)⟩ :=
  if_neg (Nat.not_lt.2 hn)

theorem getD_range {k x : Nat} (hx : x < k) : (Array.range k).getD x 0 = x := by
  rw [← Array.map_id (Array.range k)]
  exact getD_map_range id hx

theorem valid_identity (hn : lines ≤ maxTableLines) : Valid ⟨lines, Array.range (2 ^ lines)⟩ where
  lines_le := hn
  bijection := by
    refine ⟨Array.size_range, fun x hx => ?_, fun x hx y hy he => ?_⟩
    · rwa [getD_range hx]
    · rwa [getD_range hx, getD_range hy] at he

theorem eq_identity (hp : p.Valid) (h : ∀ x < 2 ^ p.lines, p.table.getD x 0 = x) :
    p = ⟨p.lines, Array.range (2 ^ p.lines)⟩ :=
  eq_of_images hp (valid_identity hp.lines_le) rfl fun x hx => (h x hx).trans (getD_range hx).symm

theorem isIdentity_identity (hn : lines ≤ maxTableLines) :
    isIdentity ⟨lines, Array.range (2 ^ lines)⟩ = true := by
  have hvalid := valid_identity hn
  rw [isIdentity, List.all_eq_true]
  rintro ⟨x, y⟩ hxy
  obtain ⟨hx, hy⟩ := (mem_rows hvalid).1 hxy
  rw [apply_eq hvalid hx, getD_range hx] at hy
  exact beq_iff_eq.2 (Except.ok.inj hy)

/-! ### laws -/

theorem comp_inverse (hp : p.Valid) : p.comp p.inverse = identity p.lines := by
  rw [comp_eq_composed hp (valid_inverse hp) rfl, identity_eq hp.lines_le]
  refine congrArg Except.ok (eq_identity (valid_composed hp (valid_inverse hp) rfl) fun x hx => ?_)
  rw [getD_composed hp _ hx, getD_inverse hp.bijection hx]

theorem inverse_comp (hp : p.Valid) : p.inverse.comp p = identity p.lines := by
  rw [comp_eq_composed (valid_inverse hp) hp rfl, identity_eq hp.lines_le]
  refine congrArg Except.ok (eq_identity (valid_composed (valid_inverse hp) hp rfl) fun x hx => ?_)
  rw [getD_composed (valid_inverse hp) _ hx, getD_getD_inverse hp hx]

theorem composed_assoc (hp : p.Valid) (hq : q.Valid) (hr : r.Valid) (hqp : q.lines = p.lines)
    (hrp : r.lines = p.lines) : composed (composed p q) r = composed p (composed q r) := by
  have hpq := valid_composed hp hq hqp
  have hqr := valid_composed hq hr (hrp.trans hqp.symm)
  refine eq_of_images (valid_composed hpq hr hrp) (valid_composed hp hqr hqp) rfl fun x hx => ?_
  have hx : x < 2 ^ p.lines := hx
  rw [getD_composed hpq r hx, getD_composed hp q hx, getD_composed hp _ hx,
    getD_composed hq r (hqp ▸ hp.bijection.lt x hx)]

theorem inverse_composed (hp : p.Valid) (hq : q.Valid) (hqp : q.lines = p.lines) :
    (composed p q).inverse = composed q.inverse p.inverse := by
  have hpq := valid_composed hp hq hqp
  refine eq_of_images (valid_inverse hpq) (valid_composed (valid_inverse hq) (valid_inverse hp) hqp.symm) hqp
    fun z hz => ?_
  -- every word is an image of the composition, and both sides lead back from it
  obtain ⟨x, hx, rfl⟩ := hpq.bijection.surj hz
  have hx : x < 2 ^ p.lines := hx
  have hy : p.table.getD x 0 < 2 ^ q.lines := hqp ▸ hp.bijection.lt x hx
  have hz : q.table.getD (p.table.getD x 0) 0 < 2 ^ q.inverse.lines := hq.bijection.lt _ hy
  rw [getD_inverse hpq.bijection hx, getD_composed hp q hx, getD_composed (valid_inverse hq) _ hz,
    getD_inverse hq.bijection hy, getD_inverse hp.bijection hx]

/-- **Checked tables form a group.** On a number of lines that a table can have, the check accepts a table exactly if it
has a row for each word and its outputs are different words on the lines. If the rows and the outputs are right but two
outputs coincide, it names the first row whose output has occurred before, and the only earlier row where it has.
Inverse and composition of permutations are permutations without a check; the identity, the inverse and the composition
satisfy the laws of a group, where the composition leads from word to word as its two parts do one after the other. -/
theorem checked_tables_form_group {n : Nat} (hn : n ≤ maxTableLines) :
    (∀ table p, ofTable n table = .ok p ↔
      p = ⟨n, table⟩ ∧ table.size = 2 ^ n ∧ (∀ y ∈ table.toList, y < 2 ^ n) ∧ table.toList.Nodup) ∧
    (∀ table, table.size = 2 ^ n → (∀ y ∈ table.toList, y < 2 ^ n) → ¬ table.toList.Nodup →
      ∃ first second, ofTable n table = .error (.notAPermutation (table.getD second 0) first second) ∧
        IsLeast (repeats table) second ∧ first < second ∧
        ∀ x < second, table.getD x 0 = table.getD second 0 ↔ x = first) ∧
    ∃ e, identity n = .ok e ∧ e.isIdentity = true ∧
      ∀ p q r : Permutation, p.Valid → q.Valid → r.Valid → p.lines = n → q.lines = n → r.lines = n →
        (p.inverse.Valid ∧ p.inverse.lines = n ∧ p.comp p.inverse = .ok e ∧ p.inverse.comp p = .ok e) ∧
        ∃ pq qr pqr, p.comp q = .ok pq ∧ pq.Valid ∧ pq.lines = n ∧
          (∀ x < 2 ^ n, pq.apply x = p.apply x >>= q.apply) ∧
          q.comp r = .ok qr ∧ pq.comp r = .ok pqr ∧ p.comp qr = .ok pqr ∧
          q.inverse.comp p.inverse = .ok pq.inverse := by
  refine ⟨fun table p => ?_, fun table hsize hrows hrep => ofTable_of_not_nodup hn hsize hrows hrep,
    _, identity_eq hn, isIdentity_identity hn, ?_⟩
  · rw [ofTable_eq_ok]
    refine and_congr_right ?_
    rintro rfl
    exact ⟨fun hp => ⟨hp.bijection.size, hp.bijection.toList_lt, hp.bijection.toList_nodup⟩,
      fun ⟨hsize, hrows, hnodup⟩ => ⟨hn, .of_nodup hsize hrows hnodup⟩⟩
  · rintro p q r hp hq hr rfl hqp hrp
    have hpq := valid_composed hp hq hqp
    have hqr := valid_composed hq hr (hrp.trans hqp.symm)
    have hinverses := comp_eq_composed (valid_inverse hq) (valid_inverse hp) hqp.symm
    refine ⟨⟨valid_inverse hp, rfl, (comp_inverse hp).trans (identity_eq hn),
      (inverse_comp hp).trans (identity_eq hn)⟩, composed p q, composed q r, composed (composed p q) r,
      comp_eq_composed hp hq hqp, hpq, rfl, fun x hx => ?_, comp_eq_composed hq hr (hrp.trans hqp.symm),
      comp_eq_composed hpq hr hrp, ?_, ?_⟩
    · rw [apply_eq hpq hx, getD_composed hp q hx, apply_eq hp hx, ok_bind, apply_eq hq (hqp ▸ hp.bijection.lt x hx)]
    · rw [comp_eq_composed hp hqr hqp, composed_assoc hp hq hr hqp hrp]
    · rw [hinverses, inverse_composed hp hq hqp]

theorem checked_tables_form_group_cycle :
    ofTable 2 #[0, 1, 3, 1] = .error (.notAPermutation 1 1 3) ∧ IsLeast (repeats #[0, 1, 3, 1]) 3 ∧
      ∃ e p q pq, identity 2 = .ok e ∧ ofTable 2 #[1, 2, 3, 0] = .ok p ∧ ofTable 2 #[0, 2, 1, 3] = .ok q ∧
        p.comp p.inverse = .ok e ∧ p.comp q = .ok pq ∧ q.inverse.comp p.inverse = .ok pq.inverse := by
  obtain ⟨haccepted, hrefused, e, he, -, hlaws⟩ := checked_tables_form_group (n := 2) (by decide)
  have hvalid : ∀ {table p}, ofTable 2 table = .ok p → p.Valid := fun h => (ofTable_eq_ok.1 h).2
  have hp := (haccepted #[1, 2, 3, 0] _).2 ⟨rfl, rfl, by decide, by decide⟩
  have hq := (haccepted #[0, 2, 1, 3] _).2 ⟨rfl, rfl, by decide, by decide⟩
  obtain ⟨⟨-, -, hinverse, -⟩, pq, -, -, hpq, -, -, -, -, -, -, hback⟩ :=
    hlaws _ _ _ (hvalid hp) (hvalid hq) (hvalid hp) rfl rfl rfl
  obtain ⟨first, second, herror, hsecond, -⟩ := hrefused #[0, 1, 3, 1] rfl (by decide) (by decide)
  have hrun : ofTable 2 #[0, 1, 3, 1] = .error (.notAPermutation 1 1 3) := rfl
  obtain ⟨-, rfl, rfl⟩ := Error.notAPermutation.inj (Except.error.inj (hrun.symm.trans herror))
  exact ⟨hrun, hsecond, e, _, _, pq, he, hp, hq, hinverse, hpq, hback⟩

end Permutation

end ReversibleLogic
