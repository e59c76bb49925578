import Mathlib.Data.Nat.Pairing
import Mathlib.Data.Set.Function
import ReversibleLogic.Storage.Pairing

/-!
# Pairing without wrap-around

* `sum?`, `product?` — arithmetic on words that fails where it would wrap; `pair?` is the computation of `pair` with it;
* `toNat_pair` — modulo `2 ^ 64`, a pair has the number that the pairing of natural numbers gives it;
* `pair_lt_sq_iff` — the shells: the numbers below `m ^ 2` are those of the pairs of numbers below `m`;
* `square k` — the pairs of words below `2 ^ k`;
* `pair_bijOn_squares` — on pairs of half words nothing wraps, and every word is the number of one of them; pairs below
  `2 ^ k` have the numbers below `2 ^ (2 * k)`.
-/

namespace ReversibleLogic.Storage

variable {a b c w : UInt64} {k n : Nat}

/-! ### checked arithmetic -/

/-- the sum, unless it wraps. -/
def sum? (a b : UInt64) : Option UInt64 := if a.toNat + b.toNat < 2 ^ 64 then some (a + b) else none

def product? (a b : UInt64) : Option UInt64 := if a.toNat * b.toNat < 2 ^ 64 then some (a * b) else none

/-- the number of the pair `(a, b)`, unless a step of its computation wraps. -/
def pair? (a b : UInt64) : Option UInt64 :=
  if a < b then do sum? (← product? b b) a else do sum? (← sum? (← product? a a) a) b

theorem checked_eq_some_iff (hw : w.toNat = n % 2 ^ 64) :
    (if n < 2 ^ 64 then some w else none) = some c ↔ n = c.toNat := by
  constructor
  · intro h
    split at h
    · next hlt =>
      cases h
      rw [hw, Nat.mod_eq_of_lt hlt]
    · cases h
  · intro h
    have hlt : n < 2 ^ 64 := h ▸ c.toNat_lt
    rw [Nat.mod_eq_of_lt hlt, h] at hw
    rw [if_pos hlt, UInt64.toNat_inj.1 hw]

theorem sum?_eq_some_iff : sum? a b = some c ↔ a.toNat + b.toNat = c.toNat :=
  checked_eq_some_iff (UInt64.toNat_add a b)

theorem product?_eq_some_iff : product? a b = some c ↔ a.toNat * b.toNat = c.toNat :=
  checked_eq_some_iff (UInt64.toNat_mul a b)

theorem exists_toNat_iff {P : Nat → Prop} : (∃ s : UInt64, n = s.toNat ∧ P s.toNat) ↔ n < 2 ^ 64 ∧ P n := by
  constructor
  · rintro ⟨s, rfl, hs⟩
    exact ⟨s.toNat_lt, hs⟩
  · rintro ⟨hlt, hn⟩
    have hs : (UInt64.ofNat n).toNat = n := UInt64.toNat_ofNat_of_lt' hlt
    exact ⟨.ofNat n, hs.symm, hs.symm ▸ hn⟩

/-- **The checked computation** succeeds exactly if the number of the pair is a word: no step exceeds the result. -/
theorem pair?_eq_some_iff : pair? a b = some w ↔ Nat.pair a.toNat b.toNat = w.toNat := by
  have hw := w.toNat_lt
  unfold pair? Nat.pair
  simp only [UInt64.lt_iff_toNat_lt]
  split
  · have hbind : (do sum? (← product? b b) a) = some w ↔
        ∃ s : UInt64, b.toNat * b.toNat = s.toNat ∧ s.toNat + a.toNat = w.toNat := by
      simp only [bind, Option.bind_eq_some_iff, product?_eq_some_iff, sum?_eq_some_iff]
    rw [hbind, exists_toNat_iff (P := (· + a.toNat = w.toNat))]
    omega
  · have hbind : (do sum? (← sum? (← product? a a) a) b) = some w ↔
        ∃ s : UInt64, a.toNat * a.toNat = s.toNat ∧
          ∃ u : UInt64, s.toNat + a.toNat = u.toNat ∧ u.toNat + b.toNat = w.toNat := by
      simp only [bind, Option.bind_eq_some_iff, product?_eq_some_iff, sum?_eq_some_iff]
    rw [hbind]
    simp only [exists_toNat_iff (P := (· + b.toNat = w.toNat))]
    rw [exists_toNat_iff (P := fun s => s + a.toNat < 2 ^ 64 ∧ s + a.toNat + b.toNat = w.toNat)]
    omega

/-! ### shells -/

/-- pairing of words is the pairing of natural numbers modulo `2 ^ 64`. -/
theorem toNat_pair (a b : UInt64) : (pair a b).toNat = Nat.pair a.toNat b.toNat % 2 ^ 64 := by
  unfold pair Nat.pair
  simp only [UInt64.lt_iff_toNat_lt]
  split
  · rw [UInt64.toNat_add, UInt64.toNat_mul, Nat.mod_add_mod]
  · rw [UInt64.toNat_add, UInt64.toNat_add, UInt64.toNat_mul, Nat.mod_add_mod, Nat.add_assoc, Nat.mod_add_mod,
      ← Nat.add_assoc]

/-- **Shells.** The numbers below `m ^ 2` are those of the pairs of numbers below `m`. -/
theorem pair_lt_sq_iff {x y m : Nat} : Nat.pair x y < m ^ 2 ↔ x < m ∧ y < m := by
  rw [← Nat.max_lt]
  constructor
  · intro h
    have hle : max x y ^ 2 ≤ Nat.pair x y := (Nat.le_add_right _ _).trans (Nat.max_sq_add_min_le_pair x y)
    exact (Nat.pow_lt_pow_iff_left (Nat.succ_ne_zero 1)).1 (hle.trans_lt h)
  · intro h
    exact (Nat.pair_lt_max_add_one_sq x y).trans_le (Nat.pow_le_pow_left h 2)

theorem pair_lt_two_pow_iff {x y : Nat} : Nat.pair x y < 2 ^ (2 * k) ↔ x < 2 ^ k ∧ y < 2 ^ k := by
  rw [Nat.mul_comm, Nat.pow_mul, pair_lt_sq_iff]

def square (k : Nat) : Set (UInt64 × UInt64) := {p | p.1.toNat < 2 ^ k ∧ p.2.toNat < 2 ^ k}

/-- on half words the number of a pair is exact. -/
theorem toNat_pair_of_mem {p : UInt64 × UInt64} (hk : k ≤ 32) (hp : p ∈ square k) :
    (pair p.1 p.2).toNat = Nat.pair p.1.toNat p.2.toNat := by
  have hlt : Nat.pair p.1.toNat p.2.toNat < 2 ^ (2 * k) := pair_lt_two_pow_iff.2 hp
  rw [toNat_pair, Nat.mod_eq_of_lt (hlt.trans_le (Nat.pow_le_pow_right Nat.two_pos (by omega)))]

theorem bijOn_square (hk : k ≤ 32) :
    Set.BijOn (fun p : UInt64 × UInt64 => (pair p.1 p.2).toNat) (square k) (Set.Iio (2 ^ (2 * k))) := by
  refine ⟨fun p hp => ?_, fun p hp q hq he => ?_, fun n hn => ?_⟩
  · show (pair p.1 p.2).toNat < _
    rw [toNat_pair_of_mem hk hp]
    exact pair_lt_two_pow_iff.2 hp
  · dsimp only at he
    rw [toNat_pair_of_mem hk hp, toNat_pair_of_mem hk hq, Nat.pair_eq_pair] at he
    exact Prod.ext (UInt64.toNat_inj.1 he.1) (UInt64.toNat_inj.1 he.2)
  · -- the entries of the pair with number `n` are words
    have hn' : Nat.pair n.unpair.1 n.unpair.2 < 2 ^ (2 * k) := (Nat.pair_unpair n).symm ▸ hn
    obtain ⟨hx, hy⟩ := pair_lt_two_pow_iff.1 hn'
    have hle : 2 ^ k ≤ 2 ^ 64 := Nat.pow_le_pow_right Nat.two_pos (by omega)
    have hx' : (UInt64.ofNat n.unpair.1).toNat = n.unpair.1 := UInt64.toNat_ofNat_of_lt' (hx.trans_le hle)
    have hy' : (UInt64.ofNat n.unpair.2).toNat = n.unpair.2 := UInt64.toNat_ofNat_of_lt' (hy.trans_le hle)
    have hp : (UInt64.ofNat n.unpair.1, UInt64.ofNat n.unpair.2) ∈ square k := ⟨hx'.symm ▸ hx, hy'.symm ▸ hy⟩
    refine ⟨_, hp, ?_⟩
    dsimp only
    rw [toNat_pair_of_mem hk hp, hx', hy', Nat.pair_unpair]

/-- nothing wraps exactly on pairs of half words. -/
theorem pair?_eq_some_pair_iff : pair? a b = some (pair a b) ↔ (a, b) ∈ square 32 := by
  rw [pair?_eq_some_iff, toNat_pair, eq_comm, Nat.mod_eq_iff_lt (Nat.two_pow_pos 64).ne']
  exact pair_lt_two_pow_iff (k := 32)

/-- **Pairing of half words.** No step of the computation wraps exactly if both entries are below `2 ^ 32`. Different
pairs of such entries have different numbers, and every word is the number of one of them. For all `k ≤ 32`, the pairs
with entries below `2 ^ k` are numbered by the numbers below `2 ^ (2 * k)`, one to one. -/
theorem pair_bijOn_squares :
    (∀ a b : UInt64, pair? a b = some (pair a b) ↔ a.toNat < 2 ^ 32 ∧ b.toNat < 2 ^ 32) ∧
      Set.BijOn (fun p : UInt64 × UInt64 => pair p.1 p.2) (square 32) Set.univ ∧
      ∀ k ≤ 32, Set.BijOn (fun p : UInt64 × UInt64 => (pair p.1 p.2).toNat) (square k) (Set.Iio (2 ^ (2 * k))) := by
  have hwords := bijOn_square (le_refl 32)
  refine ⟨fun a b => pair?_eq_some_pair_iff, ⟨Set.mapsTo_univ _ _, fun p hp q hq he => ?_, fun w _ => ?_⟩,
    fun k hk => bijOn_square hk⟩
  · exact hwords.injOn hp hq (congrArg UInt64.toNat he)
  · obtain ⟨p, hp, he⟩ := hwords.surjOn (Set.mem_Iio.2 w.toNat_lt)
    exact ⟨p, hp, UInt64.toNat_inj.1 he⟩

/-- the last pair of half words has the last word as its number. -/
theorem pair_bijOn_squares_corner :
    pair? 4294967295 4294967295 = some 18446744073709551615 ∧ ¬ pair? 0 4294967296 = some (pair 0 4294967296) ∧
      Set.BijOn (fun p : UInt64 × UInt64 => (pair p.1 p.2).toNat) (square 2) (Set.Iio 16) := by
  obtain ⟨hchecked, -, hsquare⟩ := pair_bijOn_squares
  exact ⟨(hchecked _ _).2 (by decide), mt (hchecked _ _).1 (by decide), hsquare 2 (by decide)⟩

end ReversibleLogic.Storage
