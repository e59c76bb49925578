import ReversibleLogic.Word

/-!
# References to diagram nodes

A reference is the index of a node with a sign; the negative reference denotes the complement of the function of the
positive one. No node has index 0.
-/

namespace ReversibleLogic.Bdd

/-- a signed node index. -/
structure Ref where
  value : Int
  deriving DecidableEq, Repr, Inhabited

namespace Ref

/-- the uncomplemented reference to a node. -/
def ofIndex (i : Nat) : Ref := ⟨i⟩

/-- the reference with index `i` taken as a signed 32-bit word, unless that is the smallest word, which has no
complement. -/
def ofWord? (i : Nat) : Option Ref := if i % 2 ^ 32 = 2 ^ 31 then none else some ⟨Int.bmod i (2 ^ 32)⟩

instance : Neg Ref := ⟨fun r => ⟨-r.value⟩⟩

def isNegated (r : Ref) : Bool := r.value < 0

/-- the complement if `b` holds. -/
def negateIf (r : Ref) (b : Bool) : Ref := if b then -r else r

def index (r : Ref) : Nat := r.value.natAbs

/-- the reference without its complement. -/
def regular (r : Ref) : Ref := ⟨r.index⟩

/-- twice the index, plus one for a complement. -/
def code (r : Ref) : Nat := 2 * r.index + r.isNegated.toNat

def render (r : Ref) : String := (if r.isNegated then "~@" else "@") ++ toString r.index

/-- the form that shows the signed index. -/
def signedText (r : Ref) : String := s!"Ref({r.value})"

@[simp] theorem neg_neg (r : Ref) : - -r = r := congrArg Ref.mk (Int.neg_neg r.value)

@[simp] theorem index_neg (r : Ref) : (-r).index = r.index := Int.natAbs_neg r.value

@[simp] theorem index_negateIf (r : Ref) (b : Bool) : (r.negateIf b).index = r.index := by
  cases b <;> simp [negateIf]

theorem negateIf_isNegated (r : Ref) : r.negateIf r.isNegated = r.regular := by
  by_cases h : r.value < 0
  · simp only [negateIf, isNegated, regular, index, h, decide_true, if_true]
    exact congrArg Ref.mk (by show -r.value = _; omega)
  · simp only [negateIf, isNegated, regular, index, h]
    exact congrArg Ref.mk (by omega)

/-- the constant one. -/
def one : Ref := ofIndex 1

/-- the constant zero. -/
def zero : Ref := -one

/-- one of the two constants. -/
def isTerminal (r : Ref) : Bool := r.index == 1

end Ref

end ReversibleLogic.Bdd
