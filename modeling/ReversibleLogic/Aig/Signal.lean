import ReversibleLogic.Error

/-!
# Signals of an and-inverter graph

A signal is a 32-bit word: the lowest bit complements it, the highest bit marks an input, and the bits between them
are the number of the input, or the number of the node plus one. The words 0 and 1 are the constants.
-/

namespace ReversibleLogic

/-- a constant, an input or a node of a graph, possibly complemented. -/
structure Signal where
  word : UInt32
  deriving DecidableEq, Repr, Inhabited

namespace Signal

def zero : Signal := ⟨0⟩

def one : Signal := ⟨1⟩

/-- the bit that marks inputs. -/
def inputMark : UInt32 := 0x80000000

def ofBool (b : Bool) : Signal := if b then one else zero

def ofNode (n : Nat) : Signal := ⟨(UInt32.ofNat n + 1) <<< 1⟩

/-- the signal of a node given by a 32-bit number; the last number has no successor. -/
def ofNode? (n : Nat) : Option Signal := if n = 2 ^ 32 - 1 then none else some (ofNode n)

def ofInput (i : Nat) : Signal := ⟨inputMark ||| (UInt32.ofNat i <<< 1)⟩

/-- the complement. -/
def not (s : Signal) : Signal := ⟨s.word ^^^ 1⟩

@[simp] theorem not_not (s : Signal) : s.not.not = s := by
  simp only [not, UInt32.xor_assoc, UInt32.xor_self, UInt32.xor_zero]

/-- the uncomplemented signal. -/
def regular (s : Signal) : Signal := ⟨s.word &&& ~~~1⟩

def isConst (s : Signal) : Bool := s.word >>> 1 == 0

def isInput (s : Signal) : Bool := s.word &&& inputMark != 0

def isNode (s : Signal) : Bool := !s.isInput && !s.isConst

def isNegated (s : Signal) : Bool := s.word &&& 1 != 0

/-- the number between the mark and the complement bit. -/
def field (s : Signal) : Nat := ((s.word &&& ~~~inputMark) >>> 1).toNat

/-- the number of an input. -/
def input (s : Signal) : Except Error Nat := if s.isInput then .ok s.field else .error (.misuse .wrongSignal)

/-- the number of a node. -/
def node (s : Signal) : Except Error Nat := if s.isNode then .ok (s.field - 1) else .error (.misuse .wrongSignal)

/-- the order of the words. -/
def lt (s t : Signal) : Bool := s.word < t.word

/-- what a signal stands for, its complement aside. -/
inductive Source where
  | constant
  | input (i : Nat)
  | node (n : Nat)
  deriving DecidableEq, Repr

def source (s : Signal) : Source :=
  if s.isConst then .constant else if s.isInput then .input s.field else .node (s.field - 1)

def render (s : Signal) : String :=
  let mark := if s.isNegated then "!" else ""
  match s.source with
  | .constant => if s.isNegated then "1" else "0"
  | .input i => s!"{mark}i{i}"
  | .node n => s!"{mark}n{n}"

end Signal

end ReversibleLogic
