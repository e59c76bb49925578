import ReversibleLogic.Bdd.Manager

/-!
# If-then-else and the connectives

`ite f g h` is `g` where `f` holds and `h` elsewhere. All connectives are special cases of it.

* `Triple.simplify` — answers a triple at once, or brings it into normal form: `test` and `yes` uncomplemented, the
  constants in place of arguments that repeat the test;
* `ite` — looks the normal form up among the computed ones, else splits on the topmost variable, `no` branch first;
* `conj`, `disj`, `xor`, `iff`, `imply`, `conjAll`, `disjAll`.
-/

namespace ReversibleLogic.Bdd

namespace Triple

/-- triples whose result is one of their arguments, or its complement. -/
def trivial? (t : Triple) : Option Ref :=
  if t.yes = t.no then some t.yes
  else if t.yes = .one ∧ t.no = .zero then some t.test
  else if t.yes = .zero ∧ t.no = .one then some (-t.test)
  else none

/-- a branch that repeats the test, or its complement, is constant where it is taken. -/
def dropRepeats (t : Triple) : Triple :=
  let yes := if t.yes = t.test then .one else if t.yes = -t.test then .zero else t.yes
  let no := if t.no = t.test then .zero else if t.no = -t.test then .one else t.no
  ⟨t.test, yes, no⟩

/-- the same function with an uncomplemented test. -/
def uncomplementTest (t : Triple) : Triple := if t.test.isNegated then ⟨-t.test, t.no, t.yes⟩ else t

/-- a triple with an uncomplemented `yes`, and whether its function is the complement of the given one. -/
def uncomplementYes (t : Triple) : Triple × Bool :=
  if t.yes.isNegated then (⟨t.test, -t.yes, -t.no⟩, true) else (t, false)

/-- the result of a triple, or its normal form and whether the result is to be complemented. -/
def simplify (t : Triple) : Ref ⊕ (Triple × Bool) :=
  if t.test = .one then .inl t.yes
  else if t.test = .zero then .inl t.no
  else
    match t.trivial? with
    | some r => .inl r
    | none =>
      let t := t.dropRepeats
      match t.trivial? with
      | some r => .inl r
      | none => .inr t.uncomplementTest.uncomplementYes

/-- sum of the node indices; it falls with every cofactor. -/
def weight (t : Triple) : Nat := t.test.index + t.yes.index + t.no.index

end Triple

/-- the computed result of a triple in normal form. -/
def computed? (t : Triple) : BddM (Option Ref) := fun ⟨nodes, computed⟩ =>
  let (r, computed) := computed.get t
  .ok r ⟨nodes, computed⟩

def remember (t : Triple) (r : Ref) : BddM Unit := fun ⟨nodes, computed⟩ => .ok () ⟨nodes, computed.insert t r⟩

/-- if-then-else over at most `fuel` splits on each path. -/
def iteWithin : Nat → Triple → BddM Ref
  | 0, _ => misuse .brokenOrder
  | fuel + 1, t =>
    match t.simplify with
    | .inl r => pure r
    | .inr (t, negate) => do
      match ← computed? t with
      | some r => return r.negateIf negate
      | none =>
        let top := min (min (← levelOf t.test) (← levelOf t.yes)) (← levelOf t.no)
        if top = terminalLevel then misuse .brokenOrder
        let (test₀, test₁) ← cofactors t.test top
        let (yes₀, yes₁) ← cofactors t.yes top
        let (no₀, no₁) ← cofactors t.no top
        let low ← iteWithin fuel ⟨test₀, yes₀, no₀⟩
        let high ← iteWithin fuel ⟨test₁, yes₁, no₁⟩
        let r ← mkNode top low high
        remember t r
        return r.negateIf negate

/-- `g` where `f` holds and `h` elsewhere. -/
def ite (f g h : Ref) : BddM Ref :=
  let t : Triple := ⟨f, g, h⟩
  iteWithin (t.weight + 1) t

def conj (f g : Ref) : BddM Ref := ite f g .zero

def disj (f g : Ref) : BddM Ref := ite f .one g

def xor (f g : Ref) : BddM Ref := ite f (-g) g

def iff (f g : Ref) : BddM Ref := ite f g (-g)

def imply (f g : Ref) : BddM Ref := ite f g .one

/-- conjunction of the results of computations, which end as soon as it is zero. -/
def conjAll (fs : List (BddM Ref)) : BddM Ref := go .one fs
where
  go (current : Ref) : List (BddM Ref) → BddM Ref
    | [] => pure current
    | f :: fs => do
      let next ← conj current (← f)
      if next = .zero then return next
      go next fs

/-- disjunction of the results of computations, which end as soon as it is one. -/
def disjAll (fs : List (BddM Ref)) : BddM Ref := go .zero fs
where
  go (current : Ref) : List (BddM Ref) → BddM Ref
    | [] => pure current
    | f :: fs => do
      let next ← disj current (← f)
      if next = .one then return next
      go next fs

end ReversibleLogic.Bdd
