import ReversibleLogic.Sat.Search.Basic

/-!
# Propagation

A clause is looked at only when one of its two watched literals becomes false. It then watches another literal, or
forces its other watched one.

* `Search.propagate` — visits the watchers of all literals that became false.
-/

namespace ReversibleLogic.Sat.Search

/-- what became of a watch on a literal that is now false. -/
inductive Visit where
  | kept
  | moved
  | conflict

/-- clause `i` watches `l`, which is false: it watches another literal instead, or forces its other watched one. -/
def visit (s : Search) (l : Literal) (i : Nat) : Search × Visit :=
  let (a, b) := s.watched.getD i (0, 0)
  let other := if a = l then b else a
  if s.valueOf other = 1 then (s, .kept)
  else
    match (s.clause i).find? fun k => k != other && k != l && s.valueOf k != -1 with
    | some k => ({ s.watch k i with watched := s.watched.setIfInBounds i (other, k) }, .moved)
    | none => if s.valueOf other = 0 then (s.enqueue other (some i), .kept) else (s, .conflict)

/-- visits watchers of `l` in order up to a conflict; gives those that go on watching it, and the conflict. -/
def visitAll (l : Literal) : List Nat → Array Nat → Search → Search × Array Nat × Option Nat
  | [], kept, s => (s, kept, none)
  | i :: rest, kept, s =>
    match s.visit l i with
    | (s, .kept) => visitAll l rest (kept.push i) s
    | (s, .moved) => visitAll l rest kept s
    | (s, .conflict) => (s, (kept.push i) ++ rest.toArray, some i)

/-- visits the watchers of the literals on the trail; gives the clause that became false, if any. -/
def propagate : Nat → Search → Search × Option Nat
  | 0, s => (s, none)
  | fuel + 1, s =>
    match s.trail[s.head]? with
    | none => (s, none)
    | some p =>
      let k := code (-p)
      let watching := s.watchers.getD k #[]
      let s := { s with head := s.head + 1, watchers := s.watchers.setIfInBounds k #[] }
      let (s, kept, conflict) := visitAll (-p) watching.toList #[] s
      let s := { s with watchers := s.watchers.setIfInBounds k kept }
      match conflict with
      | some i => (s, some i)
      | none => propagate fuel s

end ReversibleLogic.Sat.Search
