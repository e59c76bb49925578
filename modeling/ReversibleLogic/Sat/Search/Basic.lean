import ReversibleLogic.Sat.Clause
import ReversibleLogic.Sat.Search.Ranking

/-!
# The state of a search

Clauses with two watched literals each, and a partial assignment that is built level by level.

* `Search.enqueue`, `Search.openLevel`, `Search.backtrack` — the partial assignment;
* `Search.attach` — adds a clause.

Between two runs no level is open, and the literals that the clauses alone force stay true. A clause that is attached
then is looked at in their light: it may hold for good, force a literal, or refute the clauses. Once the clauses are
refuted, no further clause is looked at.
-/

namespace ReversibleLogic.Sat

/-- clauses with their watches, and a partial assignment. -/
structure Search where
  clauses : Array Clause
  /-- by clause: 0 for an attached one; of a learned one, the number of levels that it spread over. -/
  spreads : Array Nat
  /-- the two watched literals of a clause with at least two. -/
  watched : Array (Literal × Literal)
  /-- by code of a literal, the clauses that watch it. -/
  watchers : Array (Array Nat)
  /-- by variable: 1 for true, -1 for false, 0 for neither. -/
  values : Array Int
  /-- by variable, the level on which it got its value. -/
  levels : Array Nat
  /-- by variable, the clause that forced its value. -/
  reasons : Array (Option Nat)
  /-- the true literals in order. -/
  trail : Array Literal
  /-- the length of the trail at the start of each level. -/
  limits : Array Nat
  /-- number of literals on the trail whose watchers have been visited. -/
  head : Nat
  /-- the variables without values, and some with values. -/
  ranking : Ranking
  /-- by variable, whether it was true when it last had a value. -/
  phases : Array Bool
  /-- by variable, the last conflict that it took part in. -/
  stamps : Array Nat
  /-- number of conflicts. -/
  conflicts : Nat
  /-- number of learned clauses. -/
  learned : Nat
  /-- number of learned clauses beyond which some are forgotten. -/
  bound : Nat
  /-- the clauses alone have no model. -/
  refuted : Bool

namespace Search

/-- the first bound on the number of learned clauses. -/
def firstBound : Nat := 2000

/-- by how much the bound on the number of learned clauses grows. -/
def boundStep : Nat := 100

def empty : Search := ⟨#[], #[], #[], #[], #[], #[], #[], #[], #[], 0, .empty, #[], #[], 0, 0, firstBound, false⟩

/-- position of a literal among the watchers. -/
def code (l : Literal) : Nat := 2 * l.natAbs + if l < 0 then 1 else 0

/-- 1 for a true literal, -1 for a false one, 0 for neither. -/
def valueOf (s : Search) (l : Literal) : Int :=
  let v := s.values.getD l.natAbs 0
  if l < 0 then -v else v

/-- the level on which a literal got its value. -/
def levelOf (s : Search) (l : Literal) : Nat := s.levels.getD l.natAbs 0

def clause (s : Search) (i : Nat) : Clause := s.clauses.getD i []

def level (s : Search) : Nat := s.limits.size

/-- room for the variables `1, …, n`. -/
def reserve (s : Search) (n : Nat) : Search :=
  let missing := n + 1 - s.values.size
  if missing = 0 then s
  else
    { s with
      values := s.values ++ Array.replicate missing 0
      levels := s.levels ++ Array.replicate missing 0
      reasons := s.reasons ++ Array.replicate missing none
      phases := s.phases ++ Array.replicate missing false
      stamps := s.stamps ++ Array.replicate missing 0
      watchers := s.watchers ++ Array.replicate (2 * missing) #[]
      ranking := s.ranking.reserve n }

/-! ## the partial assignment -/

/-- a literal becomes true. -/
def enqueue (s : Search) (l : Literal) (reason : Option Nat) : Search :=
  let v := l.natAbs
  let level := s.level
  { s with
    values := s.values.setIfInBounds v (if l < 0 then -1 else 1)
    levels := s.levels.setIfInBounds v level
    reasons := s.reasons.setIfInBounds v reason
    trail := s.trail.push l }

/-- starts a new level. -/
def openLevel (s : Search) : Search :=
  let start := s.trail.size
  { s with limits := s.limits.push start }

/-- takes back the value of a literal. -/
def release (s : Search) (l : Literal) : Search :=
  let v := l.natAbs
  { s with
    values := s.values.setIfInBounds v 0
    phases := s.phases.setIfInBounds v (0 < l)
    ranking := s.ranking.insert v }

/-- takes back all levels beyond `level`. -/
def backtrack (s : Search) (level : Nat) : Search :=
  match s.limits[level]? with
  | none => s
  | some start =>
    let undone := s.trail.extract start s.trail.size
    let s := { s with trail := s.trail.shrink start, limits := s.limits.shrink level, head := start }
    undone.foldl release s

/-! ## clauses -/

/-- clause `i` becomes a watcher of `l`. -/
def watch (s : Search) (l : Literal) (i : Nat) : Search :=
  { s with watchers := s.watchers.modify (code l) (·.push i) }

/-- a clause of distinct literals; its first two literals are watched. -/
def push (s : Search) (c : Clause) (spread : Nat) : Search :=
  let i := s.clauses.size
  let s := { s with clauses := s.clauses.push c, spreads := s.spreads.push spread }
  match c with
  | a :: b :: _ =>
    let s := (s.watch a i).watch b i
    { s with watched := s.watched.push (a, b) }
  | _ => { s with watched := s.watched.push (0, 0) }

/-- adds a clause while no level is open; literals that are false for good are watched last. -/
def attach (s : Search) (c : Clause) : Search :=
  if s.refuted || c.isTautology then s
  else
    let s := s.reserve (largestVariable c)
    let c := c.distinct
    if c.any (s.valueOf · = 1) then s
    else
      let unset := c.filter (s.valueOf · = 0)
      let i := s.clauses.size
      let s := s.push (unset ++ c.filter (s.valueOf · = -1)) 0
      match unset with
      | [] => { s with refuted := true }
      | [l] => s.enqueue l (some i)
      | _ => s

end Search

end ReversibleLogic.Sat
