import ReversibleLogic.Sat.Search.Propagation

/-!
# Learned clauses

A conflict is a clause that became false. The reasons of its literals are resolved into it until a single literal of
the current level is left; the clause that comes out would have forced that literal on an earlier level.

* `Search.learn` — learns from a conflict;
* `Search.explain` — the assumptions that contradict another one;
* `Search.tidy` — forgets learned clauses, those first that spread over many levels.
-/

namespace ReversibleLogic.Sat.Search

/-- the reason of a literal on the trail. -/
def reasonOf (s : Search) (p : Literal) : Option Clause := (s.reasons.getD p.natAbs none).map s.clause

/-- resolves the false literals of `c` with their reasons, latest first, over the first `n` literals of the trail. -/
def resolveAll (s : Search) : Nat → Clause → Clause
  | 0, c => c
  | n + 1, c =>
    let p := s.trail.getD n 0
    if c.contains (-p) then
      match s.reasonOf p with
      | some d => s.resolveAll n (c.resolvent d (-p))
      | none => s.resolveAll n c
    else s.resolveAll n c

/-- why the assumption `a` is false: a clause of complements of assumptions. -/
def explain (s : Search) (a : Literal) : Clause :=
  if s.levelOf a = 0 then [-a]
  else
    match s.reasonOf a with
    | some c => (s.resolveAll s.trail.size c).filter (s.levelOf · != 0)
    | none => [a, -a]

/-- the clause that is being learned. -/
structure Draft where
  /-- by variable, the last conflict that it took part in. -/
  stamps : Array Nat
  /-- number of its literals on the current level. -/
  current : Nat
  /-- its literals on lower levels. -/
  lower : Clause
  /-- the variables that took part in the conflict. -/
  met : List Nat

/-- adds a false literal, unless it is there or false for good. -/
def meet (s : Search) (d : Draft) (l : Literal) : Draft :=
  let v := l.natAbs
  let level := s.levelOf l
  if level = 0 || d.stamps.getD v 0 = s.conflicts then d
  else
    let d := { d with stamps := d.stamps.setIfInBounds v s.conflicts, met := v :: d.met }
    if level = s.level then { d with current := d.current + 1 } else { d with lower := l :: d.lower }

/-- resolves over the first `n` literals of the trail until one literal of the current level is left. -/
def resolveLevel (s : Search) : Nat → Draft → Clause × Draft
  | 0, d => (d.lower, d)
  | n + 1, d =>
    let p := s.trail.getD n 0
    if d.stamps.getD p.natAbs 0 = s.conflicts then
      match if d.current ≤ 1 then none else s.reasonOf p with
      | some c => s.resolveLevel n (c.foldl s.meet { d with current := d.current - 1 })
      | none => (-p :: d.lower, d)
    else s.resolveLevel n d

/-- resolving with the reason of the false literal `l` adds no literal. -/
def isRedundant (s : Search) (d : Draft) (l : Literal) : Bool :=
  match s.reasonOf l with
  | some c => c.all fun k => s.levelOf k = 0 || d.stamps.getD k.natAbs 0 = s.conflicts
  | none => false

/-- moves the literals of the highest level to the front. -/
def frontmost (s : Search) (c : Clause) : Clause :=
  let top := c.foldl (fun m l => max m (s.levelOf l)) 0
  c.filter (s.levelOf · = top) ++ c.filter (s.levelOf · != top)

/-- number of levels of a clause. -/
def spread (s : Search) (c : Clause) : Nat := (c.map s.levelOf).eraseDups.length

/-- goes back to the level where the clause forces its first literal, and makes it true there. -/
def assertLearned (s : Search) : Clause → Search
  | [] => s
  | l :: rest =>
    let rest := s.frontmost rest
    let spread := s.spread rest + 1
    let s := s.backtrack ((rest.head?.map s.levelOf).getD 0)
    let i := s.clauses.size
    ({ s.push (l :: rest) spread with learned := s.learned + 1 }).enqueue l (some i)

/-- learns from the clause `c`, which became false beyond level 0. -/
def learn (s : Search) (c : Clause) : Search :=
  let s := { s with conflicts := s.conflicts + 1 }
  let (stamps, s) := (s.stamps, { s with stamps := #[] })
  let (c, d) := s.resolveLevel s.trail.size (c.foldl s.meet ⟨stamps, 0, [], []⟩)
  let c := match c with
    | [] => []
    | l :: rest => l :: rest.filter fun k => !s.isRedundant d k
  let s := { s with stamps := d.stamps, ranking := (d.met.foldl Ranking.raise s.ranking).age }
  s.assertLearned c

/-! ## forgetting -/

/-- a clause without the literals that are false for good, unless one is true for good. -/
def simplified? (s : Search) (c : Clause) : Option Clause :=
  if c.any (s.valueOf · = 1) then none else some (c.filter (s.valueOf · = 0))

/-- a learned clause on fewer levels is always kept. -/
def keptSpread : Nat := 3

/-- forgets the half of the learned clauses that spreads over more levels, while no level is open and no literal waits
for its watchers. -/
def tidy (s : Search) : Search :=
  let spreads := (s.spreads.toList.filter (· != 0)).mergeSort
  let middle := spreads.getD (spreads.length / 2) 0
  let kept := (s.clauses.toList.zip s.spreads.toList).filter fun (_, n) => n < max middle keptSpread
  let kept := kept.filterMap fun (c, n) => (s.simplified? c).map (·, n)
  let learned := (kept.filter (·.2 != 0)).length
  let s := { s with
    clauses := #[], spreads := #[], watched := #[], learned := learned, bound := max s.bound learned + boundStep
    reasons := s.trail.foldl (fun rs l => rs.setIfInBounds l.natAbs none) s.reasons
    watchers := Array.replicate s.watchers.size #[] }
  kept.foldl (fun s (c, n) => s.push c n) s

end ReversibleLogic.Sat.Search
