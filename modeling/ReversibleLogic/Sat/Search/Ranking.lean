import ReversibleLogic.Word

/-!
# Variables by score

A binary heap of variables: no variable has a larger score than the one above it.

* `Ranking.insert`, `Ranking.pop` — a variable comes in, one with the largest score goes out;
* `Ranking.raise` — a variable gets a larger score;
* `Ranking.age` — from now on a raise weighs more.
-/

namespace ReversibleLogic.Sat

structure Ranking where
  heap : Array Nat
  /-- by variable, its position in the heap. -/
  places : Array (Option Nat)
  /-- by variable. -/
  scores : Array Nat
  /-- what a raise adds. -/
  weight : Nat

namespace Ranking

/-- the first weight; each age adds a sixteenth part to the weight. -/
def firstWeight : Nat := 2 ^ 10

/-- from this weight on, weight and scores are scaled down. -/
def weightLimit : Nat := 2 ^ 54

def empty : Ranking := ⟨#[], #[none], #[0], firstWeight⟩

def score (r : Ranking) (v : Nat) : Nat := r.scores.getD v 0

def place? (r : Ranking) (v : Nat) : Option Nat := r.places.getD v none

/-- puts a variable at a position. -/
def put (r : Ranking) (i v : Nat) : Ranking :=
  { r with heap := r.heap.setIfInBounds i v, places := r.places.setIfInBounds v (some i) }

/-- moves up the variable `v` at position `i`, past variables with smaller scores. -/
def siftUp (v : Nat) : Nat → Nat → Ranking → Ranking
  | 0, i, r => r.put i v
  | fuel + 1, i, r =>
    if i = 0 then r.put i v
    else
      let above := (i - 1) / 2
      let u := r.heap.getD above 0
      if r.score u < r.score v then siftUp v fuel above (r.put i u) else r.put i v

/-- moves down the variable `v` at position `i`, past variables with larger scores. -/
def siftDown (v : Nat) : Nat → Nat → Ranking → Ranking
  | 0, i, r => r.put i v
  | fuel + 1, i, r =>
    let left := 2 * i + 1
    if r.heap.size ≤ left then r.put i v
    else
      let l := r.heap.getD left 0
      let k := r.heap.getD (left + 1) l
      let (below, u) := if r.score l < r.score k then (left + 1, k) else (left, l)
      if r.score v < r.score u then siftDown v fuel below (r.put i u) else r.put i v

/-- a variable comes in, if it is not there. -/
def insert (r : Ranking) (v : Nat) : Ranking :=
  if (r.place? v).isSome then r
  else
    let i := r.heap.size
    siftUp v i i { r with heap := r.heap.push v }

/-- a variable with the largest score goes out, if there is one. -/
def pop (r : Ranking) : Option Nat × Ranking :=
  match r.heap[0]?, r.heap.back? with
  | some top, some last =>
    let r := { r with heap := r.heap.pop, places := r.places.setIfInBounds top none }
    (some top, if r.heap.isEmpty then r else siftDown last r.heap.size 0 r)
  | _, _ => (none, r)

/-- the next variable comes in. -/
def grow (r : Ranking) : Ranking :=
  let v := r.scores.size
  { r with places := r.places.push none, scores := r.scores.push 0 }.insert v

/-- those of the variables `1, …, n` come in that never were there. -/
def reserve (r : Ranking) (n : Nat) : Ranking := (n + 1 - r.scores.size).repeat grow r

/-- a variable gets a larger score. -/
def raise (r : Ranking) (v : Nat) : Ranking :=
  let place := r.place? v
  let r := { r with scores := r.scores.modify v (· + r.weight) }
  match place with
  | some i => siftUp v i i r
  | none => r

/-- from now on a raise weighs more. -/
def age (r : Ranking) : Ranking :=
  if r.weight < weightLimit then { r with weight := r.weight + r.weight / 16 }
  else { r with weight := firstWeight, scores := r.scores.map (· / (r.weight / firstWeight)) }

end Ranking

end ReversibleLogic.Sat
