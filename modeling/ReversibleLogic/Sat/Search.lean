import ReversibleLogic.Sat.Search.Learning

/-!
# Conflict-driven search

The search extends a partial assignment by decisions and by the literals that they force, and learns a clause from
every conflict.

* `Search.run` — the search under assumptions, for a bounded number of rounds;
* `Verdict` — its result: a model, a clause that the assumptions contradict, or neither.

All clauses of a search but the attached ones are resolvents of earlier clauses. Nothing else matters for the truth of
a verdict, which is checked where the search is used.
-/

namespace ReversibleLogic.Sat

/-- results of a search. -/
inductive Verdict where
  | model (values : Array Int)
  | refuted (clause : Clause)
  | unknown

namespace Search

/-- the first variable of a ranking without a value, and the ranking without it and those before it. -/
def choose (s : Search) : Nat → Ranking → Option Nat × Ranking
  | 0, r => (none, r)
  | fuel + 1, r =>
    match r.pop with
    | (none, r) => (none, r)
    | (some v, r) => if s.values.getD v 1 = 0 then (some v, r) else s.choose fuel r

/-- decides a variable the way it was last set. -/
def decide (s : Search) (v : Nat) : Search :=
  let l : Literal := if s.phases.getD v false then v else -v
  s.openLevel.enqueue l none

/-- number of conflicts between two fresh starts. -/
def restartInterval : Nat := 256

/-- searches for a model over the variables `1, …, n` in which all assumptions hold. -/
def rounds (assumptions : Array Literal) (n : Nat) : Nat → Search → Search × Verdict
  | 0, s => (s, .unknown)
  | fuel + 1, s =>
    match s.propagate (n + 1) with
    | (s, some i) =>
      if s.level = 0 then (s, .refuted [])
      else
        let s := s.learn (s.clause i)
        rounds assumptions n fuel (if s.conflicts % restartInterval = 0 then s.backtrack 0 else s)
    | (s, none) =>
      if s.level = 0 && s.bound < s.learned then rounds assumptions n fuel s.tidy
      else
        match assumptions[s.level]? with
        | some a =>
          if s.valueOf a = 1 then rounds assumptions n fuel s.openLevel
          else if s.valueOf a = -1 then let c := s.explain a; (s, .refuted c)
          else rounds assumptions n fuel (s.openLevel.enqueue a none)
        | none =>
          let (ranking, s) := (s.ranking, { s with ranking := .empty })
          match s.choose (n + 1) ranking with
          | (some v, ranking) => rounds assumptions n fuel ({ s with ranking := ranking }.decide v)
          | (none, ranking) => let values := s.values; ({ s with ranking := ranking }, .model values)

/-- the number of rounds after which a search gives up. -/
def patience : Nat := 2 ^ 40

/-- a search from the literals that are true for good. -/
def run (s : Search) (assumptions : List Literal) (n : Nat) : Search × Verdict :=
  if s.refuted then (s, .refuted [])
  else
    match rounds assumptions.toArray n patience (s.reserve n) with
    | (s, .refuted []) => ({ s.backtrack 0 with refuted := true }, .refuted [])
    | (s, verdict) => (s.backtrack 0, verdict)

end Search

end ReversibleLogic.Sat
