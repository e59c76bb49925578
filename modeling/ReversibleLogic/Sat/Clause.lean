/-!
# Clauses

A literal is a non-zero integer: variable `v`, or its complement `-v`. A clause is a list of literals, a formula a list
of clauses.

* `Literal.holds`, `Clause.holds`, `Formula.holds` — truth under an assignment of the variables;
* `Clause.resolvent` — the clause that follows from two clauses by resolution.
-/

namespace ReversibleLogic.Sat

/-- values of the variables. -/
abbrev Assignment := Nat → Bool

abbrev Literal := Int

abbrev Clause := List Literal

abbrev Formula := List Clause

def Literal.holds (a : Assignment) (l : Literal) : Bool := if l < 0 then !a l.natAbs else a l.natAbs

theorem Literal.holds_natCast (a : Assignment) (v : Nat) : Literal.holds a (v : Literal) = a v := by
  rw [holds, if_neg (Int.not_lt.2 (Int.natCast_nonneg v)), Int.natAbs_natCast]

theorem Literal.holds_neg (a : Assignment) {l : Literal} (h : l ≠ 0) :
    Literal.holds a (-l) = !Literal.holds a l := by
  rcases Int.lt_or_gt_of_ne h with hl | hl
  · simp [holds, hl, Int.le_of_lt hl]
  · simp [holds, hl, Int.le_of_lt hl]

def Clause.holds (a : Assignment) (c : Clause) : Bool := c.any (Literal.holds a)

def Formula.holds (a : Assignment) (f : Formula) : Bool := f.all (Clause.holds a)

/-- all literals hold. -/
def allHold (a : Assignment) (ls : List Literal) : Bool := ls.all (Literal.holds a)

/-- what follows from `c`, which holds `l`, and `d`, which holds `-l`. -/
def Clause.resolvent (c d : Clause) (l : Literal) : Clause :=
  let kept := c.filter (· != l)
  kept ++ d.filter fun k => k != -l && !kept.contains k

/-- a clause without repeated literals. -/
def Clause.distinct (c : Clause) : Clause := c.foldr (fun l c => if c.contains l then c else l :: c) []

/-- a clause that holds everywhere. -/
def Clause.isTautology (c : Clause) : Bool := c.any fun l => c.contains (-l)

/-- the largest variable of a list of literals. -/
def largestVariable (ls : List Literal) : Nat := ls.foldl (fun m l => max m l.natAbs) 0

end ReversibleLogic.Sat
