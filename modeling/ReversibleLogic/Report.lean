import ReversibleLogic.Text.Decimal

/-!
# Reports

The one-line reports of an embedding, of a transformation and of an exact search. Times are given in nanoseconds.
-/

namespace ReversibleLogic.Report

open Text (seconds)

def embedding (runtime : Nat) : String := s!"runtime: {seconds runtime}"

/-- the rows that needed gates and the time in the solver are left out if they were not measured. -/
def transformation (runtime gates : Nat) (rows solving : Option Nat) : String :=
  let rowText := match rows with
    | some n => s!", assignments: {n}"
    | none => ""
  let solverText := match solving with
    | some t => s!", solving: {seconds t}"
    | none => ""
  s!"gates: {gates}, runtime: {seconds runtime}" ++ rowText ++ solverText

def exact (runtime depth nodes : Nat) : String := s!"depth: {depth}, nodes: {nodes}, runtime: {seconds runtime}"

end ReversibleLogic.Report
