import ReversibleLogic.Gate.Checked

/-!
# Lookback

A new gate is folded into an earlier one of its side if it commutes with all gates between them. Gates of a side are
kept latest first.

* `commutes` — a sufficient condition for two gates to commute;
* `merge` — the single gate, or no gate, that two gates with the same action amount to;
* `place` — adds a gate to a side;
* `mergeFredkin` — three Toffoli gates that exchange two lines become one Fredkin gate.
-/

namespace ReversibleLogic.Transform

/-- the gate has a control on the line. -/
def reads (g : Gate) (line : Nat) : Bool := g.controls.any (·.line == line)

/-- the same kind of gate on the same targets. -/
def sameAction (g h : Gate) : Bool := g.isToffoli == h.isToffoli && g.targets == h.targets

/-- gates with opposite controls on a line are never active together. -/
def exclusive (g h : Gate) : Bool := g.controls.any fun c => h.controls.contains c.flip

/-- `g` before `h` is the same as `h` before `g`. -/
def commutes (g h : Gate) : Bool :=
  exclusive g h ||
    (!(g.targets.any (reads h) || h.targets.any (reads g)) &&
      (g.targets.all (!h.targets.contains ·) || sameAction g h))

/-- the controls of the words that satisfy exactly one of two lists of controls, if one list describes them. -/
def xorControls? (a b : List Control) : Option (List Control) :=
  match a.filter (!b.contains ·), b.filter (!a.contains ·) with
  | [c], [d] => if c.line = d.line then some (Gate.sortControls (a.filter (·.line != c.line))) else none
  | [c], [] => some (Gate.sortControls (b ++ [c.flip]))
  | [], [d] => some (Gate.sortControls (a ++ [d.flip]))
  | _, _ => none

/-- what two gates amount to. -/
inductive Merged where
  | cancelled
  | single (gate : Gate)
  deriving DecidableEq, Repr

/-- the result of `g` before `h`, if it takes at most one gate with the same action. -/
def merge (g h : Gate) : Option Merged :=
  if !sameAction g h then none
  else if g.controls = h.controls then some .cancelled
  else (xorControls? g.controls h.controls).map fun cs => .single (g.withControls cs)

/-- adds `gate` behind the gates `earlier`; `passed` are the gates it has moved over, earliest first. -/
def placeBehind (gate : Gate) (passed : List Gate) : List Gate → List Gate
  | [] => gate :: passed.reverse
  | g :: earlier =>
    match merge g gate with
    | some .cancelled => passed.reverse ++ earlier
    | some (.single merged) => passed.reverse ++ placeBehind merged [] earlier
    | none =>
      if commutes g gate then placeBehind gate (g :: passed) earlier
      else gate :: (passed.reverse ++ g :: earlier)

/-- adds a gate to a side, folded into an earlier gate where possible; a merged gate is placed again. -/
def place (gates : List Gate) (gate : Gate) : List Gate := placeBehind gate [] gates

/-- the controls without those on `line`, if `line` is controlled positively. -/
def withoutPositive? (cs : List Control) (line : Nat) : Option (List Control) :=
  if cs.contains ⟨line, true⟩ then some (cs.filter (·.line != line)) else none

/-- the Fredkin gate that the Toffoli gates `g`, `h`, `g` amount to, if there is one. -/
def fredkinOf? (g h : Gate) : Option Gate :=
  match g, h with
  | .toffoli cs a, .toffoli ds b => do
    let common ← withoutPositive? cs b
    let other ← withoutPositive? ds a
    if common = other then (Gate.fredkin? common a b).toOption else none
  | _, _ => none

/-- merges the three latest gates of a side into a Fredkin gate if possible. -/
def mergeFredkin (gates : List Gate) : List Gate :=
  match gates with
  | third :: second :: first :: earlier =>
    if first = third then
      match fredkinOf? first second with
      | some fredkin => fredkin :: earlier
      | none => gates
    else gates
  | _ => gates

end ReversibleLogic.Transform
