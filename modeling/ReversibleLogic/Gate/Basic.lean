import ReversibleLogic.Word

/-!
# Reversible gates

A gate acts on pattern words: a Toffoli gate flips its target, a Fredkin gate exchanges its two targets, both only
when every control has its polarity.

* `Control` — a controlling line with its polarity;
* `Gate` — the two kinds of gates;
* `Gate.apply` — the action on a word;
* `Gate.render` — the printed form, `toffoli(+0 -2 -> 1)`.
-/

namespace ReversibleLogic

/-- a control line; `positive` controls ask for a set bit, the others for a clear one. -/
structure Control where
  line : Nat
  positive : Bool
  deriving DecidableEq, Repr, Inhabited

namespace Control

/-- the control on the same line with the other polarity. -/
def flip (c : Control) : Control := ⟨c.line, !c.positive⟩

/-- the word has the polarity asked for. -/
def isSatisfied (c : Control) (w : Nat) : Bool := w.testBit c.line == c.positive

@[simp] theorem flip_flip (c : Control) : c.flip.flip = c := by simp [flip]

theorem isSatisfied_flip (c : Control) (w : Nat) : c.flip.isSatisfied w = !c.isSatisfied w := by
  cases h : w.testBit c.line <;> cases hp : c.positive <;> simp [isSatisfied, flip, h, hp]

/-- order by line, negative before positive. -/
def le (c d : Control) : Bool := c.line < d.line || (c.line == d.line && (!c.positive || d.positive))

def render (c : Control) : String := (if c.positive then "+" else "-") ++ toString c.line

end Control

/-- a gate of a cascade, with any controls and targets. -/
inductive Gate where
  | toffoli (controls : List Control) (target : Nat)
  | fredkin (controls : List Control) (first second : Nat)
  deriving DecidableEq, Repr, Inhabited

namespace Gate

def controls : Gate → List Control
  | toffoli cs _ => cs
  | fredkin cs _ _ => cs

def targets : Gate → List Nat
  | toffoli _ t => [t]
  | fredkin _ a b => [a, b]

def isToffoli : Gate → Bool
  | toffoli _ _ => true
  | fredkin _ _ _ => false

def isFredkin (g : Gate) : Bool := !g.isToffoli

/-- the same kind of gate on the same targets under other controls. -/
def withControls (g : Gate) (cs : List Control) : Gate :=
  match g with
  | toffoli _ t => toffoli cs t
  | fredkin _ a b => fredkin cs a b

/-- the largest line that the gate touches. -/
def maxLine (g : Gate) : Nat := (g.controls.map Control.line ++ g.targets).foldl max 0

/-- the lines of the positive controls as a word. -/
def positiveMask (g : Gate) : Nat :=
  g.controls.foldl (fun mask c => if c.positive then mask ||| (1 <<< c.line) else mask) 0

/-- every control is satisfied. -/
def isActive (g : Gate) (w : Nat) : Bool := g.controls.all (·.isSatisfied w)

/-- the action of an active gate. -/
def act (g : Gate) (w : Nat) : Nat :=
  match g with
  | toffoli _ t => Word.flip w t
  | fredkin _ a b => if w.testBit a == w.testBit b then w else Word.flip (Word.flip w a) b

/-- the gate as a function on words. -/
def apply (g : Gate) (w : Nat) : Nat := if g.isActive w then g.act w else w

/-- a gate leaves all lines but its targets alone. -/
theorem testBit_apply {g : Gate} {i : Nat} (h : i ∉ g.targets) (w : Nat) :
    (g.apply w).testBit i = w.testBit i := by
  unfold apply
  split
  · cases g with
    | toffoli cs t =>
      have ht : t ≠ i := by rintro rfl; simp [targets] at h
      simp [act, ht]
    | fredkin cs a b =>
      have ha : a ≠ i := by rintro rfl; simp [targets] at h
      have hb : b ≠ i := by rintro rfl; simp [targets] at h
      simp only [act]
      split <;> simp [ha, hb]
  · rfl

/-- a gate whose controls lie off its targets is active after it exactly if it was active before. -/
theorem isActive_apply {g : Gate} (h : ∀ c ∈ g.controls, c.line ∉ g.targets) (w : Nat) :
    g.isActive (g.apply w) = g.isActive w := by
  rw [Bool.eq_iff_iff]
  simp only [isActive, List.all_eq_true, Control.isSatisfied]
  exact forall_congr' fun c => forall_congr' fun hc => by rw [testBit_apply (h c hc)]

def render (g : Gate) : String :=
  let kind := if g.isToffoli then "toffoli(" else "fredkin("
  let controls := String.join (g.controls.map (·.render ++ " "))
  let targets := String.join (g.targets.map (" " ++ toString ·))
  kind ++ controls ++ "->" ++ targets ++ ")"

end Gate

end ReversibleLogic
