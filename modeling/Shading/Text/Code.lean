/-!
# Source text

Source text is written as a list of steps: lines, and changes of the
indentation.  `Code.text` writes the steps from a given indentation.  A line is
indented by four blanks for each level, an empty line by none.  Writing less
indented than not at all has no effect, so `Code.Balanced` says that it is not
attempted and that the code ends at the indentation it starts at.
-/

namespace Shading

/-- One step of writing source text. -/
inductive Step where
  /-- A line of text. -/
  | line (text : String)
  /-- One level of indentation more. -/
  | indent
  /-- One level of indentation less. -/
  | dedent
deriving DecidableEq, Repr

/-- Source text by steps. -/
abbrev Code := List Step

/-- The blanks at the start of an indented line. -/
def indentation (depth : Nat) : String := String.ofList (List.replicate (4 * depth) ' ')

/-- What a step appends at a depth of indentation. -/
def Step.text (depth : Nat) : Step → String
  | .line text => if text = "" then "\n" else indentation depth ++ text ++ "\n"
  | .indent | .dedent => ""

/-- The depth of indentation behind a step. -/
def Step.depth (depth : Nat) : Step → Nat
  | .line _ => depth
  | .indent => depth + 1
  | .dedent => depth - 1

namespace Code

/-- One line. -/
def line (text : String) : Code := [.line text]

/-- An empty line. -/
def blank : Code := line ""

/-- An opening brace, and one level of indentation more. -/
def opening : Code := [.line "\x7b", .indent]

/-- One level of indentation less, and a closing brace with text behind it. -/
def closing (suffix : String) : Code := [.dedent, .line ("\x7d" ++ suffix)]

/-- Code in braces, with text behind the closing one. -/
def block (body : Code) (suffix : String) : Code := opening ++ body ++ closing suffix

/-- The depth of indentation behind code. -/
def depth (start : Nat) : Code → Nat
  | [] => start
  | step :: rest => depth (step.depth start) rest

/-- What code appends from a depth of indentation on. -/
def text (start : Nat) : Code → String
  | [] => ""
  | step :: rest => step.text start ++ text (step.depth start) rest

/-- The depth is never reduced below the start, and comes back to it. -/
def Balanced (code : Code) : Prop := depthsFrom 0 code
where
  /-- From some levels below the start on. -/
  depthsFrom : Nat → Code → Prop
    | level, [] => level = 0
    | level, .line _ :: rest => depthsFrom level rest
    | level, .indent :: rest => depthsFrom (level + 1) rest
    | 0, .dedent :: _ => False
    | level + 1, .dedent :: rest => depthsFrom level rest

@[simp] theorem depth_nil (start : Nat) : depth start [] = start := rfl

@[simp] theorem depth_append (start : Nat) (a b : Code) :
    depth start (a ++ b) = depth (depth start a) b := by
  induction a generalizing start with
  | nil => rfl
  | cons step rest ih => exact ih _

@[simp] theorem text_nil (start : Nat) : text start [] = "" := rfl

/-- Code is written one part after the other. -/
theorem text_append (start : Nat) (a b : Code) :
    text start (a ++ b) = text start a ++ text (depth start a) b := by
  induction a generalizing start with
  | nil => simp [depth, text]
  | cons step rest ih => simp [text, depth, ih, String.append_assoc]

/-- What is open before code that comes back to where it starts is open behind it. -/
theorem Balanced.depthsFrom_add {level k : Nat} {a b : Code} (ha : Balanced.depthsFrom level a)
    (hb : Balanced.depthsFrom k b) : Balanced.depthsFrom (level + k) (a ++ b) := by
  induction a generalizing level with
  | nil =>
    cases (show level = 0 from ha)
    rw [Nat.zero_add]
    exact hb
  | cons step rest ih =>
    cases step with
    | line _ => exact ih ha
    | indent =>
      show Balanced.depthsFrom (level + k + 1) (rest ++ b)
      rw [Nat.add_right_comm]
      exact @ih (level + 1) ha
    | dedent =>
      cases level with
      | zero => exact ha.elim
      | succ level =>
        rw [Nat.add_right_comm]
        exact @ih level ha

/-- Balanced code follows balanced code. -/
theorem Balanced.append {a b : Code} (ha : Balanced a) (hb : Balanced b) : Balanced (a ++ b) :=
  depthsFrom_add ha hb

theorem balanced_nil : Balanced [] := rfl

theorem balanced_line (text : String) : Balanced (line text) := rfl

end Code

end Shading
