import Shading.Proofs.Text.Numerals
import Shading.Text.Code

/-!
# Writers

A writer holds the text that is written so far and a depth of indentation, and code is
written into it step by step (`Writer.write`).  What it appends is the text of the code from
the writer's depth on (`Writer.write_eq`).

Balanced code takes back the indentation that it adds, and none that it finds
(`Code.Balanced.keepsDepth`).  Code in *blocks* is made of lines and of blocks in braces
(`Code.Blocks`).  It is balanced, and if its lines have neither braces nor ends of lines of
their own, it is written in whole lines, none of them less indented than the writer is, and
with its braces in pairs (`Code.Blocks.addsLines`).
-/

namespace Shading

/-! ## Text that stays inside of a line -/

/-- A character that is no brace and does not end the line. -/
def isInline (c : Char) : Bool := c ≠ '\n' && c ≠ '\x7b' && c ≠ '\x7d'

/-- Text without braces that stays inside of its line. -/
def Inline (text : String) : Prop := ∀ c ∈ text.toList, isInline c = true

/-- Texts, such as the names in a piece of code, that stay inside of a line. -/
abbrev AllInline (texts : List String) : Prop := ∀ text ∈ texts, Inline text

instance (text : String) : Decidable (Inline text) :=
  inferInstanceAs (Decidable (∀ c ∈ text.toList, _))

@[simp] theorem inline_empty : Inline "" := List.forall_mem_nil _

@[simp] theorem inline_append {a b : String} : Inline (a ++ b) ↔ Inline a ∧ Inline b := by
  simp only [Inline, String.toList_append, List.forall_mem_append]

theorem isInline_iff {c : Char} : isInline c = true ↔ c ≠ '\n' ∧ c ≠ '\x7b' ∧ c ≠ '\x7d' := by
  simp [isInline, and_assoc]

/-- The characters of names stay inside of a line. -/
theorem isInline_of_isNameChar {c : Char} (h : Name.isNameChar c = true) : isInline c = true := by
  rw [isInline_iff]
  refine ⟨?_, ?_, ?_⟩ <;> rintro rfl <;> cases h

/-! ## Braces -/

/-- Every brace is in a pair, and pairs stand behind each other or inside each other. -/
inductive NestsBraces : List Char → Prop where
  | nil : NestsBraces []
  | char {c : Char} {rest : List Char} : c ≠ '\x7b' → c ≠ '\x7d' → NestsBraces rest →
      NestsBraces (c :: rest)
  | pair {inner rest : List Char} : NestsBraces inner → NestsBraces rest →
      NestsBraces ('\x7b' :: (inner ++ '\x7d' :: rest))

namespace NestsBraces

variable {a b : List Char}

theorem append (ha : NestsBraces a) (hb : NestsBraces b) : NestsBraces (a ++ b) := by
  induction ha with
  | nil => exact hb
  | char hopen hclose _ ih => exact .char hopen hclose ih
  | pair hinner _ _ ih =>
    rw [List.cons_append, List.append_assoc]
    exact .pair hinner ih

theorem of_forall (h : ∀ c ∈ a, c ≠ '\x7b' ∧ c ≠ '\x7d') : NestsBraces a := by
  induction a with
  | nil => exact .nil
  | cons c rest ih =>
    obtain ⟨hc, hrest⟩ := List.forall_mem_cons.1 h
    exact .char hc.1 hc.2 (ih hrest)

theorem of_inline {text : String} (h : Inline text) : NestsBraces text.toList :=
  of_forall fun c hc => (isInline_iff.1 (h c hc)).2

/-- The end of a line is no brace. -/
theorem newline : NestsBraces "\n".toList := of_forall (by decide)

end NestsBraces

/-! ## Lines -/

/-- Lines, each with its end. -/
def unlines : List String → String
  | [] => ""
  | line :: rest => line ++ "\n" ++ unlines rest

theorem unlines_append (a b : List String) : unlines (a ++ b) = unlines a ++ unlines b := by
  induction a with
  | nil => exact String.empty_append.symm
  | cons line rest ih => simp only [List.cons_append, unlines, ih, String.append_assoc]

/-- A line that is not empty and no less indented than some depth asks for. -/
def IsIndented (depth : Nat) (line : String) : Prop :=
  ∃ deeper content, line = indentation (depth + deeper) ++ content ∧ content ≠ "" ∧
    '\n' ∉ content.toList

theorem IsIndented.of_succ {depth : Nat} {line : String} (h : IsIndented (depth + 1) line) :
    IsIndented depth line := by
  obtain ⟨deeper, content, rfl, hne, hend⟩ := h
  exact ⟨deeper + 1, content, by rw [Nat.add_assoc, Nat.add_comm 1], hne, hend⟩

/-- A line that is written at a depth is indented by it. -/
theorem isIndented_line (depth : Nat) {content : String} (hne : content ≠ "")
    (hend : '\n' ∉ content.toList) : IsIndented depth (indentation depth ++ content) :=
  ⟨0, content, rfl, hne, hend⟩

theorem inline_indentation (depth : Nat) : Inline (indentation depth) := by
  intro c hc
  rw [indentation, String.toList_ofList] at hc
  rw [List.eq_of_mem_replicate hc]
  rfl

/-! ## Writers -/

/-- The text that is written so far, and the depth of indentation that it goes on at. -/
structure Writer where
  text : String
  depth : Nat
deriving DecidableEq, Repr

namespace Writer

/-- Nothing is written. -/
def start : Writer := ⟨"", 0⟩

/-- One step is written. -/
def step (w : Writer) : Step → Writer
  | .line text =>
    let indented := if text = "" then "" else indentation w.depth ++ text
    { w with text := w.text ++ indented ++ "\n" }
  | .indent => { w with depth := w.depth + 1 }
  | .dedent => { w with depth := w.depth - 1 }

/-- Code is written. -/
def write (w : Writer) (code : Code) : Writer := code.foldl step w

theorem step_eq (w : Writer) (s : Step) :
    w.step s = ⟨w.text ++ s.text w.depth, s.depth w.depth⟩ := by
  cases s with
  | line text =>
    simp only [step, Step.text, Step.depth]
    split
    · rw [String.append_empty]
    · simp only [String.append_assoc]
  | indent => simp [step, Step.text, Step.depth]
  | dedent => simp [step, Step.text, Step.depth]

/-- Writing code appends its text, from the writer's depth on. -/
theorem write_eq (w : Writer) (code : Code) :
    w.write code = ⟨w.text ++ code.text w.depth, code.depth w.depth⟩ := by
  induction code generalizing w with
  | nil => simp [write]
  | cons s rest ih =>
    show (w.step s).write rest = _
    rw [ih, step_eq, Code.text, Code.depth, String.append_assoc]

/-- A block is indented, and what stands behind its brace ends the line. -/
example : Writer.start.write (Code.line "void main()" ++ Code.block (Code.line "return;") ";") =
    ⟨"void main()\n\x7b\n    return;\n\x7d;\n", 0⟩ := by decide

/-- Code leaves a writer at the depth it finds.  On the way it takes back no indentation but
its own. -/
structure KeepsDepth (w : Writer) (code : Code) : Prop where
  depth_eq : (w.write code).depth = w.depth
  lt_depth : ∀ before after, code = before ++ .dedent :: after → w.depth < (w.write before).depth

/-- Code appends whole lines to a writer, none of them less indented than the writer is, and
opens and closes braces in pairs. -/
def AddsLines (w : Writer) (code : Code) : Prop :=
  ∃ lines, (w.write code).text = w.text ++ unlines lines ∧
    (∀ line ∈ lines, IsIndented w.depth line) ∧ NestsBraces (unlines lines).toList

end Writer

/-! ## Balanced code -/

namespace Code

variable {a b body code : Code} {level start : Nat}

namespace Balanced

theorem block (h : Balanced body) (suffix : String) : Balanced (block body suffix) := by
  have hclosing : depthsFrom 1 (closing suffix) := rfl
  have hbody : depthsFrom 1 (body ++ closing suffix) := by
    have hadd := depthsFrom_add h hclosing
    rwa [Nat.zero_add] at hadd
  show depthsFrom 0 (.line "\x7b" :: .indent :: (body ++ closing suffix))
  exact hbody

theorem flatten {codes : List Code} (h : ∀ piece ∈ codes, Balanced piece) :
    Balanced codes.flatten := by
  induction codes with
  | nil => exact balanced_nil
  | cons piece rest ih =>
    obtain ⟨hpiece, hrest⟩ := List.forall_mem_cons.1 h
    exact hpiece.append (ih hrest)

theorem flatMap {α : Type} {pieces : List α} {write : α → Code} (h : ∀ a, Balanced (write a)) :
    Balanced (pieces.flatMap write) := by
  rw [List.flatMap_def]
  exact flatten (List.forall_mem_map.2 fun a _ => h a)

theorem depth_of_depthsFrom (h : depthsFrom level code) : depth (start + level) code = start := by
  induction code generalizing level with
  | nil =>
    cases (show level = 0 from h)
    rfl
  | cons step rest ih =>
    cases step with
    | line text => exact ih h
    | indent => exact @ih (level + 1) h
    | dedent =>
      cases level with
      | zero => exact h.elim
      | succ level => exact @ih level h

theorem lt_depth_of_depthsFrom {before after : Code}
    (h : depthsFrom level (before ++ .dedent :: after)) : start < depth (start + level) before := by
  induction before generalizing level with
  | nil =>
    cases level with
    | zero => exact h.elim
    | succ level => exact Nat.lt_add_of_pos_right level.succ_pos
  | cons step rest ih =>
    cases step with
    | line text => exact ih h
    | indent => exact @ih (level + 1) h
    | dedent =>
      cases level with
      | zero => exact h.elim
      | succ level => exact @ih level h

theorem depth_eq (h : Balanced code) (start : Nat) : depth start code = start :=
  depth_of_depthsFrom h

/-- Balanced code keeps the depth of every writer. -/
theorem keepsDepth (h : Balanced code) (w : Writer) : w.KeepsDepth code where
  depth_eq := by
    rw [Writer.write_eq]
    exact h.depth_eq w.depth
  lt_depth := by
    rintro before after rfl
    rw [Writer.write_eq]
    exact lt_depth_of_depthsFrom h

end Balanced

/-! ## Code in blocks -/

/-- Code made of lines and of blocks in braces.  The lines are of a kind, and so is what stands
behind the braces. -/
inductive Blocks (Line Suffix : String → Prop) : Code → Prop where
  | nil : Blocks Line Suffix []
  | line {text : String} {rest : Code} : Line text → Blocks Line Suffix rest →
      Blocks Line Suffix (.line text :: rest)
  | block {suffix : String} {body rest : Code} : Suffix suffix → Blocks Line Suffix body →
      Blocks Line Suffix rest → Blocks Line Suffix (Code.block body suffix ++ rest)

namespace Blocks

variable {Line Suffix : String → Prop}

theorem single {text : String} (h : Line text) : Blocks Line Suffix (Code.line text) :=
  .line h .nil

theorem braced {suffix : String} (hsuffix : Suffix suffix) (h : Blocks Line Suffix body) :
    Blocks Line Suffix (Code.block body suffix) := by
  rw [← List.append_nil (Code.block body suffix)]
  exact .block hsuffix h .nil

theorem append (ha : Blocks Line Suffix a) (hb : Blocks Line Suffix b) :
    Blocks Line Suffix (a ++ b) := by
  induction ha with
  | nil => exact hb
  | line htext _ ih => exact .line htext ih
  | block hsuffix hbody _ _ ih =>
    rw [List.append_assoc]
    exact .block hsuffix hbody ih

theorem mono {Line' Suffix' : String → Prop} (h : Blocks Line Suffix code)
    (hline : ∀ text, Line text → Line' text) (hsuffix : ∀ text, Suffix text → Suffix' text) :
    Blocks Line' Suffix' code := by
  induction h with
  | nil => exact .nil
  | line htext _ ih => exact .line (hline _ htext) ih
  | block htext _ _ ihbody ihrest => exact .block (hsuffix _ htext) ihbody ihrest

/-- Code in blocks is balanced, whatever its lines are. -/
theorem balanced (h : Blocks Line Suffix code) : Balanced code := by
  induction h with
  | nil => exact balanced_nil
  | @line text rest _ _ ih => exact (balanced_line text).append ih
  | @block suffix body rest _ _ _ ihbody ihrest => exact (ihbody.block suffix).append ihrest

/-- A block is written around its body, which is one level deeper. -/
theorem text_block (h : Balanced body) (suffix : String) (start : Nat) (rest : Code) :
    text start (Code.block body suffix ++ rest) =
      indentation start ++ "\x7b" ++ "\n" ++ text (start + 1) body ++
        (indentation start ++ ("\x7d" ++ suffix) ++ "\n") ++ text start rest := by
  have hclose : "\x7d" ++ suffix ≠ "" := by simp
  rw [Code.block, text_append, text_append, text_append]
  simp only [opening, closing, text, depth, depth_append, Step.text, Step.depth, h.depth_eq,
    if_neg hclose, Nat.add_sub_cancel, String.append_empty]
  rfl

/-- Code in blocks is written in lines, none of them less indented than the start. -/
theorem exists_lines (h : Blocks (fun text => text ≠ "" ∧ Inline text) Inline code) (start : Nat) :
    ∃ lines, code.text start = unlines lines ∧ (∀ line ∈ lines, IsIndented start line) ∧
      NestsBraces (unlines lines).toList := by
  have hend : ∀ {text : String}, Inline text → '\n' ∉ text.toList := fun htext hmem => by
    cases htext _ hmem
  induction h generalizing start with
  | nil => exact ⟨[], rfl, nofun, .nil⟩
  | @line text rest htext _ ih =>
    obtain ⟨lines, hlines, hindented, hbraces⟩ := ih start
    refine ⟨(indentation start ++ text) :: lines, ?_, ?_, ?_⟩
    · rw [Code.text, Step.text, if_neg htext.1, Step.depth, hlines]
      rfl
    · exact List.forall_mem_cons.2 ⟨isIndented_line start htext.1 (hend htext.2), hindented⟩
    · rw [unlines, String.toList_append, String.toList_append]
      have hline := NestsBraces.of_inline (inline_append.2 ⟨inline_indentation start, htext.2⟩)
      exact (hline.append .newline).append hbraces
  | @block suffix body rest hsuffix hbody _ ihbody ihrest =>
    obtain ⟨inner, hinner, hdeeper, hnested⟩ := ihbody (start + 1)
    obtain ⟨lines, hlines, hindented, hbraces⟩ := ihrest start
    refine ⟨(indentation start ++ "\x7b") :: (inner ++ (indentation start ++ ("\x7d" ++ suffix)) ::
      lines), ?_, ?_, ?_⟩
    · rw [text_block hbody.balanced, hinner, hlines]
      simp only [unlines, unlines_append, String.append_assoc]
    · refine List.forall_mem_cons.2 ⟨?_, List.forall_mem_append.2 ⟨?_, ?_⟩⟩
      · exact isIndented_line start (by decide) (by decide)
      · exact fun line hline => (hdeeper line hline).of_succ
      · refine List.forall_mem_cons.2 ⟨isIndented_line start (by simp) ?_, hindented⟩
        rw [String.toList_append, List.mem_append]
        exact fun hmem => hmem.elim (by decide) (hend hsuffix)
    · -- The pair is that of the block, around the lines of its body.
      have hblanks := NestsBraces.of_inline (inline_indentation start)
      have hin := NestsBraces.newline.append (hnested.append hblanks)
      have hbehind := (NestsBraces.of_inline hsuffix).append (NestsBraces.newline.append hbraces)
      have hpair := hblanks.append (hin.pair hbehind)
      simpa [unlines, unlines_append, String.toList_append] using hpair

theorem addsLines (h : Blocks (fun text => text ≠ "" ∧ Inline text) Inline code) (w : Writer) :
    w.AddsLines code := by
  obtain ⟨lines, hlines, hindented, hbraces⟩ := h.exists_lines w.depth
  exact ⟨lines, by rw [Writer.write_eq, hlines], hindented, hbraces⟩

end Blocks

end Code

end Shading
