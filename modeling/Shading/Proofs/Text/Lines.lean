import Shading.Proofs.Result
import Shading.Target.Language

/-!
# Lines of source text

What is said of a source is said of its lines.  A line that is written into code is a
line of the text, behind the blanks of its depth (`hasLine_of_mem`), and what a piece
of a source writes stays in the source (`Language.mem_collect`).
-/

namespace Shading

/-- Text at whose end a line can start. -/
def EndsLine (text : String) : Prop := text = "" ∨ ∃ before, text = before ++ "\n"

/-- A text has a line, at some depth of indentation. -/
def HasLine (text line : String) : Prop :=
  ∃ before depth after, EndsLine before ∧
    text = before ++ (indentation depth ++ line ++ "\n") ++ after

theorem EndsLine.append {a b : String} (ha : EndsLine a) (hb : EndsLine b) :
    EndsLine (a ++ b) := by
  rcases hb with rfl | ⟨before, rfl⟩
  · simpa using ha
  · exact .inr ⟨a ++ before, by rw [String.append_assoc]⟩

namespace Code

theorem endsLine_step (depth : Nat) (step : Step) : EndsLine (step.text depth) := by
  cases step with
  | line text =>
    simp only [Step.text]
    split
    · exact .inr ⟨"", rfl⟩
    · exact .inr ⟨_, rfl⟩
  | indent => exact .inl rfl
  | dedent => exact .inl rfl

/-- Code is written in whole lines. -/
theorem endsLine_text (start : Nat) (code : Code) : EndsLine (code.text start) := by
  induction code generalizing start with
  | nil => exact .inl rfl
  | cons step rest ih => exact (endsLine_step start step).append (ih _)

/-- A line that is written is a line of the text. -/
theorem hasLine_of_mem {code : Code} {line : String} (start : Nat) (h : .line line ∈ code)
    (hne : line ≠ "") : HasLine (code.text start) line := by
  obtain ⟨before, after, rfl⟩ := List.append_of_mem h
  refine ⟨text start before, depth start before, text (depth start before) after,
    endsLine_text start before, ?_⟩
  rw [Code.text_append]
  simp only [text, Step.text, Step.depth, if_neg hne, String.append_assoc]

end Code

namespace Language

/-- Pieces that are collected are written one by one. -/
theorem collect_eq_ok {α : Type} {write : α → Except Error Code} {pieces : List α} {code : Code} :
    collect write pieces = .ok code ↔
      ∃ codes, List.Forall₂ (fun a piece => write a = .ok piece) pieces codes ∧
        codes.flatten = code := by
  simp only [collect, bind_eq_ok, pure_eq_ok, mapM_eq_ok_iff]

/-- What one piece writes is in the code of all pieces. -/
theorem mem_collect {α : Type} {write : α → Except Error Code} {pieces : List α} {code : Code}
    (h : collect write pieces = .ok code) {a : α} (ha : a ∈ pieces) :
    ∃ piece, write a = .ok piece ∧ ∀ step ∈ piece, step ∈ code := by
  obtain ⟨codes, hcodes, rfl⟩ := collect_eq_ok.1 h
  obtain ⟨piece, hpiece, hwrite⟩ := forall₂_of_mem_left hcodes ha
  exact ⟨piece, hwrite, fun step hstep => List.mem_flatten.2 ⟨piece, hpiece, hstep⟩⟩

/-- A source is the text of code. -/
theorem generate_eq_ok {l : Language} {m : Model} {stage : Stage} {text : String} :
    l.generate m stage = .ok text ↔ ∃ code, l.code m stage = .ok code ∧ code.text 0 = text := by
  simp only [generate, bind_eq_ok, pure_eq_ok]

end Language

end Shading
