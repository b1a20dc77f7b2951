import Shading.Proofs.Target.Blocks
import Shading.Proofs.Text.Lines

/-!
# Margins

The parts of a source that stand around its functions are balanced, and so are the functions,
whose bodies are written in blocks.  So every source is written from the left margin on, comes
back to it, and no indentation is taken back at the margin, where that would have no effect
and leave an unbalanced part unnoticed (`Target.keepsBlocks`).
-/

namespace Shading

open Code (Balanced)

variable {c : Context} {f : Function} {code : Code}

/-! ## Pieces -/

theorem Code.Balanced.append_blank (h : Balanced code) : Balanced (code ++ Code.blank) :=
  h.append (balanced_line "")

/-- A block behind the line that heads it. -/
theorem Code.Balanced.headed (h : Balanced code) (head suffix : String) :
    Balanced (Code.line head ++ Code.block code suffix) :=
  (balanced_line head).append (h.block suffix)

/-- One line is balanced, whatever it is put together from. -/
theorem balanced_of_line {result : Except Error String} {text : String → String}
    (h : (do return Code.line (text (← result))) = .ok code) : Balanced code := by
  simp only [bind_eq_ok, pure_eq_ok] at h
  obtain ⟨_, -, rfl⟩ := h
  exact Code.balanced_line _

/-- Pieces that are balanced are balanced one behind the other. -/
theorem Language.balanced_collect {α : Type} {write : α → Except Error Code} {pieces : List α}
    (h : collect write pieces = .ok code) (hw : ∀ a piece, write a = .ok piece → Balanced piece) :
    Balanced code := by
  obtain ⟨codes, hcodes, rfl⟩ := collect_eq_ok.1 h
  refine Balanced.flatten fun piece hpiece => ?_
  obtain ⟨a, -, ha⟩ := forall₂_of_mem_right hcodes hpiece
  exact hw a piece ha

namespace Dialect

variable {d : Dialect}

theorem balanced_functionWith (hd : d.SpellsInline) {suffix : String}
    (h : d.functionWith c f suffix = .ok code) : Balanced code := by
  simp only [functionWith, bind_eq_ok, pure_eq_ok] at h
  obtain ⟨head, -, body, hbody, rfl⟩ := h
  exact (blocksOf_stmts hd hbody).balanced.headed _ _

theorem balanced_function (hd : d.SpellsInline) (h : d.function c f = .ok code) :
    Balanced code := by
  simp only [function, bind_eq_ok, pure_eq_ok] at h
  obtain ⟨code, hcode, rfl⟩ := h
  exact (balanced_functionWith hd hcode).append_blank

end Dialect

namespace Language

/-- The parts of a source are balanced. -/
structure PartsBalanced (l : Language) : Prop where
  header : ∀ c, Balanced (l.header c)
  struct : ∀ c d code, l.struct c d = .ok code → Balanced code
  arrangement : ∀ c f code, l.arrangement c f = .ok code → Balanced code

theorem PartsBalanced.balanced_code {l : Language} (hl : l.PartsBalanced) {m : Model}
    {stage : Stage} (h : l.code m stage = .ok code) : Balanced code := by
  rw [Language.code] at h
  split at h
  · cases h
  · simp only [bind_eq_ok, pure_eq_ok] at h
    obtain ⟨structs, hstructs, rest, hrest, rfl⟩ := h
    have hdefinitions := balanced_collect hstructs (hl.struct _)
    exact ((hl.header _).append hdefinitions).append (hl.arrangement _ _ _ hrest)

theorem balanced_inOrder {d : Dialect} (hd : d.SpellsInline)
    {resource : Context → Binding → Except Error Code}
    {entry : Context → Function → Except Error Code}
    (hresource : ∀ b code, resource c b = .ok code → Balanced code)
    (hentry : ∀ code, entry c f = .ok code → Balanced code)
    (h : inOrder d resource entry c f = .ok code) : Balanced code := by
  simp only [inOrder, bind_eq_ok, pure_eq_ok] at h
  obtain ⟨resources, hresources, helpers, hhelpers, last, hlast, rfl⟩ := h
  have hbefore := balanced_collect hresources hresource
  have hfunctions := balanced_collect hhelpers fun _ _ => Dialect.balanced_function hd
  exact (hbefore.append hfunctions).append (hentry last hlast)

end Language

/-! ## HLSL -/

namespace Hlsl

theorem balanced_struct {d : StructDef} (h : struct c d = .ok code) : Balanced code := by
  simp only [struct, bind_eq_ok, pure_eq_ok] at h
  obtain ⟨fields, hfields, rfl⟩ := h
  have hlines := Language.balanced_collect hfields fun _ _ => balanced_of_line
  exact (hlines.headed _ _).append_blank

theorem balanced_resource {b : Binding} (h : resource c b = .ok code) : Balanced code := by
  simp only [resource, bind_eq_ok] at h
  obtain ⟨ty, -, h⟩ := h
  split at h <;> cases h
  · exact ((Code.balanced_line _).headed _ _).append_blank
  · exact (Code.balanced_line _).append_blank

theorem balanced_groupLine (stage : Stage) (size : Option GroupSize) :
    Balanced (groupLine stage size) := by
  unfold groupLine
  split
  · exact Code.balanced_line _
  · exact Code.balanced_nil

theorem balanced_entry (h : entry c f = .ok code) : Balanced code := by
  simp only [entry, bind_eq_ok, pure_eq_ok] at h
  obtain ⟨function, hfunction, rfl⟩ := h
  exact (balanced_groupLine _ _).append (Dialect.balanced_functionWith spellsInline hfunction)

theorem partsBalanced : language.PartsBalanced where
  header _ := (Code.balanced_line _).append_blank
  struct _ _ _ := balanced_struct
  arrangement _ _ _ := Language.balanced_inOrder spellsInline (fun _ _ => balanced_resource)
    fun _ => balanced_entry

end Hlsl

/-! ## GLSL -/

namespace Glsl

variable {v : Version}

theorem balanced_header (v : Version) (c : Context) : Balanced (header v c) := by
  unfold header
  simp only
  refine Balanced.append_blank (.append (.flatMap fun _ => Code.balanced_line _) ?_)
  split
  · exact Code.balanced_line _
  · exact Code.balanced_nil

theorem balanced_struct {d : StructDef} (h : struct v d = .ok code) : Balanced code := by
  simp only [struct, bind_eq_ok, pure_eq_ok] at h
  obtain ⟨fields, hfields, rfl⟩ := h
  have hlines := Language.balanced_collect hfields fun _ _ => balanced_of_line
  exact (hlines.headed _ _).append_blank

theorem balanced_resource {b : Binding} (h : resource v c b = .ok code) : Balanced code := by
  simp only [resource] at h
  split at h
  · simp only [bind_eq_ok, pure_eq_ok] at h
    obtain ⟨declaration, -, rfl⟩ := h
    exact ((Code.balanced_line _).headed _ _).append_blank
  · split at h
    · simp only [bind_eq_ok, pure_eq_ok] at h
      obtain ⟨ty, -, rfl⟩ := h
      exact ((Code.balanced_line _).headed _ _).append_blank
    · cases h
  · split at h
    · cases h
      exact Code.balanced_nil
    · simp only [bind_eq_ok, pure_eq_ok] at h
      obtain ⟨ty, -, rfl⟩ := h
      exact (Code.balanced_line _).append_blank

theorem balanced_mainFunction {body : Code} (h : Balanced body) : Balanced (mainFunction body) :=
  h.headed _ _

theorem balanced_varyingLines {direction : String} {d : StructDef}
    (h : varyingLines v direction d = .ok code) : Balanced code :=
  Language.balanced_collect h fun _ _ => balanced_of_line

theorem balanced_attributeLines {d : StructDef} (h : attributeLines v d = .ok code) :
    Balanced code := Language.balanced_collect h fun _ _ => balanced_of_line

theorem balanced_targetLines {result : Ty} {output : Option StructDef}
    (h : targetLines v result output = .ok code) : Balanced code := by
  unfold targetLines at h
  split at h
  · exact Language.balanced_collect h fun _ _ => balanced_of_line
  · split at h <;> cases h
    · exact Code.balanced_nil
    · exact Code.balanced_line _

theorem balanced_attributeInputs (v : Version) (d : StructDef) :
    Balanced (attributeInputs v d) :=
  (Code.balanced_line _).append (.flatMap fun _ => Code.balanced_line _)

theorem balanced_vertexOutputs (v : Version) (output : Option StructDef) (call : String) :
    Balanced (vertexOutputs v output call) := by
  cases output with
  | none => exact Code.balanced_line _
  | some d =>
    have hcall : Balanced (outputVariable v d call) := Code.balanced_line _
    have hpositions : Balanced (d.positions.flatMap (outputLine v "gl_Position")) :=
      .flatMap fun _ => Code.balanced_line _
    exact (hcall.append hpositions).append (.flatMap fun _ => Code.balanced_line _)

theorem balanced_fixupLines (fixup : Fixup) : Balanced (fixupLines fixup) := by
  unfold fixupLines
  refine .append ?_ ?_ <;> split
  all_goals first
    | exact Code.balanced_line _
    | exact Code.balanced_nil

theorem balanced_vertexMain {fixup : Fixup} (h : vertexMain v fixup c f = .ok code) :
    Balanced code := by
  simp only [vertexMain, bind_eq_ok, pure_eq_ok] at h
  obtain ⟨input, -, output, -, attributes, hattributes, varyings, hvaryings, call, -, rfl⟩ := h
  have hinputs : Balanced (input.toList.flatMap (attributeInputs v)) :=
    .flatMap (balanced_attributeInputs v)
  have hbody := (hinputs.append (balanced_vertexOutputs v output call)).append
    (balanced_fixupLines fixup)
  have hbefore := (Language.balanced_collect hattributes fun _ _ => balanced_attributeLines).append
    (Language.balanced_collect hvaryings fun _ _ => balanced_varyingLines)
  exact hbefore.append_blank.append (balanced_mainFunction hbody)

theorem balanced_fragmentInputs (v : Version) (location : Nat) (fields : List Field) :
    Balanced (fragmentInputs v location fields) := by
  induction fields generalizing location with
  | nil => exact Code.balanced_nil
  | cons field rest ih =>
    rw [fragmentInputs]
    split <;> exact .append (Code.balanced_line _) (ih _)

theorem balanced_fragmentOutputs (v : Version) (result : Ty) (output : Option StructDef)
    (call : String) : Balanced (fragmentOutputs v result output call) := by
  unfold fragmentOutputs
  split
  · exact .append (Code.balanced_line _) (.flatMap fun _ => Code.balanced_line _)
  · split <;> exact Code.balanced_line _

theorem balanced_fragmentMain (h : fragmentMain v c f = .ok code) : Balanced code := by
  simp only [fragmentMain, bind_eq_ok, pure_eq_ok] at h
  obtain ⟨input, -, output, -, varyings, hvaryings, targets, htargets, call, -, rfl⟩ := h
  have hinputs : Balanced
      (input.toList.flatMap fun d => inputVariable v d ++ fragmentInputs v 0 d.fields) :=
    .flatMap fun d => .append (Code.balanced_line _) (balanced_fragmentInputs v 0 d.fields)
  have hbefore := (Language.balanced_collect hvaryings fun _ _ => balanced_varyingLines).append
    (balanced_targetLines htargets)
  exact hbefore.append_blank.append
    (balanced_mainFunction (hinputs.append (balanced_fragmentOutputs v _ output call)))

theorem balanced_entry (hd : (dialect v).SpellsInline) {fixup : Fixup}
    (h : entry v fixup c f = .ok code) : Balanced code := by
  simp only [entry, bind_eq_ok] at h
  obtain ⟨function, hfunction, h⟩ := h
  have hbefore := Dialect.balanced_function hd hfunction
  split at h
  · simp only [bind_eq_ok, pure_eq_ok] at h
    obtain ⟨main, hmain, rfl⟩ := h
    exact hbefore.append (balanced_vertexMain hmain)
  · simp only [bind_eq_ok, pure_eq_ok] at h
    obtain ⟨main, hmain, rfl⟩ := h
    exact hbefore.append (balanced_fragmentMain hmain)
  · simp only [computeMain, bind_eq_ok, pure_eq_ok] at h
    obtain ⟨_, ⟨call, -, rfl⟩, rfl⟩ := h
    exact hbefore.append (balanced_mainFunction (Code.balanced_line _))

theorem partsBalanced (hv : v ∈ versions) (fixup : Option Fixup) :
    (language v fixup).PartsBalanced where
  header := balanced_header v
  struct _ _ _ := balanced_struct
  arrangement _ _ _ := Language.balanced_inOrder (spellsInline hv) (fun _ _ => balanced_resource)
    fun _ => balanced_entry (spellsInline hv)

end Glsl

/-! ## Metal -/

namespace Metal

theorem balanced_header (c : Context) : Balanced (header c) := by
  have hlines : Balanced (Code.line "#include <metal_stdlib>" ++
      Code.line "using namespace metal;" ++ Code.blank) := rfl
  unfold header
  simp only
  refine hlines.append ?_
  split
  · split
    · exact (Code.balanced_line _).append_blank
    · exact Code.balanced_nil
  · exact Code.balanced_nil

theorem balanced_struct {d : StructDef} (h : struct c d = .ok code) : Balanced code := by
  simp only [struct, bind_eq_ok, pure_eq_ok] at h
  obtain ⟨fields, hfields, rfl⟩ := h
  have hlines := Language.balanced_collect hfields fun _ _ => balanced_of_line
  exact (hlines.headed _ _).append_blank

theorem balanced_resource {b : Binding} (h : resource c b = .ok code) : Balanced code :=
  balanced_of_line h

/-- The braces of the constructor stand on one line. -/
theorem balanced_containerConstructor {resources : List Binding}
    (h : containerConstructor resources = .ok code) : Balanced code := by
  rw [containerConstructor] at h
  split at h
  · cases h
    exact Code.balanced_nil
  · simp only [bind_eq_ok, pure_eq_ok] at h
    obtain ⟨params, -, rfl⟩ := h
    rfl

theorem balanced_entry (h : entry c f = .ok code) : Balanced code := by
  simp only [entry, bind_eq_ok, pure_eq_ok] at h
  obtain ⟨params, -, resourceParams, -, result, -, rfl⟩ := h
  exact (Code.balanced_line _).headed _ _

theorem balanced_arrangement (h : arrangement c f = .ok code) : Balanced code := by
  simp only [arrangement, bind_eq_ok, pure_eq_ok] at h
  obtain ⟨members, hmembers, setting, hsetting, functions, hfunctions, last, hlast, rfl⟩ := h
  have hmembers := Language.balanced_collect hmembers fun _ _ => balanced_resource
  have hfunctions := Language.balanced_collect hfunctions fun _ _ =>
    Dialect.balanced_function spellsInline
  have hinner := (hmembers.append (balanced_containerConstructor hsetting)).append_blank.append
    hfunctions
  exact (hinner.headed _ _).append_blank.append (balanced_entry hlast)

theorem partsBalanced : language.PartsBalanced where
  header := balanced_header
  struct _ _ _ := balanced_struct
  arrangement _ _ _ := balanced_arrangement

end Metal

/-! ## All targets -/

namespace Target

theorem partsBalanced (t : Target) (fixup : Option Fixup) :
    (t.language fixup).PartsBalanced := by
  cases t with
  | hlsl => exact Hlsl.partsBalanced
  | glsl330 => exact Glsl.partsBalanced (by simp [Glsl.versions]) fixup
  | glslEs300 => exact Glsl.partsBalanced (by simp [Glsl.versions]) fixup
  | glsl450 => exact Glsl.partsBalanced (by simp [Glsl.versions]) fixup
  | metal => exact Metal.partsBalanced

/-- A target keeps the blocks of what it writes in order. -/
structure KeepsBlocks (t : Target) (fixup : Option Fixup) : Prop where
  /-- Statements leave the indentation of every writer as they find it, and take back none but
  their own. -/
  stmts_depth : ∀ c body code, (t.language fixup).dialect.stmts c body = .ok code →
    ∀ w : Writer, w.KeepsDepth code
  /-- To every writer they append whole lines that are indented at least as deep as it is, with
  braces in pairs, if the names in them have neither braces nor ends of lines, as no identifier
  has (`Name.IsDotted.inline`). -/
  stmts_lines : ∀ c body code, (t.language fixup).dialect.stmts c body = .ok code →
    AllInline (Core.namesOf c.model body) → ∀ w : Writer, w.AddsLines code
  /-- A source is written from the margin on and ends there, and on the way no indentation is
  taken back at the margin. -/
  source : ∀ m stage text, (t.language fixup).generate m stage = .ok text →
    ∃ code, (t.language fixup).code m stage = .ok code ∧
      Writer.start.write code = ⟨text, 0⟩ ∧ Writer.start.KeepsDepth code

/-- Every target keeps the blocks of statements and of sources in order. -/
theorem keepsBlocks (t : Target) (fixup : Option Fixup) : t.KeepsBlocks fixup where
  stmts_depth _ _ _ hcode :=
    (Dialect.blocksOf_stmts (t.spellsInline fixup) hcode).balanced.keepsDepth
  stmts_lines _ _ _ hcode hnames :=
    ((Dialect.blocksOf_stmts (t.spellsInline fixup) hcode).inline hnames).addsLines
  source m stage text h := by
    obtain ⟨code, hcode, rfl⟩ := Language.generate_eq_ok.1 h
    have hkeeps := ((t.partsBalanced fixup).balanced_code hcode).keepsDepth Writer.start
    refine ⟨code, hcode, ?_, hkeeps⟩
    have hdepth := hkeeps.depth_eq
    rw [Writer.write_eq] at hdepth ⊢
    simp only [Writer.start, String.empty_append, Writer.mk.injEq, true_and] at hdepth ⊢
    exact hdepth

end Target

end Shading
