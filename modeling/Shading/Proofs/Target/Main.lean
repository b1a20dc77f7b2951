import Shading.Proofs.Target.Input

/-!
# What stands around an entry point

In GLSL a stage reads and writes variables of the source.  `main` puts the input of the
entry point together from them, calls it, and takes its result apart into them.

What is written is read as a list of declarations (`StageVariable`) and a list of lines of
`main` (`Transfer`).  So lines are told apart by what they are for, where the names of a
program make their texts alike.  The loops that write them are lists here
(`ports`, `transfers`), one for each stage.
-/

namespace Shading

namespace Language

variable {α β : Type} {write : β → Except Error Code}

theorem collect_append {a b : List β} {x y : Code} (ha : collect write a = .ok x)
    (hb : collect write b = .ok y) : collect write (a ++ b) = .ok (x ++ y) := by
  obtain ⟨as, has, rfl⟩ := collect_eq_ok.1 ha
  obtain ⟨bs, hbs, rfl⟩ := collect_eq_ok.1 hb
  exact collect_eq_ok.2 ⟨as ++ bs, List.rel_append has hbs, List.flatten_append⟩

/-- What is collected of at most one list. -/
theorem collect_flatMap_toList {pieces : α → List β} {option : Option α} {code : Code}
    {write' : α → Except Error Code} (h : collect write' option.toList = .ok code)
    (hw : ∀ a piece, write' a = .ok piece → collect write (pieces a) = .ok piece) :
    collect write (option.toList.flatMap pieces) = .ok code := by
  obtain ⟨codes, hcodes, rfl⟩ := collect_eq_ok.1 h
  cases option with
  | none =>
    cases hcodes
    rfl
  | some a =>
    rcases hcodes with _ | ⟨hpiece, ⟨⟩⟩
    simpa using hw a _ hpiece

end Language

namespace Glsl

/-! ## Declarations and transfers -/

/-- The declaration of a variable of a stage. -/
inductive StageVariable where
  /-- The vertex attribute at a location, for a field of the input. -/
  | attribute (location : Nat) (field : Field)
  /-- The varying at a location, read (`in`) or written (`out`). -/
  | varying (direction : String) (location : Nat) (field : Field)
  /-- A render target, for a field of the result. -/
  | target (index : UInt32) (field : Field)
  /-- The render target for a result that is a color. -/
  | color
deriving DecidableEq

/-- A line of `main`. -/
inductive Transfer where
  /-- The input of the entry point is declared. -/
  | input (d : StructDef)
  /-- A field of the input is set. -/
  | fill (field : Field) (value : String)
  /-- The entry point is called for a struct. -/
  | result (d : StructDef)
  /-- A variable is set to what the entry point returns. -/
  | store (name : String)
  /-- The entry point is called for nothing. -/
  | run
  /-- A variable is set to a field of the result. -/
  | write (name : String) (field : Field)
  /-- The depth of the position is mapped to another range. -/
  | remapDepth
  /-- The position is turned upside down. -/
  | flipY
deriving DecidableEq

namespace StageVariable

def code (v : Version) : StageVariable → Except Error Code
  | .attribute location field => attributeLine v location field
  | .varying direction location field => varyingLine v direction location field
  | .target index field => targetLine v field index
  | .color => .ok (Code.line ("layout(location = 0) out vec4 " ++ targetName 0 ++ ";"))

/-- Whether a variable is read or written, and its name. -/
def declared : StageVariable → String × String
  | .attribute _ field => ("in", correctedName reserved field.name)
  | .varying direction location _ => (direction, varyingName location)
  | .target index _ => ("out", targetName index)
  | .color => ("out", targetName 0)

/-- The field that vertices are read for. -/
def attribute? : StageVariable → Option Field
  | .attribute _ field => some field
  | _ => none

end StageVariable

namespace Transfer

/-- A line of `main`, with the call of the entry point. -/
def code (v : Version) (call : String) : Transfer → Code
  | .input d => inputVariable v d
  | .fill field value => inputLine v field value
  | .result d => outputVariable v d call
  | .store name => Code.line (name ++ " = " ++ call ++ ";")
  | .run => Code.line (call ++ ";")
  | .write name field => outputLine v name field
  | .remapDepth => Code.line "gl_Position.z = gl_Position.z * 2.0 - gl_Position.w;"
  | .flipY => Code.line "gl_Position.y = -gl_Position.y;"

/-- What a line assigns to. -/
def assigned? : Transfer → Option String
  | .input _ | .run => none
  | .fill field _ => some ("_stage_input." ++ correctedName reserved field.name)
  | .result _ => some "_stage_output"
  | .store name | .write name _ => some name
  | .remapDepth => some "gl_Position.z"
  | .flipY => some "gl_Position.y"

/-- The field of the input that a line sets. -/
def filled? : Transfer → Option Field
  | .fill field _ => some field
  | _ => none

/-- The field of the result that a line takes. -/
def taken? : Transfer → Option Field
  | .write _ field => some field
  | _ => none

/-- Whether a line calls the entry point. -/
def calls : Transfer → Bool
  | .result _ | .store _ | .run => true
  | _ => false

/-- Whether a line moves the position. -/
def isFixup : Transfer → Bool
  | .remapDepth | .flipY => true
  | _ => false

end Transfer

end Glsl

/-! ## The lines of each loop -/

/-- The struct that a stage reads. -/
def Model.input? (m : Model) (f : Function) : Option StructDef := f.inputStruct?.bind m.struct?

/-- The struct that a stage returns. -/
def Model.output? (m : Model) (f : Function) : Option StructDef :=
  f.result.structName?.bind m.struct?

namespace Glsl

namespace StageVariable

def attributes (d : StructDef) : List StageVariable :=
  d.fields.zipIdx.map fun entry => .attribute entry.2 entry.1

def varyings (direction : String) (d : StructDef) : List StageVariable :=
  d.varyings.zipIdx.map fun entry => .varying direction entry.2 entry.1

def targets (result : Ty) : Option StructDef → List StageVariable
  | some d => (Glsl.targets d).map fun entry => .target entry.2 entry.1
  | none => if result.isVoid then [] else [.color]

end StageVariable

namespace Transfer

/-- The lines of a fixup. -/
def fixups (fixup : Fixup) : List Transfer :=
  (if fixup.depthRemap then [.remapDepth] else []) ++ (if fixup.flipY then [.flipY] else [])

def attributeInputs (d : StructDef) : List Transfer :=
  .input d :: d.fields.map fun field => .fill field (correctedName reserved field.name)

/-- What the fields of a fragment stage's input are set to.  Positions have no varying, so the
others are counted without them. -/
def varyingValues : (location : Nat) → List Field → List (Field × String)
  | _, [] => []
  | location, field :: rest =>
    if field.semantic = some .systemPosition then
      (field, "gl_FragCoord") :: varyingValues location rest
    else (field, varyingName location) :: varyingValues (location + 1) rest

def varyingInputs (d : StructDef) : List Transfer :=
  .input d :: (varyingValues 0 d.fields).map fun entry => .fill entry.1 entry.2

def varyingOutputs (d : StructDef) : List Transfer :=
  d.varyings.zipIdx.map fun entry => .write (varyingName entry.2) entry.1

def vertexOutputs : Option StructDef → List Transfer
  | none => [.store "gl_Position"]
  | some d => .result d :: (d.positions.map (.write "gl_Position") ++ varyingOutputs d)

def targetOutputs (d : StructDef) : List Transfer :=
  (Glsl.targets d).map fun entry => .write (targetName entry.2) entry.1

def fragmentOutputs (result : Ty) : Option StructDef → List Transfer
  | some d => .result d :: targetOutputs d
  | none => if result.isVoid then [.run] else [.store (targetName 0)]

end Transfer

/-- The variables of a vertex stage. -/
def vertexPorts (input output : Option StructDef) : List StageVariable :=
  input.toList.flatMap StageVariable.attributes ++
    output.toList.flatMap (StageVariable.varyings "out")

/-- What `main` does in a vertex stage. -/
def vertexTransfers (fixup : Fixup) (input output : Option StructDef) : List Transfer :=
  input.toList.flatMap Transfer.attributeInputs ++ Transfer.vertexOutputs output ++
    Transfer.fixups fixup

/-- The variables of a fragment stage. -/
def fragmentPorts (result : Ty) (input output : Option StructDef) : List StageVariable :=
  input.toList.flatMap (StageVariable.varyings "in") ++ StageVariable.targets result output

/-- What `main` does in a fragment stage. -/
def fragmentTransfers (result : Ty) (input output : Option StructDef) : List Transfer :=
  input.toList.flatMap Transfer.varyingInputs ++ Transfer.fragmentOutputs result output

/-! ### The code of the lines -/

section Code

variable {v : Version} {c : Context} {f : Function} {d : StructDef} {code : Code} {call : String}

theorem collect_attributes (h : attributeLines v d = .ok code) :
    Language.collect (StageVariable.code v) (StageVariable.attributes d) = .ok code :=
  (Language.collect_map fun _ _ => rfl).trans h

theorem collect_varyings {direction : String} (h : varyingLines v direction d = .ok code) :
    Language.collect (StageVariable.code v) (StageVariable.varyings direction d) = .ok code :=
  (Language.collect_map fun _ _ => rfl).trans h

theorem collect_targets {result : Ty} {output : Option StructDef}
    (h : targetLines v result output = .ok code) :
    Language.collect (StageVariable.code v) (StageVariable.targets result output) = .ok code := by
  cases output with
  | some d => exact (Language.collect_map fun _ _ => rfl).trans h
  | none =>
    rw [targetLines] at h
    rw [StageVariable.targets]
    split at h
    · next hvoid =>
      rw [if_pos hvoid]
      exact h
    · next hvoid =>
      rw [if_neg hvoid, ← h]
      rfl

theorem code_varyingValues (location : Nat) (fields : List Field) :
    ((Transfer.varyingValues location fields).flatMap fun entry =>
      Transfer.code v call (.fill entry.1 entry.2)) = fragmentInputs v location fields := by
  induction fields generalizing location with
  | nil => rfl
  | cons field rest ih =>
    rw [Transfer.varyingValues, fragmentInputs]
    split
    · rw [List.flatMap_cons, ih]; rfl
    · rw [List.flatMap_cons, ih]; rfl

theorem code_fixups (fixup : Fixup) :
    (Transfer.fixups fixup).flatMap (Transfer.code v call) = fixupLines fixup := by
  obtain ⟨remap, flip⟩ := fixup
  cases remap <;> cases flip <;> rfl

theorem code_attributeInputs :
    (Transfer.attributeInputs d).flatMap (Transfer.code v call) = attributeInputs v d := by
  rw [Transfer.attributeInputs, List.flatMap_cons, List.flatMap_map]
  rfl

theorem code_varyingInputs : (Transfer.varyingInputs d).flatMap (Transfer.code v call) =
    inputVariable v d ++ fragmentInputs v 0 d.fields := by
  rw [Transfer.varyingInputs, List.flatMap_cons, List.flatMap_map, code_varyingValues]
  rfl

theorem code_vertexOutputs (output : Option StructDef) :
    (Transfer.vertexOutputs output).flatMap (Transfer.code v call) =
      vertexOutputs v output call := by
  cases output with
  | none => rfl
  | some d =>
    simp only [Transfer.vertexOutputs, Transfer.varyingOutputs, List.flatMap_cons,
      List.flatMap_append, List.flatMap_map, vertexOutputs, List.append_assoc]
    rfl

theorem code_fragmentOutputs (result : Ty) (output : Option StructDef) :
    (Transfer.fragmentOutputs result output).flatMap (Transfer.code v call) =
      fragmentOutputs v result output call := by
  cases output with
  | none =>
    rw [Transfer.fragmentOutputs, fragmentOutputs]
    split <;> simp [Transfer.code]
  | some d =>
    rw [Transfer.fragmentOutputs, Transfer.targetOutputs, List.flatMap_cons, List.flatMap_map]
    rfl

theorem interfaceStruct_eq_ok {ty : Ty} {d : Option StructDef} (h : interfaceStruct c ty = .ok d) :
    d = ty.structName?.bind c.model.struct? := by
  rw [interfaceStruct] at h
  split at h
  · next hnone =>
    cases h
    simp [hnone]
  · next name hname =>
    split at h
    · cases h
    · next d hd =>
      cases h
      simp [hname, hd]

theorem inputStruct_eq_ok {d : Option StructDef} (h : inputStruct c f = .ok d) :
    d = f.inputStruct?.bind c.model.struct? := by
  rw [inputStruct] at h
  rw [Function.inputStruct?]
  split at h
  · next hnone =>
    cases h
    simp [hnone]
  · next param hparam => simp [hparam, interfaceStruct_eq_ok h]

/-- The lines around the entry point of a vertex stage. -/
theorem vertexMain_eq_ok {fixup : Fixup} (h : vertexMain v fixup c f = .ok code) :
    ∃ args declarations, f.params.mapM (argument v c) = .ok args ∧
      Language.collect (StageVariable.code v)
        (vertexPorts (c.model.input? f) (c.model.output? f)) = .ok declarations ∧
      code = declarations ++ Code.blank ++
        mainFunction ((vertexTransfers fixup (c.model.input? f) (c.model.output? f)).flatMap
          (Transfer.code v (callOf v c.model c.stage f args))) := by
  simp only [vertexMain, entryCall, bind_eq_ok, pure_eq_ok] at h
  obtain ⟨input, hinput, output, houtput, attributes, hattributes, varyings, hvaryings, _,
    ⟨args, hargs, rfl⟩, rfl⟩ := h
  obtain rfl := inputStruct_eq_ok hinput
  obtain rfl := interfaceStruct_eq_ok houtput
  refine ⟨args, attributes ++ varyings, hargs, Language.collect_append
    (Language.collect_flatMap_toList hattributes fun _ _ => collect_attributes)
    (Language.collect_flatMap_toList hvaryings fun _ _ => collect_varyings), ?_⟩
  simp only [vertexTransfers, List.flatMap_append, List.flatMap_assoc, code_attributeInputs,
    code_vertexOutputs, code_fixups]
  rfl

/-- The lines around the entry point of a fragment stage. -/
theorem fragmentMain_eq_ok (h : fragmentMain v c f = .ok code) :
    ∃ args declarations, f.params.mapM (argument v c) = .ok args ∧
      Language.collect (StageVariable.code v)
        (fragmentPorts f.result (c.model.input? f) (c.model.output? f)) = .ok declarations ∧
      code = declarations ++ Code.blank ++
        mainFunction ((fragmentTransfers f.result (c.model.input? f) (c.model.output? f)).flatMap
          (Transfer.code v (callOf v c.model c.stage f args))) := by
  simp only [fragmentMain, entryCall, bind_eq_ok, pure_eq_ok] at h
  obtain ⟨input, hinput, output, houtput, varyings, hvaryings, targets, htargets, _,
    ⟨args, hargs, rfl⟩, rfl⟩ := h
  obtain rfl := inputStruct_eq_ok hinput
  obtain rfl := interfaceStruct_eq_ok houtput
  refine ⟨args, varyings ++ targets, hargs, Language.collect_append
    (Language.collect_flatMap_toList hvaryings fun _ _ => collect_varyings)
    (collect_targets htargets), ?_⟩
  simp only [fragmentTransfers, List.flatMap_append, List.flatMap_assoc, code_varyingInputs,
    code_fragmentOutputs]
  rfl

/-- The line around the entry point of a compute stage. -/
theorem computeMain_eq_ok (h : computeMain v c f = .ok code) :
    ∃ args, f.params.mapM (argument v c) = .ok args ∧
      code = mainFunction (Code.line (callOf v c.model c.stage f args ++ ";")) := by
  simp only [computeMain, entryCall, bind_eq_ok, pure_eq_ok] at h
  obtain ⟨_, ⟨args, hargs, rfl⟩, rfl⟩ := h
  exact ⟨args, hargs, rfl⟩

/-! ### All stages -/

/-- The variables of a stage. -/
def ports (c : Context) (f : Function) : List StageVariable :=
  match c.stage with
  | .vertex => vertexPorts (c.model.input? f) (c.model.output? f)
  | .fragment => fragmentPorts f.result (c.model.input? f) (c.model.output? f)
  | .compute => []

/-- What `main` does in a stage. -/
def transfers (fixup : Fixup) (c : Context) (f : Function) : List Transfer :=
  match c.stage with
  | .vertex => vertexTransfers fixup (c.model.input? f) (c.model.output? f)
  | .fragment => fragmentTransfers f.result (c.model.input? f) (c.model.output? f)
  | .compute => [.run]

/-- What separates the variables of a stage from `main`. -/
def separator : Stage → Code
  | .vertex | .fragment => Code.blank
  | .compute => []

/-- The variables and the lines around the entry point of a stage. -/
def stageMain (v : Version) (fixup : Fixup) (c : Context) (f : Function) : Except Error Code :=
  match c.stage with
  | .vertex => vertexMain v fixup c f
  | .fragment => fragmentMain v c f
  | .compute => computeMain v c f

theorem entry_eq_ok {fixup : Fixup} {c : Context} (h : entry v fixup c f = .ok code) :
    ∃ function main, (dialect v).function c f = .ok function ∧ stageMain v fixup c f = .ok main ∧
      code = function ++ main := by
  obtain ⟨m, stage, g⟩ := c
  cases stage
  all_goals
    simp only [entry, bind_eq_ok, pure_eq_ok] at h
    obtain ⟨function, hfunction, main, hmain, rfl⟩ := h
    exact ⟨function, main, hfunction, hmain, rfl⟩

/-- The code around an entry point: the variables of the stage, and `main` behind them. -/
inductive DefinesMain (v : Version) (fixup : Fixup) (c : Context) (f : Function) : Code → Prop where
  | intro {args : List String} {declarations : Code} :
      f.params.mapM (argument v c) = .ok args →
      Language.collect (StageVariable.code v) (ports c f) = .ok declarations →
      DefinesMain v fixup c f (declarations ++ separator c.stage ++ mainFunction
        ((transfers fixup c f).flatMap (Transfer.code v (callOf v c.model c.stage f args))))

theorem definesMain_of_stageMain {fixup : Fixup} (h : stageMain v fixup c f = .ok code) :
    DefinesMain v fixup c f code := by
  obtain ⟨m, stage, g⟩ := c
  cases stage with
  | vertex =>
    obtain ⟨args, declarations, hargs, hdeclarations, rfl⟩ := vertexMain_eq_ok h
    exact .intro hargs hdeclarations
  | fragment =>
    obtain ⟨args, declarations, hargs, hdeclarations, rfl⟩ := fragmentMain_eq_ok h
    exact .intro hargs hdeclarations
  | compute =>
    obtain ⟨args, hargs, rfl⟩ := computeMain_eq_ok h
    exact .intro hargs rfl

end Code

end Glsl

end Shading
