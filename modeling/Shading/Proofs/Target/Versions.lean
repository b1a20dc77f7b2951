import Shading.Proofs.Target.Emission
import Shading.Proofs.Text.Lines

/-!
# GLSL ES is desktop GLSL behind its header

A dialect keeps another (`Dialect.KeptBy`) when it spells all that the other spells, in
the same way.  It then writes every body that the other writes, to the letter.  Two
versions of GLSL stand in this relation when one declares what the other declares and
they agree on layouts, samplers, builtins and the fixup (`Version.KeptBy`).

GLSL ES keeps to desktop GLSL and leaves out what it cannot declare.  So a source in
GLSL ES is the desktop source with other lines at the start (`desktop_of_es`).  The
converse fails: desktop GLSL has sources where GLSL ES has none.
-/

namespace Shading

open Shading.Core (Expr Stmt Case)

/-! ## Dialects -/

/-- All that a dialect spells is spelled in the same way by another. -/
structure Dialect.KeptBy (d d' : Dialect) : Prop where
  reserved : d'.reserved = d.reserved
  typeName : ∀ ty, Kept (d.typeName ty) (d'.typeName ty)
  floatSuffix : d'.floatSuffix = d.floatSuffix
  castText : d'.castText = d.castText
  callsMul : d'.callsMul = d.callsMul
  parameter : ∀ param, Kept (d.parameter param) (d'.parameter param)
  ownIntrinsic? : d'.ownIntrinsic? = d.ownIntrinsic?

theorem Kept.declarationText {typeName typeName' : Ty → Except Error String}
    (h : ∀ ty, Kept (typeName ty) (typeName' ty)) (ty : Ty) (name : String) :
    Kept (declarationText typeName ty name) (declarationText typeName' ty name) := by
  cases ty with
  | array element length => exact (h element).bind_left
  | _ => exact (h _).bind_left

theorem Kept.parameterText {typeName typeName' : Ty → Except Error String}
    (h : ∀ ty, Kept (typeName ty) (typeName' ty)) (reserved : List String) (param : Parameter) :
    Kept (parameterText reserved typeName param) (parameterText reserved typeName' param) :=
  (Kept.declarationText h _ _).bind_left

namespace Dialect.KeptBy

variable {d d' : Dialect} {c : Context}

theorem identifier (h : d.KeptBy d') (name : String) : d'.identifier name = d.identifier name := by
  rw [Dialect.identifier, h.reserved, Dialect.identifier]

theorem functionName (h : d.KeptBy d') (m : Model) (stage : Stage) (f : Function) :
    d'.functionName m stage f = d.functionName m stage f := by
  simp only [Dialect.functionName, Dialect.globalName, h.identifier]

theorem literalText (h : d.KeptBy d') (value : Core.Literal) :
    d'.literalText value = d.literalText value := by
  cases value with
  | float value => simp only [Dialect.literalText, Dialect.floatText, h.floatSuffix]
  | _ => rfl

theorem labelLines (h : d.KeptBy d') (labels : List Core.Literal) :
    d'.labelLines labels = d.labelLines labels := by
  simp only [Dialect.labelLines, h.literalText]

theorem binary (h : d.KeptBy d') (op : BinaryOp) (lhs rhs : Operand) :
    d'.binary op lhs rhs = d.binary op lhs rhs := by
  simp only [Dialect.binary, h.callsMul]

theorem declaration (h : d.KeptBy d') (ty : Ty) (name : String) :
    Kept (d.declaration ty name) (d'.declaration ty name) :=
  Kept.declarationText h.typeName ty name

theorem cast (h : d.KeptBy d') (ty : Ty) (operand : String) :
    Kept (d.cast ty operand) (d'.cast ty operand) := by
  simp only [Dialect.cast, h.castText]
  exact (h.typeName ty).bind_left

/-- Only the intrinsics that neither spells are refused, each in its own name. -/
theorem intrinsic (h : d.KeptBy d') (symbol : String) (i : Intrinsic) (args : List Operand) :
    Kept (d.intrinsic symbol i args) (d'.intrinsic symbol i args) := by
  simp only [Dialect.intrinsic, h.ownIntrinsic?]
  split
  · exact .refl _
  · split
    · exact .refl _
    · exact .error

/-! ### Bodies -/

theorem operands {args : List Expr} (h : ∀ e ∈ args, Kept (d.expr c e) (d'.expr c e)) :
    Kept (d.operands c args) (d'.operands c args) := by
  induction args with
  | nil => exact .refl _
  | cons e rest ih =>
    simp only [Dialect.operands]
    exact (h e (.head _)).bind fun _ _ => (ih fun x hx => h x (.tail _ hx)).bind_left

/-- Every expression that is written is written in the same way. -/
theorem expr (h : d.KeptBy d') (e : Expr) : Kept (d.expr c e) (d'.expr c e) := by
  induction e using Expr.induct with
  | h e ih =>
    cases e with
    | literal => simp only [Dialect.expr, h.literalText]; exact .refl _
    | var => simp only [Dialect.expr, h.identifier]; exact .refl _
    | resource => simp only [Dialect.expr, h.identifier]; exact .refl _
    | field base =>
      simp only [Dialect.expr, h.identifier]
      exact (ih base (by simp [Expr.children])).bind_left
    | swizzle base =>
      simp only [Dialect.expr]
      exact (ih base (by simp [Expr.children])).bind_left
    | index base position =>
      simp only [Dialect.expr]
      exact (ih base (by simp [Expr.children])).bind fun _ _ =>
        (ih position (by simp [Expr.children])).bind_left
    | unary op operand =>
      simp only [Dialect.expr]
      exact (ih operand (by simp [Expr.children])).bind_left
    | binary op lhs rhs =>
      simp only [Dialect.expr, h.binary]
      exact (ih lhs (by simp [Expr.children])).bind fun _ _ =>
        (ih rhs (by simp [Expr.children])).bind_left
    | conditional condition yes no =>
      simp only [Dialect.expr]
      exact (ih condition (by simp [Expr.children])).bind fun _ _ =>
        (ih yes (by simp [Expr.children])).bind fun _ _ =>
          (ih no (by simp [Expr.children])).bind_left
    | call function args =>
      simp only [Dialect.expr, h.functionName]
      split
      · exact .error
      · exact (operands ih).bind_left
    | intrinsic i args =>
      simp only [Dialect.expr]
      exact (operands ih).bind fun _ _ => h.intrinsic c.symbol i _
    | construct args ty =>
      simp only [Dialect.expr]
      exact (operands ih).bind fun _ _ => (h.typeName ty).bind_left
    | cast operand ty =>
      simp only [Dialect.expr]
      exact (ih operand (by simp [Expr.children])).bind fun _ _ => h.cast ty _

theorem optionalExpr (h : d.KeptBy d') (e : Option Expr) :
    Kept (d.optionalExpr c e) (d'.optionalExpr c e) := by
  cases e with
  | none => exact .refl _
  | some e => exact h.expr e

theorem simple (h : d.KeptBy d') (s : Stmt) : Kept (d.simple c s) (d'.simple c s) := by
  cases s with
  | declare name ty init =>
    simp only [Dialect.simple, h.identifier]
    refine (h.declaration ty _).bind fun _ _ => ?_
    cases init with
    | none => exact .refl _
    | some init => exact (h.expr init).bind_left
  | assign target op value =>
    simp only [Dialect.simple]
    exact (h.expr target).bind fun _ _ => (h.expr value).bind_left
  | expr value => exact h.expr value
  | _ => exact .error

theorem stmts_of_stmt {body : List Stmt} (h : ∀ s ∈ body, Kept (d.stmt c s) (d'.stmt c s)) :
    Kept (d.stmts c body) (d'.stmts c body) := by
  induction body with
  | nil => simp only [Dialect.stmts]; exact .refl _
  | cons s rest ih =>
    simp only [Dialect.stmts]
    exact (h s (.head _)).bind fun _ _ => (ih fun t ht => h t (.tail _ ht)).bind_left

theorem cases_of_stmts (h : d.KeptBy d') {list : List Case}
    (hlist : ∀ k ∈ list, Kept (d.stmts c k.body) (d'.stmts c k.body)) :
    Kept (d.cases c list) (d'.cases c list) := by
  induction list with
  | nil => simp only [Dialect.cases]; exact .refl _
  | cons k rest ih =>
    obtain ⟨labels, body⟩ := k
    simp only [Dialect.cases, h.labelLines]
    exact (hlist _ (.head _)).bind fun _ _ => (ih fun k hk => hlist k (.tail _ hk)).bind_left

/-- Every statement that is written is written in the same way. -/
theorem stmt (h : d.KeptBy d') (s : Stmt) : Kept (d.stmt c s) (d'.stmt c s) := by
  induction s using Stmt.induct with
  | h s ih =>
    have hbody : ∀ body ∈ s.bodies, Kept (d.stmts c body) (d'.stmts c body) :=
      fun body hb => stmts_of_stmt (ih body hb)
    cases s with
    | declare | assign | expr => exact (h.simple _).bind_left
    | branch condition yes no =>
      simp only [Dialect.stmt]
      refine (h.expr condition).bind fun _ _ => (hbody yes (by simp [Stmt.bodies])).bind
        fun _ _ => Kept.bind_left ?_
      cases no with
      | none => exact .refl _
      | some no => exact (hbody no (by simp [Stmt.bodies])).bind_left
    | forLoop init condition step body =>
      simp only [Dialect.stmt]
      have hinit := ih init (by simp [Stmt.bodies])
      have hcode := hbody body (by simp [Stmt.bodies])
      refine (h.optionalExpr condition).bind fun _ _ =>
        (Kept.mapM fun s _ => h.simple s).bind fun _ _ => ?_
      -- One initializer stands in the header, and several before the loop.
      rcases init with _ | ⟨first, _ | ⟨second, rest⟩⟩
      · exact hcode.bind_left
      · exact (h.simple first).bind fun _ _ => hcode.bind_left
      · exact (hinit first (.head _)).bind fun _ _ =>
          (stmts_of_stmt fun t ht => hinit t (.tail _ ht)).bind fun _ _ => hcode.bind_left
    | whileLoop condition body =>
      simp only [Dialect.stmt]
      exact (h.expr condition).bind fun _ _ => (hbody body (by simp [Stmt.bodies])).bind_left
    | doLoop body condition =>
      simp only [Dialect.stmt]
      exact (hbody body (by simp [Stmt.bodies])).bind fun _ _ => (h.expr condition).bind_left
    | switch selector cases default =>
      simp only [Dialect.stmt]
      refine (h.expr selector).bind fun _ _ => (h.cases_of_stmts fun k hk =>
        hbody k.body (List.mem_append_left _ (List.mem_map_of_mem hk))).bind fun _ _ =>
          Kept.bind_left ?_
      cases default with
      | none => exact .refl _
      | some body => exact (hbody body (by simp [Stmt.bodies])).bind_left
    | ret value =>
      cases value with
      | none => exact .refl _
      | some e => exact (h.expr e).bind_left
    | leave | next => exact .refl _
    | block body =>
      simp only [Dialect.stmt]
      exact (hbody body (by simp [Stmt.bodies])).bind_left

theorem function (h : d.KeptBy d') (f : Function) : Kept (d.function c f) (d'.function c f) := by
  refine Kept.bind_left (Kept.bind ?_ fun _ _ => (stmts_of_stmt fun s _ => h.stmt s).bind_left)
  simp only [Dialect.signature, h.functionName]
  exact (Kept.mapM fun param _ => h.parameter param).bind fun _ _ => (h.typeName f.result).bind_left

end Dialect.KeptBy

theorem Kept.collect {α : Type} {write write' : α → Except Error Code} {pieces : List α}
    (h : ∀ a ∈ pieces, Kept (write a) (write' a)) :
    Kept (Language.collect write pieces) (Language.collect write' pieces) :=
  (Kept.mapM h).bind_left

/-! ## Versions of GLSL -/

namespace Glsl

/-- All that a version declares is declared in the same way by another.  The lines at the
start of a source are left open. -/
structure Version.KeptBy (v v' : Version) : Prop where
  defaultFixup : v'.defaultFixup = v.defaultFixup
  textureName? : ∀ kind name, v.textureName? kind = some name → v'.textureName? kind = some name
  resourceLayout : v'.resourceLayout = v.resourceLayout
  samplerText : v'.samplerText = v.samplerText
  varyingLayout : v'.varyingLayout = v.varyingLayout
  vertexBuiltin? : v'.vertexBuiltin? = v.vertexBuiltin?
  storageBuffers : ∀ stage, v.storageBuffers stage = true → v'.storageBuffers stage = true
  separateSamplers : .separateSamplers ∈ v'.capabilities ↔ .separateSamplers ∈ v.capabilities

/-- Desktop GLSL keeps what GLSL ES declares. -/
theorem keptBy_core330 : es300.KeptBy core330 where
  defaultFixup := rfl
  textureName? kind name h := by
    by_cases hkind : kind = .texture2DMS
    · simp [es300, hkind] at h
    · simpa [es300, hkind] using h
  resourceLayout := rfl
  samplerText := rfl
  varyingLayout := rfl
  vertexBuiltin? := rfl
  storageBuffers _ _ := rfl
  separateSamplers := by decide

/-- Inputs are filled alike in all versions. -/
theorem fragmentInputs_eq (v v' : Version) (location : Nat) (fields : List Field) :
    fragmentInputs v location fields = fragmentInputs v' location fields := by
  induction fields generalizing location with
  | nil => rfl
  | cons field rest ih =>
    simp only [fragmentInputs, ih]
    rfl

namespace Version.KeptBy

variable {v v' : Version} {c : Context} {f : Function}

theorem resourceName (h : v.KeptBy v') (kind : ResourceKind) (ty : Ty) :
    Kept (resourceName v kind ty) (resourceName v' kind ty) := by
  intro text ht
  simp only [Glsl.resourceName] at ht ⊢
  split at ht
  · next name hname => rw [h.textureName? kind name hname]; exact ht
  · cases ht

theorem typeName (h : v.KeptBy v') (ty : Ty) : Kept (typeName v ty) (typeName v' ty) := by
  induction ty with
  | array element length ih =>
    simp only [Glsl.typeName]
    exact ih.bind_left
  | resource kind access =>
    simp only [Glsl.typeName]
    split
    · exact .error
    · exact h.resourceName kind _
  | resourceOf kind element access ih =>
    simp only [Glsl.typeName]
    split
    · exact ih
    · exact h.resourceName kind _
  | _ => exact .refl _

theorem ownIntrinsic? (h : v.KeptBy v') : ownIntrinsic? v' = ownIntrinsic? v := by
  funext i args
  simp only [Glsl.ownIntrinsic?, sampleText, h.samplerText]

theorem dialect (h : v.KeptBy v') : (dialect v).KeptBy (dialect v') where
  reserved := rfl
  typeName := h.typeName
  floatSuffix := rfl
  castText := rfl
  callsMul := rfl
  parameter := Kept.parameterText h.typeName reserved
  ownIntrinsic? := h.ownIntrinsic?

/-! ### Declarations -/

theorem struct (h : v.KeptBy v') (d : StructDef) : Kept (struct v d) (struct v' d) :=
  (Kept.collect fun _ _ => (h.dialect.declaration _ _).bind_left).bind_left

theorem resource (h : v.KeptBy v') (b : Binding) : Kept (resource v c b) (resource v' c b) := by
  have htexture : Kept
      (if b.ty.kind = .sampler ∧ .separateSamplers ∉ v.capabilities then pure [] else do
        let ty ← Glsl.typeName v b.ty.toTy
        return Code.line (v.resourceLayout b.slot none ++ "uniform " ++ ty ++ " " ++
          (Glsl.dialect v).identifier b.name ++ ";") ++ Code.blank)
      (if b.ty.kind = .sampler ∧ .separateSamplers ∉ v'.capabilities then pure [] else do
        let ty ← Glsl.typeName v' b.ty.toTy
        return Code.line (v'.resourceLayout b.slot none ++ "uniform " ++ ty ++ " " ++
          (Glsl.dialect v').identifier b.name ++ ";") ++ Code.blank) := by
    simp only [h.separateSamplers, h.resourceLayout]
    split
    · exact .refl _
    · exact (h.typeName _).bind_left
  simp only [Glsl.resource]
  cases hkind : b.ty.kind with
  | uniformBuffer =>
    simp only [h.resourceLayout]
    exact (h.dialect.declaration _ _).bind_left
  | structuredBuffer =>
    simp only [h.resourceLayout]
    split
    · next hs =>
      rw [if_pos (h.storageBuffers _ hs)]
      exact (h.typeName _).bind_left
    · exact .error
  | _ => simpa only [hkind] using htexture

/-! ### Stage wiring -/

theorem builtin? (h : v.KeptBy v') (semantic : Semantic) :
    builtin? v' semantic = builtin? v semantic := by
  cases semantic <;> simp only [Glsl.builtin?, h.vertexBuiltin?]

theorem entryCall (h : v.KeptBy v') : entryCall v' c f = entryCall v c f := by
  have hargument : argument v' c = argument v c := by
    funext param
    simp only [argument, h.builtin?]
  simp only [Glsl.entryCall, hargument]
  rfl

theorem varyingLines (h : v.KeptBy v') (direction : String) (d : StructDef) :
    Kept (varyingLines v direction d) (varyingLines v' direction d) := by
  refine Kept.collect fun entry _ => ?_
  simp only [varyingLine, h.varyingLayout]
  exact (h.dialect.declaration _ _).bind_left

theorem attributeLines (h : v.KeptBy v') (d : StructDef) :
    Kept (attributeLines v d) (attributeLines v' d) :=
  Kept.collect fun _ _ => (h.dialect.declaration _ _).bind_left

theorem targetLines (h : v.KeptBy v') (result : Ty) (output : Option StructDef) :
    Kept (targetLines v result output) (targetLines v' result output) := by
  cases output with
  | none => exact .refl _
  | some d => exact Kept.collect fun _ _ => (h.dialect.declaration _ _).bind_left

theorem vertexMain (h : v.KeptBy v') (fixup : Fixup) :
    Kept (vertexMain v fixup c f) (vertexMain v' fixup c f) := by
  simp only [Glsl.vertexMain, h.entryCall]
  refine (Kept.refl _).bind fun input _ => (Kept.refl _).bind fun output _ => ?_
  exact (Kept.collect fun d _ => h.attributeLines d).bind fun _ _ =>
    (Kept.collect fun d _ => h.varyingLines "out" d).bind fun _ _ => .refl _

theorem fragmentMain (h : v.KeptBy v') : Kept (fragmentMain v c f) (fragmentMain v' c f) := by
  simp only [Glsl.fragmentMain, h.entryCall, fragmentInputs_eq v' v]
  refine (Kept.refl _).bind fun input _ => (Kept.refl _).bind fun output _ => ?_
  exact (Kept.collect fun d _ => h.varyingLines "in" d).bind fun _ _ =>
    (h.targetLines f.result output).bind fun _ _ => .refl _

theorem computeMain (h : v.KeptBy v') : computeMain v' c f = computeMain v c f := by
  simp only [Glsl.computeMain, h.entryCall]

theorem entry (h : v.KeptBy v') (fixup : Fixup) :
    Kept (entry v fixup c f) (entry v' fixup c f) := by
  refine (h.dialect.function f).bind fun _ _ => ?_
  cases c.stage with
  | vertex => exact (h.vertexMain fixup).bind_left
  | fragment => exact h.fragmentMain.bind_left
  | compute => exact (h.computeMain ▸ .refl _ : Kept _ _).bind_left

/-- What stands behind the structs of a source is kept. -/
theorem arrangement (h : v.KeptBy v') (fixup : Option Fixup) :
    Kept ((language v fixup).arrangement c f) ((language v' fixup).arrangement c f) := by
  simp only [language, Language.inOrder, h.defaultFixup]
  exact (Kept.collect fun b _ => h.resource b).bind fun _ _ =>
    (Kept.collect fun g _ => h.dialect.function g).bind fun _ _ => (h.entry _).bind_left

end Version.KeptBy

/-! ## Sources -/

section Source

variable {v v' : Version} {m : Model} {stage : Stage} {fixup : Option Fixup}

/-- The lines at the start of a source. -/
def versionCode (v : Version) (m : Model) (stage : Stage) : Code :=
  (v.versionLines stage ((m.resourcesFor stage).any (·.ty.kind = .structuredBuffer))).flatMap
    Code.line

theorem depth_flatMap_line (depth : Nat) (lines : List String) :
    Code.depth depth (lines.flatMap Code.line) = depth := by
  induction lines with
  | nil => rfl
  | cons text rest ih => exact ih

/-- Behind the lines at its start, a source is kept to the letter. -/
theorem Version.KeptBy.generate (h : v.KeptBy v') {text : String}
    (ht : (language v fixup).generate m stage = .ok text) :
    ∃ rest, text = (versionCode v m stage).text 0 ++ rest ∧
      (language v' fixup).generate m stage = .ok ((versionCode v' m stage).text 0 ++ rest) := by
  obtain ⟨code, hcode, rfl⟩ := Language.generate_eq_ok.1 ht
  rw [Language.code] at hcode
  split at hcode
  · cases hcode
  · next f hf =>
    simp only [bind_eq_ok, pure_eq_ok] at hcode
    obtain ⟨structs, hstructs, arranged, harranged, rfl⟩ := hcode
    have hstructs' := Kept.collect (fun d _ => h.struct d) structs hstructs
    have harranged' := h.arrangement fixup arranged harranged
    -- The header is the start, and lines that are the same in all versions.
    obtain ⟨group, hgroup⟩ : ∃ group, ∀ w,
        header w ⟨m, stage, none⟩ = versionCode w m stage ++ group :=
      ⟨_, fun _ => List.append_assoc ..⟩
    have htext : ∀ w, (header w ⟨m, stage, none⟩ ++ structs ++ arranged).text 0 =
        (versionCode w m stage).text 0 ++ (group ++ structs ++ arranged).text 0 := by
      intro w
      rw [hgroup, List.append_assoc, List.append_assoc, Code.text_append, versionCode,
        depth_flatMap_line, List.append_assoc]
    refine ⟨(group ++ structs ++ arranged).text 0, htext v, ?_⟩
    rw [← htext v']
    simp only [Language.generate, Language.code, hf, bind_eq_ok, pure_eq_ok]
    exact ⟨_, ⟨structs, hstructs', arranged, harranged', rfl⟩, rfl⟩

end Source

end Glsl

/-! ## GLSL ES and desktop GLSL -/

/-- Where GLSL ES has a source, desktop GLSL has the same text behind its own first lines. -/
theorem desktop_of_es {m : Model} {stage : Stage} {fixup : Option Fixup} {text : String}
    (h : (Target.glslEs300.language fixup).generate m stage = .ok text) :
    ∃ rest, text = (Glsl.versionCode Glsl.es300 m stage).text 0 ++ rest ∧
      (Target.glsl330.language fixup).generate m stage =
        .ok ((Glsl.versionCode Glsl.core330 m stage).text 0 ++ rest) :=
  Glsl.keptBy_core330.generate h

theorem desktop_of_es_sample :
    ∃ m text, Program.sample.build Program.sampleSet = .ok m ∧
      (Target.glslEs300.language none).generate m .vertex = .ok text ∧
      ∃ rest, text = (Glsl.versionCode Glsl.es300 m .vertex).text 0 ++ rest ∧
        (Target.glsl330.language none).generate m .vertex =
          .ok ((Glsl.versionCode Glsl.core330 m .vertex).text 0 ++ rest) := by
  have h : Program.sample.build Program.sampleSet = .ok _ := rfl
  exact ⟨_, _, h, rfl, desktop_of_es rfl⟩

end Shading
