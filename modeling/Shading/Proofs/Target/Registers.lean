import Mathlib.Data.List.Nodup
import Shading.Proofs.Target.Declares
import Shading.Proofs.Target.Hlsl
import Shading.Proofs.Target.Metal
import Shading.Proofs.Target.Order
import Shading.Proofs.Text.Names

/-!
# Numbers of resources

A resource is bound by a class and a number in HLSL, and by a table and a number in
Metal.  The number is not stored: it is counted anew wherever it is written, over the
resources of the class that stand before the first one of the name.  As the names of a
model's resources differ, the count is the position in the class, so the numbers of a
class are all those below its size, in order (`numberedBy_countBefore`).

HLSL counts over the model, so all stages write one declaration for a resource.  Metal
counts over the resources of the stage, and passes them on in one order: to the stage
function, from there to the constructor of the container, and into its members.
-/

namespace Shading

/-! ## Counted numbers -/

section Counting

variable {κ : Type} [DecidableEq κ] {cls : Binding → κ}

/-- Resources are numbered by classes: the numbers of a class are those from zero on, in
order, and no two resources share a class and a number. -/
structure NumberedBy (cls : Binding → κ) (index : Binding → Nat) (resources : List Binding) :
    Prop where
  dense : ∀ k, (resources.filter (cls · = k)).map index =
    List.range (resources.filter (cls · = k)).length
  apart : ∀ a ∈ resources, ∀ b ∈ resources, cls a = cls b → index a = index b → a = b

/-- The resources of its class before a resource, counted. -/
def countBefore (cls : Binding → κ) (resources : List Binding) (b : Binding) : Nat :=
  ((resources.takeWhile (·.name != b.name)).filter fun earlier => cls earlier = cls b).length

/-- Behind resources of other names, those are counted. -/
theorem countBefore_append_cons {before after : List Binding} {b : Binding}
    (h : ((before ++ b :: after).map (·.name)).Nodup) :
    countBefore cls (before ++ b :: after) b = (before.filter (cls · = cls b)).length := by
  have hbefore : ∀ earlier ∈ before, (earlier.name != b.name) = true := by
    rw [List.map_append, List.nodup_append] at h
    intro earlier hmem
    exact bne_iff_ne.2 (h.2.2 _ (List.mem_map_of_mem hmem) _ (.head _))
  rw [countBefore, List.takeWhile_append_of_pos hbefore, List.takeWhile_cons_of_neg (by simp),
    List.append_nil]

/-- The numbers of a class go on from those before. -/
theorem map_countBefore (before : List Binding) {rest : List Binding}
    (h : ((before ++ rest).map (·.name)).Nodup) (k : κ) :
    (rest.filter (cls · = k)).map (countBefore cls (before ++ rest)) =
      List.range' (before.filter (cls · = k)).length (rest.filter (cls · = k)).length := by
  induction rest generalizing before with
  | nil => rfl
  | cons b rest ih =>
    have hsplit : before ++ b :: rest = (before ++ [b]) ++ rest := by simp
    have hrest := ih (before ++ [b]) (hsplit ▸ h)
    by_cases hk : cls b = k
    · subst hk
      have hlength : ((before ++ [b]).filter (cls · = cls b)).length =
          (before.filter (cls · = cls b)).length + 1 := by simp
      rw [hlength, ← hsplit] at hrest
      rw [List.filter_cons_of_pos (by simp), List.map_cons, countBefore_append_cons h, hrest,
        List.length_cons, List.range'_succ]
    · have hlength : ((before ++ [b]).filter (cls · = k)).length =
          (before.filter (cls · = k)).length := by simp [hk]
      rw [hlength, ← hsplit] at hrest
      rw [List.filter_cons_of_neg (by simp [hk]), hrest]

/-- Resources of different names are numbered by counting. -/
theorem numberedBy_countBefore {resources : List Binding}
    (h : (resources.map (·.name)).Nodup) :
    NumberedBy cls (countBefore cls resources) resources := by
  have hdense : ∀ k, (resources.filter (cls · = k)).map (countBefore cls resources) =
      List.range (resources.filter (cls · = k)).length := by
    intro k
    rw [List.range_eq_range']
    exact map_countBefore [] h k
  refine ⟨hdense, fun a ha b hb hcls hindex => ?_⟩
  have hnodup : ((resources.filter (cls · = cls b)).map (countBefore cls resources)).Nodup :=
    hdense (cls b) ▸ List.nodup_range
  exact List.inj_on_of_nodup_map hnodup (List.mem_filter.2 ⟨ha, by simpa using hcls⟩)
    (List.mem_filter.2 ⟨hb, by simp⟩) hindex

end Counting

/-! ## Written pieces -/

theorem mapM_eq_map {ε α β : Type} {f : α → Except ε β} {g : α → β} {l : List α}
    (h : ∀ a ∈ l, f a = .ok (g a)) : l.mapM f = .ok (l.map g) := by
  refine mapM_eq_ok_iff.2 (List.forall₂_map_right_iff.2 (List.forall₂_same.2 h))

/-- Pieces with known code are written one by one. -/
theorem Language.collect_eq_flatMap {α : Type} {write : α → Except Error Code} {piece : α → Code}
    {pieces : List α} (h : ∀ a ∈ pieces, write a = .ok (piece a)) :
    Language.collect write pieces = .ok (pieces.flatMap piece) := by
  rw [Language.collect, mapM_eq_map h]
  rfl

namespace Hlsl

variable {m : Model} {a b : Binding}

/-! ## Registers -/

theorem RegisterClass.text_injective {k l : RegisterClass} (h : k.text = l.text) : k = l := by
  cases k <;> cases l <;> first | rfl | exact absurd h (by decide)

/-- Registers are spelled apart. -/
theorem registerText_eq_iff : registerText m a = registerText m b ↔
    registerClass a = registerClass b ∧ registerIndex m a = registerIndex m b := by
  constructor
  · intro h
    have hdigits : ∀ k : RegisterClass, ∀ x ∈ ("register(" ++ k.text).toList,
        x.isDigit = false := by
      intro k
      cases k <;> decide
    obtain ⟨hclass, hindex⟩ := (Name.numbered_eq_numbered_iff (hdigits _) (hdigits _)).1
      ((String.append_left_inj _).1 h)
    exact ⟨RegisterClass.text_injective ((String.append_right_inj _).1 hclass), hindex⟩
  · rintro ⟨hclass, hindex⟩
    rw [registerText, registerText, hclass, hindex]

/-- The declarations of resources stand between those of structs and of functions. -/
theorem exists_split {stage : Stage} {f : Function} {code : Code} {declaration : Binding → Code}
    (hf : m.EndsWith stage f)
    (hresource : ∀ b ∈ m.resourcesFor stage, resource ⟨m, stage, none⟩ b = .ok (declaration b))
    (h : language.code m stage = .ok code) : ∃ before after,
      Code.Declares (Piece ⟨m, stage, none⟩) before (Context.structs ⟨m, stage, none⟩) ∧
      Code.Declares (Piece ⟨m, stage, none⟩) after (Context.functions ⟨m, stage, none⟩) ∧
      code = before ++ (m.resourcesFor stage).flatMap declaration ++ after := by
  simp only [Language.code, hf.entry, writesInOrder.arrangement, Language.inOrder, bind_eq_ok,
    pure_eq_ok] at h
  obtain ⟨structs, hstructs, _, ⟨resources, hresources, helpers, hhelpers, main, hmain, rfl⟩,
    rfl⟩ := h
  obtain rfl := Except.ok.inj (hresources.symm.trans (Language.collect_eq_flatMap hresource))
  refine ⟨header ++ structs, helpers ++ main, ?_, ?_, by simp only [List.append_assoc]; rfl⟩
  · exact declares_header.append (.collect_map hstructs fun d _ piece hd =>
      .item (writesInOrder.struct _ d piece hd))
  · have hhelper := Code.Declares.collect_map hhelpers fun g hg piece hpiece =>
      Piece.item (writesInOrder.helper ⟨m, stage, none⟩ g piece
        (by simpa using List.of_mem_filter hg) hpiece)
    obtain ⟨_, hwrites, rfl⟩ := writesInOrder.entry ⟨m, stage, none⟩ f main hf.isEntry hmain
    have hentry := Code.Declares.flatten hwrites fun _ _ => Piece.item
    rw [Context.functions, hf.functions, List.map_append]
    simpa [itemGlobals] using hhelper.append hentry

/-- The resources of a model have registers of their own, the same in all stages. -/
structure BindsRegisters (set : EntrySet) (m : Model) : Prop where
  numbered : NumberedBy registerClass (registerIndex m) m.resources
  apart : ∀ a ∈ m.resources, ∀ b ∈ m.resources, registerText m a = registerText m b → a = b
  /-- The sources of all stages have one declaration for a resource, with its register. -/
  sources : ∃ declaration : Binding → Code,
    (∀ b ∈ m.resources, DeclaredAt (registerText m b) b (declaration b)) ∧
    ∀ stage ∈ set.stages, ∃ before after,
      Code.Declares (Piece ⟨m, stage, none⟩) before (Context.structs ⟨m, stage, none⟩) ∧
      Code.Declares (Piece ⟨m, stage, none⟩) after (Context.functions ⟨m, stage, none⟩) ∧
      language.generate m stage =
        .ok ((before ++ (m.resourcesFor stage).flatMap declaration ++ after).text 0)

end Hlsl

namespace Metal

variable {p : Program} {c : Context} {m : Model} {a b : Binding}

/-! ## Arguments -/

theorem ArgumentTable.text_injective {k l : ArgumentTable} (h : k.text = l.text) : k = l := by
  cases k <;> cases l <;> first | rfl | exact absurd h (by decide)

/-- The places that arguments are bound at are spelled apart. -/
theorem argumentAttribute_eq_iff : argumentAttribute c a = argumentAttribute c b ↔
    argumentTable a = argumentTable b ∧ argumentIndex c a = argumentIndex c b := by
  constructor
  · intro h
    have hdigits : ∀ k : ArgumentTable, ∀ x ∈ ("[[" ++ k.text ++ "(").toList,
        x.isDigit = false := by
      intro k
      cases k <;> decide
    obtain ⟨htable, hindex⟩ := (Name.numbered_eq_numbered_iff (hdigits _) (hdigits _)).1
      ((String.append_left_inj _).1 h)
    exact ⟨ArgumentTable.text_injective
      ((String.append_right_inj _).1 ((String.append_left_inj _).1 htable)), hindex⟩
  · rintro ⟨htable, hindex⟩
    rw [argumentAttribute, argumentAttribute, htable, hindex]

section Passing

variable (declared : Binding → String → String) (resources : List Binding)

/-- The members of a container that holds resources. -/
def membersFor : Code :=
  resources.flatMap fun b => Code.line (declared b (dialect.identifier b.name) ++ ";")

/-- The constructor of a container that holds resources. -/
def constructorFor : Code :=
  if resources.isEmpty then []
  else
    Code.blank ++
      Code.line (container ++ "(" ++ ", ".intercalate (resources.map fun b =>
        declared b (dialect.identifier b.name ++ "_param")) ++ ")") ++
      Code.line (": " ++ ", ".intercalate (resources.map fun b =>
        dialect.identifier b.name ++ "(" ++ dialect.identifier b.name ++ "_param)")) ++
      Code.line "\x7b\x7d"

/-- The resource parameters of a stage function, at their places. -/
def resourceParametersFor (place : Binding → String) : List String :=
  resources.map fun b => declared b (dialect.identifier b.name) ++ " " ++ place b

/-- The call of the constructor with the resource parameters. -/
def constructorCall : String :=
  container ++ "(" ++ ", ".intercalate (resources.map fun b => dialect.identifier b.name) ++ ")"

end Passing

/-- The function of a stage, which calls the entry point in a container that it constructs. -/
def stageFunction (c : Context) (f : Function) (result : String) (params : List String) : Code :=
  Code.line (stageWord c.stage ++ " " ++ result ++ " " ++
      (Global.ofFunction c f).name reserved ++ "(" ++ ", ".intercalate params ++ ")") ++
    Code.block (Code.line ((if f.result.isVoid then "" else "return ") ++
      constructorCall (c.model.resourcesFor c.stage) ++ "." ++
      (Global.ofFunction c f).name reserved ++ "(" ++
      ", ".intercalate (f.params.map fun p => dialect.identifier p.name) ++ ");")) ""

/-- A stage has its resources at places of their own, and passes them on in one order. -/
structure PassesResources (m : Model) (stage : Stage) : Prop where
  numbered : NumberedBy argumentTable (argumentIndex ⟨m, stage, none⟩) (m.resourcesFor stage)
  apart : ∀ a ∈ m.resourcesFor stage, ∀ b ∈ m.resourcesFor stage,
    argumentAttribute ⟨m, stage, none⟩ a = argumentAttribute ⟨m, stage, none⟩ b → a = b
  /-- The source lists the resources once each as members, constructor parameters,
  parameters of the stage function and arguments of the constructor call. -/
  source : ∃ (f : Function) (declared : Binding → String → String) (params : List String)
      (result : String) (before functions : Code),
    m.entryFunction? stage = some f ∧
    (∀ b ∈ m.resourcesFor stage, ∀ name, resourceDeclaration b name = .ok (declared b name)) ∧
    f.params.mapM stageParameter = .ok params ∧ typeName f.result = .ok result ∧
    Code.Declares (Piece ⟨m, stage, none⟩ f) before
      (groupGlobals ⟨m, stage, none⟩ f ++ Context.structs ⟨m, stage, none⟩) ∧
    Code.Declares (Member ⟨m, stage, none⟩) functions (Context.functions ⟨m, stage, none⟩) ∧
    language.generate m stage = .ok ((before ++
      (Code.line ("struct " ++ container) ++
        Code.block (membersFor declared (m.resourcesFor stage) ++
          constructorFor declared (m.resourcesFor stage) ++ Code.blank ++ functions) ";") ++
      Code.blank ++
      stageFunction ⟨m, stage, none⟩ f result
        (params ++ resourceParametersFor declared (m.resourcesFor stage)
          (argumentAttribute ⟨m, stage, none⟩))).text 0)

theorem collect_resource {declared : Binding → String → String} {resources : List Binding}
    (h : ∀ b ∈ resources, ∀ name, resourceDeclaration b name = .ok (declared b name)) :
    Language.collect (resource c) resources = .ok (membersFor declared resources) := by
  refine Language.collect_eq_flatMap fun b hb => ?_
  rw [resource, h b hb]
  rfl

theorem mapM_resourceParameter {declared : Binding → String → String} {resources : List Binding}
    (h : ∀ b ∈ resources, ∀ name, resourceDeclaration b name = .ok (declared b name)) :
    resources.mapM (resourceParameter c) =
      .ok (resourceParametersFor declared resources (argumentAttribute c)) := by
  refine mapM_eq_map fun b hb => ?_
  rw [resourceParameter, h b hb]
  rfl

theorem containerConstructor_eq {declared : Binding → String → String} {resources : List Binding}
    (h : ∀ b ∈ resources, ∀ name, resourceDeclaration b name = .ok (declared b name)) :
    containerConstructor resources = .ok (constructorFor declared resources) := by
  rw [containerConstructor, constructorFor]
  split
  · rfl
  · rw [bind_of_ok (mapM_eq_map fun b hb => h b hb _)]
    rfl

/-- The stage function has the resources behind its own parameters, and forwards them. -/
theorem exists_stageFunction {f : Function} {code : Code} {declared : Binding → String → String}
    (hdeclared : ∀ b ∈ c.model.resourcesFor c.stage, ∀ name,
      resourceDeclaration b name = .ok (declared b name)) (h : entry c f = .ok code) :
    ∃ params result, f.params.mapM stageParameter = .ok params ∧ typeName f.result = .ok result ∧
      code = stageFunction c f result (params ++ resourceParametersFor declared
        (c.model.resourcesFor c.stage) (argumentAttribute c)) := by
  simp only [entry, bind_eq_ok, pure_eq_ok, mapM_resourceParameter hdeclared] at h
  obtain ⟨params, hparams, resources, hresources, result, hresult, rfl⟩ := h
  obtain rfl := Except.ok.inj hresources
  refine ⟨params, result, hparams, hresult, ?_⟩
  rw [stageFunction, show reserved = dialect.reserved from rfl, Global.name_ofFunction]
  congr 3
  cases f.result.isVoid <;> simp [← String.toList_inj, constructorCall]

/-- A stage that is written passes its resources on. -/
theorem passesResources {stage : Stage} {f : Function} (hw : m.Writable p stage f)
    (hnames : ((m.resourcesFor stage).map (·.name)).Nodup) : PassesResources m stage := by
  have hnumbered : NumberedBy argumentTable (argumentIndex ⟨m, stage, none⟩)
      (m.resourcesFor stage) := numberedBy_countBefore hnames
  refine ⟨hnumbered, fun a ha b hb h => ?_, ?_⟩
  · obtain ⟨htable, hindex⟩ := argumentAttribute_eq_iff.1 h
    exact hnumbered.apart a ha b hb htable hindex
  · have hdeclared : ∀ b ∈ m.resourcesFor stage, ∃ declared : String → String, ∀ name,
        resourceDeclaration b name = .ok (declared name) := fun b hb => by
      choose declared hdeclared using
        exists_resourceDeclaration (hw.resources b (List.mem_filter.1 hb).1)
      exact ⟨declared, hdeclared⟩
    choose! declared hdeclared using hdeclared
    obtain ⟨text, htext⟩ := exists_source hw
    obtain ⟨code, hcode, rfl⟩ := Language.generate_eq_ok.1 htext
    rw [htext]
    simp only [Language.code, hw.entry, language, arrangement, bind_eq_ok, pure_eq_ok] at hcode
    obtain ⟨structs, hstructs, _, ⟨members, hmembers, _, hconstructor, functions, hfunctions, main,
      hmain, rfl⟩, rfl⟩ := hcode
    obtain rfl := Except.ok.inj (hmembers.symm.trans (collect_resource hdeclared))
    obtain rfl := Except.ok.inj (hconstructor.symm.trans (containerConstructor_eq hdeclared))
    obtain ⟨params, result, hparams, hresult, rfl⟩ := exists_stageFunction hdeclared hmain
    refine ⟨f, declared, params, result, header ⟨m, stage, none⟩ ++ structs, functions, hw.entry,
      hdeclared, hparams, hresult, ?_, ?_, ?_⟩
    · have hstructs := Code.Declares.collect_map hstructs fun d _ piece hd =>
        Piece.struct (f := f) (definesStruct hd)
      exact (declares_header hw.entry).append hstructs
    · exact .collect_map hfunctions fun _ _ _ => declares_function
    · simp only [List.append_assoc]

end Metal

/-! ## Models -/

/-- The resources of a model are bound at numbers of their own in HLSL and Metal. -/
structure Model.NumbersResources (p : Program) (set : EntrySet) (m : Model) : Prop where
  once : (m.resources.map (·.name)).Nodup
  /-- The resources of a stage are those that its functions refer to. -/
  used : ∀ stage entry, set.entryName? stage = some entry → ∀ name,
    name ∈ (m.resourcesFor stage).map (·.name) ↔ p.Refers entry name
  /-- They stand in the order of the model. -/
  inOrder : ∀ stage, (m.resourcesFor stage).Sublist m.resources
  registers : Hlsl.BindsRegisters set m
  arguments : ∀ stage ∈ set.stages, Metal.PassesResources m stage

namespace Program

variable {p : Program} {set : EntrySet} {m : Model}

theorem BuiltFrom.bindsRegisters {reached : Expanded Function} {uses : List StageUse}
    (h : BuiltFrom p set m reached uses) : Hlsl.BindsRegisters set m := by
  have hnumbered : NumberedBy Hlsl.registerClass (Hlsl.registerIndex m) m.resources :=
    numberedBy_countBefore h.model_exact.resources_once
  refine ⟨hnumbered, fun a ha b hb heq => ?_, ?_⟩
  · obtain ⟨hclass, hindex⟩ := Hlsl.registerText_eq_iff.1 heq
    exact hnumbered.apart a ha b hb hclass hindex
  · -- A declaration depends on the model alone, so any stage yields the one of all.
    have hexists : ∀ b ∈ m.resources, ∃ code, Hlsl.resource ⟨m, .vertex, none⟩ b = .ok code :=
      fun b hb => Hlsl.exists_resource (h.model_exact.hasResource b hb).declares
    choose! declaration hdeclaration using hexists
    refine ⟨declaration, fun b hb =>
      Hlsl.declaredAt_of_resource ⟨m, .vertex, none⟩ (hdeclaration b hb), fun stage hstage => ?_⟩
    obtain ⟨entry, he⟩ := Option.isSome_iff_exists.1 (EntrySet.mem_stages.1 hstage)
    obtain ⟨f, hw⟩ := h.writable hstage
    obtain ⟨text, htext⟩ := Hlsl.exists_source hw
    obtain ⟨code, hcode, rfl⟩ := Language.generate_eq_ok.1 htext
    obtain ⟨before, after, hbefore, hafter, rfl⟩ := Hlsl.exists_split (h.endsWith he hw.entry)
      (fun b hb => hdeclaration b (List.mem_filter.1 hb).1) hcode
    exact ⟨before, after, hbefore, hafter, htext⟩

/-- The resources of a model that was built are numbered. -/
theorem numbersResources_of_build (h : p.build set = .ok m) : m.NumbersResources p set := by
  obtain ⟨_, _, hbuilt⟩ := builtFrom_of_build h
  refine ⟨hbuilt.model_exact.resources_once, fun stage entry he name =>
    hbuilt.mem_names_resourcesFor_iff he, fun stage => List.filter_sublist, hbuilt.bindsRegisters,
    fun stage hstage => ?_⟩
  obtain ⟨f, hw⟩ := hbuilt.writable hstage
  exact Metal.passesResources hw (hbuilt.nodup_names_resourcesFor stage)

theorem numbersResources_sample :
    ∃ m, sample.build sampleSet = .ok m ∧ m.NumbersResources sample sampleSet := by
  have h : sample.build sampleSet = .ok _ := rfl
  exact ⟨_, h, numbersResources_of_build h⟩

end Program

end Shading
