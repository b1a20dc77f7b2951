import Shading.Proofs.Model.Varyings
import Shading.Proofs.Target.Declares
import Shading.Proofs.Target.Order
import Shading.Proofs.Target.Transfers

/-!
# Names apart

Whatever a source declares in a scope stands in it once.  Building keeps structs,
resources, functions, fields and render targets apart by the names that the program
gives to them, and spelling those names loses that.  The names in the source are
pairwise distinct exactly if no two things clash.  They are distinct when the names of
the program are plain and no two things have the same origin (`Target.NamesApart`).

The names of `namesakes` are different in the program, and they clash in its source in
five ways: by mangling, by correction, and as the short name of an entry point, the
block of a resource and a varying.
-/

namespace Shading

open Code (Declares)

/-! ## Scopes -/

/-- Code declares the things of a scope, and their names are apart as far as the names of
the program are. -/
structure Language.Scope (l : Language) (Piece : Code → List Global → Prop) (things : List Global)
    (code : Code) : Prop where
  declares : Declares Piece code things
  /-- Every thing stands once. -/
  once : things.Nodup
  /-- Names are pairwise distinct exactly if no two things clash. -/
  nodup_iff : (things.map (·.name l.dialect.reserved)).Nodup ↔
    things.Pairwise fun a b => ¬ Global.Clash l.dialect.reserved a b
  /-- What the program does not name clashes with nothing that it does not name. -/
  unnamed : ∀ a ∈ things, ∀ b ∈ things, a.origin? = none → b.origin? = none →
    Global.Clash l.dialect.reserved a b → a = b
  /-- Plain names that are apart in the program are apart in the source. -/
  nodup_of_plain : (∀ g ∈ things, g.IsPlain) → (things.filterMap Global.origin?).Nodup →
    (things.map (·.name l.dialect.reserved)).Nodup

theorem Language.scope {l : Language} {Piece : Code → List Global → Prop} {things : List Global}
    {code : Code}
    (hreserved : ∀ word ∈ l.dialect.reserved, word ++ "_" ∉ l.dialect.reserved)
    (hmain : .main ∈ things → "main" ∈ l.dialect.reserved)
    (hdeclares : Declares Piece code things) (honce : things.Nodup) :
    l.Scope Piece things code := by
  have hiff : (things.map (·.name l.dialect.reserved)).Nodup ↔
      things.Pairwise fun a b => ¬ Global.Clash l.dialect.reserved a b := by
    simp only [List.Nodup, List.pairwise_map, ne_eq, Global.name_eq_name_iff hreserved]
  refine ⟨hdeclares, honce, hiff, ?_, ?_⟩
  · intro a ha b _ hao hbo h
    exact Global.eq_of_clash_of_unnamed (fun heq => hmain (heq ▸ ha)) hao
      (Global.isPlain_of_unnamed hbo) h
  · intro hplain horigin
    rw [hiff]
    rw [List.Nodup, List.pairwise_filterMap] at horigin
    refine (honce.and horigin).imp_of_mem fun {a b} ha hb hapart hclash => ?_
    obtain ⟨hne, happart⟩ := hapart
    have hmain' : a = .main ∨ b = .main → "main" ∈ l.dialect.reserved := by
      rintro (rfl | rfl)
      · exact hmain ha
      · exact hmain hb
    obtain ⟨origin, hao, hbo⟩ :=
      Global.exists_origin_of_clash hmain' (hplain a ha) (hplain b hb) hne hclash
    exact happart origin hao origin hbo rfl

/-! ## What stands once -/

/-- The place of a thing among the kinds of things. -/
def Global.rank : Global → Nat
  | .groupSize _ => 0
  | .struct _ => 1
  | .resource _ | .block _ => 2
  | .container => 3
  | .helper _ | .entry _ => 4
  | .input _ => 5
  | .varying _ => 6
  | .target _ => 7
  | .main => 8

theorem Global.rank_ofFunction (c : Context) (f : Function) : (ofFunction c f).rank = 4 := by
  rw [ofFunction]
  split <;> rfl

/-- Things of some ranks, each once. -/
structure Global.Ranked (low high : Nat) (things : List Global) : Prop where
  once : things.Nodup
  rank : ∀ g ∈ things, low ≤ g.rank ∧ g.rank ≤ high
  le : low ≤ high

theorem Global.Ranked.append {low i j high : Nat} {a b : List Global} (ha : Ranked low i a)
    (hb : Ranked j high b) (hij : i < j) : Ranked low high (a ++ b) where
  once := by
    refine List.nodup_append.2 ⟨ha.once, hb.once, fun g hg g' hg' heq => ?_⟩
    have hlow := ha.rank g hg
    have hhigh := hb.rank g' hg'
    rw [heq] at hlow
    omega
  rank := by
    intro g hg
    have hlow := ha.le
    have hhigh := hb.le
    rcases List.mem_append.1 hg with hg | hg
    · have := ha.rank g hg
      omega
    · have := hb.rank g hg
      omega
  le := by
    have hlow := ha.le
    have hhigh := hb.le
    omega

open Global (Ranked)

theorem Global.Ranked.mono {low low' high : Nat} {things : List Global} (h : Ranked low high things)
    (hlow : low' ≤ low) : Ranked low' high things where
  once := h.once
  rank := fun g hg => ⟨Nat.le_trans hlow (h.rank g hg).1, (h.rank g hg).2⟩
  le := Nat.le_trans hlow h.le

theorem ranked_of_rank {rank : Nat} {things : List Global} (honce : things.Nodup)
    (hrank : ∀ g ∈ things, g.rank = rank) : Ranked rank rank things where
  once := honce
  rank := fun g hg => ⟨Nat.le_of_eq (hrank g hg).symm, Nat.le_of_eq (hrank g hg)⟩
  le := Nat.le_refl _

theorem ranked_singleton (g : Global) : Ranked g.rank g.rank [g] :=
  ranked_of_rank (List.nodup_singleton g) (by simp)

namespace Program.BuiltFrom

variable {p : Program} {set : EntrySet} {m : Model} {reached : Expanded Function}
  {uses : List StageUse} {stage : Stage} {f : Function}

/-! ### Declarations of a stage -/

theorem ranked_structs (h : BuiltFrom p set m reached uses) :
    Ranked 1 1 (Context.structs ⟨m, stage, none⟩) := by
  refine ranked_of_rank ?_ fun g hg => ?_
  · have hnodup := (h.structsFor_beforeUse stage).once.map fun _ _ => Global.struct.inj
    rwa [List.map_map] at hnodup
  · obtain ⟨d, -, rfl⟩ := List.mem_map.1 hg
    rfl

theorem ranked_functions (h : BuiltFrom p set m reached uses) :
    Ranked 4 4 (Context.functions ⟨m, stage, none⟩) := by
  refine ranked_of_rank ?_ fun g hg => ?_
  · have hnodup := (h.functionsFor_beforeUse stage).once
    refine List.Nodup.map_on (fun f hf g hg heq => ?_) (List.Nodup.of_map _ hnodup)
    refine List.inj_on_of_nodup_map hnodup hf hg ?_
    -- Only the entry point goes by its short name.
    simp only [Global.ofFunction] at heq
    split at heq <;> split at heq
    · next hfe hge =>
      have hsome := (of_decide_eq_true hfe).symm.trans (of_decide_eq_true hge)
      exact Option.some.inj hsome
    · cases heq
    · cases heq
    · exact Global.helper.inj heq
  · obtain ⟨f, -, rfl⟩ := List.mem_map.1 hg
    exact Global.rank_ofFunction _ f

/-- Each resource has a block and a variable of its own. -/
theorem ranked_resources (h : BuiltFrom p set m reached uses)
    {resourceGlobals : Binding → List Global}
    (hr : ∀ b, (resourceGlobals b).Sublist [.block b.name, .resource b.name]) :
    Ranked 2 2 ((m.resourcesFor stage).flatMap resourceGlobals) := by
  have hmem : ∀ b, ∀ g ∈ resourceGlobals b, g = .block b.name ∨ g = .resource b.name := by
    intro b g hg
    simpa using (hr b).subset hg
  refine ranked_of_rank (List.nodup_flatMap.2 ⟨fun b _ => List.Nodup.sublist (hr b) (by simp), ?_⟩)
    fun g hg => ?_
  · refine (List.pairwise_map.1 (h.nodup_names_resourcesFor stage)).imp
      fun {a b} hne g ha hb => ?_
    rcases hmem a g ha with rfl | rfl <;> rcases hmem b _ hb with heq | heq
    · exact hne (Global.block.inj heq)
    · cases heq
    · cases heq
    · exact hne (Global.resource.inj heq)
  · obtain ⟨b, -, hg⟩ := List.mem_flatMap.1 hg
    rcases hmem b g hg with rfl | rfl <;> rfl

/-! ### Around the entry point -/

/-- The struct that vertices are read from has attributes of its own. -/
theorem ranked_inputs (h : BuiltFrom p set m reached uses) (name : Option String) :
    Ranked 5 5 ((name.bind m.struct?).toList.flatMap fun d => d.fields.map (.input ·.name)) := by
  refine ranked_of_rank ?_ fun g hg => ?_
  · cases hd : name.bind m.struct? with
    | none => exact .nil
    | some d =>
      obtain ⟨name, -, hfind⟩ := Option.bind_eq_some_iff.1 hd
      have hhas := h.model_exact.hasStruct d (List.mem_of_find?_eq_some hfind)
      have hnodup := hhas.nodup_fields.map fun _ _ => Global.input.inj
      rw [List.map_map] at hnodup
      rw [Option.toList_some, List.flatMap_singleton]
      exact hnodup
  · obtain ⟨d, -, hg⟩ := List.mem_flatMap.1 hg
    obtain ⟨field, -, rfl⟩ := List.mem_map.1 hg
    rfl

theorem ranked_varyings (d : Option StructDef) :
    Ranked 6 6 (d.toList.flatMap Glsl.varyingGlobals) := by
  refine ranked_of_rank ?_ fun g hg => ?_
  · cases d with
    | none => exact .nil
    | some d =>
      have hnodup : (d.varyings.zipIdx.map Prod.snd).Nodup := by
        rw [List.zipIdx_map_snd]
        exact List.nodup_range'
      have hvaryings := hnodup.map fun _ _ => Global.varying.inj
      rw [List.map_map] at hvaryings
      rw [Option.toList_some, List.flatMap_singleton]
      exact hvaryings
  · obtain ⟨d, -, hg⟩ := List.mem_flatMap.1 hg
    obtain ⟨_, -, rfl⟩ := List.mem_map.1 hg
    rfl

/-- A fragment stage has render targets of its own. -/
theorem ranked_targets (h : BuiltFrom p set m reached uses)
    (hf : m.entryFunction? .fragment = some f) :
    Ranked 7 7 (Glsl.targetGlobals f.result (f.result.structName?.bind m.struct?)) := by
  cases hd : f.result.structName?.bind m.struct? with
  | none =>
    rw [Glsl.targetGlobals]
    split
    · exact ranked_of_rank .nil (by simp)
    · exact ranked_singleton (.target 0)
  | some d =>
    obtain ⟨name, hname, hfind⟩ := Option.bind_eq_some_iff.1 hd
    obtain ⟨entry, he, hfunction⟩ := Option.bind_eq_some_iff.1 hf
    rw [h.entryPoints] at he
    obtain ⟨_, hcheck⟩ := h.entry_checked he hfunction
    have hresult : f.result = .struct name := by
      cases hr : f.result <;> simp_all [Ty.structName?]
    obtain ⟨e, he, hnodup⟩ := Signature.Entry.nodup_targets_of_check hcheck rfl hresult
    obtain rfl : d = e := Option.some.inj (hfind.symm.trans (h.struct?_of_get? he))
    refine ranked_of_rank ?_ fun g hg => ?_
    · rw [← Glsl.snd_targets] at hnodup
      have htargets := hnodup.map fun _ _ => Global.target.inj
      rwa [List.map_map] at htargets
    · obtain ⟨_, -, rfl⟩ := List.mem_map.1 hg
      rfl

theorem ranked_wiring (h : BuiltFrom p set m reached uses)
    (hf : m.entryFunction? stage = some f) : Ranked 5 8 (Glsl.wiring ⟨m, stage, none⟩ f) := by
  have hmain := ranked_singleton .main
  cases stage with
  | vertex =>
    rw [Glsl.wiring_vertex]
    exact ((h.ranked_inputs _).append (ranked_varyings _) (by decide)).append hmain (by decide)
  | fragment =>
    rw [Glsl.wiring_fragment]
    have hwiring := ((ranked_varyings (m.input? f)).append
      (h.ranked_targets hf) (by decide)).append hmain (by decide)
    exact hwiring.mono (by decide)
  | compute => exact hmain.mono (by decide)

end Program.BuiltFrom

/-! ## Reserved words -/

theorem corrected_notMem {reserved : List String}
    (h : ∀ word ∈ reserved, word.toList.getLast? ≠ some '_') :
    ∀ word ∈ reserved, word ++ "_" ∉ reserved := by
  intro word _ hmem
  exact h _ hmem (by simp)

/-- No language reserves the correction of a reserved word. -/
theorem Target.corrected_notMem_reserved (t : Target) (fixup : Option Fixup) :
    ∀ word ∈ (t.language fixup).dialect.reserved,
      word ++ "_" ∉ (t.language fixup).dialect.reserved := by
  have hglsl := corrected_notMem (show ∀ word ∈ Glsl.reserved, _ by decide)
  cases t with
  | hlsl => exact corrected_notMem (show ∀ word ∈ Hlsl.reserved, _ by decide)
  | metal => exact corrected_notMem (show ∀ word ∈ Metal.reserved, _ by decide)
  | glsl330 | glslEs300 | glsl450 => exact hglsl

/-! ## Sources -/

/-- What a source declares outside of functions and structs. -/
def Target.globals : Target → Context → Function → List Global
  | .hlsl, c, _ => Hlsl.globals c
  | .glsl330, c, f => Glsl.globals Glsl.core330 c f
  | .glslEs300, c, f => Glsl.globals Glsl.es300 c f
  | .glsl450, c, f => Glsl.globals Glsl.vulkan450 c f
  | .metal, c, f => Metal.globals c f

/-- A piece of a source, and what it declares. -/
def Target.Piece (t : Target) (fixup : Option Fixup) (c : Context) (f : Function) :
    Code → List Global → Prop :=
  match t with
  | .hlsl => Hlsl.Piece c
  | .glsl330 => Glsl.Piece Glsl.core330 (fixup.getD Glsl.core330.defaultFixup) c
  | .glslEs300 => Glsl.Piece Glsl.es300 (fixup.getD Glsl.es300.defaultFixup) c
  | .glsl450 => Glsl.Piece Glsl.vulkan450 (fixup.getD Glsl.vulkan450.defaultFixup) c
  | .metal => Metal.Piece c f

/-- A source declares the things of its scopes. -/
structure Target.NamesApart (t : Target) (fixup : Option Fixup) (c : Context) (f : Function)
    (code : Code) : Prop where
  globals : (t.language fixup).Scope (t.Piece fixup c f) (t.globals c f) code
  /-- In Metal, the container is a scope of its own. -/
  members : t = .metal → ∃ before body after,
    code = before ++ (Code.line ("struct " ++ Metal.container) ++ Code.block body ";") ++ after ∧
      (t.language fixup).Scope (Metal.Member c) (Metal.members c) body

namespace Program

variable {p : Program} {set : EntrySet} {m : Model}

namespace BuiltFrom

variable {reached : Expanded Function} {uses : List StageUse} {stage : Stage} {f : Function}

theorem ranked_hlsl (h : BuiltFrom p set m reached uses) :
    Ranked 1 4 (Hlsl.globals ⟨m, stage, none⟩) := by
  have hresources : ∀ b, (Hlsl.resourceGlobals b).Sublist [.block b.name, .resource b.name] := by
    intro b
    rw [Hlsl.resourceGlobals]
    split <;> simp
  exact (h.ranked_structs.append (h.ranked_resources hresources) (by decide)).append
    h.ranked_functions (by decide)

theorem ranked_glsl (h : BuiltFrom p set m reached uses) (hf : m.entryFunction? stage = some f)
    (v : Glsl.Version) : Ranked 1 8 (Glsl.globals v ⟨m, stage, none⟩ f) := by
  have hresources : ∀ b, (Glsl.resourceGlobals v b).Sublist [.block b.name, .resource b.name] := by
    intro b
    rw [Glsl.resourceGlobals]
    split
    · exact List.Sublist.refl _
    · split <;> simp
  exact ((h.ranked_structs.append (h.ranked_resources hresources) (by decide)).append
    h.ranked_functions (by decide)).append (h.ranked_wiring hf) (by decide)

theorem ranked_metal (h : BuiltFrom p set m reached uses) (f : Function) :
    Ranked 0 4 (Metal.globals ⟨m, stage, none⟩ f) := by
  have hgroup : Ranked 0 0 (Metal.groupGlobals ⟨m, stage, none⟩ f) := by
    rw [Metal.groupGlobals.eq_def]
    split
    · exact ranked_singleton (.groupSize f.name)
    · exact ranked_of_rank .nil (by simp)
  have hentry := ranked_singleton (.ofFunction ⟨m, stage, none⟩ f)
  rw [Global.rank_ofFunction] at hentry
  exact (hgroup.append h.ranked_structs (by decide)).append
    ((ranked_singleton .container).append hentry (by decide)) (by decide)

theorem ranked_members (h : BuiltFrom p set m reached uses) :
    Ranked 2 4 (Metal.members ⟨m, stage, none⟩) := by
  have hresources : Ranked 2 2 ((m.resourcesFor stage).map (Global.resource ·.name)) := by
    rw [List.map_eq_flatMap]
    exact h.ranked_resources fun b => by simp
  have hconstructor :
      Ranked 3 3 (if (m.resourcesFor stage).isEmpty then [] else [.container]) := by
    split
    · exact ranked_of_rank .nil (by simp)
    · exact ranked_singleton .container
  exact (hresources.append hconstructor (by decide)).append h.ranked_functions (by decide)

end BuiltFrom

/-- The names of a source of a model that was built are apart as far as the names of the
program are. -/
theorem namesApart_of_build (h : p.build set = .ok m) (t : Target) (fixup : Option Fixup)
    {stage : Stage} {text : String} (ht : (t.language fixup).generate m stage = .ok text) :
    ∃ f code, m.entryFunction? stage = some f ∧ (t.language fixup).code m stage = .ok code ∧
      text = code.text 0 ∧ t.NamesApart fixup ⟨m, stage, none⟩ f code := by
  obtain ⟨_, _, hbuilt⟩ := builtFrom_of_build h
  obtain ⟨code, hcode, rfl⟩ := Language.generate_eq_ok.1 ht
  obtain ⟨entry, he⟩ := hbuilt.exists_entryName hcode
  obtain ⟨f, hf, -⟩ := hbuilt.entryFunction he
  have hglsl : ∀ v ∈ Glsl.versions, (Glsl.language v fixup).code m stage = .ok code →
      (Glsl.language v fixup).Scope (Glsl.Piece v (fixup.getD v.defaultFixup) ⟨m, stage, none⟩)
        (Glsl.globals v ⟨m, stage, none⟩ f) code := by
    intro v hv hcode
    obtain ⟨g, hg, ⟨pieces, hpieces, rfl⟩, -⟩ := hbuilt.definesInOrder_glsl hv hcode
    obtain rfl : g = f := Option.some.inj (hg.symm.trans hf)
    refine Language.scope (Target.corrected_notMem_reserved .glsl330 fixup) (fun _ => ?_)
      (Glsl.declares_code hv hpieces) (hbuilt.ranked_glsl hf v).once
    exact (by decide : "main" ∈ Glsl.reserved)
  refine ⟨f, code, hf, hcode, rfl, ?_⟩
  cases t with
  | hlsl =>
    have hranked : Ranked 1 4 (Hlsl.globals ⟨m, stage, none⟩) := hbuilt.ranked_hlsl
    obtain ⟨⟨pieces, hpieces, rfl⟩, -⟩ := hbuilt.definesInOrder_hlsl hcode
    refine ⟨Language.scope (Target.corrected_notMem_reserved .hlsl fixup) (fun hmem => ?_)
      (Hlsl.declares_code hpieces) hranked.once, nofun⟩
    exact absurd (hranked.rank _ hmem).2 (by decide)
  | glsl330 => exact ⟨hglsl _ (.head _) hcode, nofun⟩
  | glslEs300 => exact ⟨hglsl _ (.tail _ (.head _)) hcode, nofun⟩
  | glsl450 => exact ⟨hglsl _ (.tail _ (.tail _ (.head _))) hcode, nofun⟩
  | metal =>
    obtain ⟨before, body, after, hsplit, hglobals, hmembers⟩ := Metal.declares_code hf hcode
    have hscope : ∀ {Piece : Code → List Global → Prop} {things : List Global} {part : Code},
        Code.Declares Piece part things → things.Nodup → Metal.language.Scope Piece things part :=
      Language.scope (Target.corrected_notMem_reserved .metal fixup)
        (fun _ => (by decide : "main" ∈ Metal.reserved))
    exact ⟨hscope hglobals (hbuilt.ranked_metal f).once, fun _ => ⟨before, body, after, hsplit,
      hscope hmembers hbuilt.ranked_members.once⟩⟩

theorem namesApart_sample : ∃ m text, sample.build sampleSet = .ok m ∧
    (Target.glsl330.language none).generate m .fragment = .ok text ∧
    ∃ f code, m.entryFunction? .fragment = some f ∧
      (Target.glsl330.language none).code m .fragment = .ok code ∧ text = code.text 0 ∧
      Target.glsl330.NamesApart none ⟨m, .fragment, none⟩ f code := by
  have h : sample.build sampleSet = .ok _ := rfl
  exact ⟨_, _, h, rfl, namesApart_of_build h .glsl330 none rfl⟩

/-- A program whose names are told apart in the program, and not in its sources. -/
def namesakes : Program where
  structs := [color "Demo.Light", color "Demo_Light", color "float", color "float_", color "FS",
    color "CameraBuffer", color "fsin_0"]
  resources := [⟨"Camera", .uniformBuffer, some (.named "CameraBuffer"), .readOnly, none, none⟩]
  functions := [{
    name := "Demo.FS"
    metadata := ⟨some .fragment, none⟩
    params := [⟨"pixel", .named "fsin_0", .input, none⟩]
    result := .vector .float 4
    body := [
      .declare "mangled" (.named "Demo.Light") none,
      .declare "plain" (.named "Demo_Light") none,
      .declare "reserved" (.named "float") none,
      .declare "corrected" (.named "float_") none,
      .declare "entry" (.named "FS") none,
      .ret (some (.member (.resource "Camera" none) "Color" none))] }]
  shaderSets := []
where
  color (name : String) : StructDecl := ⟨name, [⟨"Color", .vector .float 4, none⟩]⟩

def namesakesSet : EntrySet := ⟨none, some "Demo.FS", none⟩

/-- The names of the program are dotted sequences of identifiers, and those of the source are
not pairwise distinct. -/
theorem namesakes_clash : ∃ m f code, namesakes.build namesakesSet = .ok m ∧
    (∀ name ∈ namesakes.structs.map (·.name) ++ namesakes.resources.map (·.name) ++
      namesakes.functions.map (·.name), Name.IsDotted name) ∧
    m.entryFunction? .fragment = some f ∧
    (Target.glsl330.language none).code m .fragment = .ok code ∧
    code.count (.line "struct Demo_Light") = 2 ∧ code.count (.line "struct float_") = 2 ∧
    .line "struct FS" ∈ code ∧ .line "vec4 FS(fsin_0 pixel)" ∈ code ∧
    .line "struct CameraBuffer" ∈ code ∧ .line "layout(std140) uniform CameraBuffer" ∈ code ∧
    .line "struct fsin_0" ∈ code ∧ .line "in vec4 fsin_0;" ∈ code ∧
    ¬ ((Target.glsl330.globals ⟨m, .fragment, none⟩ f).map (·.name Glsl.reserved)).Nodup := by
  have h : namesakes.build namesakesSet = .ok _ := rfl
  refine ⟨_, _, _, h, by decide, rfl, rfl, ?_⟩
  decide

end Program

end Shading
