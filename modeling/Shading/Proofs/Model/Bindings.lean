import Shading.Proofs.Model.Faults
import Shading.Proofs.Model.Reach
import Shading.Proofs.Model.Slots

/-!
# The bindings of a program

Slots belong to the program.  A model picks the resources that its entry points refer to
and binds each to the slot of its first declaration (`slot?_of_mem_bind`), so all models
agree on the resources they share.  Two resources may claim one slot, and a model that
would hold both of them is refused.  `bindsResources` says all of this of a program.
-/

namespace Shading.Program

/-! ## Slots by name -/

/-- The slot of a resource, which is that of the first declaration of its name. -/
def slot? (p : Program) (name : String) : Option Slot :=
  ((p.resources.zip (assignSlots p.resources)).find? (·.1.name == name)).map Prod.snd

/-- Where a resource is declared first. -/
def position (p : Program) (name : String) : Nat := p.resources.findIdx (·.name == name)

section Bind

variable {types : List (String × ResourceTy)} {decls : List (ResourceDecl × Slot)}

/-- A bound resource has another name than one without a type. -/
theorem name_ne_of_mem_bind {name : String} (h : ∀ r ∈ types, r.1 ≠ name) {b : Binding}
    (hb : b ∈ bind types decls) : b.name ≠ name := h _ (mem_of_mem_bind hb)

theorem ne_of_lookup_eq_none {name : String} (h : types.lookup name = none) :
    ∀ r ∈ types, r.1 ≠ name := by
  intro r hr heq
  simpa [heq] using List.lookup_eq_none_iff.1 h r hr

theorem ne_of_mem_filter (types : List (String × ResourceTy)) (name : String) :
    ∀ r ∈ types.filter (·.1 ≠ name), r.1 ≠ name := by
  intro r hr
  simpa using (List.mem_filter.1 hr).2

/-- A resource is bound to the slot beside the first declaration of its name. -/
theorem find?_of_mem_bind {b : Binding} (h : b ∈ bind types decls) :
    ∃ d, decls.find? (·.1.name == b.name) = some (d, b.slot) := by
  induction decls generalizing types with
  | nil => cases h
  | cons entry decls ih =>
    obtain ⟨d, slot⟩ := entry
    rw [bind] at h
    split at h
    · next hnone =>
      have hname := name_ne_of_mem_bind (ne_of_lookup_eq_none hnone) h
      rw [List.find?_cons_of_neg (by simpa using hname.symm)]
      exact ih h
    · rcases List.mem_cons.1 h with rfl | h
      · exact ⟨d, List.find?_cons_of_pos (by simp)⟩
      · have hname := name_ne_of_mem_bind (ne_of_mem_filter types d.name) h
        rw [List.find?_cons_of_neg (by simpa using hname.symm)]
        exact ih h

/-- Resources are bound in the order in which their names are declared first. -/
theorem pairwise_bind : (bind types decls).Pairwise fun a b =>
    decls.findIdx (·.1.name == a.name) < decls.findIdx (·.1.name == b.name) := by
  induction decls generalizing types with
  | nil => exact .nil
  | cons entry decls ih =>
    obtain ⟨d, slot⟩ := entry
    have hlater : ∀ b : Binding, b.name ≠ d.name →
        ((d, slot) :: decls).findIdx (·.1.name == b.name) =
          decls.findIdx (·.1.name == b.name) + 1 := by
      intro b hb
      rw [List.findIdx_cons, beq_eq_false_iff_ne.2 hb.symm]
      rfl
    rw [bind]
    split
    · next hnone =>
      refine ih.imp_of_mem fun {a b} ha hb hab => ?_
      have hnames := ne_of_lookup_eq_none hnone
      rw [hlater a (name_ne_of_mem_bind hnames ha), hlater b (name_ne_of_mem_bind hnames hb)]
      omega
    · have hnames := ne_of_mem_filter types d.name
      refine List.pairwise_cons.2 ⟨fun b hb => ?_, ih.imp_of_mem fun {a b} ha hb hab => ?_⟩
      · rw [hlater b (name_ne_of_mem_bind hnames hb), List.findIdx_cons, beq_self_eq_true]
        exact Nat.succ_pos _
      · rw [hlater a (name_ne_of_mem_bind hnames ha), hlater b (name_ne_of_mem_bind hnames hb)]
        omega

end Bind

/-! ## Resources that are reached -/

/-- The bindings of used resources, before they are checked. -/
abbrev bindings (p : Program) (types : List (String × ResourceTy)) : List Binding :=
  bind types (p.resources.zip (assignSlots p.resources))

section Bindings

variable {p : Program} {types : List (String × ResourceTy)}

theorem map_fst_zip_assignSlots (p : Program) :
    (p.resources.zip (assignSlots p.resources)).map Prod.fst = p.resources :=
  List.map_fst_zip (by simp)

theorem slot?_of_mem_bindings {b : Binding} (h : b ∈ p.bindings types) :
    p.slot? b.name = some b.slot := by
  obtain ⟨d, hd⟩ := find?_of_mem_bind h
  rw [slot?, hd]
  rfl

/-- A bound resource stands beside the declaration that its name refers to. -/
theorem exists_decl_of_mem_bindings {b : Binding} (h : b ∈ p.bindings types) :
    ∃ d, p.resource? b.name = some d ∧
      (d, b.slot) ∈ p.resources.zip (assignSlots p.resources) := by
  obtain ⟨d, hd⟩ := find?_of_mem_bind h
  refine ⟨d, ?_, List.mem_of_find?_eq_some hd⟩
  rw [resource?, ← map_fst_zip_assignSlots p, List.find?_map]
  exact congrArg (Option.map Prod.fst) hd

/-- Resources are bound in the order of their declarations. -/
theorem pairwise_position_bindings :
    (p.bindings types).Pairwise fun a b => p.position a.name < p.position b.name := by
  have hposition : ∀ name,
      (p.resources.zip (assignSlots p.resources)).findIdx (·.1.name == name) = p.position name := by
    intro name
    rw [position, ← congrArg (List.findIdx _) (map_fst_zip_assignSlots p), List.findIdx_map]
    rfl
  refine pairwise_bind.imp fun {a b} hab => ?_
  rwa [hposition, hposition] at hab

/-- A bound resource keeps the set and the slot it declares. -/
theorem declared_of_mem_bindings (hp : p.resources.length < 2 ^ 32) {b : Binding}
    (h : b ∈ p.bindings types) : ∃ d, p.resource? b.name = some d ∧
      b.slot.set = d.set.getD 0 ∧ ∀ k, d.slot = some k → b.slot.slot = k := by
  obtain ⟨d, hd, hslot⟩ := exists_decl_of_mem_bindings h
  refine ⟨d, hd, ?_⟩
  rcases cases_of_mem_zip_assignSlots hp hslot with hclaim | ⟨hclaim, hset⟩
  · obtain ⟨k, hk, hclaim⟩ := Option.map_eq_some_iff.1 hclaim
    rw [← hclaim, hk]
    exact ⟨rfl, fun _ h => Option.some.inj h⟩
  · exact ⟨hset, by simp [Option.map_eq_none_iff.1 hclaim]⟩

end Bindings

/-! ## Clashes -/

/-- A resource is declared with a slot. -/
def Claims (p : Program) (resource : String) (set slot : UInt32) : Prop :=
  ∃ d, p.resource? resource = some d ∧ d.set.getD 0 = set ∧ d.slot = some slot

/-- Two resources that the entry points of a set refer to claim one slot, and the second is
the first one declared that shares a slot with an earlier one. -/
structure Clash (p : Program) (entries : EntrySet) (first second : String) (set slot : UInt32) :
    Prop where
  different : first ≠ second
  reached : p.Reaches entries first ∧ p.Reaches entries second
  claims : p.Claims first set slot ∧ p.Claims second set slot
  order : p.position first < p.position second
  /-- The resources declared before the second do not share a slot. -/
  least : ∀ a b, p.Reaches entries a → p.Reaches entries b → a ≠ b →
    p.position a < p.position second → p.position b < p.position second → p.slot? a ≠ p.slot? b

section Clash

variable {p : Program} {set : EntrySet} {types : List (String × ResourceTy)}

/-- Bindings of different names that share a slot both claim it. -/
theorem claims_of_slot_eq (hp : p.resources.length < 2 ^ 32) {a b : Binding}
    (ha : a ∈ p.bindings types) (hb : b ∈ p.bindings types) (hname : a.name ≠ b.name)
    (hslot : a.slot = b.slot) :
    p.Claims a.name a.slot.set a.slot.slot ∧ p.Claims b.name b.slot.set b.slot.slot := by
  obtain ⟨d, hd, hdmem⟩ := exists_decl_of_mem_bindings ha
  obtain ⟨e, he, hemem⟩ := exists_decl_of_mem_bindings hb
  have hne : (d, a.slot) ≠ (e, b.slot) := by
    intro heq
    have hde : d.name = e.name := congrArg (fun pair => pair.1.name) heq
    exact hname ((name_of_resource? hd).symm.trans (hde.trans (name_of_resource? he)))
  obtain ⟨hda, heb⟩ := claims_of_mem_zip_assignSlots hp hdmem hemem hne hslot
  obtain ⟨k, hk, hda⟩ := Option.map_eq_some_iff.1 hda
  obtain ⟨l, hl, heb⟩ := Option.map_eq_some_iff.1 heb
  exact ⟨⟨d, hd, congrArg Slot.set hda, hk.trans (congrArg (some ∘ Slot.slot) hda)⟩,
    ⟨e, he, congrArg Slot.set heb, hl.trans (congrArg (some ∘ Slot.slot) heb)⟩⟩

/-- The bindings that are refused for their slots are a clash. -/
theorem clash_of_checkCollisions (hp : p.resources.length < 2 ^ 32)
    (hnames : ∀ name, name ∈ (p.bindings types).map (·.name) ↔ p.Reaches set name)
    {first second : String} {s k : UInt32}
    (h : checkCollisions (p.bindings types) = .error (.duplicateBinding first second s k)) :
    p.Clash set first second s k := by
  obtain ⟨before, a, b, after, hsplit, ha, hslot, hnodup, he⟩ := exists_of_checkCollisions h
  cases he
  have hbound : ∀ c ∈ before, c ∈ p.bindings types :=
    fun c hc => hsplit ▸ List.mem_append_left _ hc
  have hbmem : b ∈ p.bindings types := hsplit ▸ List.mem_append_right _ (.head _)
  have horder : (p.bindings types).Pairwise fun a b => p.position a.name < p.position b.name :=
    pairwise_position_bindings
  rw [hsplit, List.pairwise_append, List.pairwise_cons] at horder
  obtain ⟨-, ⟨hafter, -⟩, hbefore⟩ := horder
  have hab := hbefore a ha b (.head _)
  have hname : a.name ≠ b.name := fun heq => Nat.lt_irrefl _ (heq ▸ hab)
  -- What is declared before the second stands before it.
  have hmem : ∀ name, p.Reaches set name → p.position name < p.position b.name →
      ∃ c ∈ before, c.name = name := by
    intro name hreach hlt
    obtain ⟨c, hc, rfl⟩ := List.mem_map.1 ((hnames name).2 hreach)
    rw [hsplit, List.mem_append, List.mem_cons] at hc
    rcases hc with hc | rfl | hc
    · exact ⟨c, hc, rfl⟩
    · omega
    · have := hafter c hc
      omega
  have hclaims := claims_of_slot_eq hp (hbound a ha) hbmem hname hslot
  rw [hslot] at hclaims
  refine ⟨hname, ⟨?_, ?_⟩, hclaims, hab, ?_⟩
  · exact (hnames _).1 (List.mem_map_of_mem (hbound a ha))
  · exact (hnames _).1 (List.mem_map_of_mem hbmem)
  · intro x y hx hy hxy hxlt hylt heq
    obtain ⟨c, hc, rfl⟩ := hmem x hx hxlt
    obtain ⟨d, hd, rfl⟩ := hmem y hy hylt
    rw [slot?_of_mem_bindings (hbound c hc), slot?_of_mem_bindings (hbound d hd)] at heq
    exact hxy (congrArg _ (List.inj_on_of_nodup_map hnodup hc hd (Option.some.inj heq)))

end Clash

/-! ## Models -/

/-- The models of a program bind its resources to slots of their own, and all to the same. -/
structure BindsResources (p : Program) : Prop where
  /-- The resources of a model have slots of their own. -/
  distinct : ∀ set m, p.build set = .ok m → (m.resources.map (·.slot)).Nodup
  /-- A resource keeps the set and the slot it declares, and its set is 0 if it declares
  none. -/
  declared : ∀ set m, p.build set = .ok m → ∀ b ∈ m.resources, ∃ d,
    p.resource? b.name = some d ∧ b.slot.set = d.set.getD 0 ∧
      ∀ k, d.slot = some k → b.slot.slot = k
  /-- Models agree on the resources they share. -/
  agree : ∀ set set' m m', p.build set = .ok m → p.build set' = .ok m' →
    ∀ b ∈ m.resources, ∀ b' ∈ m'.resources, b.name = b'.name → b = b'
  /-- Two resources are refused only for a slot that both claim. -/
  clash : ∀ set first second s k, p.build set = .error (.duplicateBinding first second s k) →
    p.Clash set first second s k

/-- Slots are unique in each model of a program and the same in all of them. -/
theorem bindsResources (p : Program) (hp : p.resources.length < 2 ^ 32) : p.BindsResources where
  distinct := by
    intro set m h
    obtain ⟨_, _, hbuilt⟩ := builtFrom_of_build h
    exact nodup_of_checkCollisions hbuilt.distinct
  declared := by
    intro set m h b hb
    obtain ⟨_, _, hbuilt⟩ := builtFrom_of_build h
    exact declared_of_mem_bindings hp (hbuilt.resources ▸ hb)
  agree := by
    intro set set' m m' h h' b hb b' hb' hname
    obtain ⟨_, _, hbuilt⟩ := builtFrom_of_build h
    obtain ⟨_, _, hbuilt'⟩ := builtFrom_of_build h'
    have hslot := slot?_of_mem_bindings (hbuilt.resources ▸ hb)
    have hslot' := slot?_of_mem_bindings (hbuilt'.resources ▸ hb')
    have hty := hbuilt.model_exact.hasResource b hb
    have hty' := hbuilt'.model_exact.hasResource b' hb'
    obtain ⟨name, ty, slot⟩ := b
    obtain ⟨name', ty', slot'⟩ := b'
    obtain rfl : name = name' := hname
    obtain rfl : slot = slot' := Option.some.inj (hslot.symm.trans hslot')
    obtain rfl : ty = ty' := hty.unique hty'
    rfl
  clash := by
    intro set first second s k h
    obtain ⟨reached, functions, uses, hexplored, hordered, hused, hclash⟩ :=
      exists_of_build_clash h
    refine clash_of_checkCollisions hp (fun name => ?_) hclash
    rw [mem_names_bind_slots (hasResource_uses hexplored hordered hused),
      mem_resources_uses_iff hexplored hordered hused]

/-- A program with two textures at one slot, and fragment stages that sample the first,
the second and both. -/
def layered : Program where
  structs := []
  resources := [
    ⟨"Albedo", .texture2D, none, .readOnly, none, some 0⟩,
    ⟨"Linear", .sampler, none, .readOnly, none, none⟩,
    ⟨"Normals", .texture2D, none, .readOnly, some 0, some 0⟩]
  functions := [fragment "Demo.First" (sampled "Albedo"), fragment "Demo.Second" (sampled "Normals"),
    fragment "Demo.Both" (.binary .add (sampled "Albedo") (sampled "Normals") (some float4))]
  shaderSets := []
where
  float4 : Surface.TypeExpr := .vector .float 4
  sampled (texture : String) : Surface.Expr :=
    .call (.intrinsic "Sample") [.resource texture none, .resource "Linear" none,
      .construct [.literal (.float ⟨0⟩) none] (some (.vector .float 2))] (some float4)
  fragment (name : String) (result : Surface.Expr) : FunctionDecl := {
    name
    metadata := ⟨some .fragment, none⟩
    params := []
    result := float4
    body := [.ret (some result)] }

/-- Each texture is bound to the slot, and the stage that samples both is refused. -/
theorem bindsResources_layered : layered.resources.length < 2 ^ 32 ∧
    layered.BindsResources ∧
    (∃ m, layered.build ⟨none, some "Demo.First", none⟩ = .ok m ∧
      m.resources.map (fun b => (b.name, b.slot)) = [("Albedo", ⟨0, 0⟩), ("Linear", ⟨0, 1⟩)]) ∧
    (∃ m, layered.build ⟨none, some "Demo.Second", none⟩ = .ok m ∧
      m.resources.map (fun b => (b.name, b.slot)) = [("Linear", ⟨0, 1⟩), ("Normals", ⟨0, 0⟩)]) ∧
    layered.build ⟨none, some "Demo.Both", none⟩ =
      .error (.duplicateBinding "Albedo" "Normals" 0 0) :=
  ⟨by decide, bindsResources layered (by decide), ⟨_, rfl, by decide⟩, ⟨_, rfl, by decide⟩, rfl⟩

end Shading.Program
