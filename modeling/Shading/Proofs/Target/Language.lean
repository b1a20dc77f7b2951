import Shading.Proofs.Target.Stage
import Shading.Target.Language

/-!
# Every writable stage is written

The source of a stage is the structs it reaches and the arrangement of its resources
and functions.  A language whose dialect is total writes the functions of every
writable stage, so a source is missing only where a struct, a resource or the entry
point has no spelling.
-/

namespace Shading

namespace Language

variable {α : Type} {write : α → Except Error Code} {pieces : List α}

theorem exists_collect (h : ∀ a ∈ pieces, ∃ code, write a = .ok code) :
    ∃ code, collect write pieces = .ok code := by
  obtain ⟨codes, hcodes⟩ := exists_mapM_ok h
  simp [collect, hcodes]

/-- Pieces are written alike one by one. -/
theorem collect_map {β : Type} {g : α → β} {write' : β → Except Error Code}
    (h : ∀ a ∈ pieces, write' (g a) = write a) :
    collect write' (pieces.map g) = collect write pieces := by
  have hmap : (pieces.map g).mapM write' = pieces.mapM write := by
    induction pieces with
    | nil => rfl
    | cons a rest ih =>
      simp only [List.map_cons, List.mapM_cons, h a (.head _), ih fun x hx => h x (.tail _ hx)]
  simp only [collect, hmap]

/-- The first piece that is not written decides the answer. -/
theorem collect_eq_error {q : α → Bool} {a : α} {e : Error} (hf : pieces.find? q = some a)
    (hok : ∀ x ∈ pieces, q x = false → ∃ code, write x = .ok code) (ha : write a = .error e) :
    collect write pieces = .error e := by
  obtain ⟨-, before, after, rfl, hbefore⟩ := List.find?_eq_some_iff_append.1 hf
  refine bind_of_error (mapM_eq_error (fun x hx => ?_) ha)
  exact hok x (List.mem_append_left _ hx) (by simpa using hbefore x hx)

variable {l : Language} {m : Model} {stage : Stage} {f : Function}

theorem exists_generate (he : m.entryFunction? stage = some f)
    (hs : ∀ d ∈ m.structsFor stage, ∃ code, l.struct ⟨m, stage, none⟩ d = .ok code)
    (ha : ∃ code, l.arrangement ⟨m, stage, none⟩ f = .ok code) :
    ∃ text, l.generate m stage = .ok text := by
  obtain ⟨structs, hstructs⟩ := exists_collect hs
  obtain ⟨rest, hrest⟩ := ha
  simp [generate, code, he, hstructs, hrest]

/-- The error of the arrangement is the answer when the structs are written. -/
theorem generate_eq_error {e : Error} (he : m.entryFunction? stage = some f)
    (hs : ∀ d ∈ m.structsFor stage, ∃ code, l.struct ⟨m, stage, none⟩ d = .ok code)
    (ha : l.arrangement ⟨m, stage, none⟩ f = .error e) : l.generate m stage = .error e := by
  obtain ⟨structs, hstructs⟩ := exists_collect hs
  refine bind_of_error ?_
  simp only [code, he]
  rw [bind_of_ok hstructs]
  exact bind_of_error ha

end Language

/-! ## Functions of a stage -/

namespace Dialect

variable {p : Program} {d : Dialect}

/-- Texture operations apart, a dialect spells every intrinsic or leaves it to the name
that all targets share. -/
theorem spells_intrinsics {own : Intrinsic → List Operand → Option String}
    (hsample : ∀ a b c, (own .sample [a, b, c]).isSome = true)
    (hlevel : ∀ a b c d, (own .sampleLevel [a, b, c, d]).isSome = true)
    (hload : ∀ a b c, (own .load [a, b, c]).isSome = true)
    (hrest : ∀ (i : Intrinsic) (args : List Operand), i.isTextureOperation = false →
      args.length = i.arity → (own i args).isSome = true ∨ i.commonName?.isSome = true)
    (i : Intrinsic) (args : List Operand) (hl : args.length = i.arity) :
    (own i args).isSome = true ∨ i.commonName?.isSome = true := by
  cases i with
  | sample =>
    obtain ⟨a, b, c, rfl⟩ := List.length_eq_three.1 hl
    exact .inl (hsample a b c)
  | sampleLevel =>
    obtain ⟨a, rest, rfl⟩ := List.exists_cons_of_length_eq_add_one hl
    obtain ⟨b, c, d, rfl⟩ := List.length_eq_three.1 (Nat.succ.inj hl)
    exact .inl (hlevel a b c d)
  | load =>
    obtain ⟨a, b, c, rfl⟩ := List.length_eq_three.1 hl
    exact .inl (hload a b c)
  | _ => exact hrest _ args rfl hl

theorem exists_parameterText {typeName : Ty → Except Error String}
    (h : ∀ ty : Ty, ty.Plain p → ∃ text, typeName ty = .ok text) (reserved : List String)
    {param : Parameter} (hp : param.ty.Plain p) :
    ∃ text, parameterText reserved typeName param = .ok text := by
  obtain ⟨text, ht⟩ := exists_declaration h hp (correctedName reserved param.name)
  rw [parameterText]
  cases hpassing : param.passing <;> simp [ht]

end Dialect

namespace Model.Writable

variable {p : Program} {c : Context} {f : Function} {d : Dialect}

theorem exists_functionWith (h : c.model.Writable p c.stage f) (hd : d.Total p) {g : Function}
    (hg : g ∈ c.model.functions) (suffix : String) :
    ∃ code, d.functionWith c g suffix = .ok code :=
  Dialect.exists_functionWith hd (h.params g hg) (h.result g hg) (h.body g hg) suffix

theorem exists_function (h : c.model.Writable p c.stage f) (hd : d.Total p) {g : Function}
    (hg : g ∈ c.model.functions) : ∃ code, d.function c g = .ok code := by
  obtain ⟨code, hcode⟩ := h.exists_functionWith hd hg ""
  simp [Dialect.function, hcode]

/-- Resources, helpers and the entry point are written where the resources and the entry
point are. -/
theorem exists_inOrder (h : c.model.Writable p c.stage f) (hd : d.Total p)
    {resource : Context → Binding → Except Error Code}
    {entry : Context → Function → Except Error Code}
    (hr : ∀ b ∈ c.model.resourcesFor c.stage, ∃ code, resource c b = .ok code)
    (he : ∃ code, entry c f = .ok code) :
    ∃ code, Language.inOrder d resource entry c f = .ok code := by
  obtain ⟨resources, hresources⟩ := Language.exists_collect hr
  obtain ⟨helpers, hhelpers⟩ : ∃ code, Language.collect (d.function c)
      ((c.model.functionsFor c.stage).filter fun g => !c.model.isEntry c.stage g) = .ok code := by
    refine Language.exists_collect fun g hg => h.exists_function hd ?_
    exact (List.mem_filter.1 (List.mem_filter.1 hg).1).1
  obtain ⟨code, hcode⟩ := he
  simp [Language.inOrder, hresources, hhelpers, hcode]

theorem plain_field (h : c.model.Writable p c.stage f) {d : StructDef}
    (hd : d ∈ c.model.structsFor c.stage) {field : Field} (hf : field ∈ d.fields) :
    field.ty.Plain p := h.fields d (List.mem_filter.1 hd).1 field hf

theorem declares (h : c.model.Writable p c.stage f) {b : Binding}
    (hb : b ∈ c.model.resourcesFor c.stage) : p.Declares b.ty :=
  h.resources b (List.mem_filter.1 hb).1

end Model.Writable

end Shading
