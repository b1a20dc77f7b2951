import Shading.Proofs.Binary32.Text
import Shading.Proofs.Handover.Surface

/-!
# Reading programs back

A program is read back from what is written of it (`Program.readsBack`), with any of the
members left out that need not be written.  Only numbers are written in more than one way,
and only they are read by someone else.  A number may be written as any JSON number that is
rounded to it (`Json.Number.RoundsTo`), such as the one with its shortest digits
(`Binary32.roundsTo_shortestNumber`).  The reader of numbers is relied on to round those that are
written, and no others: a reader by way of double precision rounds some numbers to a
neighbour.  That reader gives every finite number back from the decimal that it equals
(`Program.ofJson?_exactNumber`).

A member that has a value to take is left out only when it has this value.  The value is
told by what is written, because nothing else is written alike (`Reads.unique`).
-/

namespace Shading

open Json

variable {number : Json.Number → Option Binary32}

/-! ## Declarations -/

theorem GroupSize.reads (g : GroupSize) : Reads GroupSize.ofJson? g.toJson g where
  solid := rfl
  read := by
    intro j ht
    have heach : Reads (fun j => j.each fun p => uint32? p.1) g.toJson [g.x, g.y, g.z] :=
      .each fun n _ => .uint32 n
    exact bind_of_some (heach.read j ht)

theorem FieldDecl.reads (d : FieldDecl) : Reads FieldDecl.ofJson? d.toJson d := by
  refine .object (by simp) fun members hr => ?_
  have hname := hr.field "name" rfl (by decide) (.string d.name)
  have hty := hr.field "ty" rfl (by decide) d.ty.reads
  have hsemantic := hr.fieldOption "semantic" rfl (by decide)
    fun s (_ : d.semantic = some s) => s.reads
  exact (bind_of_some hname).trans <| (bind_of_some hty).trans (bind_of_some hsemantic)

theorem StructDecl.reads (d : StructDecl) : Reads StructDecl.ofJson? d.toJson d := by
  refine .object (by simp) fun members hr => ?_
  have hname := hr.field "name" rfl (by decide) (.string d.name)
  have hfields := hr.field "fields" rfl (by decide) (.each fun field _ => FieldDecl.reads field)
  exact (bind_of_some hname).trans (bind_of_some hfields)

theorem ResourceDecl.reads (d : ResourceDecl) : Reads ResourceDecl.ofJson? d.toJson d := by
  refine .object (by simp) fun members hr => ?_
  have hname := hr.field "name" rfl (by decide) (.string d.name)
  have hkind := hr.field "kind" rfl (by decide) (.named d.kind)
  have helement := hr.fieldOption "element" rfl (by decide)
    fun ty (_ : d.element = some ty) => ty.reads
  have haccess := hr.fieldOr "access" Access.readOnly rfl (.named d.access) fun v hv => by
    obtain rfl : v = .ofNamed Access.readOnly := by simpa [defaults] using hv
    exact .named Access.readOnly
  have hset := hr.fieldOption "set" rfl (by decide) fun n (_ : d.set = some n) => .uint32 n
  have hslot := hr.fieldOption "slot" rfl (by decide) fun n (_ : d.slot = some n) => .uint32 n
  exact (bind_of_some hname).trans <| (bind_of_some hkind).trans <|
    (bind_of_some helement).trans <| (bind_of_some haccess).trans <|
      (bind_of_some hset).trans (bind_of_some hslot)

theorem ParamDecl.reads (d : ParamDecl) : Reads ParamDecl.ofJson? d.toJson d := by
  refine .object (by simp) fun members hr => ?_
  have hname := hr.field "name" rfl (by decide) (.string d.name)
  have hty := hr.field "ty" rfl (by decide) d.ty.reads
  have hpassing := hr.fieldOr "direction" Passing.input rfl (.named d.passing) fun v hv => by
    obtain rfl : v = .ofNamed Passing.input := by simpa [defaults] using hv
    exact .named Passing.input
  have hsemantic := hr.fieldOption "semantic" rfl (by decide)
    fun s (_ : d.semantic = some s) => s.reads
  exact (bind_of_some hname).trans <| (bind_of_some hty).trans <|
    (bind_of_some hpassing).trans (bind_of_some hsemantic)

theorem FunctionMetadata.reads (m : FunctionMetadata) :
    Reads FunctionMetadata.ofJson? m.toJson m := by
  refine .object (by simp) fun members hr => ?_
  have hstage := hr.fieldOption "stage" rfl (by decide) fun s (_ : m.stage = some s) => .named s
  have hsize := hr.fieldOption "thread_group_size" rfl (by decide)
    fun g (_ : m.groupSize = some g) => g.reads
  exact (bind_of_some hstage).trans (bind_of_some hsize)

/-- The numbers of a function. -/
def FunctionDecl.floats (d : FunctionDecl) : List Binary32 := Surface.Stmt.floatsAll d.body

theorem FunctionDecl.reads {float : Binary32 → Json} (d : FunctionDecl)
    (h : ∀ x ∈ d.floats, Binary32.ofJson? number (float x) = some x) :
    Reads (FunctionDecl.ofJson? number) (d.toJson float) d := by
  refine .object (by simp) fun members hr => ?_
  have hname := hr.field "name" rfl (by decide) (.string d.name)
  have hmetadata := hr.fieldOr "metadata" FunctionMetadata.helper rfl d.metadata.reads
    fun v hv => by
      obtain rfl : v = FunctionMetadata.helper.toJson := by simpa [defaults] using hv
      exact FunctionMetadata.helper.reads
  have hparams := hr.field "params" rfl (by decide) (.each fun param _ => ParamDecl.reads param)
  have hresult := hr.field "return_type" rfl (by decide) d.result.reads
  have hbody := hr.field "body" rfl (by decide) (.each (Surface.Stmt.reads_all d.body h))
  exact (bind_of_some hname).trans <| (bind_of_some hmetadata).trans <|
    (bind_of_some hparams).trans <| (bind_of_some hresult).trans (bind_of_some hbody)

theorem SetDecl.reads (d : SetDecl) : Reads SetDecl.ofJson? d.toJson d := by
  refine .object (by simp) fun members hr => ?_
  have hname := hr.field "name" rfl (by decide) (.string d.name)
  have hvertex := hr.fieldOption "vertex" rfl (by decide) fun s (_ : d.vertex = some s) => .string s
  have hfragment := hr.fieldOption "fragment" rfl (by decide)
    fun s (_ : d.fragment = some s) => .string s
  exact (bind_of_some hname).trans <| (bind_of_some hvertex).trans (bind_of_some hfragment)

/-! ## Numbers -/

/-- The sign of a JSON number.  A decimal zero may have one. -/
def Json.Number.isNegative : Json.Number → Bool
  | .integer value => value < 0
  | .decimal negative _ _ => negative

/-- The number that a JSON number writes behind its sign. -/
def Json.Number.magnitude : Json.Number → ℚ
  | .integer value => value.natAbs
  | .decimal _ mantissa exponent => mantissa * 10 ^ exponent

/-- A finite number is the one that a JSON number is rounded to. -/
structure Json.Number.RoundsTo (n : Json.Number) (x : Binary32) : Prop where
  finite : x.isFinite = true
  nearest : Binary32.Nearest n.isNegative n.magnitude x

/-- A reader of JSON numbers rounds a number. -/
def Json.Number.IsRoundedBy (n : Json.Number) (number : Json.Number → Option Binary32) : Prop :=
  ∀ x, n.RoundsTo x → number n = some x

namespace Binary32

theorem Nearest.unique {negative : Bool} {value : ℚ} {x y : Binary32}
    (hx : Nearest negative value x) (hy : Nearest negative value y) : x = y := by
  rw [← ofMagnitude_magnitude x, ← ofMagnitude_magnitude y, hx.sign, hy.sign,
    hx.rounds.unique hy.rounds]

/-- A reader rounds a number when it gives the number that this one is rounded to. -/
theorem isRoundedBy_of_eq {n : Json.Number} {x : Binary32} (hn : n.RoundsTo x)
    (h : number n = some x) : n.IsRoundedBy number := by
  intro y hy
  rw [h, hn.nearest.unique hy.nearest]

/-- A finite number with its shortest digits. -/
def shortestNumber (x : Binary32) : Json.Number :=
  if x.magnitude = 0 then .decimal x.isNegative 0 0
  else .decimal x.isNegative (shortest x.magnitude).1 (shortest x.magnitude).2

/-- The shortest digits of a finite number are rounded to the number. -/
theorem roundsTo_shortestNumber {x : Binary32} (h : x.isFinite = true) :
    x.shortestNumber.RoundsTo x := by
  have hfinite := magnitude_lt_of_isFinite h
  unfold shortestNumber
  split
  · next hzero =>
    refine ⟨h, rfl, ?_⟩
    rw [hzero, Json.Number.magnitude, Nat.cast_zero, zero_mul, ← Format.single.value_zero]
    exact (Format.brackets_value _ 0).rounds (Nat.zero_le _)
  · next hzero =>
    obtain ⟨hbrackets, -⟩ := shortest_spec (Nat.pos_of_ne_zero hzero) hfinite
    exact ⟨h, rfl, hbrackets.rounds hfinite.le⟩

end Binary32

/-! ## Programs -/

namespace Program

/-- The numbers in the code of a program. -/
def floats (p : Program) : List Binary32 := p.functions.flatMap FunctionDecl.floats

/-- A list of declarations is left out only when it is empty. -/
theorem reads_list {α : Type} {encode : α → Json} {read : Json → Option α} {values : List α}
    {members members' : List (String × Json)} (hr : Remains members members') (name : String)
    (hl : members.lookup name = some (.list encode values))
    (hd : ∀ v, (name, v) ∈ defaults → v = .array [])
    (h : ∀ value ∈ values, Reads read (encode value) value) :
    ((Json.object members').fieldOr name [] fun p => p.1.each fun q => read q.1) = some values := by
  have hvalues : Reads (fun j => j.each fun q => read q.1) (.list encode values) values := .each h
  have hempty : Reads (fun j => j.each fun q => read q.1) (.list encode []) [] := .each nofun
  refine hr.fieldOr name [] hl hvalues fun v hv => ?_
  obtain rfl := hd v hv
  exact hempty

theorem reads {float : Binary32 → Json} (p : Program)
    (h : ∀ x ∈ p.floats, Binary32.ofJson? number (float x) = some x) :
    Reads (ofJsonWith? number) (p.toJson float) p := by
  refine .object (by simp) fun members hr => ?_
  have hstructs := reads_list hr "structs" rfl (by simp [defaults]) fun d _ => StructDecl.reads d
  have hresources := reads_list hr "resources" rfl (by simp [defaults])
    fun d _ => ResourceDecl.reads d
  have hfunction : ∀ d ∈ p.functions,
      Reads (FunctionDecl.ofJson? number) (d.toJson float) d := fun d hd =>
    d.reads fun x hx => h x (List.mem_flatMap.2 ⟨d, hd, hx⟩)
  have hfunctions := reads_list hr "functions" rfl (by simp [defaults]) hfunction
  have hsets := reads_list hr "shader_sets" rfl (by simp [defaults]) fun d _ => SetDecl.reads d
  exact (bind_of_some hstructs).trans <| (bind_of_some hresources).trans <|
    (bind_of_some hfunctions).trans (bind_of_some hsets)

/-- A program is read back from what is written of it, and from what is left when members are
left out that need not be written.  Its numbers may be written in any way that is rounded to
them, by a reader that rounds the numbers that are written. -/
theorem readsBack {p : Program} {written : Binary32 → Json.Number}
    (hwritten : ∀ x ∈ p.floats, (written x).RoundsTo x)
    (hnumber : ∀ x ∈ p.floats, (written x).IsRoundedBy number) :
    ofJsonWith? number (p.toJson (.number ∘ written)) = some p ∧
      ∀ j, Trims (p.toJson (.number ∘ written)) j → ofJsonWith? number j = some p := by
  have hread : ∀ x ∈ p.floats, Binary32.ofJson? number (.number (written x)) = some x :=
    fun x hx => hnumber x hx x (hwritten x hx)
  have hreads : Reads (ofJsonWith? number) (p.toJson (.number ∘ written)) p := p.reads hread
  exact ⟨hreads.written, hreads.read⟩

/-- By way of double precision a program is read back whose finite numbers are written as the
decimals that they equal. -/
theorem ofJson?_exactNumber {p : Program} (hfinite : ∀ x ∈ p.floats, x.isFinite = true) :
    ofJson? (p.toJson (.number ∘ Binary32.exactNumber)) = some p := by
  have hread : ∀ x ∈ p.floats,
      Binary32.ofJson? Binary32.ofNumber (.number x.exactNumber) = some x :=
    fun x hx => Binary32.ofNumber_exactNumber (hfinite x hx)
  exact Reads.written (p.reads hread)

/-- A program with a number that has no short decimal. -/
def tenth : Program where
  structs := []
  resources := [⟨"Lights", .structuredBuffer, some (.vector .float 4), .readOnly, none, some 1⟩]
  functions := [{
    name := "Demo.Tenth"
    metadata := .helper
    params := [⟨"scale", .scalar .float, .input, none⟩]
    result := .scalar .float
    body := [.ret (some (.literal (.float ⟨0x3DCCCCCD⟩) none))] }]
  shaderSets := []

/-- The program with everything left out that need not be written. -/
def tenthJson : Json := .object [
  ("resources", .array [.object [("name", .string "Lights"), ("kind", .string "StructuredBuffer"),
    ("element", .object [("Vector", .array [.string "Float", .integer 4])]),
    ("slot", .integer 1)]]),
  ("functions", .array [.object [("name", .string "Demo.Tenth"),
    ("params", .array [.object [("name", .string "scale"),
      ("ty", .object [("Scalar", .string "Float")])]]),
    ("return_type", .object [("Scalar", .string "Float")]),
    ("body", .array [.object [("Return", .object [("kind", .object [("Literal",
      .object [("Float", .number (.decimal false 1 (-1)))])])])]])]])]

/-- The only number is written as 0.1. -/
theorem readsBack_tenth :
    (∀ x ∈ tenth.floats, x.shortestNumber.RoundsTo x) ∧
      (∀ x ∈ tenth.floats, x.shortestNumber.IsRoundedBy Binary32.ofNumber) ∧
      Trims (tenth.toJson (.number ∘ Binary32.shortestNumber)) tenthJson ∧
      ofJson? tenthJson = some tenth := by
  have hfinite : ∀ x ∈ tenth.floats, x.isFinite = true := by decide
  have hwritten : ∀ x ∈ tenth.floats, x.shortestNumber.RoundsTo x :=
    fun x hx => Binary32.roundsTo_shortestNumber (hfinite x hx)
  have hread : ∀ x ∈ tenth.floats, Binary32.ofNumber x.shortestNumber = some x := by
    decide +kernel
  have hnumber : ∀ x ∈ tenth.floats, x.shortestNumber.IsRoundedBy Binary32.ofNumber :=
    fun x hx => Binary32.isRoundedBy_of_eq (hwritten x hx) (hread x hx)
  have hnull : ∀ name, name ≠ "Return" → Omittable name .null := fun name hn => .inl ⟨rfl, hn⟩
  have hlist : ∀ name ∈ ["structs", "shader_sets"], Omittable name (.array []) := by
    simp [Omittable, defaults]
  have haccess : Omittable "access" (.ofNamed Access.readOnly) := .inr (by simp [defaults])
  have hdirection : Omittable "direction" (.ofNamed Passing.input) := .inr (by simp [defaults])
  have hmetadata : Omittable "metadata" FunctionMetadata.helper.toJson := .inr (by simp [defaults])
  have htrims : Trims (tenth.toJson (.number ∘ Binary32.shortestNumber)) tenthJson := by
    refine .object (.leave (hlist _ (by decide)) <| .keep (.array (.cons (.object ?_) .nil)) <|
      .keep (.array (.cons (.object ?_) .nil)) <| .leave (hlist _ (by decide)) .nil)
    · exact .keep (.refl _) <| .keep (.refl _) <| .keep (.refl _) <| .leave haccess <|
        .leave (hnull _ (by decide)) <| .keep (.refl _) .nil
    · refine .keep (.refl _) <| .leave hmetadata <| .keep (.array (.cons (.object ?_) .nil)) <|
        .keep (.refl _) <| .keep (.array (.cons (.object (.keep (.object ?_) .nil)) .nil)) .nil
      · exact .keep (.refl _) <| .keep (.refl _) <| .leave hdirection <|
          .leave (hnull _ (by decide)) .nil
      · exact .keep (.refl _) <| .leave (hnull _ (by decide)) .nil
  exact ⟨hwritten, hnumber, htrims, (readsBack hwritten hnumber).2 tenthJson htrims⟩

end Program

end Shading
