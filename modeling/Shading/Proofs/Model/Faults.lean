import Shading.Proofs.Elaboration.Faults
import Shading.Proofs.Model.Building

/-!
# What building refuses

Building refuses a program at one step for a slot that two resources claim, and at no
other (`exists_of_build_clash`).  So when it does, all that comes before that step has
succeeded: the functions are found, elaborated and ordered, and what each stage uses is
known.
-/

namespace Shading

/-- An error that is no clash of two resources. -/
def Error.NoClash : Error → Prop
  | .duplicateBinding _ _ _ _ => False
  | _ => True

open Error (NoClash)

theorem Error.InDeclaration.noClash {e : Error} (h : e.InDeclaration) : e.NoClash := by
  cases h <;> trivial

/-- Elaboration refuses nothing for its slot. -/
theorem FailsAs.noClash {α : Type} {x : Except Error α} (h : FailsAs Error.InDeclaration x) :
    FailsAs NoClash x := h.mono fun _ => Error.InDeclaration.noClash

namespace Program

variable (p : Program)

/-! ## Functions and stages -/

theorem failsAs_roots (set : EntrySet) : FailsAs NoClash (p.roots set) := by
  refine FailsAs.mapM (fun ⟨stage, name⟩ => ?_) set.entries
  simp only
  split
  · exact .error trivial
  · exact .ite .ok (.error trivial)

theorem failsAs_expandFunction (name : String) : FailsAs NoClash (p.expandFunction name) := by
  rw [expandFunction]
  split
  · exact .error trivial
  · exact (failsAs_elaborateFunction p _).noClash.bind_pure

theorem failsAs_reachedFunctions (entries : List String) :
    FailsAs NoClash (p.reachedFunctions entries) :=
  failsAs_explore p.failsAs_expandFunction _ _

theorem failsAs_orderFunctions (functions : Expanded Function) (entries : List String) :
    FailsAs NoClash (orderFunctions functions entries) := by
  rw [orderFunctions]
  split
  · exact .error trivial
  · exact .ok

theorem failsAs_expandStruct (name : String) : FailsAs NoClash (p.expandStruct name) := by
  rw [expandStruct]
  split
  · exact .error trivial
  · exact (failsAs_elaborateStruct p _).noClash.bind_pure

theorem failsAs_usedResource (entry name : String) :
    FailsAs NoClash (p.usedResource entry name) := by
  rw [usedResource]
  split
  · exact .error trivial
  · exact (failsAs_elaborateResource p _).noClash.bind_pure

theorem failsAs_stageUse (calls : Graph) (functions : List Function) (stage : Stage)
    (entry : String) : FailsAs NoClash (p.stageUse calls functions stage entry) :=
  (FailsAs.mapM (p.failsAs_usedResource entry) _).bind fun _ =>
    (failsAs_explore p.failsAs_expandStruct _ _).bind_pure

theorem failsAs_orderStructs (structs : StructTable) :
    FailsAs NoClash (p.orderStructs structs) := by
  rw [orderStructs]
  split
  · exact .error trivial
  · exact .ok

end Program

/-! ## Checks -/

namespace Signature.Entry

variable (e : Entry)

theorem failsAs_refuse {α : Type} (reason : SignatureFault) :
    FailsAs NoClash (e.refuse reason : Except Error α) := .error trivial

theorem failsAs_require (reason : Option SignatureFault) :
    FailsAs NoClash (e.require reason) := by
  cases reason with
  | none => exact .ok
  | some reason => exact e.failsAs_refuse reason

theorem failsAs_interfaceStruct (name : String) : FailsAs NoClash (e.interfaceStruct name) := by
  rw [interfaceStruct]
  split
  · exact e.failsAs_refuse _
  · exact (e.failsAs_require _).bind_pure

theorem failsAs_checkParams (hasInput : Bool) (params : List Parameter) :
    FailsAs NoClash (e.checkParams hasInput params) := by
  induction params generalizing hasInput with
  | nil => exact .ok
  | cons param rest ih =>
    rw [checkParams]
    refine .ite (e.failsAs_refuse _) ?_
    split
    · exact (e.failsAs_require _).bind fun _ => ih _
    · split
      · exact .ite (e.failsAs_refuse _) (.ite (e.failsAs_refuse _)
          ((e.failsAs_interfaceStruct _).bind fun _ => ih _))
      · exact e.failsAs_refuse _

theorem failsAs_checkVertex : FailsAs NoClash e.checkVertex := by
  rw [checkVertex]
  split
  · exact (e.failsAs_interfaceStruct _).bind fun _ => (e.failsAs_require _).bind fun _ =>
      e.failsAs_require _
  · exact e.failsAs_require _

theorem failsAs_checkFragment : FailsAs NoClash e.checkFragment := by
  rw [checkFragment]
  split
  · exact (e.failsAs_interfaceStruct _).bind fun _ => e.failsAs_require _
  · exact e.failsAs_require _

theorem failsAs_checkGroup : FailsAs NoClash e.checkGroup := by
  rw [checkGroup]
  split
  · exact e.failsAs_refuse _
  · exact .ite (e.failsAs_refuse _) (.ite .ok .ok)

theorem failsAs_check : FailsAs NoClash e.check := by
  rw [check]
  split
  · exact (e.failsAs_checkParams _ _).bind fun _ => e.failsAs_checkVertex.bind_pure
  · exact (e.failsAs_checkParams _ _).bind fun _ => e.failsAs_checkFragment.bind_pure
  · exact (e.failsAs_require _).bind fun _ => (e.failsAs_checkParams _ _).bind fun _ =>
      e.failsAs_checkGroup

end Signature.Entry

theorem failsAs_checkVertexInput (vertex : Function) (fragment : Option Function) :
    FailsAs NoClash (checkVertexInput vertex fragment) := by
  rw [checkVertexInput]
  split
  · exact .ok
  · exact .ite (.error trivial) .ok

theorem failsAs_checkVaryings (structs : StructTable) (vertex fragment : Function) :
    FailsAs NoClash (checkVaryings structs vertex fragment) := by
  rw [checkVaryings]
  split
  · exact .ok
  · simp only
    split
    · exact .ok
    · exact .error trivial

theorem failsAs_checkHelper (f : Function) : FailsAs NoClash (checkHelper f) := by
  rw [checkHelper]
  split
  · exact .ok
  · exact .error trivial

theorem failsAs_checkIntrinsics (stage : Stage) (f : Function) :
    FailsAs NoClash (checkIntrinsics stage f) := by
  rw [checkIntrinsics]
  split
  · exact .ok
  · exact .error trivial

namespace Program

theorem failsAs_checkStage (structs : StructTable) (functions : List Function) (u : StageUse)
    (entry : String) : FailsAs NoClash (checkStage structs functions u entry) := by
  have hchecks := FailsAs.forM (failsAs_checkIntrinsics u.stage)
    (functions.filter fun f => f.qualifiedName ∈ u.functions)
  rw [checkStage]
  split
  · exact FailsAs.ok.bind fun _ => hchecks.bind_pure
  · exact (Signature.Entry.failsAs_check _).bind fun _ => hchecks.bind_pure

theorem failsAs_checkLinks (structs : StructTable) (functions : List Function) (set : EntrySet) :
    FailsAs NoClash (checkLinks structs functions set) := by
  rw [checkLinks]
  simp only
  split
  · exact .ok
  · refine (failsAs_checkVertexInput _ _).bind fun _ => ?_
    split
    · exact .ok
    · exact failsAs_checkVaryings _ _ _

/-! ## Clashes -/

variable {p : Program} {set : EntrySet}

/-- When building refuses resources for their slots, everything before has succeeded. -/
theorem exists_of_build_clash {first second : String} {s k : UInt32}
    (h : p.build set = .error (.duplicateBinding first second s k)) :
    ∃ reached functions uses,
      Explored p.expandFunction (· ∈ set.entries.map Prod.snd) [] reached ∧
      orderFunctions reached (set.entries.map Prod.snd) = .ok functions ∧
      List.Forall₂ (fun e u => p.stageUse (callGraph reached) functions e.1 e.2 = .ok u)
        set.entries uses ∧
      checkCollisions
          (bind (uses.flatMap StageUse.resources) (p.resources.zip (assignSlots p.resources))) =
        .error (.duplicateBinding first second s k) := by
  have hother : ∀ {α : Type} {x : Except Error α}, FailsAs NoClash x →
      x ≠ .error (.duplicateBinding first second s k) := fun hx he => hx _ he
  rw [build] at h
  obtain ⟨roots, hroots, h⟩ := (bind_eq_error.1 h).resolve_left (hother (p.failsAs_roots set))
  obtain ⟨reached, hreached, h⟩ :=
    (bind_eq_error.1 h).resolve_left (hother (p.failsAs_reachedFunctions _))
  obtain ⟨functions, hfunctions, h⟩ :=
    (bind_eq_error.1 h).resolve_left (hother (failsAs_orderFunctions _ _))
  obtain ⟨uses, huses, h⟩ := (bind_eq_error.1 h).resolve_left
    (hother (FailsAs.mapM (fun root => p.failsAs_stageUse _ functions root.1 root.2) roots))
  obtain ⟨structs, -, h⟩ := (bind_eq_error.1 h).resolve_left (hother (p.failsAs_orderStructs _))
  obtain ⟨rfl, -⟩ := roots_eq_ok hroots
  refine ⟨reached, functions, uses, explored_of_reachedFunctions hreached, hfunctions,
    mapM_eq_ok_iff.1 huses, (bind_eq_error.1 h).resolve_right ?_⟩
  rintro ⟨_, -, h⟩
  refine hother ?_ h
  have hstage : ∀ use : StageUse × String,
      FailsAs NoClash (checkStage (uses.flatMap StageUse.structs) functions use.1 use.2) :=
    fun use => failsAs_checkStage _ _ _ _
  exact (FailsAs.mapM hstage _).bind fun _ => (FailsAs.forM failsAs_checkHelper _).bind fun _ =>
    (failsAs_checkLinks _ _ _).bind_pure

end Program

end Shading
