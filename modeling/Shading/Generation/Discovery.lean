import Shading.Model.Model

/-!
# Discovery

`Program.discover` finds the entry sets a program defines.  Declared shader sets
come first.  Behind them stands each vertex and fragment entry that no declared
set names, and last each compute entry, all in declaration order.
-/

namespace Shading

namespace EntrySet

/-- The set of a single entry point. -/
def single (stage : Stage) (name : String) : EntrySet :=
  match stage with
  | .vertex => ⟨some name, none, none⟩
  | .fragment => ⟨none, some name, none⟩
  | .compute => ⟨none, none, some name⟩

theorem entryName?_single (stage : Stage) (name : String) :
    (single stage name).entryName? stage = some name := by cases stage <;> rfl

end EntrySet

/-- The entry points of a declared shader set. -/
def SetDecl.entrySet (d : SetDecl) : EntrySet := ⟨d.vertex, d.fragment, none⟩

namespace Program

/-- The declared shader sets that name an entry point. -/
def declaredSets (p : Program) : List EntrySet :=
  (p.shaderSets.map SetDecl.entrySet).filter (!·.isEmpty)

/-- The names in entry sets. -/
def entryNames (sets : List EntrySet) : List String :=
  sets.flatMap fun set => set.entries.map Prod.snd

/-- The stages whose entry points are found on their own when no set names them. -/
def isGraphics : Stage → Bool
  | .vertex | .fragment => true
  | .compute => false

/-- A set for each vertex and fragment entry that is not among the given names. -/
def singleSets (p : Program) (covered : List String) : List EntrySet :=
  p.functions.filterMap fun d =>
    if d.name ∈ covered then none
    else (d.metadata.stage.filter isGraphics).map fun stage => .single stage d.name

/-- A set for each compute entry. -/
def computeSets (p : Program) : List EntrySet :=
  (p.entryPoints .compute).map fun d => .single .compute d.name

/-- The entry sets a program defines. -/
def discover (p : Program) : List EntrySet :=
  p.declaredSets ++ p.singleSets (entryNames p.declaredSets) ++ p.computeSets

end Program

end Shading
