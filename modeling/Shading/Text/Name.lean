/-!
# Qualified names

A qualified name is a sequence of parts with points between them.  Its last
part is its short name.  Targets have no points in identifiers, so a name is
*mangled*: every point becomes an underscore.
-/

namespace Shading.Name

/-- The part behind the last point, or the whole name when there is no point. -/
def short (name : String) : String :=
  String.ofList (name.toList.reverse.takeWhile (· != '.')).reverse

/-- A name with underscores for its points. -/
def mangle (name : String) : String :=
  String.ofList (name.toList.map fun c => if c = '.' then '_' else c)

/-- A short name has no point. -/
theorem point_notMem_short (name : String) : '.' ∉ (short name).toList := by
  intro h
  simp only [short, String.toList_ofList, List.mem_reverse] at h
  simpa using List.all_eq_true.1 (List.all_takeWhile (p := (· != '.'))) _ h

/-- A mangled name has no point. -/
theorem point_notMem_mangle (name : String) : '.' ∉ (mangle name).toList := by
  simp only [mangle, String.toList_ofList, List.mem_map, not_exists, not_and]
  intro c _ h
  split at h
  · exact absurd h (by decide)
  · exact absurd h ‹_›

/-- Mangling changes no name without points. -/
theorem mangle_of_notMem {name : String} (h : '.' ∉ name.toList) : mangle name = name := by
  have : name.toList.map (fun c => if c = '.' then '_' else c) = name.toList := by
    conv => rhs; rw [← List.map_id name.toList]
    apply List.map_congr_left
    intro c hc
    have : c ≠ '.' := fun e => h (e ▸ hc)
    simp [this]
  simp [mangle, this]

end Shading.Name
