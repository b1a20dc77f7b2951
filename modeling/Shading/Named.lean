/-!
# Named values

A type with finitely many values gives each of them a name.  The hand-over
format writes such a value as its name.  `ofName?` reads the name back, and it
accepts no other text.
-/

namespace Shading

/-- A type whose values are listed and named. -/
class Named (α : Type) where
  /-- Every value, in declaration order. -/
  values : List α
  /-- The name of a value. -/
  name : α → String

/-- The value with the given name. -/
def Named.ofName? {α : Type} [Named α] (text : String) : Option α :=
  (Named.values (α := α)).find? fun value => Named.name value == text

/-- Only a value's own name reads as that value. -/
theorem Named.name_of_ofName? {α : Type} [Named α] {text : String} {value : α}
    (h : Named.ofName? text = some value) : Named.name value = text := by
  have := List.find?_some h
  simpa using this

/-- A name reads as a listed value only. -/
theorem Named.mem_values_of_ofName? {α : Type} [Named α] {text : String} {value : α}
    (h : Named.ofName? text = some value) : value ∈ Named.values (α := α) :=
  List.mem_of_find?_eq_some h

end Shading
