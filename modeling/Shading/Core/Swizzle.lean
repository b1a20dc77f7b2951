/-!
# Swizzles and matrix members

A swizzle picks components of a vector by letter.  There are two alphabets,
`xyzw` and `rgba`, in either case, and one swizzle uses one of them.  A letter
stands for its position in the alphabet.  A matrix member `Mrc` picks one
element by row and column, both counted from one.

How long a swizzle may be is counted in bytes, and its letters are looked up as
characters.  The letters of the alphabets take one byte each.
-/

namespace Shading.Core

/-- The alphabets a swizzle may use. -/
def swizzleAlphabets : List (List Char) := [['x', 'y', 'z', 'w'], ['r', 'g', 'b', 'a']]

/-- The position of each letter in an alphabet, if all are below a vector's size. -/
def swizzlePositions? (alphabet : List Char) (size : Nat) : List Char → Option (List UInt8)
  | [] => some []
  | c :: rest =>
    match alphabet.idxOf? c with
    | none => none
    | some i =>
      if i < size then (swizzlePositions? alphabet size rest).map (UInt8.ofNat i :: ·) else none

/-- The number of bytes that text takes. -/
def byteCount : List Char → Nat
  | [] => 0
  | c :: rest => c.utf8Size + byteCount rest

/-- The components a swizzle picks from a vector of the given size. -/
def swizzle? (member : String) (size : Nat) : Option (List UInt8) :=
  let letters := member.toList.map Char.toLower
  if byteCount letters = 0 ∨ 4 < byteCount letters then none
  else swizzleAlphabets.findSome? fun alphabet => swizzlePositions? alphabet size letters

/-- The letter a component is written with. -/
def componentLetter (component : UInt8) : Char :=
  if component = 0 then 'x' else if component = 1 then 'y' else if component = 2 then 'z' else 'w'

/-- The letters a swizzle is written with. -/
def swizzleText (components : List UInt8) : String :=
  String.ofList (components.map componentLetter)

/-- A row or a column of a matrix, counted from one. -/
def matrixDigit? : Char → Option Int32
  | '1' => some 0
  | '2' => some 1
  | '3' => some 2
  | '4' => some 3
  | _ => none

/-- The row and the column a matrix member picks, counted from zero. -/
def matrixMember? (member : String) : Option (Int32 × Int32) :=
  match member.toList with
  | ['M', row, column] => do return (← matrixDigit? row, ← matrixDigit? column)
  | _ => none

/-- A swizzle in one alphabet has one component per letter. -/
theorem length_of_swizzlePositions? {alphabet : List Char} {size : Nat} {letters : List Char}
    {components : List UInt8} (h : swizzlePositions? alphabet size letters = some components) :
    components.length = letters.length := by
  induction letters generalizing components with
  | nil => simp_all [swizzlePositions?]
  | cons c rest ih =>
    simp only [swizzlePositions?] at h
    split at h
    · cases h
    · split at h
      · obtain ⟨tail, ht, rfl⟩ := Option.map_eq_some_iff.1 h
        simp [ih ht]
      · cases h

/-- A character takes a byte at least. -/
theorem length_le_byteCount (text : List Char) : text.length ≤ byteCount text := by
  induction text with
  | nil => exact Nat.le_refl 0
  | cons c rest ih =>
    have := c.utf8Size_pos
    rw [byteCount, List.length_cons]
    omega

/-- A swizzle picks one to four components. -/
theorem length_of_swizzle? {member : String} {size : Nat} {components : List UInt8}
    (h : swizzle? member size = some components) :
    0 < components.length ∧ components.length ≤ 4 := by
  unfold swizzle? at h
  simp only at h
  split at h
  · cases h
  · next hl =>
    obtain ⟨alphabet, _, ha⟩ := List.exists_of_findSome?_eq_some h
    rw [length_of_swizzlePositions? ha]
    have hle := length_le_byteCount (member.toList.map Char.toLower)
    have hpos : (member.toList.map Char.toLower) ≠ [] := by
      intro hnil
      simp [hnil, byteCount] at hl
    have := List.length_pos_iff.2 hpos
    omega

end Shading.Core
