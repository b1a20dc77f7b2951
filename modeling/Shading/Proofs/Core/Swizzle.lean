import Mathlib.Data.List.Forall2
import Mathlib.Data.List.Nodup
import Shading.Core.Swizzle

/-!
# Swizzles

A swizzle is one to four letters of one alphabet, small or capital, and each of them stands
for a component that the vector has.  `swizzle?` reads exactly those members, as the
positions of their letters (`picksComponents`).  It counts bytes where a swizzle is said to
have letters.  All letters of the alphabets are one byte long, so the count makes no
difference where the letters are found (`byteCount_eq_length`).

A swizzle is written in the first alphabet, in small letters.
-/

namespace Shading.Core

/-! ## Letters -/

/-- The first alphabet. -/
def xyzw : List Char := ['x', 'y', 'z', 'w']

/-- The second alphabet. -/
def rgba : List Char := ['r', 'g', 'b', 'a']

/-- A letter is a small letter, or the capital of it. -/
def IsCaseOf (small letter : Char) : Prop := letter = small ∨ letter = small.toUpper

/-- A letter is one of some small letters, in either case. -/
def IsAmong (letters : List Char) (letter : Char) : Prop :=
  ∃ small ∈ letters, IsCaseOf small letter

/-- The letter of the first alphabet that stands for the same component. -/
def transliterate (letter : Char) : Char :=
  if letter = 'r' then 'x' else if letter = 'g' then 'y' else if letter = 'b' then 'z'
  else if letter = 'a' then 'w' else letter

section Letters

variable {small letter : Char}

theorem toNat_toLower (c : Char) :
    c.toLower.toNat = if 65 ≤ c.toNat ∧ c.toNat ≤ 90 then c.toNat + 32 else c.toNat := by
  delta Char.toLower
  simp only [ge_iff_le, UInt32.le_iff_toNat_le]
  show _ = if 'A'.val.toNat ≤ c.val.toNat ∧ c.val.toNat ≤ 'Z'.val.toNat then _ else _
  split
  · next h =>
    have hle : c.val.toNat ≤ 90 := h.2
    show (c.val + 32).toNat = c.val.toNat + 32
    rw [UInt32.toNat_add]
    show (c.val.toNat + 32) % 4294967296 = _
    omega
  · rfl

theorem toNat_toUpper (c : Char) :
    c.toUpper.toNat = if 97 ≤ c.toNat ∧ c.toNat ≤ 122 then c.toNat - 32 else c.toNat := by
  delta Char.toUpper
  simp only [UInt32.le_iff_toNat_le]
  show _ = if 'a'.val.toNat ≤ c.val.toNat ∧ c.val.toNat ≤ 'z'.val.toNat then _ else _
  split
  · next h =>
    have hge : 97 ≤ c.val.toNat := h.1
    have hle : c.val.toNat ≤ 122 := h.2
    show (c.val + ('A'.val - 'a'.val)).toNat = c.val.toNat - 32
    rw [UInt32.toNat_add]
    show (c.val.toNat + 4294967264) % 4294967296 = _
    omega
  · rfl

/-- What comes out as a small letter is that letter or its capital. -/
theorem toLower_eq_iff (h : 97 ≤ small.toNat ∧ small.toNat ≤ 122) :
    letter.toLower = small ↔ IsCaseOf small letter := by
  rw [IsCaseOf, ← Char.toNat_inj, ← Char.toNat_inj, ← Char.toNat_inj, toNat_toLower,
    toNat_toUpper, if_pos h]
  split <;> omega

end Letters

/-! ## Alphabets -/

/-- The alphabets have four letters each, which are small ones and differ. -/
structure IsAlphabet (alphabet : List Char) : Prop where
  length : alphabet.length = 4
  nodup : alphabet.Nodup
  small : ∀ c ∈ alphabet, 97 ≤ c.toNat ∧ c.toNat ≤ 122

theorem isAlphabet_xyzw : IsAlphabet xyzw where
  length := rfl
  nodup := by simp [xyzw]
  small := by simp [xyzw]

theorem isAlphabet_rgba : IsAlphabet rgba where
  length := rfl
  nodup := by simp [rgba]
  small := by simp [rgba]

/-- No letter is in both alphabets. -/
theorem disjoint_alphabets : ∀ c ∈ xyzw, c ∉ rgba := by simp [xyzw, rgba]

section Alphabet

variable {alphabet letters : List Char} {size : Nat} {components : List UInt8} {letter : Char}

theorem IsAlphabet.mem_iff (h : IsAlphabet alphabet) :
    letter.toLower ∈ alphabet.take size ↔ IsAmong (alphabet.take size) letter := by
  constructor
  · intro hmem
    exact ⟨_, hmem, (toLower_eq_iff (h.small _ (List.mem_of_mem_take hmem))).1 rfl⟩
  · rintro ⟨small, hmem, hcase⟩
    rwa [(toLower_eq_iff (h.small _ (List.mem_of_mem_take hmem))).2 hcase]

/-- A position in an alphabet, as a component. -/
theorem IsAlphabet.toNat_ofNat (h : IsAlphabet alphabet) {i : Nat} (hi : i < alphabet.length) :
    (UInt8.ofNat i).toNat = i := by
  rw [UInt8.toNat_ofNat', Nat.mod_eq_of_lt]
  rw [h.length] at hi
  omega

theorem IsAlphabet.idxOf?_eq_some_iff (h : IsAlphabet alphabet) {i : Nat} :
    alphabet.idxOf? letter = some i ↔ alphabet[i]? = some letter := by
  rw [List.idxOf?_eq_some_iff, List.getElem?_eq_some_iff]
  constructor
  · rintro ⟨hi, hletter, -⟩
    exact ⟨hi, hletter⟩
  · rintro ⟨hi, rfl⟩
    refine ⟨hi, rfl, fun j hj heq => ?_⟩
    exact Nat.ne_of_lt hj ((List.Nodup.getElem_inj_iff h.nodup).1 heq)

/-- The components of letters are their positions, below the size. -/
theorem IsAlphabet.swizzlePositions?_eq_some_iff (h : IsAlphabet alphabet) :
    swizzlePositions? alphabet size letters = some components ↔
      List.Forall₂ (fun letter component =>
        component.toNat < size ∧ alphabet[component.toNat]? = some letter) letters components := by
  induction letters generalizing components with
  | nil => simp [swizzlePositions?, eq_comm]
  | cons letter rest ih =>
    constructor
    · intro hread
      simp only [swizzlePositions?] at hread
      split at hread
      · cases hread
      · next i hi =>
        obtain hi := h.idxOf?_eq_some_iff.1 hi
        split at hread
        · next hlt =>
          obtain ⟨tail, htail, rfl⟩ := Option.map_eq_some_iff.1 hread
          have hnat := h.toNat_ofNat (List.getElem?_eq_some_iff.1 hi).1
          exact .cons ⟨hnat.symm ▸ hlt, hnat.symm ▸ hi⟩ (ih.1 htail)
        · cases hread
    · rintro (_ | ⟨⟨hlt, hletter⟩, htail⟩)
      rw [swizzlePositions?, h.idxOf?_eq_some_iff.2 hletter]
      simp only [hlt, if_true, ih.2 htail, Option.map_some, UInt8.ofNat_toNat]

/-- Letters have components exactly when all of them are among the first of the alphabet. -/
theorem IsAlphabet.exists_positions_iff (h : IsAlphabet alphabet) :
    (∃ components, swizzlePositions? alphabet size letters = some components) ↔
      ∀ c ∈ letters, c ∈ alphabet.take size := by
  induction letters with
  | nil => simp [swizzlePositions?]
  | cons letter rest ih =>
    rw [List.forall_mem_cons, ← ih, List.mem_take_iff_getElem]
    constructor
    · rintro ⟨components, hread⟩
      rcases h.swizzlePositions?_eq_some_iff.1 hread with _ | ⟨⟨hlt, hletter⟩, htail⟩
      obtain ⟨hi, hletter⟩ := List.getElem?_eq_some_iff.1 hletter
      exact ⟨⟨_, Nat.lt_min.2 ⟨hlt, hi⟩, hletter⟩, _, h.swizzlePositions?_eq_some_iff.2 htail⟩
    · rintro ⟨⟨i, hi, rfl⟩, tail, htail⟩
      obtain ⟨hlt, hi⟩ := Nat.lt_min.1 hi
      have hnat := h.toNat_ofNat hi
      refine ⟨UInt8.ofNat i :: tail, h.swizzlePositions?_eq_some_iff.2 ?_⟩
      refine .cons ?_ (h.swizzlePositions?_eq_some_iff.1 htail)
      rw [hnat]
      exact ⟨hlt, List.getElem?_eq_getElem hi⟩

/-- The letters of an alphabet are one byte long. -/
theorem IsAlphabet.byteCount_eq_length (h : IsAlphabet alphabet)
    (hletters : ∀ c ∈ letters, c ∈ alphabet) : byteCount letters = letters.length := by
  induction letters with
  | nil => rfl
  | cons c rest ih =>
    obtain ⟨hc, hrest⟩ := List.forall_mem_cons.1 hletters
    have hbyte : c.utf8Size = 1 := by
      have hle : c.val.toNat ≤ 122 := (h.small c hc).2
      rw [Char.utf8Size, if_pos]
      rw [UInt32.le_iff_toNat_le]
      show c.val.toNat ≤ 127
      omega
    rw [byteCount, hbyte, List.length_cons]
    rw [ih hrest, Nat.add_comm]

end Alphabet

/-! ## Members -/

/-- The components a member picks are the positions of its letters in the one alphabet it has
its letters in. -/
theorem swizzle?_eq_some_iff {member : String} {size : Nat} {components : List UInt8} :
    swizzle? member size = some components ↔ 1 ≤ member.length ∧ member.length ≤ 4 ∧
      (swizzlePositions? xyzw size (member.toList.map Char.toLower) = some components ∨
        swizzlePositions? rgba size (member.toList.map Char.toLower) = some components) := by
  have hlength : (member.toList.map Char.toLower).length = member.length := by
    rw [List.length_map, String.length_toList]
  constructor
  · intro h
    obtain ⟨hpos, hle⟩ := length_of_swizzle? h
    simp only [swizzle?] at h
    split at h
    · cases h
    · obtain ⟨alphabet, hmem, hread⟩ := List.exists_of_findSome?_eq_some h
      rw [length_of_swizzlePositions? hread, hlength] at hpos hle
      refine ⟨hpos, hle, ?_⟩
      simp only [swizzleAlphabets, List.mem_cons, List.not_mem_nil, or_false] at hmem
      rcases hmem with rfl | rfl
      · exact .inl hread
      · exact .inr hread
  · rintro ⟨hpos, hle, hread⟩
    -- In either alphabet the letters take as many bytes as there are letters.
    have hbytes : byteCount (member.toList.map Char.toLower) = member.length := by
      rw [← hlength]
      rcases hread with hread | hread
      · exact isAlphabet_xyzw.byteCount_eq_length fun c hc =>
          List.mem_of_mem_take (isAlphabet_xyzw.exists_positions_iff.1 ⟨_, hread⟩ c hc)
      · exact isAlphabet_rgba.byteCount_eq_length fun c hc =>
          List.mem_of_mem_take (isAlphabet_rgba.exists_positions_iff.1 ⟨_, hread⟩ c hc)
    rw [swizzle?, if_neg (by omega)]
    show [xyzw, rgba].findSome? _ = _
    rcases hread with hread | hread
    · simp only [List.findSome?_cons, hread]
    · -- The first letter is in the second alphabet, so it is not in the first.
      have hnone : swizzlePositions? xyzw size (member.toList.map Char.toLower) = none := by
        rw [Option.eq_none_iff_forall_ne_some]
        intro other hother
        obtain ⟨c, hc⟩ := List.exists_mem_of_length_pos (hlength ▸ hpos)
        exact disjoint_alphabets c
          (List.mem_of_mem_take (isAlphabet_xyzw.exists_positions_iff.1 ⟨_, hother⟩ c hc))
          (List.mem_of_mem_take (isAlphabet_rgba.exists_positions_iff.1 ⟨_, hread⟩ c hc))
      simp only [List.findSome?_cons, hnone, hread]

section Text

variable {member : String} {size : Nat} {component : UInt8} {components : List UInt8}
  {letter : Char}

theorem eq_or_of_toNat_lt (h : component.toNat < 4) :
    component = 0 ∨ component = 1 ∨ component = 2 ∨ component = 3 := by
  simp only [← UInt8.toNat_inj]
  show component.toNat = 0 ∨ component.toNat = 1 ∨ component.toNat = 2 ∨ component.toNat = 3
  omega

/-- A component is written as the letter at its position in the first alphabet. -/
theorem componentLetter_of_xyzw (h : xyzw[component.toNat]? = some letter) :
    componentLetter component = letter := by
  have hi : component.toNat < 4 := (List.getElem?_eq_some_iff.1 h).1
  rcases eq_or_of_toNat_lt hi with rfl | rfl | rfl | rfl <;> exact Option.some.inj h

/-- A letter of the second alphabet is carried over into the first. -/
theorem componentLetter_of_rgba (h : rgba[component.toNat]? = some letter) :
    componentLetter component = transliterate letter := by
  have hi : component.toNat < 4 := (List.getElem?_eq_some_iff.1 h).1
  rcases eq_or_of_toNat_lt hi with rfl | rfl | rfl | rfl <;>
    (obtain rfl := Option.some.inj h; rfl)

/-- Components are written as text when each of them is written as its letter. -/
theorem swizzleText_eq {spell : Char → Char}
    (h : List.Forall₂ (fun letter component => componentLetter component = spell letter)
      (member.toList.map Char.toLower) components) :
    swizzleText components = member.toLower.map spell := by
  show _ = (member.map Char.toLower).map spell
  rw [← String.toList_inj, swizzleText, String.toList_ofList, String.toList_map,
    String.toList_map]
  generalize member.toList.map Char.toLower = letters at h
  induction h with
  | nil => rfl
  | cons hletter _ ih => rw [List.map_cons, List.map_cons, hletter, ih]

end Text

/-! ## What is read -/

/-- A member of a vector is read as the components it picks. -/
structure PicksComponents (member : String) (size : Nat) : Prop where
  /-- It is read exactly when it has one to four letters, all of them among the first of one
  alphabet, as many as the vector has components. -/
  read_iff : (∃ components, swizzle? member size = some components) ↔
    1 ≤ member.length ∧ member.length ≤ 4 ∧
      ((∀ letter ∈ member.toList, IsAmong (xyzw.take size) letter) ∨
        (∀ letter ∈ member.toList, IsAmong (rgba.take size) letter))
  /-- The components are the positions of the letters in the alphabet, in order. -/
  positions : ∀ components, swizzle? member size = some components →
    ∃ alphabet ∈ [xyzw, rgba], List.Forall₂ (fun letter component => component.toNat < size ∧
      ∃ small, alphabet[component.toNat]? = some small ∧ IsCaseOf small letter)
      member.toList components
  /-- Letters of the first alphabet are written as they are, small. -/
  text_of_xyzw : ∀ components, swizzle? member size = some components →
    (∀ letter ∈ member.toList, IsAmong xyzw letter) → swizzleText components = member.toLower
  /-- Letters of the second alphabet are carried over into the first. -/
  text_of_rgba : ∀ components, swizzle? member size = some components →
    (∀ letter ∈ member.toList, IsAmong rgba letter) →
      swizzleText components = member.toLower.map transliterate
  none_of_not_ascii : ∀ letter ∈ member.toList, 128 ≤ letter.toNat → swizzle? member size = none
  none_of_mixed : ∀ a ∈ member.toList, ∀ b ∈ member.toList, IsAmong xyzw a → IsAmong rgba b →
    swizzle? member size = none

section Members

variable {alphabet : List Char} {member : String} {size : Nat} {components : List UInt8}

/-- The letters of a member have positions exactly when all of them, in either case, are among
the first of the alphabet. -/
theorem IsAlphabet.exists_positions_toLower_iff (h : IsAlphabet alphabet) :
    (∃ components, swizzlePositions? alphabet size (member.toList.map Char.toLower) =
      some components) ↔ ∀ letter ∈ member.toList, IsAmong (alphabet.take size) letter := by
  rw [h.exists_positions_iff, List.forall_mem_map]
  exact forall₂_congr fun letter _ => h.mem_iff

/-- The position of a letter is that of the small letter it is. -/
theorem IsAlphabet.positions_of_toLower (h : IsAlphabet alphabet)
    (hread : swizzlePositions? alphabet size (member.toList.map Char.toLower) = some components) :
    List.Forall₂ (fun letter component => component.toNat < size ∧
      ∃ small, alphabet[component.toNat]? = some small ∧ IsCaseOf small letter)
      member.toList components := by
  rw [h.swizzlePositions?_eq_some_iff, List.forall₂_map_left_iff] at hread
  refine hread.imp fun letter component hletter => ⟨hletter.1, _, hletter.2, ?_⟩
  exact (toLower_eq_iff (h.small _ (List.mem_of_getElem? hletter.2))).1 rfl

/-- A letter is in one alphabet only. -/
theorem not_isAmong_of_isAmong {letter : Char} (h : IsAmong xyzw letter) :
    ¬ IsAmong rgba letter := by
  intro hrgba
  have hx : letter.toLower ∈ xyzw.take 4 := isAlphabet_xyzw.mem_iff.2 h
  have hr : letter.toLower ∈ rgba.take 4 := isAlphabet_rgba.mem_iff.2 hrgba
  exact disjoint_alphabets _ hx hr

/-- No letter of an alphabet is beyond ASCII. -/
theorem IsAlphabet.not_isAmong_of_le (h : IsAlphabet alphabet) {letter : Char}
    (hlarge : 128 ≤ letter.toNat) : ¬ IsAmong alphabet letter := by
  rintro ⟨small, hmem, rfl | rfl⟩
  · have := (h.small _ hmem).2
    omega
  · rw [toNat_toUpper] at hlarge
    have := (h.small _ hmem).2
    split at hlarge <;> omega

theorem IsAmong.of_take {letters : List Char} {letter : Char}
    (h : IsAmong (letters.take size) letter) : IsAmong letters letter := by
  obtain ⟨small, hsmall, hcase⟩ := h
  exact ⟨small, List.mem_of_mem_take hsmall, hcase⟩

/-- What is read has its letters in one alphabet or in the other, and is read in that one. -/
theorem exists_alphabet_of_swizzle? (h : swizzle? member size = some components) :
    0 < member.toList.length ∧ (
      ((∀ letter ∈ member.toList, IsAmong xyzw letter) ∧
        swizzlePositions? xyzw size (member.toList.map Char.toLower) = some components) ∨
      ((∀ letter ∈ member.toList, IsAmong rgba letter) ∧
        swizzlePositions? rgba size (member.toList.map Char.toLower) = some components)) := by
  obtain ⟨hpos, -, hread⟩ := swizzle?_eq_some_iff.1 h
  refine ⟨String.length_toList ▸ hpos,
    hread.imp (fun hread => ⟨?_, hread⟩) fun hread => ⟨?_, hread⟩⟩
  · exact fun letter hmem =>
      (isAlphabet_xyzw.exists_positions_toLower_iff.1 ⟨_, hread⟩ letter hmem).of_take
  · exact fun letter hmem =>
      (isAlphabet_rgba.exists_positions_toLower_iff.1 ⟨_, hread⟩ letter hmem).of_take

end Members

/-- Swizzles are read exactly, as the positions of their letters. -/
theorem picksComponents (member : String) (size : Nat) : PicksComponents member size where
  read_iff := by
    simp only [swizzle?_eq_some_iff, exists_and_left, exists_or,
      isAlphabet_xyzw.exists_positions_toLower_iff, isAlphabet_rgba.exists_positions_toLower_iff]
  positions components h := by
    obtain ⟨-, ⟨-, hread⟩ | ⟨-, hread⟩⟩ := exists_alphabet_of_swizzle? h
    · exact ⟨xyzw, by simp, isAlphabet_xyzw.positions_of_toLower hread⟩
    · exact ⟨rgba, by simp, isAlphabet_rgba.positions_of_toLower hread⟩
  text_of_xyzw components h hxyzw := by
    obtain ⟨hpos, ⟨-, hread⟩ | ⟨hrgba, -⟩⟩ := exists_alphabet_of_swizzle? h
    · have htext : swizzleText components = member.toLower.map id :=
        swizzleText_eq ((isAlphabet_xyzw.swizzlePositions?_eq_some_iff.1 hread).imp
          fun _ _ hletter => componentLetter_of_xyzw hletter.2)
      rw [htext, ← String.toList_inj, String.toList_map, List.map_id]
    · obtain ⟨letter, hmem⟩ := List.exists_mem_of_length_pos hpos
      exact absurd (hrgba letter hmem) (not_isAmong_of_isAmong (hxyzw letter hmem))
  text_of_rgba components h hrgba := by
    obtain ⟨hpos, ⟨hxyzw, -⟩ | ⟨-, hread⟩⟩ := exists_alphabet_of_swizzle? h
    · obtain ⟨letter, hmem⟩ := List.exists_mem_of_length_pos hpos
      exact absurd (hrgba letter hmem) (not_isAmong_of_isAmong (hxyzw letter hmem))
    · exact swizzleText_eq ((isAlphabet_rgba.swizzlePositions?_eq_some_iff.1 hread).imp
        fun _ _ hletter => componentLetter_of_rgba hletter.2)
  none_of_not_ascii letter hmem hlarge := by
    rw [Option.eq_none_iff_forall_ne_some]
    intro components h
    obtain ⟨-, ⟨hxyzw, -⟩ | ⟨hrgba, -⟩⟩ := exists_alphabet_of_swizzle? h
    · exact isAlphabet_xyzw.not_isAmong_of_le hlarge (hxyzw letter hmem)
    · exact isAlphabet_rgba.not_isAmong_of_le hlarge (hrgba letter hmem)
  none_of_mixed a ha b hb hxyzw hrgba := by
    rw [Option.eq_none_iff_forall_ne_some]
    intro components h
    obtain ⟨-, ⟨hall, -⟩ | ⟨hall, -⟩⟩ := exists_alphabet_of_swizzle? h
    · exact not_isAmong_of_isAmong (hall b hb) hrgba
    · exact not_isAmong_of_isAmong hxyzw (hall a ha)

/-- Capitals are read as small letters, and the second alphabet is written in the first. -/
example : swizzle? "RgB" 3 = some [0, 1, 2] ∧ swizzleText [0, 1, 2] = "xyz" ∧
    swizzle? "xg" 4 = none ∧ swizzle? "z" 2 = none := by decide

end Shading.Core
