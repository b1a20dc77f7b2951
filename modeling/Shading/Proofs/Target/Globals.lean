import Shading.Proofs.Text.Names
import Shading.Target.Glsl
import Shading.Target.Hlsl
import Shading.Target.Metal

/-!
# Names of a source

What a source declares in a scope is a list of things (`Global`).  The *word* of a thing
is made from the name that the program gives to it, in five ways: mangled, short, as it
is, with text behind it, or not at all but from a number.  The name of a thing is its
word, corrected where the word may be reserved.

All names of a scope share one namespace, and nothing keeps them apart.  Two things
*clash* when they have the same word, or when the word of one is reserved and the word
of the other is its correction.  That is exactly when they have the same name
(`name_eq_name_iff`).

Plain names clash only when the program has the same name twice, counting what the
language puts behind it (`exists_origin_of_clash`).
-/

namespace Shading

/-- A thing that a source declares in a scope. -/
inductive Global where
  /-- A struct, by its qualified name. -/
  | struct (name : String)
  /-- A helper, by its qualified name. -/
  | helper (name : String)
  /-- The entry point, by its short name. -/
  | entry (name : String)
  /-- The variable of a resource. -/
  | resource (name : String)
  /-- The block around the variable of a resource. -/
  | block (resource : String)
  /-- The vertex attribute of a field. -/
  | input (field : String)
  /-- The varying at a location. -/
  | varying (location : Nat)
  /-- The variable of a render target. -/
  | target (index : UInt32)
  /-- The function `main`. -/
  | main
  /-- The container of a source in Metal. -/
  | container
  /-- The constant for the thread group of an entry point. -/
  | groupSize (entry : String)
deriving DecidableEq

namespace Global

/-- The name of a thing before it is corrected. -/
def word : Global → String
  | .struct name | .helper name => Name.mangle name
  | .entry name | .resource name | .input name => name
  | .block name => Name.mangle name ++ "Buffer"
  | .varying location => Glsl.varyingName location
  | .target index => Glsl.targetName index
  | .main => "main"
  | .container => Metal.container
  | .groupSize name => name ++ "_ThreadGroupSize"

/-- Whether the name of a thing is corrected. -/
def isCorrected : Global → Bool
  | .struct _ | .helper _ | .entry _ | .resource _ | .input _ => true
  | _ => false

/-- The name of a thing. -/
def name (reserved : List String) (g : Global) : String :=
  if g.isCorrected then correctedName reserved g.word else g.word

/-- The name that the program gives to a thing. -/
def declared? : Global → Option String
  | .struct name | .helper name | .entry name | .resource name | .block name
  | .input name | .groupSize name => some name
  | _ => none

/-- The name that stands for a thing in the program, with what is put behind it. -/
def origin? : Global → Option String
  | .block name => some (name ++ "Buffer")
  | .groupSize name => some (name ++ ".ThreadGroupSize")
  | .container => some Metal.container
  | g => g.declared?

/-- The word of a thing is reserved, and the word of another is its correction. -/
def Corrects (reserved : List String) (a b : Global) : Prop :=
  a.isCorrected = true ∧ a.word ∈ reserved ∧ b.word = a.word ++ "_"

/-- The ways in which two things get the same name. -/
inductive Clash (reserved : List String) (a b : Global) : Prop where
  /-- Their words are the same, and not reserved if only one of them is corrected. -/
  | word : a.word = b.word → (a.isCorrected = b.isCorrected ∨ a.word ∉ reserved) →
      Clash reserved a b
  | left : Corrects reserved a b → Clash reserved a b
  | right : Corrects reserved b a → Clash reserved a b

variable {reserved : List String} {g a b : Global}

theorem Clash.symm (h : Clash reserved a b) : Clash reserved b a := by
  cases h with
  | word hword hcorrected =>
    exact .word hword.symm (hcorrected.imp Eq.symm fun h => hword ▸ h)
  | left h => exact .right h
  | right h => exact .left h

/-- Things have the same name exactly if they clash. -/
theorem name_eq_name_iff (hreserved : ∀ word ∈ reserved, word ++ "_" ∉ reserved) :
    a.name reserved = b.name reserved ↔ Clash reserved a b := by
  have hclash : Clash reserved a b ↔
      (a.word = b.word ∧ (a.isCorrected = b.isCorrected ∨ a.word ∉ reserved)) ∨
        Corrects reserved a b ∨ Corrects reserved b a := by
    constructor
    · rintro (⟨hword, hcorrected⟩ | h | h)
      · exact .inl ⟨hword, hcorrected⟩
      · exact .inr (.inl h)
      · exact .inr (.inr h)
    · rintro (⟨hword, hcorrected⟩ | h | h)
      · exact .word hword hcorrected
      · exact .left h
      · exact .right h
  rw [hclash, Corrects, Corrects, name, name]
  cases ha : a.isCorrected <;> cases hb : b.isCorrected
  · simp
  · simp only [if_true, Bool.false_eq_true, if_false, eq_comm (a := a.word), correctedName_eq_iff]
    grind
  · simp only [if_true, Bool.false_eq_true, if_false, correctedName_eq_iff]
    grind
  · simp only [if_true, correctedName_eq_correctedName_iff hreserved]
    grind

/-! ## Plain names -/

/-- The name that a program gives to a thing is plain, if it gives one. -/
def IsPlain (g : Global) : Prop := ∀ name, g.declared? = some name → Name.IsPlain name

/-- A word is mangled like the name it is made from. -/
theorem mangle_word {origin : String} (h : g.origin? = some origin) :
    Name.mangle g.word = Name.mangle origin := by
  cases g with
  | varying | target | main => cases h
  | struct | helper =>
    cases h
    exact Name.mangle_mangle _
  | block =>
    cases h
    rw [word, Name.mangle_append, Name.mangle_mangle, Name.mangle_append]
  | groupSize =>
    cases h
    rw [word, Name.mangle_append, Name.mangle_append]
    exact congrArg (Name.mangle _ ++ ·) (by decide)
  | entry | resource | input | container =>
    cases h
    rfl

theorem IsPlain.origin {origin : String} (hg : g.IsPlain) (h : g.origin? = some origin) :
    Name.IsPlain origin := by
  cases g with
  | varying | target | main => cases h
  | struct | helper | entry | resource | input =>
    cases h
    exact hg _ rfl
  | block =>
    cases h
    exact (hg _ rfl).append rfl (by decide)
  | groupSize =>
    cases h
    exact (hg _ rfl).append rfl (by decide)
  | container =>
    cases h
    exact ⟨by decide, by decide⟩

/-- No word that is made from a plain name ends with an underscore. -/
theorem IsPlain.word_ne_corrected (hg : g.IsPlain) (word : String) : g.word ≠ word ++ "_" := by
  intro heq
  cases horigin : g.origin? with
  | some origin =>
    refine (hg.origin horigin).mangle_ne_corrected (Name.mangle word) ?_
    rw [← mangle_word horigin, heq, Name.mangle_append]
    rfl
  | none =>
    cases g with
    | varying location => exact Name.numbered_ne_corrected _ word _ heq
    | target index => exact Name.numbered_ne_corrected _ word _ heq
    | main =>
      have hmain : Name.IsPlain "main" := ⟨by decide, by decide⟩
      exact hmain.mangle_ne_corrected word (.trans (by decide) heq)
    | _ => cases horigin

/-- Plain things clash by their words only. -/
theorem word_eq_of_clash (ha : a.IsPlain) (hb : b.IsPlain) (h : Clash reserved a b) :
    a.word = b.word ∧ (a.isCorrected = b.isCorrected ∨ a.word ∉ reserved) := by
  cases h with
  | word hword hcorrected => exact ⟨hword, hcorrected⟩
  | left h => exact absurd h.2.2 (hb.word_ne_corrected _)
  | right h => exact absurd h.2.2 (ha.word_ne_corrected _)

/-- A number behind a stem is no word of a plain name. -/
theorem IsPlain.word_ne_numbered {origin : String} (hg : g.IsPlain)
    (h : g.origin? = some origin) (stem : String) (n : Nat) :
    g.word ≠ stem ++ "_" ++ toString n := by
  intro heq
  refine (hg.origin h).mangle_ne_numbered (Name.mangle stem) n ?_
  rw [← mangle_word h, heq, Name.mangle_numbered, Name.mangle_append]
  exact congrArg (Name.mangle stem ++ · ++ toString n) (by decide)

theorem isPlain_of_unnamed (hg : g.origin? = none) : g.IsPlain := by
  intro name hname
  cases g with
  | varying | target | main => cases hname
  | _ => cases hg

/-- What has no name in the program is told apart by its word. -/
theorem eq_of_word_of_unnamed (ha : a.origin? = none) (hb : b.origin? = none)
    (h : a.word = b.word) : a = b := by
  have hhead := congrArg (·.toList.head?) h
  cases a with
  | varying =>
    cases b with
    | varying => exact congrArg _ (Name.numbered_injective h)
    | target | main => simp [word, Glsl.varyingName, Glsl.targetName] at hhead
    | _ => cases hb
  | target =>
    cases b with
    | target => exact congrArg _ (UInt32.toNat_inj.1 (Name.numbered_injective h))
    | varying | main => simp [word, Glsl.varyingName, Glsl.targetName] at hhead
    | _ => cases hb
  | main =>
    cases b with
    | main => rfl
    | varying | target => simp [word, Glsl.varyingName, Glsl.targetName] at hhead
    | _ => cases hb
  | _ => cases ha

/-- Only what is corrected could have the word of `main`. -/
theorem word_ne_main {origin : String} (hg : g.isCorrected = false)
    (horigin : g.origin? = some origin) : g.word ≠ main.word := by
  intro h
  have hlength := congrArg String.length h
  cases g with
  | block | groupSize =>
    simp only [word, String.length_append] at hlength
    have : "main".length = 4 := rfl
    have : "Buffer".length = 6 := rfl
    have : "_ThreadGroupSize".length = 16 := rfl
    omega
  | container => cases hlength
  | varying | target | main => cases horigin
  | _ => cases hg

/-- What has no name in the program clashes with nothing else. -/
theorem eq_of_clash_of_unnamed (hmain : a = .main → "main" ∈ reserved) (ha : a.origin? = none)
    (hb : b.IsPlain) (h : Clash reserved a b) : a = b := by
  obtain ⟨hword, hcorrected⟩ := word_eq_of_clash (isPlain_of_unnamed ha) hb h
  cases horigin : b.origin? with
  | some origin =>
    cases a with
    | varying location => exact absurd hword.symm (hb.word_ne_numbered horigin "fsin" location)
    | target index =>
      exact absurd hword.symm (hb.word_ne_numbered horigin "_outputColor" index.toNat)
    | main =>
      have hb : b.isCorrected = false := (hcorrected.resolve_right (not_not.2 (hmain rfl))).symm
      exact absurd hword.symm (word_ne_main hb horigin)
    | _ => cases ha
  | none => exact eq_of_word_of_unnamed ha horigin hword

/-- Plain things that clash have the same name in the program, with what is put behind
it. -/
theorem exists_origin_of_clash (hmain : a = .main ∨ b = .main → "main" ∈ reserved)
    (ha : a.IsPlain) (hb : b.IsPlain) (hne : a ≠ b) (h : Clash reserved a b) :
    ∃ origin, a.origin? = some origin ∧ b.origin? = some origin := by
  cases hao : a.origin? with
  | none => exact absurd (eq_of_clash_of_unnamed (fun h => hmain (.inl h)) hao hb h) hne
  | some origin =>
    cases hbo : b.origin? with
    | none =>
      exact absurd (eq_of_clash_of_unnamed (fun h => hmain (.inr h)) hbo ha h.symm).symm hne
    | some origin' =>
      obtain ⟨hword, -⟩ := word_eq_of_clash ha hb h
      have hsame : Name.mangle origin = Name.mangle origin' := by
        rw [← mangle_word hao, ← mangle_word hbo, hword]
      rw [(ha.origin hao).eq_of_mangle (hb.origin hbo) hsame]
      exact ⟨origin', rfl, rfl⟩

end Global

end Shading
