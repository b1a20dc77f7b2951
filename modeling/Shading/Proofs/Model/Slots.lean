import Mathlib.Algebra.Group.Nat.Defs
import Mathlib.Data.List.Nodup
import Mathlib.Data.List.Pairwise
import Shading.Model.Bindings

/-!
# Slots

A slot that is found free is not taken, as long as there are fewer taken slots than slots
in a set (`freeSlot_not_mem`).  So a resource without a claim gets a slot that nothing
else has: it is not taken when it is found, it is taken from then on, and all claims are
taken from the start.  Only resources that both claim a slot can share it
(`claims_of_mem_zip_assignSlots`).

Bindings are looked at in order, and the first one whose slot an earlier one has is
refused (`collision?_eq_none_iff`, `exists_of_collision?`).
-/

namespace Shading

/-! ## Free slots -/

/-- As many slots of a set as are taken up to a number are taken, while there are fewer
taken slots than slots in a set. -/
theorem le_length_of_taken {taken : List Slot} (h : taken.length < 2 ^ 32) {set : UInt32} {n : Nat}
    (hn : ∀ k < n, ⟨set, UInt32.ofNat k⟩ ∈ taken) : n ≤ taken.length := by
  by_contra hlt
  let candidate (k : Nat) : Slot := ⟨set, UInt32.ofNat k⟩
  have htaken : (List.range (taken.length + 1)).map candidate ⊆ taken := by
    intro slot hslot
    obtain ⟨k, hk, rfl⟩ := List.mem_map.1 hslot
    rw [List.mem_range] at hk
    exact hn k (by omega)
  have hdistinct : ((List.range (taken.length + 1)).map candidate).Nodup := by
    refine List.nodup_range.map_on fun a ha b hb hab => ?_
    rw [List.mem_range] at ha hb
    have hnat := congrArg (fun slot => slot.slot.toNat) hab
    simpa [candidate, Nat.mod_eq_of_lt (a := a) (b := 4294967296) (by omega),
      Nat.mod_eq_of_lt (a := b) (b := 4294967296) (by omega)] using hnat
  exact absurd (hdistinct.length_le_of_subset htaken) (by simp)

/-- Among more candidates than there are taken slots one is free, and the first one that
is free is found. -/
theorem exists_freeSlot {taken : List Slot} (h : taken.length < 2 ^ 32) (set : UInt32) :
    ∃ n < 2 ^ 32, freeSlot taken set = ⟨set, UInt32.ofNat n⟩ ∧ ⟨set, UInt32.ofNat n⟩ ∉ taken ∧
      ∀ k < n, ⟨set, UInt32.ofNat k⟩ ∈ taken := by
  let isFree (n : Nat) : Bool := ⟨set, UInt32.ofNat n⟩ ∉ taken
  have hslot : freeSlot taken set =
      ⟨set, UInt32.ofNat (((List.range (taken.length + 1)).find? isFree).getD 0)⟩ := rfl
  cases hfind : (List.range (taken.length + 1)).find? isFree with
  | some n =>
    obtain ⟨hfree, hn, hbelow⟩ := List.find?_range_eq_some.1 hfind
    rw [List.mem_range] at hn
    refine ⟨n, by omega, by rw [hslot, hfind]; rfl, by simpa [isFree] using hfree, fun k hk => ?_⟩
    simpa [isFree] using hbelow k hk
  | none =>
    have htaken : ∀ k < taken.length + 1, ⟨set, UInt32.ofNat k⟩ ∈ taken := fun k hk => by
      simpa [isFree] using List.find?_eq_none.1 hfind k (List.mem_range.2 hk)
    exact absurd (le_length_of_taken h htaken) (Nat.not_succ_le_self _)

/-- A slot that is found free is not taken. -/
theorem freeSlot_not_mem {taken : List Slot} (h : taken.length < 2 ^ 32) (set : UInt32) :
    freeSlot taken set ∉ taken := by
  obtain ⟨n, -, heq, hfree, -⟩ := exists_freeSlot h set
  rwa [heq]

/-! ## Assigned slots -/

section Assign

variable {taken : List Slot} {resources : List ResourceDecl}

/-- A resource has the slot it claims, or one of its set that was not taken. -/
theorem cases_of_mem_zip_assignFrom
    (hroom : taken.length + resources.countP (·.claim?.isNone) ≤ 2 ^ 32)
    {d : ResourceDecl} {slot : Slot} (h : (d, slot) ∈ resources.zip (assignFrom taken resources)) :
    d.claim? = some slot ∨ d.claim? = none ∧ slot.set = d.bindingSet ∧ slot ∉ taken := by
  induction resources generalizing taken with
  | nil => cases h
  | cons e rest ih =>
    rw [assignFrom] at h
    split at h
    · next claimed hclaim =>
      rcases List.mem_cons.1 h with heq | h
      · cases heq
        exact .inl hclaim
      · exact ih (by simpa [hclaim] using hroom) h
    · next hclaim =>
      simp only [List.countP_cons, hclaim, Option.isNone_none, if_true] at hroom
      rcases List.mem_cons.1 h with heq | h
      · cases heq
        exact .inr ⟨hclaim, rfl, freeSlot_not_mem (by omega) _⟩
      · rcases ih (by simp only [List.length_cons]; omega) h with hd | ⟨hd, hset, hfree⟩
        · exact .inl hd
        · exact .inr ⟨hd, hset, fun hmem => hfree (.tail _ hmem)⟩

/-- Two resources share a slot only if both claim it. -/
def ShareClaims (a b : ResourceDecl × Slot) : Prop :=
  a.2 = b.2 → a.1.claim? = some a.2 ∧ b.1.claim? = some b.2

instance : Std.Symm ShareClaims := ⟨fun _ _ h hba => (h hba.symm).symm⟩

/-- When all claims are taken, a shared slot is claimed. -/
theorem pairwise_zip_assignFrom
    (hroom : taken.length + resources.countP (·.claim?.isNone) ≤ 2 ^ 32)
    (hclaims : ∀ d ∈ resources, ∀ slot, d.claim? = some slot → slot ∈ taken) :
    (resources.zip (assignFrom taken resources)).Pairwise ShareClaims := by
  induction resources generalizing taken with
  | nil => exact .nil
  | cons d rest ih =>
    rw [List.forall_mem_cons] at hclaims
    rw [assignFrom]
    split
    · next slot hclaim =>
      have hroom' : taken.length + rest.countP (·.claim?.isNone) ≤ 2 ^ 32 := by
        simpa [hclaim] using hroom
      refine List.pairwise_cons.2 ⟨?_, ih hroom' hclaims.2⟩
      rintro ⟨e, other⟩ he rfl
      rcases cases_of_mem_zip_assignFrom hroom' he with hother | ⟨-, -, hfree⟩
      · exact ⟨hclaim, hother⟩
      · exact absurd (hclaims.1 _ hclaim) hfree
    · next hclaim =>
      simp only [List.countP_cons, hclaim, Option.isNone_none, if_true] at hroom
      have hroom' : (freeSlot taken d.bindingSet :: taken).length +
          rest.countP (·.claim?.isNone) ≤ 2 ^ 32 := by
        simp only [List.length_cons]
        omega
      have hnew : freeSlot taken d.bindingSet ∉ taken := freeSlot_not_mem (by omega) _
      refine List.pairwise_cons.2
        ⟨?_, ih hroom' fun e he slot hs => .tail _ (hclaims.2 e he slot hs)⟩
      rintro ⟨e, other⟩ he rfl
      rcases cases_of_mem_zip_assignFrom hroom' he with hother | ⟨-, -, hfree⟩
      · exact absurd (hclaims.2 e (List.of_mem_zip he).1 _ hother) hnew
      · exact absurd (.head _) hfree

/-- A resource makes a claim or none. -/
theorem length_claims_add_countP (resources : List ResourceDecl) :
    (resources.filterMap ResourceDecl.claim?).length + resources.countP (·.claim?.isNone) =
      resources.length := by
  induction resources with
  | nil => rfl
  | cons d rest ih =>
    cases hclaim : d.claim? <;>
      simp only [List.filterMap_cons, List.countP_cons, hclaim, Option.isNone_none,
        Option.isNone_some, List.length_cons, if_true, Bool.false_eq_true, if_false] <;>
      omega

/-- A resource keeps its claim, and without one it gets a slot of its set. -/
theorem cases_of_mem_zip_assignSlots (h : resources.length < 2 ^ 32) {d : ResourceDecl}
    {slot : Slot} (hmem : (d, slot) ∈ resources.zip (assignSlots resources)) :
    d.claim? = some slot ∨ d.claim? = none ∧ slot.set = d.bindingSet := by
  have hroom := Nat.le_of_lt (length_claims_add_countP resources ▸ h)
  rcases cases_of_mem_zip_assignFrom hroom hmem with hd | ⟨hd, hset, -⟩
  · exact .inl hd
  · exact .inr ⟨hd, hset⟩

/-- Two resources of a program share a slot only if both claim it. -/
theorem claims_of_mem_zip_assignSlots (h : resources.length < 2 ^ 32) {a b : ResourceDecl × Slot}
    (ha : a ∈ resources.zip (assignSlots resources))
    (hb : b ∈ resources.zip (assignSlots resources)) (hab : a ≠ b) : ShareClaims a b := by
  have hroom := Nat.le_of_lt (length_claims_add_countP resources ▸ h)
  have hclaims : ∀ d ∈ resources, ∀ slot, d.claim? = some slot →
      slot ∈ resources.filterMap ResourceDecl.claim? :=
    fun d hd slot hs => List.mem_filterMap.2 ⟨d, hd, hs⟩
  exact (pairwise_zip_assignFrom hroom hclaims).forall ha hb hab

end Assign

/-! ## Collisions -/

section Collisions

variable {earlier rest : List Binding}

/-- Bindings without a collision have slots of their own. -/
theorem nodup_of_collisionFrom (h : collisionFrom earlier rest = none) :
    (rest.map (·.slot)).Nodup ∧ ∀ b ∈ rest, ∀ a ∈ earlier, a.slot ≠ b.slot := by
  induction rest generalizing earlier with
  | nil => simp
  | cons b rest ih =>
    rw [collisionFrom] at h
    split at h
    · cases h
    · next hnew =>
      obtain ⟨hnodup, hother⟩ := ih h
      have hown : ∀ a ∈ earlier, a.slot ≠ b.slot := by simpa using hnew
      refine ⟨List.nodup_cons.2 ⟨?_, hnodup⟩, List.forall_mem_cons.2 ⟨hown, ?_⟩⟩
      · intro hmem
        obtain ⟨c, hc, hslot⟩ := List.mem_map.1 hmem
        exact hother c hc b (.head _) hslot.symm
      · exact fun c hc a ha => hother c hc a (.tail _ ha)

/-- A collision is that of the first binding whose slot an earlier one has. -/
theorem exists_of_collisionFrom {first second : Binding}
    (h : collisionFrom earlier rest = some (first, second)) :
    ∃ before after, rest = before ++ second :: after ∧ (first ∈ earlier ∨ first ∈ before) ∧
      first.slot = second.slot ∧ (before.map (·.slot)).Nodup ∧
      ∀ b ∈ before, ∀ a ∈ earlier, a.slot ≠ b.slot := by
  induction rest generalizing earlier with
  | nil => cases h
  | cons b rest ih =>
    rw [collisionFrom] at h
    split at h
    · next other hfound =>
      cases h
      refine ⟨[], rest, rfl, .inl (List.mem_of_find?_eq_some hfound), ?_, .nil, nofun⟩
      simpa using List.find?_some hfound
    · next hnew =>
      obtain ⟨before, after, rfl, hfirst, hslot, hnodup, hother⟩ := ih h
      have hown : ∀ a ∈ earlier, a.slot ≠ b.slot := by simpa using hnew
      refine ⟨b :: before, after, rfl, ?_, hslot, List.nodup_cons.2 ⟨?_, hnodup⟩,
        List.forall_mem_cons.2 ⟨hown, fun c hc a ha => hother c hc a (.tail _ ha)⟩⟩
      · rcases hfirst with hfirst | hfirst
        · rcases List.mem_cons.1 hfirst with rfl | hfirst
          · exact .inr (.head _)
          · exact .inl hfirst
        · exact .inr (.tail _ hfirst)
      · intro hmem
        obtain ⟨c, hc, hslot⟩ := List.mem_map.1 hmem
        exact hother c hc b (.head _) hslot.symm

end Collisions

/-- Bindings pass when no two share a slot. -/
theorem nodup_of_checkCollisions {bindings : List Binding}
    (h : checkCollisions bindings = .ok ()) : (bindings.map (·.slot)).Nodup := by
  rw [checkCollisions] at h
  split at h
  · next hnone => exact (nodup_of_collisionFrom hnone).1
  · cases h

/-- Bindings are refused for the first one whose slot an earlier one has. -/
theorem exists_of_checkCollisions {bindings : List Binding} {e : Error}
    (h : checkCollisions bindings = .error e) :
    ∃ before first second after, bindings = before ++ second :: after ∧ first ∈ before ∧
      first.slot = second.slot ∧ (before.map (·.slot)).Nodup ∧
      e = .duplicateBinding first.name second.name second.slot.set second.slot.slot := by
  rw [checkCollisions] at h
  split at h
  · cases h
  · next first second hcollision =>
    cases h
    obtain ⟨before, after, hsplit, hfirst, hslot, hnodup, -⟩ := exists_of_collisionFrom hcollision
    exact ⟨before, first, second, after, hsplit, hfirst.resolve_left (by simp), hslot, hnodup, rfl⟩

end Shading
