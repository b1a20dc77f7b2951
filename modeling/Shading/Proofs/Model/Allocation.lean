import Mathlib.Logic.Function.Basic
import Shading.Proofs.Model.Slots

/-!
# The next free slots

A resource that claims no slot gets the least slot of its set that no declaration claims
and no earlier resource without a claim received (`NextFree`).

The slots can be found in one pass over the resources (`allocate`).  The pass keeps a
cursor for each set and moves it forward over slots that are taken.  It never looks back:
what lies before the cursor of a set stays taken (`Passed`), so the slot that the cursor
stops at is the least free one.  The pass finds the slots that are found by looking for the
least free slot anew each time (`nextFree_assignSlots`).
-/

namespace Shading

/-! ## One pass with cursors -/

/-- The first number from a cursor on whose slot is not taken. -/
def skipTaken (taken : List Slot) (set : UInt32) (cursor : Nat) : Nat :=
  if cursor < 2 ^ 32 ∧ ⟨set, UInt32.ofNat cursor⟩ ∈ taken then skipTaken taken set (cursor + 1)
  else cursor
termination_by 2 ^ 32 - cursor

/-- Slots for resources in declaration order, when some slots are taken and the cursors
stand somewhere. -/
def allocateFrom (taken : List Slot) (cursors : UInt32 → Nat) : List ResourceDecl → List Slot
  | [] => []
  | d :: rest =>
    match d.claim? with
    | some slot => slot :: allocateFrom taken cursors rest
    | none =>
      let next := skipTaken taken d.bindingSet (cursors d.bindingSet)
      let slot : Slot := ⟨d.bindingSet, UInt32.ofNat next⟩
      slot :: allocateFrom (slot :: taken) (Function.update cursors d.bindingSet next) rest

/-- The slot of each resource of a program, found in one pass. -/
def allocate (resources : List ResourceDecl) : List Slot :=
  allocateFrom (resources.filterMap ResourceDecl.claim?) (fun _ => 0) resources

/-- All slots before the cursors are taken. -/
def Passed (taken : List Slot) (cursors : UInt32 → Nat) : Prop :=
  ∀ set, ∀ k < cursors set, ⟨set, UInt32.ofNat k⟩ ∈ taken

section Pass

variable {taken : List Slot} {cursors : UInt32 → Nat} {set : UInt32} {resources : List ResourceDecl}

/-- A cursor moves over taken slots only and stops at the first free one. -/
theorem skipTaken_spec {cursor : Nat} (h : ∀ k < cursor, ⟨set, UInt32.ofNat k⟩ ∈ taken) :
    (∀ k < skipTaken taken set cursor, ⟨set, UInt32.ofNat k⟩ ∈ taken) ∧
      (skipTaken taken set cursor < 2 ^ 32 →
        ⟨set, UInt32.ofNat (skipTaken taken set cursor)⟩ ∉ taken) := by
  fun_induction skipTaken taken set cursor with
  | case1 cursor hstep ih =>
    refine ih fun k hk => ?_
    rcases Nat.lt_succ_iff_lt_or_eq.1 hk with hk | rfl
    · exact h k hk
    · exact hstep.2
  | case2 cursor hstop => exact ⟨h, fun hlt hmem => hstop ⟨hlt, hmem⟩⟩

/-- Where a cursor stops is the least free slot of the set. -/
theorem freeSlot_eq_skipTaken (h : taken.length < 2 ^ 32) (hpassed : Passed taken cursors)
    (set : UInt32) :
    freeSlot taken set = ⟨set, UInt32.ofNat (skipTaken taken set (cursors set))⟩ := by
  obtain ⟨hbefore, hstop⟩ := skipTaken_spec (hpassed set)
  have hfree := hstop (Nat.lt_of_le_of_lt (le_length_of_taken h hbefore) h)
  obtain ⟨n, -, heq, hn, hbelow⟩ := exists_freeSlot h set
  rcases Nat.lt_trichotomy n (skipTaken taken set (cursors set)) with hlt | hn' | hlt
  · exact absurd (hbefore n hlt) hn
  · rw [heq, hn']
  · exact absurd (hbelow _ hlt) hfree

/-- The pass finds the slots of the resources, while there are slots left for all. -/
theorem allocateFrom_eq_assignFrom
    (hroom : taken.length + resources.countP (·.claim?.isNone) ≤ 2 ^ 32)
    (hpassed : Passed taken cursors) :
    allocateFrom taken cursors resources = assignFrom taken resources := by
  induction resources generalizing taken cursors with
  | nil => rfl
  | cons d rest ih =>
    rw [allocateFrom, assignFrom]
    cases hclaim : d.claim? with
    | some slot =>
      have hroom' : taken.length + rest.countP (·.claim?.isNone) ≤ 2 ^ 32 := by
        simpa [hclaim] using hroom
      exact congrArg (slot :: ·) (ih hroom' hpassed)
    | none =>
      simp only [List.countP_cons, hclaim, Option.isNone_none, if_true] at hroom
      have hslot := freeSlot_eq_skipTaken (by omega) hpassed d.bindingSet
      simp only [hslot]
      refine congrArg (_ :: ·) (ih (by simp only [List.length_cons]; omega) fun set k hk => ?_)
      -- A cursor moved over taken slots, and the others stand where they stood.
      refine .tail _ ?_
      by_cases hset : set = d.bindingSet
      · subst hset
        rw [Function.update_self] at hk
        exact (skipTaken_spec (hpassed _)).1 k hk
      · rw [Function.update_of_ne hset] at hk
        exact hpassed set k hk

theorem allocate_eq_assignSlots (h : resources.length < 2 ^ 32) :
    allocate resources = assignSlots resources :=
  allocateFrom_eq_assignFrom (Nat.le_of_lt (length_claims_add_countP resources ▸ h)) nofun

end Pass

/-! ## Slots by position -/

/-- A declaration claims a slot. -/
def Claimed (resources : List ResourceDecl) (slot : Slot) : Prop :=
  ∃ d ∈ resources, d.claim? = some slot

/-- A resource before a position received a slot without a claim. -/
def Received (resources : List ResourceDecl) (slots : List Slot) (i : Nat) (slot : Slot) : Prop :=
  ∃ j < i, ∃ d, resources[j]? = some d ∧ d.slot = none ∧ slots[j]? = some slot

/-- Slots of resources, in step with their declarations, of which those that are not claimed
are the next free ones. -/
structure NextFree (resources : List ResourceDecl) (slots : List Slot) : Prop where
  length : slots.length = resources.length
  /-- A resource keeps the slot it is declared with, in set 0 if no set is declared. -/
  claimed : ∀ (i : Nat) (d : ResourceDecl) (k : UInt32), resources[i]? = some d →
    d.slot = some k → slots[i]? = some ⟨d.set.getD 0, k⟩
  /-- Any other resource gets the least slot of its set that no declaration claims, be it
  earlier or later, and that no earlier resource received. -/
  next : ∀ (i : Nat) (d : ResourceDecl), resources[i]? = some d → d.slot = none → ∃ k,
    slots[i]? = some ⟨d.set.getD 0, k⟩ ∧
    ¬ Claimed resources ⟨d.set.getD 0, k⟩ ∧ ¬ Received resources slots i ⟨d.set.getD 0, k⟩ ∧
    ∀ k' < k, Claimed resources ⟨d.set.getD 0, k'⟩ ∨ Received resources slots i ⟨d.set.getD 0, k'⟩

section Position

variable {taken : List Slot} {resources : List ResourceDecl}

theorem ResourceDecl.claim?_eq_none_iff {d : ResourceDecl} : d.claim? = none ↔ d.slot = none :=
  Option.map_eq_none_iff

theorem received_succ_iff {d : ResourceDecl} {rest : List ResourceDecl} {first slot : Slot}
    {slots : List Slot} {i : Nat} :
    Received (d :: rest) (first :: slots) (i + 1) slot ↔
      d.slot = none ∧ first = slot ∨ Received rest slots i slot := by
  constructor
  · rintro ⟨_ | j, hj, e, he, hclaim, hslot⟩
    · cases he
      exact .inl ⟨hclaim, Option.some.inj hslot⟩
    · exact .inr ⟨j, Nat.lt_of_succ_lt_succ hj, e, he, hclaim, hslot⟩
  · rintro (⟨hclaim, rfl⟩ | ⟨j, hj, e, he, hclaim, hslot⟩)
    · exact ⟨0, Nat.succ_pos i, d, rfl, hclaim, rfl⟩
    · exact ⟨j + 1, Nat.succ_lt_succ hj, e, he, hclaim, hslot⟩

/-- Without a claim a resource gets the least slot of its set that is not taken and that no
resource before it received. -/
theorem exists_next_assignFrom
    (hroom : taken.length + resources.countP (·.claim?.isNone) ≤ 2 ^ 32) {i : Nat}
    {d : ResourceDecl} (hd : resources[i]? = some d) (hclaim : d.slot = none) :
    ∃ n < 2 ^ 32, (assignFrom taken resources)[i]? = some ⟨d.bindingSet, UInt32.ofNat n⟩ ∧
      ¬ (⟨d.bindingSet, UInt32.ofNat n⟩ ∈ taken ∨
        Received resources (assignFrom taken resources) i ⟨d.bindingSet, UInt32.ofNat n⟩) ∧
      ∀ k < n, ⟨d.bindingSet, UInt32.ofNat k⟩ ∈ taken ∨
        Received resources (assignFrom taken resources) i ⟨d.bindingSet, UInt32.ofNat k⟩ := by
  induction resources generalizing taken i with
  | nil => cases hd
  | cons e rest ih =>
    cases hother : e.claim? with
    | some slot =>
      have hassign : assignFrom taken (e :: rest) = slot :: assignFrom taken rest := by
        rw [assignFrom, hother]
      have hunreceived : ¬ e.slot = none := by
        rw [← ResourceDecl.claim?_eq_none_iff, hother]
        exact Option.some_ne_none slot
      have hroom' : taken.length + rest.countP (·.claim?.isNone) ≤ 2 ^ 32 := by
        simpa [hother] using hroom
      cases i with
      | zero =>
        cases hd
        exact absurd hclaim hunreceived
      | succ i =>
        simp only [hassign, received_succ_iff, hunreceived, false_and, false_or]
        exact ih hroom' hd
    | none =>
      have hassign : assignFrom taken (e :: rest) = freeSlot taken e.bindingSet ::
          assignFrom (freeSlot taken e.bindingSet :: taken) rest := by
        rw [assignFrom, hother]
      simp only [List.countP_cons, hother, Option.isNone_none, if_true] at hroom
      cases i with
      | zero =>
        cases hd
        have hlt : taken.length < 2 ^ 32 := by omega
        obtain ⟨n, hn, hslot, hfree, hbelow⟩ := exists_freeSlot hlt d.bindingSet
        refine ⟨n, hn, by rw [hassign, hslot]; rfl, ?_, fun k hk => .inl (hbelow k hk)⟩
        rintro (hmem | ⟨j, hj, -⟩)
        · exact hfree hmem
        · exact absurd hj (Nat.not_lt_zero j)
      | succ i =>
        -- What the first resource gets is taken for the others.
        have htaken : ∀ slot slots, slot ∈ taken ∨
            Received (e :: rest) (freeSlot taken e.bindingSet :: slots) (i + 1) slot ↔
              slot ∈ freeSlot taken e.bindingSet :: taken ∨ Received rest slots i slot := by
          intro slot slots
          rw [received_succ_iff, List.mem_cons, ResourceDecl.claim?_eq_none_iff.1 hother,
            eq_comm (a := slot)]
          simp only [true_and, or_left_comm, or_assoc]
        simp only [hassign, htaken]
        exact ih (by simp only [List.length_cons]; omega) hd

end Position

/-- A resource keeps its claim. -/
theorem getElem?_assignFrom_of_claim {taken : List Slot} {resources : List ResourceDecl} {i : Nat}
    {d : ResourceDecl} {slot : Slot} (hd : resources[i]? = some d) (hclaim : d.claim? = some slot) :
    (assignFrom taken resources)[i]? = some slot := by
  induction resources generalizing taken i with
  | nil => cases hd
  | cons e rest ih =>
    cases i with
    | zero =>
      cases hd
      rw [assignFrom, hclaim]
      rfl
    | succ i =>
      rw [assignFrom]
      split
      · exact ih hd
      · exact ih hd

section Shared

variable {resources : List ResourceDecl} {slots : List Slot} {i j : Nat} {d e : ResourceDecl}
  {slot : Slot}

/-- A resource that shares its slot is declared with one. -/
theorem NextFree.slot_ne_none (h : NextFree resources slots) (hij : i ≠ j)
    (hd : resources[i]? = some d) (he : resources[j]? = some e) (hi : slots[i]? = some slot)
    (hj : slots[j]? = some slot) : d.slot ≠ none := by
  intro hnone
  obtain ⟨k, hk, hunclaimed, hunreceived, -⟩ := h.next i d hd hnone
  obtain rfl := Option.some.inj (hk.symm.trans hi)
  cases hother : e.slot with
  | some l =>
    have hl := Option.some.inj (hj.symm.trans (h.claimed j e l he hother))
    refine hunclaimed ⟨e, List.mem_of_getElem? he, ?_⟩
    rw [hl, ResourceDecl.claim?, hother]
    rfl
  | none =>
    -- Of two resources without a claim the later one has not what the earlier one received.
    rcases Nat.lt_or_gt_of_ne hij with hlt | hlt
    · obtain ⟨l, hl, -, hunreceived', -⟩ := h.next j e he hother
      rw [← Option.some.inj (hj.symm.trans hl)] at hunreceived'
      exact hunreceived' ⟨i, hlt, d, hd, hnone, hi⟩
    · exact hunreceived ⟨j, hlt, e, he, hother, hj⟩

end Shared

/-- The slots of a program are the next free ones, two resources share a slot only if both
are declared with one, and one pass with cursors finds the slots. -/
theorem nextFree_assignSlots (resources : List ResourceDecl) (h : resources.length < 2 ^ 32) :
    NextFree resources (assignSlots resources) ∧
    (∀ (i j : Nat) (d e : ResourceDecl) (slot : Slot), i ≠ j →
      resources[i]? = some d → resources[j]? = some e →
      (assignSlots resources)[i]? = some slot → (assignSlots resources)[j]? = some slot →
      d.slot.isSome = true ∧ e.slot.isSome = true) ∧
    allocate resources = assignSlots resources := by
  have hroom := Nat.le_of_lt (length_claims_add_countP resources ▸ h)
  have hnext : NextFree resources (assignSlots resources) := by
    refine ⟨length_assignSlots resources, fun i d k hd hk => ?_, fun i d hd hnone => ?_⟩
    · refine getElem?_assignFrom_of_claim hd ?_
      rw [ResourceDecl.claim?, hk]
      rfl
    · obtain ⟨n, hn, hslot, hfree, hbelow⟩ := exists_next_assignFrom hroom hd hnone
      rw [List.mem_filterMap, not_or] at hfree
      refine ⟨UInt32.ofNat n, hslot, hfree.1, hfree.2, fun k hk => ?_⟩
      have hlt : k.toNat < n := by
        rwa [UInt32.lt_iff_toNat_lt, UInt32.toNat_ofNat_of_lt' hn] at hk
      have hbelow := hbelow k.toNat hlt
      rwa [UInt32.ofNat_toNat, List.mem_filterMap] at hbelow
  refine ⟨hnext, fun i j d e slot hij hd he hi hj => ?_, allocate_eq_assignSlots h⟩
  rw [Option.isSome_iff_ne_none, Option.isSome_iff_ne_none]
  exact ⟨hnext.slot_ne_none hij hd he hi hj, hnext.slot_ne_none hij.symm he hd hj hi⟩

/-- Resources in two sets, two of them declared with one slot and one with a slot that the
resource before it would get otherwise. -/
def interleaved : List ResourceDecl := [
  ⟨"Projection", .uniformBuffer, some (.matrix 4 4), .readOnly, none, none⟩,
  ⟨"Shadow", .depthTexture2D, none, .readOnly, some 1, none⟩,
  ⟨"Linear", .sampler, none, .readOnly, none, none⟩,
  ⟨"Albedo", .texture2D, none, .readOnly, none, some 1⟩,
  ⟨"Normals", .texture2D, none, .readOnly, some 0, some 1⟩,
  ⟨"Point", .sampler, none, .readOnly, some 1, none⟩]

/-- The sampler passes over the slot that is claimed behind it. -/
theorem nextFree_interleaved : interleaved.length < 2 ^ 32 ∧
    NextFree interleaved (assignSlots interleaved) ∧
    assignSlots interleaved = [⟨0, 0⟩, ⟨1, 0⟩, ⟨0, 2⟩, ⟨0, 1⟩, ⟨0, 1⟩, ⟨1, 1⟩] :=
  ⟨by decide, (nextFree_assignSlots interleaved (by decide)).1, by decide⟩

end Shading
