import Shading.Fault
import Shading.Model.Basic

/-!
# Bindings

Every resource of a program gets a set and a slot.  A declared slot is kept, in
set 0 when no set is declared.  A resource without a slot takes the least slot of
its set that no declaration of the program claims and that no earlier resource
took.  Slots are assigned over the whole program, so every model of it agrees on
them.  Two declarations may claim the same slot: `collision?` finds the first
pair among the resources of one model.
-/

namespace Shading

/-- The set a resource is bound in. -/
def ResourceDecl.bindingSet (d : ResourceDecl) : UInt32 := d.set.getD 0

/-- The slot a declaration claims. -/
def ResourceDecl.claim? (d : ResourceDecl) : Option Slot :=
  d.slot.map fun slot => ⟨d.bindingSet, slot⟩

/-- The least slot of a set that is not taken.  Of more candidates than there are
taken slots, one is free. -/
def freeSlot (taken : List Slot) (set : UInt32) : Slot :=
  let isFree (n : Nat) : Bool := ⟨set, UInt32.ofNat n⟩ ∉ taken
  ⟨set, UInt32.ofNat (((List.range (taken.length + 1)).find? isFree).getD 0)⟩

/-- Slots for resources in declaration order, when some slots are taken. -/
def assignFrom (taken : List Slot) : List ResourceDecl → List Slot
  | [] => []
  | d :: rest =>
    match d.claim? with
    | some slot => slot :: assignFrom taken rest
    | none =>
      let slot := freeSlot taken d.bindingSet
      slot :: assignFrom (slot :: taken) rest

/-- The slot of each resource of a program. -/
def assignSlots (resources : List ResourceDecl) : List Slot :=
  assignFrom (resources.filterMap ResourceDecl.claim?) resources

/-- The first binding whose slot an earlier one has, with the latest such one. -/
def collisionFrom (earlier : List Binding) : List Binding → Option (Binding × Binding)
  | [] => none
  | b :: rest =>
    match earlier.find? (·.slot = b.slot) with
    | some first => some (first, b)
    | none => collisionFrom (b :: earlier) rest

/-- Two bindings of a model that share a slot. -/
def collision? (bindings : List Binding) : Option (Binding × Binding) :=
  collisionFrom [] bindings

/-- Refuses bindings that share a slot. -/
def checkCollisions (bindings : List Binding) : Except Error Unit :=
  match collision? bindings with
  | none => .ok ()
  | some (first, second) =>
    .error (.duplicateBinding first.name second.name second.slot.set second.slot.slot)

@[simp] theorem length_assignFrom (taken : List Slot) (resources : List ResourceDecl) :
    (assignFrom taken resources).length = resources.length := by
  induction resources generalizing taken with
  | nil => rfl
  | cons d rest ih => simp only [assignFrom]; split <;> simp [ih]

/-- Every resource gets one slot. -/
@[simp] theorem length_assignSlots (resources : List ResourceDecl) :
    (assignSlots resources).length = resources.length := length_assignFrom _ _

end Shading
