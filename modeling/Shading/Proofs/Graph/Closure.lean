import Shading.Graph.Order
import Shading.Proofs.Result

/-!
# What a search finds

`Closure` is the least set of names that holds some seeds and what follows from
its members.  A search that ends has found this set: `Explored` is the invariant
of `exploreFrom`, its steps preserve it (`Explored.step`), and when no name is
pending any more it says that the names found are the closure of the seeds
(`Explored.mem_iff`).

The bound on the number of steps is never reached.  Every step but the last finds
a new name, and names that can be expanded are drawn from a list no longer than
the bound.
-/

namespace Shading

/-- The least set of names that holds the seeds and what follows from its members. -/
inductive Closure (follows : String → String → Prop) (seed : String → Prop) : String → Prop where
  | seed {name : String} : seed name → Closure follows seed name
  | next {a b : String} : Closure follows seed a → follows a b → Closure follows seed b

namespace Closure

variable {follows follows' : String → String → Prop} {seed seed' : String → Prop}

/-- The closure is the least set: it lies in every set with the seeds that is closed. -/
theorem least {S : String → Prop} (hs : ∀ n, seed n → S n)
    (hn : ∀ a b, S a → follows a b → S b) {name : String} (h : Closure follows seed name) :
    S name := by
  induction h with
  | seed h => exact hs _ h
  | next _ hf ih => exact hn _ _ ih hf

/-- Seeds may be replaced by seeds that they follow from. -/
theorem of_seeds (hs : ∀ n, seed n → Closure follows seed' n) {name : String}
    (h : Closure follows seed name) : Closure follows seed' name :=
  h.least hs fun _ _ => .next

/-- Only what follows from members of the closure matters. -/
theorem mono (hs : ∀ n, seed n → seed' n)
    (hf : ∀ a b, Closure follows' seed' a → follows a b → follows' a b) {name : String}
    (h : Closure follows seed name) : Closure follows' seed' name :=
  h.least (fun n hn => .seed (hs n hn)) fun a b ha hab => .next ha (hf a b ha hab)

/-- Two closures agree when their seeds do and the same follows from their members. -/
theorem congr (hs : ∀ n, seed n ↔ seed' n)
    (hf : ∀ a b, Closure follows seed a → (follows a b ↔ follows' a b)) {name : String} :
    Closure follows seed name ↔ Closure follows' seed' name := by
  constructor
  · intro h
    induction h with
    | seed h => exact .seed ((hs _).1 h)
    | next ha hab ih => exact .next ih ((hf _ _ ha).1 hab)
  · exact mono (fun n => (hs n).2) fun a b ha => (hf a b ha).2

end Closure

/-! ## Searches -/

section Explore

variable {ε α : Type} {expand : String → Except ε (α × List String)}

/-- A name is among those that another expands to. -/
def Leads (expand : String → Except ε (α × List String)) (a b : String) : Prop :=
  ∃ value next, expand a = .ok (value, next) ∧ b ∈ next

/-- A search between two steps, with the names that are pending and the names found. -/
structure Explored (expand : String → Except ε (α × List String)) (seed : String → Prop)
    (pending : List String) (found : Expanded α) : Prop where
  /-- A name is expanded once. -/
  once : (found.map Prod.fst).Nodup
  /-- Names stand with what they expand to. -/
  expanded : ∀ entry ∈ found, ∃ next, expand entry.1 = .ok (entry.2, next)
  /-- Only what follows from the seeds is found or pending. -/
  sound : ∀ name, name ∈ found.map Prod.fst ∨ name ∈ pending → Closure (Leads expand) seed name
  /-- No seed is forgotten. -/
  seeds : ∀ name, seed name → name ∈ found.map Prod.fst ∨ name ∈ pending
  /-- Nothing that follows from a name found is forgotten. -/
  closed : ∀ a ∈ found.map Prod.fst, ∀ b, Leads expand a b →
    b ∈ found.map Prod.fst ∨ b ∈ pending

namespace Explored

variable {seed : String → Prop} {pending : List String} {found : Expanded α}

theorem start (seeds : List String) : Explored expand (· ∈ seeds) seeds.reverse [] where
  once := .nil
  expanded := by simp
  sound := by
    intro name h
    exact .seed (by simpa using h)
  seeds := by simp
  closed := by simp

/-- What is found or pending stays so when names found before are dropped. -/
theorem mem_of_drop {name : String} (h : name ∈ found.map Prod.fst ∨ name ∈ pending) :
    name ∈ found.map Prod.fst ∨ name ∈ pending.dropWhile found.has := by
  rcases h with hf | hp
  · exact .inl hf
  · rw [← List.takeWhile_append_dropWhile (p := found.has) (l := pending)] at hp
    rcases List.mem_append.1 hp with ht | hd
    · exact .inl (Expanded.has_iff.1 (List.all_eq_true.1 List.all_takeWhile _ ht))
    · exact .inr hd

/-- Names that were found before are dropped. -/
theorem drop (h : Explored expand seed pending found) :
    Explored expand seed (pending.dropWhile found.has) found where
  once := h.once
  expanded := h.expanded
  sound := by
    rintro name (hf | hp)
    · exact h.sound name (.inl hf)
    · exact h.sound name (.inr ((List.dropWhile_sublist _).subset hp))
  seeds := fun name hs => mem_of_drop (h.seeds name hs)
  closed := fun a ha b hab => mem_of_drop (h.closed a ha b hab)

/-- What is found or pending stays so when a name is expanded. -/
theorem mem_of_step {b name : String} {rest next : List String} {value : α}
    (hb : b ∈ found.map Prod.fst ∨ b ∈ name :: rest) :
    b ∈ (found ++ [(name, value)]).map Prod.fst ∨ b ∈ next.reverse ++ rest := by
  rcases hb with hf | hp
  · exact .inl (by rw [List.map_append]; exact List.mem_append_left _ hf)
  · rcases List.mem_cons.1 hp with rfl | hr
    · exact .inl (by simp)
    · exact .inr (List.mem_append_right _ hr)

/-- A step of the search: the next name is expanded, and what it leads to is pending. -/
theorem step {name : String} {rest next : List String} {value : α}
    (h : Explored expand seed (name :: rest) found) (hn : found.has name = false)
    (he : expand name = .ok (value, next)) :
    Explored expand seed (next.reverse ++ rest) (found ++ [(name, value)]) where
  once := by
    have hnew : name ∉ found.map Prod.fst := fun hm => by
      simp [Expanded.has_iff.2 hm] at hn
    simpa [List.nodup_append] using ⟨h.once, fun a v ha hav => hnew (by
      subst hav
      exact List.mem_map_of_mem ha)⟩
  expanded := by
    intro entry hentry
    rcases List.mem_append.1 hentry with hf | hl
    · exact h.expanded entry hf
    · obtain rfl := List.mem_singleton.1 hl
      exact ⟨next, he⟩
  sound := by
    have hname : Closure (Leads expand) seed name := h.sound name (.inr (.head _))
    intro b hb
    simp only [List.map_append, List.map_cons, List.map_nil, List.mem_append, List.mem_cons,
      List.not_mem_nil, or_false, List.mem_reverse] at hb
    rcases hb with (hf | rfl) | (hx | hr)
    · exact h.sound b (.inl hf)
    · exact hname
    · exact .next hname ⟨value, next, he, hx⟩
    · exact h.sound b (.inr (.tail _ hr))
  seeds := fun b hb => mem_of_step (h.seeds b hb)
  closed := by
    intro a ha b hab
    simp only [List.map_append, List.map_cons, List.map_nil, List.mem_append, List.mem_cons,
      List.not_mem_nil, or_false] at ha
    rcases ha with hf | rfl
    · exact mem_of_step (h.closed a hf b hab)
    · obtain ⟨value', next', he', hb⟩ := hab
      rw [he] at he'
      cases he'
      exact .inr (by simp [hb])

/-- When nothing is pending, the names found are the closure of the seeds. -/
theorem mem_iff (h : Explored expand seed [] found) {name : String} :
    name ∈ found.map Prod.fst ↔ Closure (Leads expand) seed name := by
  constructor
  · exact fun hf => h.sound name (.inl hf)
  · intro hc
    refine hc.least (S := fun n => n ∈ found.map Prod.fst) ?_ ?_
    · exact fun n hn => (h.seeds n hn).resolve_right (by simp)
    · exact fun a b ha hab => (h.closed a ha b hab).resolve_right (by simp)

/-- No more names are found than can be expanded. -/
theorem length_le {names : List String} (h : Explored expand seed pending found)
    (hn : ∀ name, Closure (Leads expand) seed name →
      ∀ value next, expand name = .ok (value, next) → name ∈ names) :
    found.length ≤ names.length := by
  have hsub : found.map Prod.fst ⊆ names := by
    intro name hname
    have hclosure := h.sound name (.inl hname)
    obtain ⟨entry, hentry, rfl⟩ := List.mem_map.1 hname
    obtain ⟨next, he⟩ := h.expanded entry hentry
    exact hn _ hclosure _ _ he
  simpa using h.once.length_le_of_subset hsub

end Explored

/-- A search that ends within its steps leaves nothing pending. -/
theorem explored_of_exploreFrom {names : List String} {seed : String → Prop}
    (hn : ∀ name, Closure (Leads expand) seed name →
      ∀ value next, expand name = .ok (value, next) → name ∈ names) {steps : Nat}
    {pending : List String} {found result : Expanded α}
    (h : Explored expand seed pending found) (hs : names.length < steps + found.length)
    (hr : exploreFrom expand steps pending found = .ok result) :
    Explored expand seed [] result := by
  induction steps generalizing pending found with
  | zero =>
    have := h.length_le hn
    omega
  | succ steps ih =>
    simp only [exploreFrom] at hr
    split at hr
    · next hempty =>
      cases hr
      simpa [hempty] using h.drop
    · next name rest hnext =>
      split at hr
      · cases hr
      · next value next he =>
        have hdrop := h.drop
        rw [hnext] at hdrop
        have hnew := not_has_of_dropWhile hnext
        exact ih (hdrop.step hnew he) (by simp; omega) hr

/-- A search finds the closure of its seeds, when no more names can be expanded than
its bound allows. -/
theorem explored_of_explore (names : List String) {seeds : List String} {bound : Nat}
    {found : Expanded α}
    (hn : ∀ name, Closure (Leads expand) (· ∈ seeds) name →
      ∀ value next, expand name = .ok (value, next) → name ∈ names)
    (hb : names.length ≤ bound) (h : explore bound expand seeds = .ok found) :
    Explored expand (· ∈ seeds) [] found :=
  explored_of_exploreFrom hn (.start seeds) (by simp; omega) h

/-- A search that ends within its steps finds the same when more names can be expanded and
more steps are allowed. -/
theorem exploreFrom_of_kept {names : List String} {seed : String → Prop}
    {expand' : String → Except ε (α × List String)}
    (hk : ∀ name, Kept (expand name) (expand' name))
    (hn : ∀ name, Closure (Leads expand) seed name →
      ∀ value next, expand name = .ok (value, next) → name ∈ names) {steps steps' : Nat}
    {pending : List String} {found result : Expanded α}
    (h : Explored expand seed pending found) (hs : names.length < steps + found.length)
    (hle : steps ≤ steps') (hr : exploreFrom expand steps pending found = .ok result) :
    exploreFrom expand' steps' pending found = .ok result := by
  induction steps generalizing pending found steps' with
  | zero =>
    have := h.length_le hn
    omega
  | succ steps ih =>
    obtain ⟨steps', rfl⟩ := Nat.exists_eq_add_of_le' (Nat.le_trans (Nat.le_add_left 1 steps) hle)
    simp only [exploreFrom] at hr ⊢
    split at hr
    · exact hr
    · next name rest hnext =>
      split at hr
      · cases hr
      · next value next he =>
        have hdrop := h.drop
        rw [hnext] at hdrop
        rw [hk name _ he]
        exact ih (hdrop.step (not_has_of_dropWhile hnext) he) (by simp; omega) (by omega) hr

/-- A search finds the same when more names can be expanded. -/
theorem explore_of_kept (names : List String) {expand' : String → Except ε (α × List String)}
    (hk : ∀ name, Kept (expand name) (expand' name)) {seeds : List String} {bound bound' : Nat}
    (hn : ∀ name, Closure (Leads expand) (· ∈ seeds) name →
      ∀ value next, expand name = .ok (value, next) → name ∈ names)
    (hb : names.length ≤ bound) (hle : bound ≤ bound') :
    Kept (explore bound expand seeds) (explore bound' expand' seeds) := fun _ h =>
  exploreFrom_of_kept hk hn (.start seeds) (by simp; omega) (Nat.succ_le_succ hle) h

/-- A search fails as its steps do. -/
theorem failsAs_exploreFrom {P : ε → Prop} (h : ∀ name, FailsAs P (expand name)) (steps : Nat)
    (pending : List String) (found : Expanded α) :
    FailsAs P (exploreFrom expand steps pending found) := by
  induction steps generalizing pending found with
  | zero => exact .ok
  | succ steps ih =>
    rw [exploreFrom]
    split
    · exact .ok
    · next name rest _ =>
      split
      · next e he => exact .error (h name e he)
      · exact ih _ _

theorem failsAs_explore {P : ε → Prop} (h : ∀ name, FailsAs P (expand name)) (bound : Nat)
    (seeds : List String) : FailsAs P (explore bound expand seeds) :=
  failsAs_exploreFrom h _ _ _

end Explore

/-! ## Looking up what was found -/

/-- In a list without repeated keys a key is looked up as what it stands with. -/
theorem lookup_eq_some_iff_mem {κ α : Type} [BEq κ] [LawfulBEq κ] {entries : List (κ × α)}
    {key : κ} {value : α} (h : (entries.map Prod.fst).Nodup) :
    entries.lookup key = some value ↔ (key, value) ∈ entries := by
  induction entries with
  | nil => simp
  | cons entry entries ih =>
    obtain ⟨k, v⟩ := entry
    simp only [List.map_cons, List.nodup_cons] at h
    by_cases hk : key = k
    · subst hk
      simp only [List.lookup_cons_self, Option.some.injEq, List.mem_cons, Prod.mk.injEq, true_and]
      constructor
      · exact fun hv => .inl hv.symm
      · intro h
        rcases h with hv | hmem
        · exact hv.symm
        · exact absurd (List.mem_map_of_mem hmem) h.1
    · have hne : (key == k) = false := by simpa using hk
      simp [List.lookup_cons, hne, hk, ih h.2]

/-- Looking up commutes with what is done to the values. -/
theorem lookup_map {κ α β : Type} [BEq κ] (f : α → β) (entries : List (κ × α)) (key : κ) :
    (entries.map fun entry => (entry.1, f entry.2)).lookup key = (entries.lookup key).map f := by
  induction entries with
  | nil => rfl
  | cons entry entries ih =>
    obtain ⟨k, v⟩ := entry
    simp only [List.map_cons, List.lookup_cons, ih]
    split <;> rfl

/-- In a list of values that a relation ties to their keys, a key that is there is
looked up as what the relation ties to it. -/
theorem lookup_eq_some_iff_of_unique {α : Type} {R : String → α → Prop} {entries : Expanded α}
    (hR : ∀ entry ∈ entries, R entry.1 entry.2) (hu : ∀ name a b, R name a → R name b → a = b)
    {name : String} {value : α} :
    entries.lookup name = some value ↔ name ∈ entries.map Prod.fst ∧ R name value := by
  have hmem : ∀ v, entries.lookup name = some v → name ∈ entries.map Prod.fst ∧ R name v := by
    intro v hv
    obtain ⟨before, after, rfl, -⟩ := List.lookup_eq_some_iff.1 hv
    exact ⟨by simp, hR (name, v) (by simp)⟩
  constructor
  · exact hmem value
  · intro h
    obtain ⟨hname, hvalue⟩ := h
    cases hl : entries.lookup name with
    | none =>
      obtain ⟨entry, hentry, rfl⟩ := List.mem_map.1 hname
      simpa using List.lookup_eq_none_iff.1 hl entry hentry
    | some v => rw [hu name v value (hmem v hl).2 hvalue]

/-- Names that are all looked up as values of their own name are the names of the
values. -/
theorem map_filterMap_eq {α : Type} {f : String → Option α} {key : α → String}
    {names : List String} (h : ∀ name ∈ names, ∃ a, f name = some a ∧ key a = name) :
    (names.filterMap f).map key = names := by
  induction names with
  | nil => rfl
  | cons name names ih =>
    obtain ⟨a, ha, hkey⟩ := h name (.head _)
    rw [List.filterMap_cons_some ha, List.map_cons, hkey, ih fun n hn => h n (.tail _ hn)]

/-- What is listed under a name is found under it. -/
theorem exists_find?_of_mem_map {α : Type} {key : α → String} {l : List α} {name : String}
    (h : name ∈ l.map key) : ∃ a ∈ l, l.find? (key · == name) = some a ∧ key a = name := by
  obtain ⟨a, ha, hname⟩ := List.mem_map.1 h
  obtain ⟨b, hb⟩ : ∃ b, l.find? (key · == name) = some b := by
    rw [← Option.isSome_iff_exists, List.find?_isSome]
    exact ⟨a, ha, by simpa using hname⟩
  exact ⟨b, List.mem_of_find?_eq_some hb, hb, by simpa using List.find?_some hb⟩

end Shading
