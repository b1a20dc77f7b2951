import Shading.Proofs.Graph.Closure

/-!
# Dependency order

`Graph.reach` finds what a name depends on (`mem_reach_iff`).  An order that
`Graph.order` finds holds each name once and behind its dependencies
(`ordered_of_order`), and it holds what the roots depend on and nothing else
(`mem_order_iff`).

The depth of a visit is never used up.  The names on its path are different, and
each but the last has dependencies, so each is an entry of the graph.
-/

namespace Shading.Graph

variable {g : Graph}

/-- A name depends directly on another. -/
def Depends (g : Graph) (a b : String) : Prop := b ∈ g.next a

theorem mem_of_next {a b : String} (h : b ∈ g.next a) : ∃ entry ∈ g, entry.1 = a ∧ b ∈ entry.2 := by
  rw [next] at h
  cases hl : g.lookup a with
  | none => simp [hl] at h
  | some names =>
    obtain ⟨before, after, hg, -⟩ := List.lookup_eq_some_iff.1 hl
    exact ⟨(a, names), by simp [hg], rfl, by simpa [hl] using h⟩

/-! ## Reach -/

theorem leads_iff_depends {a b : String} :
    Leads (fun name => (.ok ((), g.next name) : Except Empty (Unit × List String))) a b ↔
      g.Depends a b := by
  simp [Leads, Depends]

theorem explored_reach (g : Graph) (name : String) :
    ∃ found : Expanded Unit, g.reach name = found.map Prod.fst ∧
      Explored (fun name => (.ok ((), g.next name) : Except Empty (Unit × List String)))
        (· ∈ [name]) [] found := by
  rw [reach]
  split
  · next found hfound =>
    refine ⟨found, rfl, explored_of_explore (name :: g.flatMap Prod.snd) ?_ ?_ hfound⟩
    · intro x hx _ _ _
      induction hx with
      | seed hx => exact List.mem_cons.2 (.inl (by simpa using hx))
      | next _ hab =>
        obtain ⟨entry, hentry, -, hb⟩ := mem_of_next (leads_iff_depends.1 hab)
        exact .tail _ (List.mem_flatMap.2 ⟨entry, hentry, hb⟩)
    · exact Nat.le_refl _
  · next e _ => exact nomatch e

/-- The names a name reaches are the closure of its dependencies. -/
theorem mem_reach_iff {root name : String} :
    name ∈ g.reach root ↔ Closure g.Depends (· = root) name := by
  obtain ⟨found, hr, hf⟩ := explored_reach g root
  rw [hr, hf.mem_iff]
  exact Closure.congr (by simp) fun a b _ => leads_iff_depends

/-! ## Order -/

/-- Names that each stand once and behind what they depend on. -/
inductive Ordered (g : Graph) : List String → Prop where
  | nil : Ordered g []
  | snoc {done : List String} {name : String} : Ordered g done → name ∉ done →
      (∀ dependency ∈ g.next name, dependency ∈ done) → Ordered g (done ++ [name])

theorem Ordered.nodup {names : List String} (h : g.Ordered names) : names.Nodup := by
  induction h with
  | nil => exact .nil
  | snoc _ hn _ ih =>
    refine List.nodup_append.2 ⟨ih, by simp, fun a ha b hb hab => ?_⟩
    obtain rfl := List.mem_singleton.1 hb
    exact hn (hab ▸ ha)

/-- What an ordered name depends on is ordered, too. -/
theorem Ordered.mem_of_depends {names : List String} (h : g.Ordered names) {a b : String}
    (ha : a ∈ names) (hab : g.Depends a b) : b ∈ names := by
  induction h with
  | nil => cases ha
  | snoc _ _ hd ih =>
    rcases List.mem_append.1 ha with ha | ha
    · exact List.mem_append_left _ (ih ha)
    · obtain rfl := List.mem_singleton.1 ha
      exact List.mem_append_left _ (hd b hab)

/-- What a visit adds to the names that are done, on a path and from some starts. -/
structure Progress (g : Graph) (path : List String) (start : String → Prop)
    (done done' : List String) : Prop where
  ordered : g.Ordered done'
  /-- What was done stays done. -/
  kept : ∀ name ∈ done, name ∈ done'
  /-- Names on the path are not done before the visits that led to them end. -/
  away : ∀ name ∈ path, name ∉ done → name ∉ done'
  /-- Only what the starts depend on is added. -/
  sound : ∀ name ∈ done', name ∈ done ∨ Closure g.Depends start name

namespace Progress

theorem refl {path done : List String} {start : String → Prop} (h : g.Ordered done) :
    Progress g path start done done :=
  ⟨h, fun _ => id, fun _ _ => id, fun _ => .inl⟩

theorem trans {path a b c : List String} {start start' : String → Prop}
    (h : Progress g path start a b) (h' : Progress g path start' b c) :
    Progress g path (fun name => start name ∨ start' name) a c where
  ordered := h'.ordered
  kept := fun name hn => h'.kept name (h.kept name hn)
  away := fun name hp hn => h'.away name hp (h.away name hp hn)
  sound := by
    intro name hn
    rcases h'.sound name hn with hb | hc
    · rcases h.sound name hb with ha | hc
      · exact .inl ha
      · exact .inr (hc.of_seeds fun n hn => .seed (.inl hn))
    · exact .inr (hc.of_seeds fun n hn => .seed (.inr hn))

theorem starts {path done done' : List String} {start start' : String → Prop}
    (h : Progress g path start done done') (hs : ∀ n, start n → Closure g.Depends start' n) :
    Progress g path start' done done' where
  ordered := h.ordered
  kept := h.kept
  away := h.away
  sound := fun name hn => (h.sound name hn).imp_right fun hc => hc.of_seeds hs

/-- A list of visits makes progress from all its starts, when each visit does. -/
theorem foldlM {f : List String → String → Except Cycle (List String)}
    {path names : List String}
    (hf : ∀ name ∈ names, ∀ done done', g.Ordered done → f done name = .ok done' →
      Progress g path (· = name) done done' ∧ name ∈ done')
    {done done' : List String} (ho : g.Ordered done) (h : names.foldlM f done = .ok done') :
    Progress g path (· ∈ names) done done' ∧ ∀ name ∈ names, name ∈ done' := by
  induction names generalizing done with
  | nil =>
    cases h
    exact ⟨.refl ho, by simp⟩
  | cons name names ih =>
    simp only [List.foldlM_cons, bind_eq_ok] at h
    obtain ⟨mid, hmid, hrest⟩ := h
    obtain ⟨hfirst, hname⟩ := hf name (.head _) done mid ho hmid
    obtain ⟨hprogress, hnames⟩ := ih (fun n hn => hf n (.tail _ hn)) hfirst.ordered hrest
    constructor
    · exact (hfirst.trans hprogress).starts fun n hn => .seed (by simpa using hn)
    · intro n hn
      rcases List.mem_cons.1 hn with rfl | hn
      · exact hprogress.kept _ hname
      · exact hnames n hn

end Progress

/-- A visit that is not led in a circle makes progress. -/
theorem progress_of_visit {depth : Nat} {path done done' : List String} {name : String}
    (hp : (name :: path).Nodup) (hk : ∀ x ∈ path, x ∈ g.map Prod.fst)
    (hs : g.length < depth + path.length) (ho : g.Ordered done) (hd : name ∉ done)
    (h : g.visit depth path done name = .ok done') :
    Progress g path (· = name) done done' ∧ name ∈ done' := by
  induction depth generalizing path done done' name with
  | zero =>
    have hle := (List.nodup_cons.1 hp).2.length_le_of_subset hk
    simp only [List.length_map] at hle
    omega
  | succ depth ih =>
    simp only [visit, bind_eq_ok, pure_eq_ok] at h
    obtain ⟨mid, hmid, rfl⟩ := h
    -- Every dependency is on the path, is done, or is visited with the name on the path.
    have hstep : ∀ x ∈ g.next name, ∀ done done', g.Ordered done →
        (if x ∈ name :: path then .error ⟨name, x⟩
          else if x ∈ done then .ok done else g.visit depth (name :: path) done x) = .ok done' →
        Progress g (name :: path) (· = x) done done' ∧ x ∈ done' := by
      intro x hx done done' ho hstep
      split at hstep
      · cases hstep
      · next hpath =>
        split at hstep
        · next hdone =>
          cases hstep
          exact ⟨.refl ho, hdone⟩
        · next hdone =>
          obtain ⟨entry, hentry, rfl, -⟩ := mem_of_next hx
          refine ih (List.nodup_cons.2 ⟨hpath, hp⟩) ?_ (by simp; omega) ho hdone hstep
          intro y hy
          rcases List.mem_cons.1 hy with rfl | hy
          · exact List.mem_map_of_mem hentry
          · exact hk y hy
    obtain ⟨hprogress, hall⟩ := Progress.foldlM hstep ho hmid
    have hnew : name ∉ mid := hprogress.away name (.head _) hd
    refine ⟨⟨.snoc hprogress.ordered hnew hall, ?_, ?_, ?_⟩, by simp⟩
    · exact fun x hx => List.mem_append_left _ (hprogress.kept x hx)
    · intro x hx hxd hmem
      rcases List.mem_append.1 hmem with hm | hm
      · exact hprogress.away x (.tail _ hx) hxd hm
      · obtain rfl := List.mem_singleton.1 hm
        exact (List.nodup_cons.1 hp).1 hx
    · intro x hx
      rcases List.mem_append.1 hx with hm | hm
      · refine (hprogress.sound x hm).imp_right fun hc => hc.of_seeds fun n hn => ?_
        exact .next (.seed rfl) hn
      · exact .inr (.seed (List.mem_singleton.1 hm))

theorem progress_of_order {roots names : List String} (h : g.order roots = .ok names) :
    Progress g [] (· ∈ roots) [] names ∧ ∀ root ∈ roots, root ∈ names := by
  refine Progress.foldlM ?_ .nil h
  intro root _ done done' ho hroot
  split at hroot
  · next hdone =>
    cases hroot
    exact ⟨.refl ho, hdone⟩
  · next hdone => exact progress_of_visit (by simp) (by simp) (by simp) ho hdone hroot

/-- An order holds each name once and behind its dependencies. -/
theorem ordered_of_order {roots names : List String} (h : g.order roots = .ok names) :
    g.Ordered names :=
  (progress_of_order h).1.ordered

/-- An order holds what the roots depend on, and nothing else. -/
theorem mem_order_iff {roots names : List String} (h : g.order roots = .ok names)
    {name : String} : name ∈ names ↔ Closure g.Depends (· ∈ roots) name := by
  obtain ⟨hprogress, hroots⟩ := progress_of_order h
  constructor
  · exact fun hn => (hprogress.sound name hn).resolve_left (by simp)
  · exact fun hc => hc.least hroots fun a b ha hab => hprogress.ordered.mem_of_depends ha hab

end Shading.Graph
