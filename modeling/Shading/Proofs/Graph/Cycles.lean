import Shading.Proofs.Graph.BeforeUse

/-!
# Cycles

An order is found exactly when no cycle can be reached (`RejectsCycles`,
`rejectsCycles_order`).  The dependency that `Graph.order` reports closes a cycle,
because all names on the path of a visit lead to the name that is visited
(`failsAs_visit`).

The search can also be told with marks.  A name is unmarked, being visited or done, and
one table of marks is kept for all roots (`Graph.searchWithin`).  The names marked as
being visited are those on the path, and the names marked as done are those in order, so
the searches agree (`searchWithin_eq`).  The calls of a search stand at most one deeper
inside each other than there are entries, whatever the graph.
-/

namespace Shading

/-! ## Reachable names -/

namespace Closure

variable {edge edge' : String → String → Prop} {root : String → Prop}

theorem of_reflTransGen {a b : String} (ha : Closure edge root a)
    (hab : Relation.ReflTransGen edge a b) : Closure edge root b := by
  induction hab with
  | refl => exact ha
  | tail _ hbc ih => exact .next ih hbc

/-- What is reached stays reached over other edges that agree on what is reached. -/
theorem transGen_mono (hf : ∀ a b, Closure edge root a → edge a b → edge' a b) {a b : String}
    (ha : Closure edge root a) (hab : Relation.TransGen edge a b) :
    Relation.TransGen edge' a b := by
  induction hab with
  | single h => exact .single (hf _ _ ha h)
  | tail hab hbc ih => exact .tail ih (hf _ _ (ha.of_reflTransGen hab.to_reflTransGen) hbc)

theorem reflTransGen_mono (hf : ∀ a b, Closure edge root a → edge a b → edge' a b) {a b : String}
    (ha : Closure edge root a) (hab : Relation.ReflTransGen edge a b) :
    Relation.ReflTransGen edge' a b := by
  rcases Relation.reflTransGen_iff_eq_or_transGen.1 hab with rfl | hab
  · exact .refl
  · exact (ha.transGen_mono hf hab).to_reflTransGen

end Closure

/-! ## Rejected cycles -/

/-- What a search answers that orders all names that can be reached, and that reports an
edge when they cannot be ordered. -/
structure RejectsCycles {ε : Type} (edge : String → String → Prop) (root : String → Prop)
    (report : String → String → ε) (answer : Except ε (List String)) : Prop where
  /-- There is an order exactly when no cycle can be reached. -/
  accepts : (∃ names, answer = .ok names) ↔
    ∀ name, Closure edge root name → ¬ Relation.TransGen edge name name
  /-- The order lists what can be reached. -/
  complete : ∀ names, answer = .ok names → ∀ name, name ∈ names ↔ Closure edge root name
  /-- Each name stands once, and behind what it depends on. -/
  ordered : ∀ names, answer = .ok names → DefinedBeforeUse id edge names
  /-- An edge that is reported can be reached, and its end leads back to its start. -/
  closes : ∀ e, answer = .error e → ∃ dependent dependency, e = report dependent dependency ∧
    Closure edge root dependent ∧ edge dependent dependency ∧
      Relation.ReflTransGen edge dependency dependent

namespace RejectsCycles

variable {ε ε' : Type} {edge edge' : String → String → Prop} {root root' : String → Prop}
  {report : String → String → ε} {answer : Except ε (List String)}

/-- The reports may be told in other words. -/
theorem mapError (h : RejectsCycles edge root report answer) (f : ε → ε') :
    RejectsCycles edge root (fun a b => f (report a b)) (answer.mapError f) := by
  cases answer with
  | error e =>
    obtain ⟨dependent, dependency, rfl, hclose⟩ := h.closes e rfl
    refine ⟨?_, nofun, nofun, ?_⟩
    · simpa [Except.mapError] using h.accepts
    · intro _ he
      cases he
      exact ⟨dependent, dependency, rfl, hclose⟩
  | ok names =>
    refine ⟨?_, ?_, ?_, nofun⟩
    · simpa [Except.mapError] using h.accepts
    · intro _ ho
      cases ho
      exact h.complete names rfl
    · intro _ ho
      cases ho
      exact h.ordered names rfl

/-- Only the edges between reachable names matter. -/
theorem congr (h : RejectsCycles edge root report answer)
    (hc : ∀ name, Closure edge root name ↔ Closure edge' root' name)
    (he : ∀ a b, Closure edge root a → (edge a b ↔ edge' a b)) :
    RejectsCycles edge' root' report answer := by
  have hto : ∀ a b, Closure edge root a → edge a b → edge' a b := fun a b ha => (he a b ha).1
  have hback : ∀ a b, Closure edge' root' a → edge' a b → edge a b :=
    fun a b ha => (he a b ((hc a).2 ha)).2
  refine ⟨h.accepts.trans ?_, fun names ho name => (h.complete names ho name).trans (hc name),
    ?_, ?_⟩
  · constructor
    · exact fun hn name hname hcycle =>
        hn name ((hc name).2 hname) (hname.transGen_mono hback hcycle)
    · exact fun hn name hname hcycle =>
        hn name ((hc name).1 hname) (hname.transGen_mono hto hcycle)
  · intro names ho
    refine ⟨(h.ordered names ho).once, fun before name after heq dependency hd => ?_⟩
    have hname := (h.complete names ho name).1 (heq ▸ by simp)
    exact (h.ordered names ho).behind before name after heq dependency ((he _ _ hname).2 hd)
  · intro e herr
    obtain ⟨dependent, dependency, rfl, hreach, hedge, hloop⟩ := h.closes e herr
    exact ⟨dependent, dependency, rfl, (hc _).1 hreach, hto _ _ hreach hedge,
      (hreach.next hedge).reflTransGen_mono hto hloop⟩

end RejectsCycles

namespace Graph

variable {g : Graph}

/-! ## The cycle reported -/

/-- A dependency whose end leads back to its start. -/
structure Cycle.Closes (c : Cycle) (g : Graph) : Prop where
  depends : g.Depends c.dependent c.dependency
  back : Relation.ReflTransGen g.Depends c.dependency c.dependent

/-- A visit fails at a cycle that the name leads to, when the names on its path lead to
the name. -/
theorem failsAs_visit {depth : Nat} {path done : List String} {name : String}
    (hp : ∀ a ∈ path, Relation.ReflTransGen g.Depends a name) :
    FailsAs (fun c => Relation.ReflTransGen g.Depends name c.dependent ∧ c.Closes g)
      (g.visit depth path done name) := by
  induction depth generalizing path done name with
  | zero => exact .ok
  | succ depth ih =>
    refine FailsAs.bind_pure (FailsAs.foldlM ?_ done)
    intro dependency hd done
    have hpath : ∀ a ∈ name :: path, Relation.ReflTransGen g.Depends a name := by
      intro a ha
      rcases List.mem_cons.1 ha with rfl | ha
      · exact .refl
      · exact hp a ha
    split
    · next hmem => exact .error ⟨.refl, hd, hpath dependency hmem⟩
    · refine FailsAs.ite .ok ((ih fun a ha => (hpath a ha).tail hd).mono ?_)
      exact fun c hc => ⟨.head hd hc.1, hc.2⟩

/-- An order fails at a cycle that a root leads to. -/
theorem failsAs_order (g : Graph) (roots : List String) :
    FailsAs (fun c => Closure g.Depends (· ∈ roots) c.dependent ∧ c.Closes g) (g.order roots) := by
  refine FailsAs.foldlM ?_ []
  intro root hroot done
  refine FailsAs.ite .ok ((failsAs_visit (by simp)).mono ?_)
  exact fun c hc => ⟨(Closure.seed hroot).of_reflTransGen hc.1, hc.2⟩

/-- There is an order of what the roots depend on, or there is a cycle among it. -/
theorem rejectsCycles_order (g : Graph) (roots : List String) :
    RejectsCycles g.Depends (· ∈ roots) Cycle.mk (g.order roots) := by
  have hordered : ∀ names, g.order roots = .ok names → DefinedBeforeUse id g.Depends names := by
    intro names h
    refine .of_ordered (g := g) ?_ fun _ _ _ => id
    simpa using ordered_of_order h
  refine ⟨⟨?_, ?_⟩, fun names h name => mem_order_iff h, hordered, ?_⟩
  · intro ⟨names, h⟩ name hname hcycle
    refine (hordered names h).not_transGen name (hname.transGen_mono ?_ hcycle)
    exact fun a b ha hab => ⟨a, (mem_order_iff h).2 ha, rfl, hab⟩
  · intro hacyclic
    cases h : g.order roots with
    | ok names => exact ⟨names, rfl⟩
    | error c =>
      obtain ⟨hreach, hcloses⟩ := failsAs_order g roots c h
      exact absurd (.head' hcloses.depends hcloses.back) (hacyclic _ hreach)
  · intro c h
    obtain ⟨hreach, hcloses⟩ := failsAs_order g roots c h
    exact ⟨c.dependent, c.dependency, rfl, hreach, hcloses.depends, hcloses.back⟩

/-! ## Marks -/

/-- What is known of a name in the middle of a search. -/
inductive Mark where
  | visiting
  | done
deriving DecidableEq, Repr

/-- The marks of a search, the last one set first, and the names done so far. -/
structure Search where
  marks : List (String × Mark)
  order : List String

namespace Search

def mark? (s : Search) (name : String) : Option Mark := s.marks.lookup name

def enter (s : Search) (name : String) : Search := { s with marks := (name, .visiting) :: s.marks }

def leave (s : Search) (name : String) : Search := ⟨(name, .done) :: s.marks, s.order ++ [name]⟩

end Search

/-- Visits a name that has no mark.  There is no answer when the calls stand more than
`depth` deep inside each other. -/
def visitWithin (g : Graph) : (depth : Nat) → Search → String → ExceptT Cycle Option Search
  | 0, _, _ => ExceptT.mk none
  | depth + 1, s, name => do
    let s ← (g.next name).foldlM (fun s dependency =>
      match s.mark? dependency with
      | some .visiting => throw ⟨name, dependency⟩
      | some .done => pure s
      | none => g.visitWithin depth s dependency) (s.enter name)
    return s.leave name

/-- What the roots depend on, found with marks. -/
def searchWithin (g : Graph) (depth : Nat) (roots : List String) :
    Option (Except Cycle (List String)) :=
  ExceptT.run do
    let s ← roots.foldlM (fun s root =>
      if (s.mark? root).isSome then pure s else g.visitWithin depth s root) ⟨[], []⟩
    return s.order

namespace Search

variable {s : Search} {name other : String}

@[simp] theorem mark?_enter :
    (s.enter name).mark? other = if other = name then some .visiting else s.mark? other := by
  simp only [mark?, enter, List.lookup_cons]
  grind

@[simp] theorem mark?_leave :
    (s.leave name).mark? other = if other = name then some .done else s.mark? other := by
  simp only [mark?, leave, List.lookup_cons]
  grind

@[simp] theorem order_leave : (s.leave name).order = s.order ++ [name] := rfl

/-- The names on the path are those being visited, and those in order are those done. -/
structure Marks (s : Search) (path done : List String) : Prop where
  order : s.order = done
  visiting : ∀ name, s.mark? name = some .visiting ↔ name ∈ path
  done : ∀ name, s.mark? name = some .done ↔ name ∈ done

namespace Marks

variable {path done : List String}

theorem start : Marks ⟨[], []⟩ [] [] := ⟨rfl, by simp [mark?], by simp [mark?]⟩

theorem enter (h : s.Marks path done) (hn : name ∉ done) :
    (s.enter name).Marks (name :: path) done where
  order := h.order
  visiting := by
    intro other
    rw [mark?_enter, List.mem_cons, ← h.visiting]
    split <;> simp_all
  done := by
    intro other
    rw [mark?_enter, ← h.done]
    split
    · next heq => simpa [heq, h.done] using hn
    · rfl

theorem leave (h : s.Marks (name :: path) done) (hn : name ∉ path) :
    (s.leave name).Marks path (done ++ [name]) where
  order := by rw [order_leave, h.order]
  visiting := by
    intro other
    rw [mark?_leave]
    split
    · next heq => simpa [heq] using hn
    · next hne => simp [h.visiting, hne]
  done := by
    intro other
    rw [mark?_leave, List.mem_append, List.mem_singleton, ← h.done]
    split <;> simp_all

end Marks

end Search

/-- A search with marks answers as one with a path does. -/
def Agrees (path : List String) (x : ExceptT Cycle Option Search) :
    Except Cycle (List String) → Prop
  | .error c => x.run = some (.error c)
  | .ok done => ∃ s, x.run = some (.ok s) ∧ s.Marks path done

namespace Agrees

variable {path path' : List String} {x : ExceptT Cycle Option Search}
  {r : Except Cycle (List String)}

theorem pure {s : Search} {done : List String} (h : s.Marks path done) :
    Agrees path (pure s) (.ok done) := ⟨s, rfl, h⟩

theorem bind {f : Search → ExceptT Cycle Option Search}
    {k : List String → Except Cycle (List String)} (hx : Agrees path x r)
    (hf : ∀ s done, s.Marks path done → Agrees path' (f s) (k done)) :
    Agrees path' (x >>= f) (r >>= k) := by
  cases r with
  | error c =>
    obtain rfl : x = ExceptT.mk (some (.error c)) := hx
    rfl
  | ok done =>
    obtain ⟨s, hs, hm⟩ := hx
    obtain rfl : x = ExceptT.mk (some (.ok s)) := hs
    exact hf s done hm

theorem foldlM {f : Search → String → ExceptT Cycle Option Search}
    {k : List String → String → Except Cycle (List String)} {names : List String}
    (hf : ∀ name ∈ names, ∀ s done, s.Marks path done → Agrees path (f s name) (k done name))
    {s : Search} {done : List String} (h : s.Marks path done) :
    Agrees path (names.foldlM f s) (names.foldlM k done) := by
  induction names generalizing s done with
  | nil => exact .pure h
  | cons name names ih =>
    simp only [List.foldlM_cons]
    exact (hf name (.head _) s done h).bind fun s' done' => ih fun n hn => hf n (.tail _ hn)

/-- The order that is found is the one that was found with a path. -/
theorem run_order (h : Agrees path x r) :
    ExceptT.run (do let s ← x; return s.order) = some r := by
  cases r with
  | error c =>
    obtain rfl : x = ExceptT.mk (some (.error c)) := h
    rfl
  | ok done =>
    obtain ⟨s, hs, hm⟩ := h
    obtain rfl : x = ExceptT.mk (some (.ok s)) := hs
    obtain rfl := hm.order
    rfl

end Agrees

/-- A path is no longer than the graph. -/
theorem length_path_le {path : List String} (hp : path.Nodup)
    (hk : ∀ a ∈ path, a ∈ g.map Prod.fst) : path.length ≤ g.length := by
  simpa using hp.length_le_of_subset hk

/-- Visits agree whatever their depths, as long as these are enough. -/
theorem agrees_visit {depth depth' : Nat} {path done : List String} {name : String} {s : Search}
    (hp : (name :: path).Nodup) (hk : ∀ a ∈ path, a ∈ g.map Prod.fst)
    (hs : g.length < depth + path.length) (hs' : g.length < depth' + path.length)
    (hd : name ∉ done) (hm : s.Marks path done) :
    Agrees path (g.visitWithin depth s name) (g.visit depth' path done name) := by
  have hlength := length_path_le (List.nodup_cons.1 hp).2 hk
  induction depth generalizing depth' path done name s with
  | zero => omega
  | succ depth ih =>
    obtain ⟨depth', rfl⟩ : ∃ d, depth' = d + 1 := ⟨depth' - 1, by omega⟩
    refine (Agrees.foldlM ?_ (hm.enter hd)).bind fun s done hm =>
      .pure (hm.leave (List.nodup_cons.1 hp).1)
    intro dependency hdep s done hm
    obtain ⟨entry, hentry, rfl, -⟩ := mem_of_next hdep
    have hk' : ∀ a ∈ entry.1 :: path, a ∈ g.map Prod.fst :=
      List.forall_mem_cons.2 ⟨List.mem_map_of_mem hentry, hk⟩
    split
    · next hmark =>
      rw [if_pos ((hm.visiting dependency).1 hmark)]
      rfl
    · next hmark =>
      have hdone := (hm.done dependency).1 hmark
      have hpath : dependency ∉ entry.1 :: path := by
        intro hmem
        rw [(hm.visiting dependency).2 hmem] at hmark
        cases hmark
      rw [if_neg hpath, if_pos hdone]
      exact .pure hm
    · next hmark =>
      have hpath : dependency ∉ entry.1 :: path := fun hmem => by
        simp [(hm.visiting dependency).2 hmem] at hmark
      have hdone : dependency ∉ done := fun hmem => by
        simp [(hm.done dependency).2 hmem] at hmark
      rw [if_neg hpath, if_neg hdone]
      exact ih (List.nodup_cons.2 ⟨hpath, hp⟩) hk' (by simp; omega) (by simp; omega) hdone hm
        (length_path_le hp hk')

/-- A search with marks ends within any depth above the number of entries, and it answers
what the order is. -/
theorem searchWithin_eq (g : Graph) (roots : List String) {depth : Nat} (hs : g.length < depth) :
    g.searchWithin depth roots = some (g.order roots) := by
  have hagrees : Agrees []
      (roots.foldlM (fun s root =>
        if (s.mark? root).isSome then pure s else g.visitWithin depth s root) ⟨[], []⟩)
      (g.order roots) := by
    refine Agrees.foldlM ?_ .start
    intro root _ s done hm
    have hmark : (s.mark? root).isSome = true ↔ root ∈ done := by
      rw [← hm.done, Option.isSome_iff_exists]
      constructor
      · intro ⟨mark, hmark⟩
        cases mark with
        | visiting => simpa using (hm.visiting root).1 hmark
        | done => exact hmark
      · exact fun hmark => ⟨_, hmark⟩
    simp only [hmark]
    split
    · exact .pure hm
    · next hdone => exact agrees_visit (by simp) (by simp) (by simpa using hs) (by simp) hdone hm
  exact hagrees.run_order

end Graph

end Shading
