import Mathlib.Data.Finset.Card
import Mathlib.Data.Prod.Lex
import Mathlib.Order.WellFounded
import Shading.Proofs.Graph.Cycles

/-!
# Worklists

A worklist is a loop over a stack of pending names, the top first.  `Ends` says that a
loop ends and with what.  No bound on the number of turns stands in it.

1. `Graph.reachTurn` marks a name only after its dependencies are pending, and a name
   that is pending more than once is expanded more than once.  So neither the stack nor
   the names without a mark decrease with every turn.  What decreases is the pair of the
   names that are known and have no mark, and of the pending names that have one
   (`reachTurn_lt`).
2. `sweep` drops a name that was expanded before and may keep others off the stack.  It
   ends with what `explore` answers (`ends_sweep`), as the names it keeps off the stack are
   names that `explore` would drop (`exploreFrom_congr`).
-/

namespace Shading

/-! ## Loops -/

/-- A loop ends with an answer: its turns lead from a state to one in which it stops. -/
inductive Ends {σ β : Type} (turn : σ → β ⊕ σ) : σ → β → Prop where
  | stop {s : σ} {b : β} : turn s = .inl b → Ends turn s b
  | next {s t : σ} {b : β} : turn s = .inr t → Ends turn t b → Ends turn s b

namespace Ends

variable {σ σ' β β' : Type} {turn : σ → β ⊕ σ} {turn' : σ' → β' ⊕ σ'}

/-- A loop has one answer. -/
theorem unique {s : σ} {b c : β} (hb : Ends turn s b) (hc : Ends turn s c) : b = c := by
  induction hb with
  | stop hs =>
    cases hc with
    | stop hs' => exact Sum.inl.inj (hs.symm.trans hs')
    | next hs' _ => cases hs.symm.trans hs'
  | next hs _ ih =>
    cases hc with
    | stop hs' => cases hs.symm.trans hs'
    | next hs' hc =>
      obtain rfl := Sum.inr.inj (hs.symm.trans hs')
      exact ih hc

/-- A loop ends when its turns decrease a measure. -/
theorem exists_of_lt {α : Type} [LT α] [WellFoundedLT α] (μ : σ → α)
    (h : ∀ s t, turn s = .inr t → μ t < μ s) (s : σ) : ∃ b, Ends turn s b := by
  induction s using (InvImage.wf μ wellFounded_lt).induction with
  | _ s ih =>
    cases hs : turn s with
    | inl b => exact ⟨b, .stop hs⟩
    | inr t =>
      obtain ⟨b, hb⟩ := ih t (h s t hs)
      exact ⟨b, .next hs hb⟩

/-- What every turn preserves holds when the loop stops. -/
theorem of_invariant {I : σ → Prop} {P : β → Prop} (hI : ∀ s t, I s → turn s = .inr t → I t)
    (hP : ∀ s b, I s → turn s = .inl b → P b) {s : σ} {b : β} (h : Ends turn s b) (hs : I s) :
    P b := by
  induction h with
  | stop hstop => exact hP _ _ hs hstop
  | next hnext _ ih => exact ih (hI _ _ hs hnext)

/-- A loop ends when it runs beside one that ends: from related states they stop with
related answers, or go on from related states. -/
theorem of_related {R : σ → σ' → Prop} {A : β → β' → Prop}
    (h : ∀ s s', R s s' → Sum.LiftRel A R (turn s) (turn' s')) {s : σ} {s' : σ'} {b' : β'}
    (hends : Ends turn' s' b') (hs : R s s') : ∃ b, Ends turn s b ∧ A b b' := by
  induction hends generalizing s with
  | @stop s' b' hstop =>
    have hturn := h s s' hs
    rw [hstop] at hturn
    cases hs : turn s with
    | inl b =>
      rw [hs] at hturn
      exact ⟨b, .stop hs, Sum.liftRel_inl_inl.1 hturn⟩
    | inr t =>
      rw [hs] at hturn
      cases hturn
  | @next s' t' b' hnext _ ih =>
    have hturn := h s s' hs
    rw [hnext] at hturn
    cases hs : turn s with
    | inl b =>
      rw [hs] at hturn
      cases hturn
    | inr t =>
      rw [hs] at hturn
      obtain ⟨b, hb, hab⟩ := ih (Sum.liftRel_inr_inr.1 hturn)
      exact ⟨b, .next hs hb, hab⟩

/-- A loop that ends with an answer ends with no other. -/
theorem iff_eq {s : σ} {b c : β} (h : Ends turn s b) : Ends turn s c ↔ c = b :=
  ⟨fun hc => hc.unique h, fun hc => hc ▸ h⟩

end Ends

/-! ## Names marked after their dependencies are pending -/

namespace Graph

variable {g : Graph}

/-- The pending names, the top first, and the names with a mark, in order. -/
structure Reaching where
  pending : List String
  reached : List String

/-- Marks a name.  A name with a mark keeps its place. -/
def mark (reached : List String) (name : String) : List String :=
  if name ∈ reached then reached else reached ++ [name]

@[simp] theorem mem_mark {reached : List String} {name other : String} :
    other ∈ mark reached name ↔ other ∈ reached ∨ other = name := by
  rw [mark]
  split
  · next h => exact ⟨.inl, fun ho => ho.elim id fun heq => heq ▸ h⟩
  · simp

theorem mark_of_mem {reached : List String} {name : String} (h : name ∈ reached) :
    mark reached name = reached := if_pos h

theorem nodup_mark {reached : List String} (h : reached.Nodup) (name : String) :
    (mark reached name).Nodup := by
  rw [mark]
  split
  · exact h
  · next hname => exact List.concat_eq_append ▸ h.concat hname

/-- A turn of the search for what a name reaches.  The name on top becomes pending
dependencies and gets its mark, whether it had one or not. -/
def reachTurn (g : Graph) : Reaching → List String ⊕ Reaching
  | ⟨[], reached⟩ => .inl reached
  | ⟨name :: rest, reached⟩ =>
    .inr ⟨((g.next name).filter (· ∉ reached)).reverse ++ rest, mark reached name⟩

/-- The names that a search knows of and that have no mark. -/
def Reaching.unmarked (g : Graph) (s : Reaching) : Finset String :=
  (s.pending ++ g.flatMap Prod.snd).toFinset \ s.reached.toFinset

/-- The number of pending names that have a mark. -/
def Reaching.repeated (s : Reaching) : Nat := s.pending.countP (· ∈ s.reached)

/-- What the turns of a search decrease. -/
def Reaching.measure (g : Graph) (s : Reaching) : ℕ ×ₗ ℕ :=
  toLex ((s.unmarked g).card, s.repeated)

theorem mem_flatMap_of_next {a b : String} (h : b ∈ g.next a) : b ∈ g.flatMap Prod.snd := by
  obtain ⟨entry, hentry, -, hb⟩ := mem_of_next h
  exact List.mem_flatMap.2 ⟨entry, hentry, hb⟩

/-- A turn makes no name unmarked. -/
theorem unmarked_reachTurn_subset {s t : Reaching} (h : g.reachTurn s = .inr t) :
    t.unmarked g ⊆ s.unmarked g := by
  obtain ⟨_ | ⟨name, rest⟩, reached⟩ := s
  · cases h
  · cases h
    intro other hother
    simp only [Reaching.unmarked, Finset.mem_sdiff, List.mem_toFinset, List.mem_append,
      List.mem_reverse, List.mem_filter, List.mem_cons, mem_mark, not_or] at hother ⊢
    refine ⟨?_, hother.2.1⟩
    rcases hother.1 with (hnext | hrest) | hknown
    · exact .inr (mem_flatMap_of_next hnext.1)
    · exact .inl (.inr hrest)
    · exact .inr hknown

/-- A turn marks the name on top for the first time, or it drops a name that has a mark and
adds none. -/
theorem reachTurn_lt {s t : Reaching} (h : g.reachTurn s = .inr t) :
    t.measure g < s.measure g := by
  have hsubset := unmarked_reachTurn_subset h
  obtain ⟨_ | ⟨name, rest⟩, reached⟩ := s
  · cases h
  · cases h
    rw [Reaching.measure, Reaching.measure, Prod.Lex.toLex_lt_toLex]
    by_cases hname : name ∈ reached
    · refine (Finset.card_le_card hsubset).lt_or_eq.imp_right fun hcard => ⟨hcard, ?_⟩
      have hadded : ((g.next name).filter (· ∉ reached)).countP (· ∈ reached) = 0 := by
        simp [List.countP_eq_zero]
      simp only [Reaching.repeated, mark_of_mem hname, List.countP_append, List.countP_reverse,
        hadded, List.countP_cons]
      simp [hname]
    · refine .inl (Finset.card_lt_card (hsubset.ssubset_of_mem_notMem (a := name) ?_ ?_))
      · simp [Reaching.unmarked, hname]
      · simp [Reaching.unmarked]

/-- A search between two turns. -/
structure Reaching.Sound (g : Graph) (root : String) (s : Reaching) : Prop where
  /-- A name has one mark. -/
  once : s.reached.Nodup
  /-- Only what the root reaches is marked or pending. -/
  sound : ∀ name, name ∈ s.reached ∨ name ∈ s.pending → Relation.ReflTransGen g.Depends root name
  /-- The root is not forgotten. -/
  root : root ∈ s.reached ∨ root ∈ s.pending
  /-- No dependency of a name with a mark is forgotten. -/
  closed : ∀ a ∈ s.reached, ∀ b, g.Depends a b → b ∈ s.reached ∨ b ∈ s.pending

namespace Reaching.Sound

variable {root : String} {s t : Reaching}

theorem start (root : String) : Sound g root ⟨[root], []⟩ where
  once := .nil
  sound := by
    intro name h
    obtain rfl : name = root := by simpa using h
    exact .refl
  root := by simp
  closed := by simp

/-- A turn forgets no name. -/
theorem mem_of_turn {name : String} (h : g.reachTurn s = .inr t)
    (hname : name ∈ s.reached ∨ name ∈ s.pending) : name ∈ t.reached ∨ name ∈ t.pending := by
  obtain ⟨_ | ⟨top, rest⟩, reached⟩ := s
  · cases h
  · cases h
    simp only [List.mem_cons, mem_mark, List.mem_append] at hname ⊢
    rcases hname with hr | heq | hp
    · exact .inl (.inl hr)
    · exact .inl (.inr heq)
    · exact .inr (.inr hp)

theorem turn (hs : Sound g root s) (h : g.reachTurn s = .inr t) : Sound g root t := by
  have hkept : ∀ name, name ∈ s.reached ∨ name ∈ s.pending → name ∈ t.reached ∨ name ∈ t.pending :=
    fun _ => mem_of_turn h
  obtain ⟨_ | ⟨top, rest⟩, reached⟩ := s
  · cases h
  · cases h
    have htop := hs.sound top (.inr (.head _))
    refine ⟨nodup_mark hs.once top, ?_, hkept _ hs.root, ?_⟩
    · intro name hname
      simp only [mem_mark, List.mem_append, List.mem_reverse, List.mem_filter] at hname
      rcases hname with (hr | rfl) | (hnext | hp)
      · exact hs.sound name (.inl hr)
      · exact htop
      · exact htop.tail hnext.1
      · exact hs.sound name (.inr (.tail _ hp))
    · intro a ha b hab
      rcases mem_mark.1 ha with ha | rfl
      · exact hkept _ (hs.closed a ha b hab)
      · -- The dependencies of the name on top have a mark or become pending.
        by_cases hb : b ∈ reached
        · exact .inl (mem_mark.2 (.inl hb))
        · exact .inr (List.mem_append_left _ (by simpa [hb] using show b ∈ g.next a from hab))

/-- When nothing is pending, the names with a mark are those the root reaches. -/
theorem mem_iff {reached : List String} (h : Sound g root ⟨[], reached⟩) {name : String} :
    name ∈ reached ↔ Relation.ReflTransGen g.Depends root name := by
  refine ⟨fun hname => h.sound name (.inl hname), fun hreach => ?_⟩
  induction hreach with
  | refl => exact h.root.resolve_right (by simp)
  | tail _ hab ih => exact (h.closed _ ih _ hab).resolve_right (by simp)

end Reaching.Sound

/-- The search for what a name reaches ends, whatever the graph, and it marks what the name
reaches. -/
theorem exists_ends_reachTurn (g : Graph) (root : String) :
    ∃ reached, Ends g.reachTurn ⟨[root], []⟩ reached ∧ reached.Nodup ∧
      ∀ name, name ∈ reached ↔ Relation.ReflTransGen g.Depends root name := by
  obtain ⟨reached, hends⟩ := Ends.exists_of_lt (Reaching.measure g) (fun _ _ => reachTurn_lt)
    ⟨[root], []⟩
  have hsound : Reaching.Sound g root ⟨[], reached⟩ := by
    refine hends.of_invariant (P := fun names => Reaching.Sound g root ⟨[], names⟩)
      (fun _ _ => Reaching.Sound.turn) (fun s names hs hstop => ?_) (.start root)
    obtain ⟨_ | ⟨top, rest⟩, _⟩ := s <;> cases hstop
    exact hs
  exact ⟨reached, hends, hsound.once, fun _ => hsound.mem_iff⟩

/-- The search with marks finds the names that `Graph.reach` finds. -/
theorem perm_reach {root : String} {reached : List String} (ho : reached.Nodup)
    (hm : ∀ name, name ∈ reached ↔ Relation.ReflTransGen g.Depends root name) :
    reached.Perm (g.reach root) := by
  obtain ⟨found, hreach, hexplored⟩ := explored_reach g root
  refine (List.perm_ext_iff_of_nodup ho (hreach ▸ hexplored.once)).2 fun name => ?_
  rw [hm, mem_reach_iff]
  constructor
  · exact fun h => Closure.of_reflTransGen (.seed rfl) h
  · intro h
    induction h with
    | seed h => exact h ▸ .refl
    | next _ hab ih => exact ih.tail hab

end Graph

/-! ## Names expanded once -/

section Sweep

variable {ε α : Type} {expand : String → Except ε (α × List String)}
  {keep : Expanded α → String → Bool}

/-- The pending names, the top first, and the names expanded so far. -/
structure Sweep (α : Type) where
  pending : List String
  found : Expanded α

/-- A turn of a search that expands every name once.  Only some of the names that the one on
top leads to become pending, which depends on what was found. -/
def sweep (expand : String → Except ε (α × List String)) (keep : Expanded α → String → Bool) :
    Sweep α → Except ε (Expanded α) ⊕ Sweep α
  | ⟨[], found⟩ => .inl (.ok found)
  | ⟨name :: rest, found⟩ =>
    if found.has name then .inr ⟨rest, found⟩
    else
      match expand name with
      | .error e => .inl (.error e)
      | .ok (value, next) =>
        let found := found ++ [(name, value)]
        .inr ⟨(next.filter (keep found)).reverse ++ rest, found⟩

/-- The pending names that were not expanded. -/
def Expanded.fresh (found : Expanded α) (pending : List String) : List String :=
  pending.filter fun name => !found.has name

theorem fresh_eq_fresh_dropWhile {found : Expanded α} {pending : List String} :
    found.fresh pending = found.fresh (pending.dropWhile found.has) := by
  induction pending with
  | nil => rfl
  | cons name pending ih =>
    cases hname : found.has name with
    | true => simpa [Expanded.fresh, hname] using ih
    | false => simp [hname]

/-- The first pending name that was not expanded is where `exploreFrom` goes on. -/
theorem fresh_eq_cons {found : Expanded α} {pending rest : List String} {name : String}
    (h : pending.dropWhile found.has = name :: rest) :
    found.fresh pending = name :: found.fresh rest := by
  rw [fresh_eq_fresh_dropWhile, h]
  simp [Expanded.fresh, not_has_of_dropWhile h]

theorem fresh_eq_nil_iff {found : Expanded α} {pending : List String} :
    found.fresh pending = [] ↔ pending.dropWhile found.has = [] := by
  constructor
  · intro h
    cases hd : pending.dropWhile found.has with
    | nil => rfl
    | cons name rest => simp [fresh_eq_cons hd] at h
  · intro h
    rw [fresh_eq_fresh_dropWhile, h]
    rfl

/-- A name that is not fresh any more when more is found may be dropped before. -/
theorem fresh_fresh {found more : Expanded α} {pending : List String} :
    (found ++ more).fresh (found.fresh pending) = (found ++ more).fresh pending := by
  simp only [Expanded.fresh, List.filter_filter]
  refine List.filter_congr fun name _ => ?_
  simp only [Expanded.has, List.any_append, Bool.not_or]
  grind

theorem fresh_append {found : Expanded α} {names pending : List String} :
    found.fresh (names ++ pending) = found.fresh names ++ found.fresh pending :=
  List.filter_append ..

theorem fresh_reverse {found : Expanded α} {pending : List String} :
    found.fresh pending.reverse = (found.fresh pending).reverse :=
  List.filter_reverse

/-- Only the pending names that were not expanded matter. -/
theorem exploreFrom_congr {steps : Nat} {pending pending' : List String} {found : Expanded α}
    (h : found.fresh pending = found.fresh pending') :
    exploreFrom expand steps pending found = exploreFrom expand steps pending' found := by
  induction steps generalizing pending pending' found with
  | zero => rfl
  | succ steps ih =>
    simp only [exploreFrom]
    cases hd : pending.dropWhile found.has with
    | nil => rw [fresh_eq_nil_iff.1 (h ▸ fresh_eq_nil_iff.2 hd)]
    | cons name rest =>
      cases hd' : pending'.dropWhile found.has with
      | nil => simp [fresh_eq_cons hd, fresh_eq_nil_iff.2 hd'] at h
      | cons name' rest' =>
        rw [fresh_eq_cons hd, fresh_eq_cons hd'] at h
        obtain ⟨rfl, hrest⟩ := List.cons.inj h
        dsimp only
        cases expand name with
        | error e => rfl
        | ok result =>
          refine ih ?_
          have hmore := congrArg (found ++ [(name, result.1)]).fresh hrest
          rw [fresh_fresh, fresh_fresh] at hmore
          rw [fresh_append, fresh_append, hmore]

/-- A name that was expanded before takes no step. -/
theorem exploreFrom_of_has {steps : Nat} {name : String} {rest : List String}
    {found : Expanded α} (h : found.has name = true) :
    exploreFrom expand steps (name :: rest) found = exploreFrom expand steps rest found :=
  exploreFrom_congr (by simp [Expanded.fresh, h])

theorem exploreFrom_of_error {steps : Nat} {name : String} {rest : List String}
    {found : Expanded α} {e : ε} (h : found.has name = false) (he : expand name = .error e) :
    exploreFrom expand (steps + 1) (name :: rest) found = .error e := by
  rw [exploreFrom, List.dropWhile_cons_of_neg (by simp [h])]
  simp only [he]

theorem exploreFrom_of_ok {steps : Nat} {name : String} {rest next : List String} {value : α}
    {found : Expanded α} (h : found.has name = false) (he : expand name = .ok (value, next)) :
    exploreFrom expand (steps + 1) (name :: rest) found =
      exploreFrom expand steps (next.reverse ++ rest) (found ++ [(name, value)]) := by
  rw [exploreFrom, List.dropWhile_cons_of_neg (by simp [h])]
  simp only [he]

/-- What may be expanded is listed, and names that do not become pending were expanded. -/
structure Bounded (expand : String → Except ε (α × List String))
    (keep : Expanded α → String → Bool) (names : List String) : Prop where
  mem : ∀ name value next, expand name = .ok (value, next) → name ∈ names
  kept : ∀ name value next, expand name = .ok (value, next) → ∀ n ∈ next, ∀ found : Expanded α,
    keep found n = true ∨ found.has n = true

/-- The names that become pending are fresh as all those are that the name on top leads to. -/
theorem Bounded.fresh_filter {names : List String} (hb : Bounded expand keep names)
    {name : String} {value : α} {next : List String} (he : expand name = .ok (value, next))
    (found : Expanded α) (rest : List String) :
    found.fresh (next.reverse ++ rest) =
      found.fresh ((next.filter (keep found)).reverse ++ rest) := by
  have hfilter : found.fresh (next.filter (keep found)) = found.fresh next := by
    simp only [Expanded.fresh, List.filter_filter]
    refine List.filter_congr fun n hn => ?_
    rcases hb.kept name value next he n hn found with hk | hk <;> simp [hk]
  rw [fresh_append, fresh_append, fresh_reverse, fresh_reverse, hfilter]

/-- A sweep ends with what a search answers whose steps are not used up. -/
theorem ends_sweep_of_exploreFrom {names : List String} (hb : Bounded expand keep names)
    {steps : Nat} {pending : List String} {found : Expanded α}
    (ho : (found.map Prod.fst).Nodup) (hf : found.map Prod.fst ⊆ names)
    (hs : names.length < steps + found.length) :
    Ends (sweep expand keep) ⟨pending, found⟩ (exploreFrom expand steps pending found) := by
  induction steps generalizing pending found with
  | zero =>
    have hle := ho.length_le_of_subset hf
    simp only [List.length_map] at hle
    omega
  | succ steps ih =>
    -- The names that were expanded are dropped one turn after the other.
    induction pending with
    | nil => exact .stop rfl
    | cons name rest ihrest =>
      cases hname : found.has name with
      | true =>
        rw [exploreFrom_of_has hname]
        exact .next (by simp [sweep, hname]) ihrest
      | false =>
        cases he : expand name with
        | error e =>
          rw [exploreFrom_of_error hname he]
          exact .stop (by simp [sweep, hname, he])
        | ok result =>
          obtain ⟨value, next⟩ := result
          rw [exploreFrom_of_ok hname he, exploreFrom_congr (hb.fresh_filter he _ rest)]
          have hnew : name ∉ found.map Prod.fst := fun hmem => by
            simp [Expanded.has_iff.2 hmem] at hname
          refine .next ?_ (ih ?_ ?_ (by simp; omega))
          · simp [sweep, hname, he]
          · rw [List.map_append]
            exact List.concat_eq_append ▸ ho.concat hnew
          · simpa [hb.mem name value next he] using hf

/-- A sweep ends with what a search answers. -/
theorem ends_sweep {names : List String} (hb : Bounded expand keep names) {bound : Nat}
    (hle : names.length ≤ bound) (seeds : List String) :
    Ends (sweep expand keep) ⟨seeds.reverse, []⟩ (explore bound expand seeds) :=
  ends_sweep_of_exploreFrom hb .nil (by simp) (by simp; omega)

end Sweep

end Shading
