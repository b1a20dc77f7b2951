import Mathlib.Data.List.Induction
import Mathlib.Data.List.Perm.Basic
import Shading.Generation.Result

/-!
# Collected outputs

Outputs are kept in the order of their places, one at each place (`sorted_insert`).
Keeping an output changes what is found at its own place and at no other
(`lookup_insert`).  So what is collected is told by what is found at each place
(`ext_of_sorted`), and the outputs for a target are those found at its places, by
index (`outputsFor_eq`).

Outputs come in any order, and what is found at a place is what came for it last
(`lookup_ofList`).  When those with one place are one output, what is collected depends
on which outputs came and not on their order (`ofList_eq_of_perm`).
-/

namespace Shading

/-! ## The order of places -/

namespace Place

variable {a b c : Place}

theorem before_iff :
    a.before b = true ↔
      a.target.rank < b.target.rank ∨ a.target = b.target ∧ a.index < b.index := by
  simp [before]

theorem before_irrefl (a : Place) : ¬ a.before a = true := by
  simp [before]

theorem ne_of_before (h : a.before b = true) : a ≠ b := by
  rintro rfl
  exact before_irrefl a h

theorem before_trans (hab : a.before b = true) (hbc : b.before c = true) :
    a.before c = true := by
  rw [before_iff] at hab hbc ⊢
  rcases hab with hab | ⟨hab, hi⟩
  · rcases hbc with hbc | ⟨hbc, -⟩
    · exact .inl (Nat.lt_trans hab hbc)
    · exact .inl (hbc ▸ hab)
  · rcases hbc with hbc | ⟨hbc, hj⟩
    · exact .inl (hab ▸ hbc)
    · exact .inr ⟨hab.trans hbc, Nat.lt_trans hi hj⟩

/-- Of two places one is before the other. -/
theorem before_of_not_before (h : ¬ a.before b = true) (hne : a ≠ b) : b.before a = true := by
  rw [before_iff, not_or, not_and] at h
  rw [before_iff]
  obtain ⟨hrank, hindex⟩ := h
  by_cases ht : a.target = b.target
  · have hi : a.index ≠ b.index := fun hi => hne (by cases a; cases b; simp_all)
    have := hindex ht
    exact .inr ⟨ht.symm, by omega⟩
  · have hr : a.target.rank ≠ b.target.rank := fun hr => ht (Target.rank_injective hr)
    exact .inl (by omega)

end Place

namespace Collected

variable {c d : Collected} {place : Place} {output : Output}

/-! ## Keeping an output -/

/-- The places are in order, each once. -/
def Sorted (c : Collected) : Prop := c.Pairwise fun a b => a.1.before b.1 = true

theorem sorted_insert (h : c.Sorted) : (Collected.insert place output c).Sorted := by
  induction c with
  | nil => exact List.pairwise_singleton _ _
  | cons first rest ih =>
    obtain ⟨hfirst, hrest⟩ := List.pairwise_cons.1 h
    rw [Collected.insert]
    split
    · next hbefore =>
      refine List.pairwise_cons.2 ⟨fun entry hmem => ?_, h⟩
      rcases List.mem_cons.1 hmem with rfl | hmem
      · exact hbefore
      · exact Place.before_trans hbefore (hfirst entry hmem)
    · next hbefore =>
      split
      · next heq => exact List.pairwise_cons.2 ⟨heq ▸ hfirst, hrest⟩
      · next hne =>
        refine List.pairwise_cons.2 ⟨fun entry hmem => ?_, ih hrest⟩
        rcases mem_of_mem_insert hmem with rfl | hmem
        · exact Place.before_of_not_before hbefore hne
        · exact hfirst entry hmem

theorem lookup_entry_cons (wanted : Place) (first : Place × Output) (rest : Collected) :
    List.lookup wanted (first :: rest) =
      if wanted = first.1 then some first.2 else rest.lookup wanted := by
  rw [List.lookup_cons]
  by_cases h : wanted = first.1
  · simp [h]
  · simp [h, beq_eq_false_iff_ne.2 h]

/-- An output that is kept is found at its place, and nothing else changes. -/
theorem lookup_insert (wanted place : Place) (output : Output) (c : Collected) :
    (Collected.insert place output c).lookup wanted =
      if wanted = place then some output else c.lookup wanted := by
  induction c with
  | nil => rw [Collected.insert, lookup_entry_cons]
  | cons first rest ih =>
    rw [Collected.insert]
    split
    · rw [lookup_entry_cons]
    · split
      · next heq =>
        rw [lookup_entry_cons, lookup_entry_cons]
        split <;> simp_all
      · next hne =>
        rw [lookup_entry_cons, lookup_entry_cons, ih]
        split
        · next hw => rw [if_neg (hw ▸ Ne.symm hne)]
        · rfl

/-! ## What is found -/

/-- What is found at a place is what is kept there. -/
theorem lookup_eq_some_iff (h : c.Sorted) :
    c.lookup place = some output ↔ (place, output) ∈ c := by
  induction c with
  | nil => simp
  | cons first rest ih =>
    obtain ⟨hfirst, hrest⟩ := List.pairwise_cons.1 h
    rw [lookup_entry_cons, List.mem_cons]
    split
    · next hp =>
      obtain ⟨_, first⟩ := first
      obtain rfl : place = _ := hp
      have hnew : (place, output) ∉ rest := fun hmem => Place.ne_of_before (hfirst _ hmem) rfl
      simp [hnew, eq_comm]
    · next hp =>
      have hother : (place, output) ≠ first := fun heq => hp (heq ▸ rfl)
      rw [ih hrest, or_iff_right hother]

/-- Entries in the order of their places are told by which they are. -/
theorem eq_of_sorted (hc : c.Sorted) (hd : d.Sorted) (h : ∀ entry, entry ∈ c ↔ entry ∈ d) :
    c = d := by
  have hnodup : ∀ {l : Collected}, l.Sorted → l.Nodup := fun hl =>
    hl.imp fun hab heq => Place.ne_of_before hab (congrArg Prod.fst heq)
  refine List.Perm.eq_of_pairwise (fun a b _ _ hab hba => ?_) hc hd
    ((List.perm_ext_iff_of_nodup (hnodup hc) (hnodup hd)).2 h)
  exact absurd (Place.before_trans hab hba) (Place.before_irrefl _)

/-- What is collected is told by what is found at each place. -/
theorem ext_of_sorted (hc : c.Sorted) (hd : d.Sorted)
    (h : ∀ place, c.lookup place = d.lookup place) : c = d :=
  eq_of_sorted hc hd fun _ => by rw [← lookup_eq_some_iff hc, h, lookup_eq_some_iff hd]

/-- The outputs for a target are those found at its places, by index. -/
theorem outputsFor_eq (h : c.Sorted) (target : Target) {bound : Nat}
    (hbound : ∀ entry ∈ c, entry.1.index < bound) :
    c.outputsFor target =
      (List.range bound).filterMap fun index => c.lookup ⟨target, index⟩ := by
  have hentries : c.filter (·.1.target = target) =
      (List.range bound).filterMap fun index =>
        (c.lookup ⟨target, index⟩).map (Place.mk target index, ·) := by
    refine eq_of_sorted (List.Pairwise.filter _ h) ?_ fun entry => ?_
    · refine List.pairwise_filterMap.2 (List.pairwise_lt_range.imp fun hlt a ha b hb => ?_)
      obtain ⟨x, -, rfl⟩ := Option.map_eq_some_iff.1 ha
      obtain ⟨y, -, rfl⟩ := Option.map_eq_some_iff.1 hb
      exact Place.before_iff.2 (.inr ⟨rfl, hlt⟩)
    · obtain ⟨⟨t, index⟩, o⟩ := entry
      simp only [List.mem_filter, decide_eq_true_eq, List.mem_filterMap, List.mem_range,
        Option.map_eq_some_iff, Prod.mk.injEq, Place.mk.injEq]
      constructor
      · rintro ⟨hmem, rfl⟩
        exact ⟨index, hbound _ hmem, o, (lookup_eq_some_iff h).2 hmem, ⟨rfl, rfl⟩, rfl⟩
      · rintro ⟨i, -, x, hx, ⟨rfl, rfl⟩, rfl⟩
        exact ⟨(lookup_eq_some_iff h).1 hx, rfl⟩
  rw [outputsFor, hentries, List.map_filterMap]
  congr 1
  funext index
  cases c.lookup ⟨target, index⟩ <;> rfl

/-! ## Outputs as they come -/

/-- The place of an output of the set at a position. -/
def placeOf (entry : Nat × Output) : Place := ⟨entry.2.target, entry.1⟩

/-- Outputs with one place are one output. -/
def Agreeing (outputs : List (Nat × Output)) : Prop :=
  ∀ a ∈ outputs, ∀ b ∈ outputs, placeOf a = placeOf b → a.2 = b.2

theorem ofList_concat (outputs : List (Nat × Output)) (entry : Nat × Output) :
    ofList (outputs ++ [entry]) = Collected.insert (placeOf entry) entry.2 (ofList outputs) :=
  List.foldl_concat ..

theorem sorted_ofList (outputs : List (Nat × Output)) : (ofList outputs).Sorted := by
  induction outputs using List.reverseRecOn with
  | nil => exact List.Pairwise.nil
  | append_singleton outputs entry ih =>
    rw [ofList_concat]
    exact sorted_insert ih

/-- What is found at a place is what came for it last. -/
theorem lookup_ofList (outputs : List (Nat × Output)) (place : Place) :
    (ofList outputs).lookup place =
      (outputs.reverse.find? fun entry => placeOf entry = place).map Prod.snd := by
  induction outputs using List.reverseRecOn with
  | nil => rfl
  | append_singleton outputs entry ih =>
    rw [ofList_concat, lookup_insert, List.reverse_append, List.reverse_singleton,
      List.singleton_append, List.find?_cons, ih]
    by_cases h : place = placeOf entry
    · simp [h]
    · simp [h, Ne.symm h]

/-- What is found at a place came for it. -/
theorem exists_of_lookup_ofList {outputs : List (Nat × Output)}
    (h : (ofList outputs).lookup place = some output) :
    ∃ entry ∈ outputs, placeOf entry = place ∧ entry.2 = output := by
  rw [lookup_ofList] at h
  obtain ⟨entry, hfind, hentry⟩ := Option.map_eq_some_iff.1 h
  exact ⟨entry, List.mem_reverse.1 (List.mem_of_find?_eq_some hfind),
    by simpa using List.find?_some hfind, hentry⟩

/-- Something is found at the place of an output that came. -/
theorem exists_lookup_ofList {outputs : List (Nat × Output)} {entry : Nat × Output}
    (h : entry ∈ outputs) : ∃ output, (ofList outputs).lookup (placeOf entry) = some output := by
  have hcame : ∃ x ∈ outputs.reverse, decide (placeOf x = placeOf entry) = true :=
    ⟨entry, List.mem_reverse.2 h, by simp⟩
  obtain ⟨last, hlast⟩ := Option.isSome_iff_exists.1 (List.find?_isSome.2 hcame)
  exact ⟨last.2, by rw [lookup_ofList, hlast, Option.map_some]⟩

/-- Of outputs that agree, each is found at its place. -/
theorem lookup_ofList_of_agreeing {outputs : List (Nat × Output)} (h : Agreeing outputs)
    {entry : Nat × Output} (hmem : entry ∈ outputs) :
    (ofList outputs).lookup (placeOf entry) = some entry.2 := by
  obtain ⟨output, hfound⟩ := exists_lookup_ofList hmem
  obtain ⟨found, hin, hplace, rfl⟩ := exists_of_lookup_ofList hfound
  rw [hfound, h found hin entry hmem hplace]

theorem lookup_ofList_eq_some_iff {outputs : List (Nat × Output)} (h : Agreeing outputs) :
    (ofList outputs).lookup place = some output ↔
      ∃ entry ∈ outputs, placeOf entry = place ∧ entry.2 = output := by
  constructor
  · exact exists_of_lookup_ofList
  · rintro ⟨entry, hmem, rfl, rfl⟩
    exact lookup_ofList_of_agreeing h hmem

/-- Outputs that agree come to the same in whatever order they come. -/
theorem ofList_eq_of_perm {outputs others : List (Nat × Output)} (h : Agreeing outputs)
    (hperm : others.Perm outputs) : ofList others = ofList outputs := by
  have hothers : Agreeing others := fun a ha b hb =>
    h a (hperm.mem_iff.1 ha) b (hperm.mem_iff.1 hb)
  refine ext_of_sorted (sorted_ofList _) (sorted_ofList _) fun place => Option.ext fun output => ?_
  simp only [lookup_ofList_eq_some_iff h, lookup_ofList_eq_some_iff hothers, hperm.mem_iff]

end Collected

end Shading
