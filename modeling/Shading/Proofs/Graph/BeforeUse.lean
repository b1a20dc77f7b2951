import Mathlib.Data.List.Nodup
import Mathlib.Logic.Relation
import Shading.Proofs.Graph.Order

/-!
# Definitions before their uses

A list of definitions is `DefinedBeforeUse` when each stands once and behind all it
uses.  This is what a dependency order gives (`of_ordered`).  A part of the list keeps
it as long as the part holds what its members use (`filter`), and none of the
definitions uses itself through others (`not_transGen`).

Roots that are listed behind their dependencies already keep their order
(`Graph.order_of_behind`).
-/

namespace Shading

/-- Definitions that each stand once and behind all they use. -/
structure DefinedBeforeUse {α κ : Type} (key : α → κ) (uses : α → κ → Prop) (list : List α) :
    Prop where
  once : (list.map key).Nodup
  behind : ∀ before a after, list = before ++ a :: after →
    ∀ k, uses a k → k ∈ before.map key

/-- A split of what is kept of a list comes from a split of the list. -/
theorem exists_split_of_filter {α : Type} {keep : α → Bool} {list before after : List α} {a : α}
    (h : list.filter keep = before ++ a :: after) :
    ∃ front rest, list = front ++ a :: rest ∧ front.filter keep = before ∧ keep a = true := by
  obtain ⟨front, back, rfl, hfront, hback⟩ := List.filter_eq_append_iff.1 h
  obtain ⟨skipped, rest, rfl, hskipped, hkeep, -⟩ := List.filter_eq_cons_iff.1 hback
  refine ⟨front ++ skipped, rest, by simp, ?_, hkeep⟩
  rw [List.filter_append, hfront, List.filter_eq_nil_iff.2 hskipped, List.append_nil]

/-! ## Dependency orders -/

namespace Graph

variable {g : Graph}

/-- In an order, what a name depends on stands before it. -/
theorem Ordered.mem_before {names : List String} (h : g.Ordered names) {before after : List String}
    {name : String} (heq : names = before ++ name :: after) {dependency : String}
    (hd : g.Depends name dependency) : dependency ∈ before := by
  induction h generalizing after with
  | nil => simp at heq
  | @snoc done last _ _ hlast ih =>
    rcases List.eq_nil_or_concat after with rfl | ⟨after, other, rfl⟩
    · obtain ⟨rfl, hsingle⟩ := List.append_inj' heq rfl
      obtain rfl := List.singleton_inj.1 hsingle
      exact hlast dependency hd
    · have heq' : done ++ [last] = (before ++ name :: after) ++ [other] := by simpa using heq
      exact ih (List.append_inj' heq' rfl).1

/-- Names without dependencies that are open are visited at once. -/
theorem visit_of_done {depth : Nat} {path done : List String} {name : String}
    (hdone : ∀ dependency ∈ g.next name, dependency ∈ done)
    (hpath : ∀ dependency ∈ g.next name, dependency ∉ name :: path) :
    g.visit (depth + 1) path done name = .ok (done ++ [name]) := by
  have hfold : ∀ names : List String, (∀ n ∈ names, n ∈ g.next name) →
      names.foldlM (fun done dependency =>
        if dependency ∈ name :: path then .error ⟨name, dependency⟩
        else if dependency ∈ done then .ok done
        else g.visit depth (name :: path) done dependency) done =
      (.ok done : Except Cycle (List String)) := by
    intro names hnames
    induction names with
    | nil => rfl
    | cons n names ih =>
      have hn := hnames n (.head _)
      rw [List.foldlM_cons, if_neg (hpath n hn), if_pos (hdone n hn)]
      exact ih fun m hm => hnames m (.tail _ hm)
  simp only [visit, hfold _ fun _ => id]
  rfl

/-- Roots that stand behind what they depend on keep their order, each with its first
mention. -/
theorem order_of_behind {roots : List String}
    (h : ∀ before root after, roots = before ++ root :: after → root ∉ before →
      ∀ dependency, g.Depends root dependency → dependency ∈ before) :
    g.order roots = .ok roots.eraseDups := by
  -- The roots visited so far are done, each once.
  suffices hrest : ∀ before after, roots = before ++ after →
      after.foldlM (fun done root =>
        if root ∈ done then .ok done else g.visit (g.length + 1) [] done root) before.eraseDups =
      (.ok roots.eraseDups : Except Cycle (List String)) from hrest [] roots rfl
  intro before after
  induction after generalizing before with
  | nil =>
    intro heq
    rw [heq, List.append_nil]
    rfl
  | cons root after ih =>
    intro heq
    have hnext := ih (before ++ [root]) (by simpa using heq)
    rw [List.eraseDups_append] at hnext
    rw [List.foldlM_cons]
    by_cases hroot : root ∈ before
    · have hremoved : [root].removeAll before = [] := by simp [List.removeAll, hroot]
      rw [if_pos (List.mem_eraseDups.2 hroot)]
      simpa [hremoved] using hnext
    · have hremoved : [root].removeAll before = [root] := by simp [List.removeAll, hroot]
      have hbefore := h before root after heq hroot
      rw [if_neg (mt List.mem_eraseDups.1 hroot), visit_of_done]
      · simpa [hremoved, List.eraseDups_cons] using hnext
      · exact fun d hd => List.mem_eraseDups.2 (hbefore d hd)
      · intro d hd hmem
        obtain rfl := List.mem_singleton.1 hmem
        exact hroot (hbefore d hd)

end Graph

/-! ## Definitions -/

namespace DefinedBeforeUse

variable {α κ : Type} {key : α → κ} {uses : α → κ → Prop} {list : List α}

theorem of_ordered {key : α → String} {uses : α → String → Prop} {g : Graph}
    (h : g.Ordered (list.map key)) (hu : ∀ a ∈ list, ∀ k, uses a k → g.Depends (key a) k) :
    DefinedBeforeUse key uses list where
  once := h.nodup
  behind := by
    rintro before a after rfl k hk
    exact h.mem_before (List.map_append ..) (hu a (by simp) k hk)

/-- What is used is defined. -/
theorem mem_of_uses (h : DefinedBeforeUse key uses list) {a : α} (ha : a ∈ list) {k : κ}
    (hk : uses a k) : k ∈ list.map key := by
  obtain ⟨before, after, rfl⟩ := List.append_of_mem ha
  rw [List.map_append]
  exact List.mem_append_left _ (h.behind before a after rfl k hk)

/-- A part that holds what its members use is defined before use, too. -/
theorem filter (h : DefinedBeforeUse key uses list) {keep : α → Bool}
    (hk : ∀ a ∈ list, keep a = true → ∀ b ∈ list, uses a (key b) → keep b = true) :
    DefinedBeforeUse key uses (list.filter keep) where
  once := h.once.sublist (List.filter_sublist.map key)
  behind := by
    intro before a after heq k huse
    obtain ⟨front, rest, rfl, rfl, hkeep⟩ := exists_split_of_filter heq
    obtain ⟨b, hb, rfl⟩ := List.mem_map.1 (h.behind front a rest rfl k huse)
    have hkept := hk a (by simp) hkeep b (List.mem_append_left _ hb) huse
    exact List.mem_map_of_mem (List.mem_filter.2 ⟨hb, hkept⟩)

/-- Definitions are of one kind among others. -/
theorem map {β κ' : Type} {key' : β → κ'} {uses' : β → κ' → Prop} {f : α → β} {g : κ → κ'}
    (h : DefinedBeforeUse key uses list) (hg : g.Injective) (hkey : ∀ a, key' (f a) = g (key a))
    (huses : ∀ a k', uses' (f a) k' → ∃ k, k' = g k ∧ uses a k) :
    DefinedBeforeUse key' uses' (list.map f) where
  once := by
    rw [List.map_map, show key' ∘ f = g ∘ key from funext hkey, ← List.map_map]
    exact h.once.map hg
  behind := by
    intro before b after heq k' huse
    obtain ⟨front, back, rfl, rfl, hback⟩ := List.map_eq_append_iff.1 heq
    obtain ⟨a, rest, rfl, rfl, rfl⟩ := List.map_eq_cons_iff.1 hback
    obtain ⟨k, rfl, hk⟩ := huses a k' huse
    obtain ⟨c, hc, rfl⟩ := List.mem_map.1 (h.behind front a rest rfl k hk)
    exact List.mem_map.2 ⟨f c, List.mem_map_of_mem hc, hkey c⟩

/-- Definitions follow others. -/
theorem append {others : List α} (h : DefinedBeforeUse key uses list)
    (honce : ((list ++ others).map key).Nodup)
    (hb : ∀ before a after, others = before ++ a :: after →
      ∀ k, uses a k → k ∈ (list ++ before).map key) :
    DefinedBeforeUse key uses (list ++ others) where
  once := honce
  behind := by
    intro before a after heq k huse
    rcases List.append_eq_append_iff.1 heq with ⟨front, rfl, hothers⟩ | ⟨rest, rfl, hrest⟩
    · exact hb front a after hothers k huse
    · cases rest with
      | nil => simpa using hb [] a after hrest.symm k huse
      | cons b rest =>
        obtain ⟨rfl, -⟩ := List.cons.inj hrest
        exact h.behind before a rest rfl k huse

/-- The last definition is not used. -/
theorem not_uses_last {front : List α} {a b : α} (h : DefinedBeforeUse key uses (front ++ [b]))
    (ha : a ∈ front ++ [b]) : ¬ uses a (key b) := by
  intro huse
  obtain ⟨before, after, heq⟩ := List.append_of_mem ha
  have hbefore := h.behind before a after heq _ huse
  have hafter : b ∈ a :: after := by
    have hlast := congrArg List.getLast? heq
    rw [List.getLast?_concat, List.getLast?_append_of_ne_nil _ (by simp)] at hlast
    exact List.mem_of_getLast? hlast.symm
  have honce := h.once
  rw [heq, List.map_append] at honce
  exact (List.nodup_append.1 honce).2.2 _ hbefore _ (List.mem_map_of_mem hafter) rfl

/-- What a definition uses through others stands before it. -/
theorem mem_before_of_transGen (h : DefinedBeforeUse key uses list) {before after : List α} {a : α}
    (heq : list = before ++ a :: after) {k : κ}
    (hk : Relation.TransGen (fun x y => ∃ b ∈ list, key b = x ∧ uses b y) (key a) k) :
    k ∈ before.map key := by
  have hunique := List.inj_on_of_nodup_map h.once
  induction hk with
  | single hstep =>
    obtain ⟨b, hb, hkey, huse⟩ := hstep
    obtain rfl := hunique hb (heq ▸ by simp) hkey
    exact h.behind before b after heq _ huse
  | tail _ hstep ih =>
    obtain ⟨b, hb, rfl, huse⟩ := hstep
    obtain ⟨c, hc, hkey⟩ := List.mem_map.1 ih
    obtain rfl := hunique hb (heq ▸ List.mem_append_left _ hc) hkey.symm
    obtain ⟨front, back, rfl⟩ := List.append_of_mem hc
    have hfront := h.behind front b (back ++ a :: after) (by simpa using heq) _ huse
    rw [List.map_append]
    exact List.mem_append_left _ hfront

/-- No definition uses itself, directly or through others. -/
theorem not_transGen (h : DefinedBeforeUse key uses list) (k : κ) :
    ¬ Relation.TransGen (fun x y => ∃ a ∈ list, key a = x ∧ uses a y) k k := by
  intro hcycle
  obtain ⟨_, ⟨a, ha, rfl, -⟩, -⟩ := Relation.TransGen.head'_iff.1 hcycle
  obtain ⟨before, after, rfl⟩ := List.append_of_mem ha
  have honce := h.once
  rw [List.map_append, List.map_cons] at honce
  exact (List.nodup_append.1 honce).2.2 _ (h.mem_before_of_transGen rfl hcycle) _ (.head _) rfl

end DefinedBeforeUse

end Shading
