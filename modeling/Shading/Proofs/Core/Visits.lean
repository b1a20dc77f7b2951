import Mathlib.Data.List.Nodup
import Mathlib.Data.List.Range
import Shading.Proofs.Core.Occurrence

/-!
# Addresses

A piece of core code stands at an *address*: the sites that lead down to it.  `Expr.Site` and
`Stmt.Site` name the sites right below an expression and a statement, and `Stmt.Held` those of
the expressions that a statement holds itself.  One address leads to one piece, and the same
piece may stand at several.

A walk visits every address once, and no address behind one below it (`VisitsOnce`).  That is
put together from the sites of each form of code.  Sites lead to the parts that a form has
(`Expr.visitsOnce_children`, `Stmt.visitsOnce_nested`, `Stmt.visitsOnce_exprs`), addresses can
be continued (`VisitsOnce.bind`), and a walk goes down from each part (`visitsOnce_walk`).
-/

namespace Shading.Core

/-! ## Visits -/

section Visits

variable {A B α β : Type}

/-- Addresses in the order in which what stands there is visited. -/
structure Itinerary (at? : A → Option α) (above : A → A → Prop) (visited : List α)
    (addresses : List A) : Prop where
  each : addresses.map at? = visited.map some
  nodup : addresses.Nodup
  complete : ∀ a x, at? a = some x → a ∈ addresses
  parents_first : addresses.Pairwise fun a b => ¬ above b a

/-- What stands at addresses is visited at each of them once, and what is above earlier. -/
def VisitsOnce (at? : A → Option α) (above : A → A → Prop) (visited : List α) : Prop :=
  ∃ addresses, Itinerary at? above visited addresses

/-- Sites are addresses of one step, and none is above another. -/
theorem visitsOnce_of_sites {at? : A → Option α} {visited : List α} (sites : List A)
    (heach : sites.map at? = visited.map some) (hnodup : sites.Nodup)
    (hcomplete : ∀ a x, at? a = some x → a ∈ sites) : VisitsOnce at? Eq visited :=
  ⟨sites, heach, hnodup, hcomplete, hnodup.imp fun hne heq => hne heq.symm⟩

/-- What stands at an address is visited. -/
theorem Itinerary.exists_of_mem {at? : A → Option α} {above : A → A → Prop} {visited : List α}
    {addresses : List A} (h : Itinerary at? above visited addresses) {a : A} (ha : a ∈ addresses) :
    ∃ x ∈ visited, at? a = some x := by
  obtain ⟨x, hx, hat⟩ := List.mem_map.1 (h.each ▸ List.mem_map_of_mem ha)
  exact ⟨x, hx, hat.symm⟩

/-- The members of a list stand at their numbers. -/
theorem map_getElem?_range (xs : List α) : (List.range xs.length).map (xs[·]?) = xs.map some := by
  refine List.ext_getElem (by simp) fun i _ _ => ?_
  simp

theorem visitsOnce_members (xs : List α) : VisitsOnce (fun i : Nat => xs[i]?) Eq xs := by
  refine visitsOnce_of_sites (List.range xs.length) (map_getElem?_range xs) List.nodup_range ?_
  intro i x hx
  exact List.mem_range.2 (List.getElem?_eq_some_iff.1 hx).1

/-- Addresses are continued below what stands there. -/
theorem VisitsOnce.bind {first? : A → Option α} {above : A → A → Prop} {second? : α → B → Option β}
    {above' : B → B → Prop} {visited : List α} {visits : α → List β}
    (h : VisitsOnce first? above visited)
    (hs : ∀ x ∈ visited, VisitsOnce (second? x) above' (visits x)) :
    VisitsOnce (fun a : A × B => (first? a.1).bind fun x => second? x a.2)
      (fun a b => a.1 = b.1 ∧ above' a.2 b.2) (visited.flatMap visits) := by
  obtain ⟨addresses, h⟩ := h
  choose! below hbelow using hs
  -- The continuations of one address are those below the one thing that stands there.
  let spread (a : A) : List (A × B) := ((first? a).toList.flatMap below).map (a, ·)
  have hspread : ∀ {a x}, first? a = some x → spread a = (below x).map (a, ·) := by
    intro a x hx
    simp only [spread, hx, Option.toList_some, List.flatMap_cons, List.flatMap_nil,
      List.append_nil]
  have hfst : ∀ {a c}, c ∈ spread a → c.1 = a := by
    intro a c hc
    obtain ⟨b, -, rfl⟩ := List.mem_map.1 hc
    rfl
  refine ⟨addresses.flatMap spread, ?_, ?_, ?_, ?_⟩
  · have hone : ∀ a, ∀ x ∈ visited, first? a = some x →
        (spread a).map (fun c => (first? c.1).bind fun x => second? x c.2) =
          (visits x).map some := by
      intro a x hmem hx
      rw [hspread hx, List.map_map, ← (hbelow x hmem).each]
      refine List.map_congr_left fun b _ => ?_
      simp only [Function.comp_apply, hx, Option.bind_some]
    have heach := h.each
    clear h hbelow
    induction addresses generalizing visited with
    | nil =>
      obtain rfl := List.map_eq_nil_iff.1 heach.symm
      rfl
    | cons a rest ih =>
      obtain ⟨x, others, rfl, hx, hrest⟩ := List.map_eq_cons_iff.1 heach.symm
      rw [List.flatMap_cons, List.flatMap_cons, List.map_append, List.map_append,
        hone a x (.head _) hx.symm, ih (fun a y hy => hone a y (.tail _ hy)) hrest.symm]
  · rw [List.nodup_flatMap]
    refine ⟨fun a ha => ?_, h.nodup.imp fun hne => ?_⟩
    · obtain ⟨x, hmem, hx⟩ := h.exists_of_mem ha
      rw [hspread hx]
      exact (hbelow x hmem).nodup.map fun _ _ heq => (Prod.mk.inj heq).2
    · exact fun c ha hb => hne ((hfst ha).symm.trans (hfst hb))
  · rintro ⟨a, b⟩ y hy
    obtain ⟨x, hx, hy⟩ := Option.bind_eq_some_iff.1 hy
    have ha := h.complete a x hx
    obtain ⟨x', hmem, hx'⟩ := h.exists_of_mem ha
    obtain rfl := Option.some.inj (hx.symm.trans hx')
    refine List.mem_flatMap.2 ⟨a, ha, ?_⟩
    rw [hspread hx]
    exact List.mem_map_of_mem ((hbelow x hmem).complete b y hy)
  · rw [List.pairwise_flatMap]
    refine ⟨fun a ha => ?_, h.nodup.imp fun hne c hc c' hc' habove => ?_⟩
    · obtain ⟨x, hmem, hx⟩ := h.exists_of_mem ha
      rw [hspread hx, List.pairwise_map]
      exact (hbelow x hmem).parents_first.imp fun hnot habove => hnot habove.2
    · exact hne ((hfst hc).symm.trans (habove.1.symm.trans (hfst hc')))

/-! ## Going down -/

/-- What stands at an address below a thing, one site after the other. -/
def descend (child? : α → A → Option α) (x : α) : List A → Option α
  | [] => some x
  | site :: rest => (child? x site).bind fun y => descend child? y rest

/-- A thing is visited before all that is below it. -/
theorem visitsOnce_cons {child? : α → A → Option α} {x : α} {visited : List α}
    (h : VisitsOnce (fun a : A × List A => (child? x a.1).bind fun y => descend child? y a.2)
      (fun a b => a.1 = b.1 ∧ a.2 <+: b.2) visited) :
    VisitsOnce (descend child? x) (· <+: ·) (x :: visited) := by
  obtain ⟨addresses, h⟩ := h
  have hinjective : Function.Injective fun a : A × List A => a.1 :: a.2 := by
    intro a b heq
    obtain ⟨hfirst, hrest⟩ := List.cons.inj heq
    exact Prod.ext hfirst hrest
  refine ⟨[] :: addresses.map fun a => a.1 :: a.2, ?_, ?_, ?_, ?_⟩
  · rw [List.map_cons, List.map_cons, List.map_map, ← h.each]
    rfl
  · rw [List.nodup_cons]
    exact ⟨by simp, h.nodup.map hinjective⟩
  · intro address y hy
    cases address with
    | nil => exact .head _
    | cons site rest => exact .tail _ (List.mem_map.2 ⟨(site, rest), h.complete _ y hy, rfl⟩)
  · rw [List.pairwise_cons, List.pairwise_map]
    refine ⟨?_, h.parents_first.imp fun hnot habove => hnot ?_⟩
    · intro address haddress habove
      obtain ⟨a, -, rfl⟩ := List.mem_map.1 haddress
      cases List.prefix_nil.1 habove
    · exact List.cons_prefix_cons.1 habove

/-- A walk that starts at a thing and goes on with the walks of its parts visits everything
below once. -/
theorem visitsOnce_walk {child? : α → A → Option α} {x : α} {children : List α}
    {walk : α → List α} (hchildren : VisitsOnce (child? x) Eq children)
    (hwalk : walk x = x :: children.flatMap walk)
    (ih : ∀ y ∈ children, VisitsOnce (descend child? y) (· <+: ·) (walk y)) :
    VisitsOnce (descend child? x) (· <+: ·) (walk x) :=
  hwalk ▸ visitsOnce_cons (hchildren.bind ih)

end Visits

/-! ## Expressions -/

/-- A place right below an expression. -/
inductive Expr.Site where
  /-- What a field is read from, components are picked from or an element is read from. -/
  | base
  /-- The index of an element. -/
  | position
  /-- What an operator is applied to or what is converted. -/
  | operand
  | left
  | right
  | condition
  | yes
  | no
  /-- An argument of a call or a component of a constructor, by its number. -/
  | arg (number : Nat)
deriving DecidableEq

/-- The expression at a place right below another. -/
def Expr.child? : Expr → Site → Option Expr
  | .field base _ _, .base | .swizzle base _ _, .base | .index base _ _, .base => some base
  | .index _ position _, .position => some position
  | .unary _ operand _, .operand | .cast operand _, .operand => some operand
  | .binary _ lhs _ _, .left => some lhs
  | .binary _ _ rhs _, .right => some rhs
  | .conditional condition _ _ _, .condition => some condition
  | .conditional _ yes _ _, .yes => some yes
  | .conditional _ _ no _, .no => some no
  | .call _ args _, .arg i | .intrinsic _ args _, .arg i | .construct args _, .arg i => args[i]?
  | _, _ => none

/-- Arguments are all there is below an expression that has some. -/
theorem Expr.visitsOnce_args {args : List Expr} {e : Expr}
    (harg : ∀ i, e.child? (.arg i) = args[i]?)
    (hother : ∀ site, (∀ i, site ≠ .arg i) → e.child? site = none) :
    VisitsOnce e.child? Eq args := by
  refine visitsOnce_of_sites ((List.range args.length).map .arg) ?_ ?_ ?_
  · rw [List.map_map, ← map_getElem?_range]
    exact List.map_congr_left fun i _ => harg i
  · exact List.nodup_range.map fun _ _ heq => Site.arg.inj heq
  · intro site x hx
    by_cases hsite : ∃ i, site = .arg i
    · obtain ⟨i, rfl⟩ := hsite
      rw [harg, List.getElem?_eq_some_iff] at hx
      exact List.mem_map.2 ⟨i, List.mem_range.2 hx.1, rfl⟩
    · cases (hother site (not_exists.1 hsite)).symm.trans hx

/-- The sites right below an expression lead to its children. -/
theorem Expr.visitsOnce_children (e : Expr) : VisitsOnce e.child? Eq e.children := by
  cases e with
  | literal | var | resource =>
    refine visitsOnce_of_sites [] rfl .nil fun site => ?_
    cases site <;> simp [child?]
  | field | swizzle =>
    refine visitsOnce_of_sites [.base] rfl (List.nodup_singleton _) fun site => ?_
    cases site <;> simp [child?]
  | index =>
    refine visitsOnce_of_sites [.base, .position] rfl (by decide) fun site => ?_
    cases site <;> simp [child?]
  | unary | cast =>
    refine visitsOnce_of_sites [.operand] rfl (List.nodup_singleton _) fun site => ?_
    cases site <;> simp [child?]
  | binary =>
    refine visitsOnce_of_sites [.left, .right] rfl (by decide) fun site => ?_
    cases site <;> simp [child?]
  | conditional =>
    refine visitsOnce_of_sites [.condition, .yes, .no] rfl (by decide) fun site => ?_
    cases site <;> simp [child?]
  | call | intrinsic | construct =>
    refine visitsOnce_args (fun _ => rfl) fun site hsite => ?_
    cases site <;> first | rfl | exact absurd rfl (hsite _)

/-- The walk of an expression visits every expression in it once. -/
theorem Expr.visitsOnce_walk (e : Expr) : VisitsOnce (descend child? e) (· <+: ·) e.walk := by
  induction e using Expr.induct with
  | h e ih => exact Core.visitsOnce_walk e.visitsOnce_children e.walk_eq ih

/-! ## Statements -/

/-- A block right below a statement. -/
inductive Stmt.Site where
  | yes
  | no
  /-- The initializers of a loop. -/
  | init
  /-- The steps of a loop. -/
  | step
  | body
  /-- The body of a case, by its number. -/
  | case (number : Nat)
  | default
deriving DecidableEq

/-- The statements at a place right below a statement. -/
def Stmt.body? : Stmt → Site → Option (List Stmt)
  | .branch _ yes _, .yes => some yes
  | .branch _ _ no, .no => no
  | .forLoop init _ _ _, .init => some init
  | .forLoop _ _ step _, .step => some step
  | .forLoop _ _ _ body, .body => some body
  | .whileLoop _ body, .body | .doLoop body _, .body | .block body, .body => some body
  | .switch _ cases _, .case i => cases[i]?.map Case.body
  | .switch _ _ default, .default => default
  | _, _ => none

/-- The statement of a number in a block right below a statement. -/
def Stmt.child? (s : Stmt) (site : Site × Nat) : Option Stmt :=
  (s.body? site.1).bind fun body => body[site.2]?

/-- A place for an expression in a statement itself. -/
inductive Stmt.Held where
  /-- The initializer of a declaration. -/
  | init
  | target
  | value
  /-- All of the statement. -/
  | whole
  | condition
  | selector
  /-- The value that is returned. -/
  | result
deriving DecidableEq

/-- The expression at a place in a statement itself. -/
def Stmt.held? : Stmt → Held → Option Expr
  | .declare _ _ init, .init => init
  | .assign target _ _, .target => some target
  | .assign _ _ value, .value => some value
  | .expr value, .whole => some value
  | .branch condition _ _, .condition | .whileLoop condition _, .condition => some condition
  | .doLoop _ condition, .condition => some condition
  | .forLoop _ condition _ _, .condition => condition
  | .switch selector _ _, .selector => some selector
  | .ret value, .result => value
  | _, _ => none

/-- The cases of a switch stand at their numbers, and its default behind them. -/
theorem Stmt.visitsOnce_cases {selector : Expr} {cases : List Case} {default : Option (List Stmt)} :
    VisitsOnce (Stmt.switch selector cases default).body? Eq
      (cases.map Case.body ++ default.toList) := by
  refine visitsOnce_of_sites
    ((List.range cases.length).map .case ++ default.toList.map fun _ => .default) ?_ ?_ ?_
  · rw [List.map_append, List.map_append, List.map_map, List.map_map, List.map_map]
    congr 1
    · have hcases := congrArg (List.map (Option.map Case.body)) (map_getElem?_range cases)
      rw [List.map_map, List.map_map] at hcases
      exact hcases
    · cases default <;> rfl
  · rw [List.nodup_append']
    refine ⟨List.nodup_range.map fun _ _ heq => Site.case.inj heq, ?_, ?_⟩
    · cases default <;> simp
    · simp [List.disjoint_left]
  · intro site body hbody
    cases site with
    | case i =>
      obtain ⟨c, hc, -⟩ := Option.map_eq_some_iff.1 hbody
      have hi := List.mem_range.2 (List.getElem?_eq_some_iff.1 hc).1
      exact List.mem_append_left _ (List.mem_map.2 ⟨i, hi, rfl⟩)
    | default =>
      have hdefault : default = some body := hbody
      simp [hdefault]
    | _ => cases hbody

/-- The sites right below a statement lead to the blocks in it. -/
theorem Stmt.visitsOnce_bodies (s : Stmt) : VisitsOnce s.body? Eq s.bodies := by
  cases s with
  | branch condition yes no =>
    cases no with
    | none =>
      refine visitsOnce_of_sites [.yes] rfl (List.nodup_singleton _) fun site => ?_
      cases site <;> simp [body?]
    | some no =>
      refine visitsOnce_of_sites [.yes, .no] rfl (by decide) fun site => ?_
      cases site <;> simp [body?]
  | forLoop =>
    refine visitsOnce_of_sites [.init, .step, .body] rfl (by decide) fun site => ?_
    cases site <;> simp [body?]
  | whileLoop | doLoop | block =>
    refine visitsOnce_of_sites [.body] rfl (List.nodup_singleton _) fun site => ?_
    cases site <;> simp [body?]
  | switch => exact visitsOnce_cases
  | declare | assign | expr | ret | leave | next =>
    refine visitsOnce_of_sites [] rfl .nil fun site => ?_
    cases site <;> simp [body?]

/-- The statements right below a statement are those of the blocks in it. -/
theorem Stmt.visitsOnce_nested (s : Stmt) : VisitsOnce s.child? Eq s.bodies.flatten := by
  have h := s.visitsOnce_bodies.bind fun body _ => visitsOnce_members body
  have heq : (fun a b : Site × Nat => a.1 = b.1 ∧ a.2 = b.2) = Eq := by
    funext a b
    rw [Prod.ext_iff]
  rw [heq, List.flatMap_id'] at h
  exact h

/-- The walk of a statement visits every statement in it once. -/
theorem Stmt.visitsOnce_walk (s : Stmt) : VisitsOnce (descend child? s) (· <+: ·) s.walk := by
  induction s using Stmt.induct with
  | h s ih =>
    refine Core.visitsOnce_walk s.visitsOnce_nested ?_ fun t ht => ?_
    · rw [Stmt.walk_eq, List.flatten_eq_flatMap, List.flatMap_assoc,
        funext Stmt.walkAll_eq_flatMap]
      rfl
    · obtain ⟨body, hbody, ht⟩ := List.mem_flatten.1 ht
      exact ih body hbody t ht

/-- The places in a statement itself lead to the expressions it holds. -/
theorem Stmt.visitsOnce_exprs (s : Stmt) : VisitsOnce s.held? Eq s.exprs := by
  cases s with
  | declare name ty init =>
    cases init with
    | none =>
      refine visitsOnce_of_sites [] rfl .nil fun site => ?_
      cases site <;> simp [held?]
    | some init =>
      refine visitsOnce_of_sites [.init] rfl (List.nodup_singleton _) fun site => ?_
      cases site <;> simp [held?]
  | assign =>
    refine visitsOnce_of_sites [.target, .value] rfl (by decide) fun site => ?_
    cases site <;> simp [held?]
  | expr =>
    refine visitsOnce_of_sites [.whole] rfl (List.nodup_singleton _) fun site => ?_
    cases site <;> simp [held?]
  | branch | whileLoop | doLoop =>
    refine visitsOnce_of_sites [.condition] rfl (List.nodup_singleton _) fun site => ?_
    cases site <;> simp [held?]
  | forLoop init condition step body =>
    cases condition with
    | none =>
      refine visitsOnce_of_sites [] rfl .nil fun site => ?_
      cases site <;> simp [held?]
    | some condition =>
      refine visitsOnce_of_sites [.condition] rfl (List.nodup_singleton _) fun site => ?_
      cases site <;> simp [held?]
  | switch =>
    refine visitsOnce_of_sites [.selector] rfl (List.nodup_singleton _) fun site => ?_
    cases site <;> simp [held?]
  | ret value =>
    cases value with
    | none =>
      refine visitsOnce_of_sites [] rfl .nil fun site => ?_
      cases site <;> simp [held?]
    | some value =>
      refine visitsOnce_of_sites [.result] rfl (List.nodup_singleton _) fun site => ?_
      cases site <;> simp [held?]
  | leave | next | block =>
    refine visitsOnce_of_sites [] rfl .nil fun site => ?_
    cases site <;> simp [held?]

/-! ## Bodies -/

/-- Where a statement stands in a body: the number of a statement of the body, and the way down
from there. -/
abbrev Stmt.Address := Nat × List (Stmt.Site × Nat)

/-- Where an expression stands in a body: in a statement, at a place there, and the way down from
there. -/
abbrev Expr.Address := Stmt.Address × Stmt.Held × List Expr.Site

/-- The statement at an address. -/
def stmtAt? (body : List Stmt) (address : Stmt.Address) : Option Stmt :=
  (body[address.1]?).bind fun s => descend Stmt.child? s address.2

/-- The expression at an address. -/
def exprAt? (body : List Stmt) (address : Expr.Address) : Option Expr :=
  (stmtAt? body address.1).bind fun s =>
    (s.held? address.2.1).bind fun e => descend Expr.child? e address.2.2

/-- A statement stands at an address or around the one that stands there. -/
def Stmt.Address.Above (a b : Stmt.Address) : Prop := a.1 = b.1 ∧ a.2 <+: b.2

/-- An expression stands at an address or has the one that stands there as a part. -/
def Expr.Address.Above (a b : Expr.Address) : Prop := a.1 = b.1 ∧ a.2.1 = b.2.1 ∧ a.2.2 <+: b.2.2

/-- The walk of a body visits every statement in it once. -/
theorem visitsOnce_walkAll (body : List Stmt) :
    VisitsOnce (stmtAt? body) Stmt.Address.Above (Stmt.walkAll body) := by
  rw [Stmt.walkAll_eq_flatMap]
  exact (visitsOnce_members body).bind fun s _ => s.visitsOnce_walk

/-- The expressions of a body are each visited once. -/
theorem visitsOnce_exprsOf (body : List Stmt) :
    VisitsOnce (exprAt? body) Expr.Address.Above (exprsOf body) :=
  (visitsOnce_walkAll body).bind fun s _ =>
    s.visitsOnce_exprs.bind fun e _ => e.visitsOnce_walk

end Shading.Core
