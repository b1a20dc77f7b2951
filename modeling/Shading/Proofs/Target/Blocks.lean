import Shading.Proofs.Target.Inline

/-!
# Blocks of statements

What statements write is code in blocks, by induction on the statements: wherever a body is
nested, it stands in braces of its own (`Dialect.blocksOf_stmts`).  This asks for nothing.  If
the names of the body have neither braces nor ends of lines, no other text in the lines has
them either.

Three cases carry the content:

* A `for` with several initializers is a block around them, the head and the body.  With one
  or none it is a head and a body.
* A `do` closes its block with text behind the brace.
* A `switch` is a block of blocks, one behind the labels of each case.
-/

namespace Shading

open Shading.Core (Expr Stmt Case)

/-! ## Statements -/

/-- Code in blocks whose lines are not empty, and are inline if all of some names are. -/
def Code.BlocksOf (names : List String) (code : Code) : Prop :=
  code.Blocks (fun text => text ≠ "" ∧ (AllInline names → Inline text))
    (fun suffix => AllInline names → Inline suffix)

namespace Code.BlocksOf

variable {names : List String} {a b body code : Code}

theorem nil : BlocksOf names [] := Blocks.nil

theorem append (ha : BlocksOf names a) (hb : BlocksOf names b) : BlocksOf names (a ++ b) :=
  Blocks.append ha hb

theorem line {text : String} (hne : text ≠ "")
    (h : AllInline names → Inline text) : BlocksOf names (Code.line text) :=
  Blocks.single ⟨hne, h⟩

theorem block {suffix : String} (hsuffix : AllInline names → Inline suffix)
    (h : BlocksOf names body) : BlocksOf names (Code.block body suffix) := Blocks.braced hsuffix h

/-- A block with nothing behind it. -/
theorem plain (h : BlocksOf names body) : BlocksOf names (Code.block body "") :=
  h.block fun _ => inline_empty

theorem balanced (h : BlocksOf names code) : Balanced code := Blocks.balanced h

/-- With names that are inline, all lines are. -/
theorem inline (h : BlocksOf names code) (hnames : AllInline names) :
    code.Blocks (fun text => text ≠ "" ∧ Inline text) Inline :=
  h.mono (fun _ htext => ⟨htext.1, htext.2 hnames⟩) fun _ hsuffix => hsuffix hnames

end Code.BlocksOf

namespace Dialect

variable {d : Dialect} {c : Context} {root : List Stmt} {s : Stmt} {text : String} {code : Code}

theorem inline_declaration (hd : d.SpellsInline) {ty : Ty} {name : String} (hname : Inline name)
    (hty : AllInline ty.structs) (h : d.declaration ty name = .ok text) :
    Inline text := by
  rw [declaration, declarationText.eq_def] at h
  split at h
  · next element length =>
    simp only [bind_eq_ok, pure_eq_ok] at h
    obtain ⟨inner, hinner, rfl⟩ := h
    have hin := hd.typeName element inner hty hinner
    simp +decide [hin, hname, inline_toString_word]
  · simp only [bind_eq_ok, pure_eq_ok] at h
    obtain ⟨inner, hinner, rfl⟩ := h
    have hin := hd.typeName _ inner hty hinner
    simp +decide [hin, hname]

/-- An expression in a body is inline if the names of the body are. -/
theorem inline_of_holds (hd : d.SpellsInline) (hs : s.OccursIn root) {e : Expr} (he : s.Holds e)
    (htext : d.expr c e = .ok text) (h : AllInline (Core.namesOf c.model root)) :
    Inline text := by
  refine inline_expr hd (fun x hx name hname => h name ?_) htext
  exact (hx.occursIn ⟨s, hs, e, he, .self⟩).mem_namesOf hname

theorem inline_simple (hd : d.SpellsInline) (hs : s.OccursIn root)
    (htext : d.simple c s = .ok text) (h : AllInline (Core.namesOf c.model root)) :
    Inline text := by
  cases s with
  | declare name ty init =>
    simp only [simple, bind_eq_ok] at htext
    obtain ⟨declaration, hdeclaration, htext⟩ := htext
    have hin : Inline declaration := by
      refine inline_declaration hd (inline_identifier ?_) (fun x hx => ?_) hdeclaration
      · exact h name (hs.mem_namesOf (.head _))
      · exact h x (hs.mem_namesOf (.tail _ hx))
    cases init with
    | none =>
      cases htext
      exact hin
    | some init =>
      simp only [bind_eq_ok, pure_eq_ok] at htext
      obtain ⟨value, hvalue, rfl⟩ := htext
      simp +decide [hin, inline_of_holds hd hs .init hvalue h]
  | assign target op value =>
    simp only [simple, bind_eq_ok, pure_eq_ok] at htext
    obtain ⟨target, htarget, value, hvalue, rfl⟩ := htext
    simp +decide [inline_of_holds hd hs .target htarget h, inline_of_holds hd hs .value hvalue h,
      op.inline_symbol]
  | expr e =>
    simp only [simple] at htext
    exact inline_of_holds hd hs .expr htext h
  | _ => cases htext

/-- Everything that a statement puts into one line of its own. -/
theorem blocksOf_simpleLine (hd : d.SpellsInline) (hs : s.OccursIn root)
    (h : d.simpleLine c s = .ok code) : code.BlocksOf (Core.namesOf c.model root) := by
  simp only [simpleLine, bind_eq_ok, pure_eq_ok] at h
  obtain ⟨text, htext, rfl⟩ := h
  exact .line (by simp) fun hnames =>
    inline_append.2 ⟨inline_simple hd hs htext hnames, by decide⟩

theorem inline_headText {keyword condition : String} (hkeyword : Inline keyword)
    (hcondition : Inline condition) : Inline (headText keyword condition) := by
  simp +decide [headText, hkeyword, inline_parenthesized hcondition]

/-- The head of a branch, a loop or a switch. -/
theorem blocksOf_head {names : List String} {keyword condition : String}
    (hkeyword : Inline keyword) (hcondition : AllInline names → Inline condition) :
    (Code.line (headText keyword condition)).BlocksOf names :=
  .line (by simp [headText]) fun hnames => inline_headText hkeyword (hcondition hnames)

theorem blocksOf_for {names : List String} {init condition : String} {step : List String}
    (hinit : AllInline names → Inline init)
    (hcondition : AllInline names → Inline condition)
    (hstep : AllInline names → AllInline step) :
    (Code.line (forText init condition (", ".intercalate step))).BlocksOf names := by
  refine .line (by simp [forText]) fun hnames => ?_
  have hsteps : Inline (", ".intercalate step) := inline_intercalate (by decide) (hstep hnames)
  simp +decide [forText, hinit hnames, hcondition hnames, hsteps]

theorem blocksOf_labelLines (hd : d.SpellsInline) {names : List String}
    (labels : List Core.Literal) : (d.labelLines labels).BlocksOf names := by
  induction labels with
  | nil => exact .nil
  | cons label rest ih =>
    rw [labelLines, List.flatMap_cons]
    refine .append (.line (by simp) fun _ => ?_) ih
    simp +decide [hd.literalText label]

theorem blocksOf_stmts_of_forall {names : List String} {body : List Stmt}
    (h : ∀ t ∈ body, ∀ code, d.stmt c t = .ok code → code.BlocksOf names)
    (hcode : d.stmts c body = .ok code) : code.BlocksOf names := by
  induction body generalizing code with
  | nil =>
    cases hcode
    exact .nil
  | cons t rest ih =>
    simp only [stmts, bind_eq_ok, pure_eq_ok] at hcode
    obtain ⟨first, hfirst, others, hothers, rfl⟩ := hcode
    obtain ⟨ht, hrest⟩ := List.forall_mem_cons.1 h
    exact (ht first hfirst).append (ih hrest hothers)

theorem blocksOf_cases (hd : d.SpellsInline) {names : List String} {cases : List Case}
    (h : ∀ k ∈ cases, ∀ code, d.stmts c k.body = .ok code → code.BlocksOf names)
    (hcode : d.cases c cases = .ok code) : code.BlocksOf names := by
  induction cases generalizing code with
  | nil =>
    simp only [Dialect.cases] at hcode
    cases hcode
    exact .nil
  | cons k rest ih =>
    obtain ⟨labels, body⟩ := k
    simp only [Dialect.cases, bind_eq_ok, pure_eq_ok] at hcode
    obtain ⟨first, hfirst, others, hothers, rfl⟩ := hcode
    obtain ⟨hk, hrest⟩ := List.forall_mem_cons.1 h
    exact ((blocksOf_labelLines hd labels).append (hk first hfirst).plain).append
      (ih hrest hothers)

/-- A statement that occurs in a body is written in blocks. -/
theorem blocksOf_stmt (hd : d.SpellsInline) (hs : s.OccursIn root) (h : d.stmt c s = .ok code) :
    code.BlocksOf (Core.namesOf c.model root) := by
  induction s using Stmt.induct generalizing code with
  | h s ih =>
    have hexpr : ∀ e, s.Holds e → ∀ text, d.expr c e = .ok text →
        AllInline (Core.namesOf c.model root) → Inline text :=
      fun e he text htext => inline_of_holds hd hs he htext
    have hnested : ∀ body ∈ s.bodies, ∀ t ∈ body, t.OccursIn root := fun body hb t ht =>
      (Stmt.Within.of_body hb ht .self).occursIn hs
    have hbody : ∀ body ∈ s.bodies, ∀ code, d.stmts c body = .ok code →
        code.BlocksOf (Core.namesOf c.model root) := fun body hb code =>
      blocksOf_stmts_of_forall fun t ht code => ih body hb t ht (hnested body hb t ht)
    cases s with
    | declare => exact blocksOf_simpleLine hd hs (by simpa only [stmt] using h)
    | assign => exact blocksOf_simpleLine hd hs (by simpa only [stmt] using h)
    | expr => exact blocksOf_simpleLine hd hs (by simpa only [stmt] using h)
    | branch condition yes no =>
      simp only [stmt, bind_eq_ok, pure_eq_ok] at h
      obtain ⟨b, hb, y, hy, n, hn, rfl⟩ := h
      have hyes := hbody yes (by simp [Stmt.bodies]) y hy
      refine ((blocksOf_head (by decide) (hexpr _ .branch b hb)).append hyes.plain).append ?_
      cases no with
      | none =>
        cases hn
        exact .nil
      | some no =>
        simp only [elseBlock, bind_eq_ok, pure_eq_ok] at hn
        obtain ⟨n, hn, rfl⟩ := hn
        have hno := hbody no (by simp [Stmt.bodies]) n hn
        exact .append (.line (by decide) fun _ => by decide) hno.plain
    | forLoop init condition step body =>
      simp only [stmt, bind_eq_ok] at h
      obtain ⟨b, hb, steps, hsteps, h⟩ := h
      have hcondition : AllInline (Core.namesOf c.model root) → Inline b := by
        cases condition with
        | none =>
          cases hb
          exact fun _ => inline_empty
        | some e => exact hexpr e .forLoop b hb
      have hstep : AllInline (Core.namesOf c.model root) →
          AllInline steps := by
        intro hnames text htext
        obtain ⟨t, ht, htext⟩ := forall₂_of_mem_right (mapM_eq_ok_iff.1 hsteps) htext
        exact inline_simple hd (hnested step (by simp [Stmt.bodies]) t ht) htext hnames
      have hnone : AllInline (Core.namesOf c.model root) → Inline "" :=
        fun _ => inline_empty
      -- One initializer stands in the header, and several before the loop.
      cases init with
      | nil =>
        simp only [bind_eq_ok, pure_eq_ok] at h
        obtain ⟨code, hcode, rfl⟩ := h
        have hloop := hbody body (by simp [Stmt.bodies]) code hcode
        exact (blocksOf_for hnone hcondition hstep).append hloop.plain
      | cons first others =>
        cases others with
        | nil =>
          simp only [bind_eq_ok, pure_eq_ok] at h
          obtain ⟨text, htext, code, hcode, rfl⟩ := h
          have hloop := hbody body (by simp [Stmt.bodies]) code hcode
          have hfirst := inline_simple hd
            (hnested [first] (by simp [Stmt.bodies]) first (.head _)) htext
          exact (blocksOf_for hfirst hcondition hstep).append hloop.plain
        | cons second rest =>
          simp only [bind_eq_ok, pure_eq_ok] at h
          obtain ⟨a, ha, others, hothers, code, hcode, rfl⟩ := h
          have hinit : d.stmts c (first :: second :: rest) = .ok (a ++ others) := by
            rw [stmts]
            simp [ha, hothers]
          have hinits := hbody (first :: second :: rest) (by simp [Stmt.bodies]) _ hinit
          have hloop := hbody body (by simp [Stmt.bodies]) code hcode
          have hhead := blocksOf_for hnone hcondition hstep
          exact Code.BlocksOf.plain ((hinits.append hhead).append hloop.plain)
    | whileLoop condition body =>
      simp only [stmt, bind_eq_ok, pure_eq_ok] at h
      obtain ⟨b, hb, code, hcode, rfl⟩ := h
      have hloop := hbody body (by simp [Stmt.bodies]) code hcode
      exact (blocksOf_head (by decide) (hexpr _ .whileLoop b hb)).append hloop.plain
    | doLoop body condition =>
      simp only [stmt, bind_eq_ok, pure_eq_ok] at h
      obtain ⟨code, hcode, b, hb, rfl⟩ := h
      have hloop := hbody body (by simp [Stmt.bodies]) code hcode
      refine .append (.line (by decide) fun _ => by decide) (hloop.block fun hnames => ?_)
      have hhead : Inline (headText "while" b) :=
        inline_headText (by decide) (hexpr _ .doLoop b hb hnames)
      simp +decide [hhead]
    | switch selector cases default =>
      simp only [stmt, bind_eq_ok, pure_eq_ok] at h
      obtain ⟨b, hb, code, hcode, rest, hrest, rfl⟩ := h
      have hcases : code.BlocksOf (Core.namesOf c.model root) := blocksOf_cases hd
        (fun k hk => hbody k.body (List.mem_append_left _ (List.mem_map_of_mem hk))) hcode
      have hdefault : rest.BlocksOf (Core.namesOf c.model root) := by
        cases default with
        | none =>
          cases hrest
          exact .nil
        | some body =>
          simp only [defaultBlock, bind_eq_ok, pure_eq_ok] at hrest
          obtain ⟨code, hcode, rfl⟩ := hrest
          have hin := hbody body (by simp [Stmt.bodies]) code hcode
          exact .append (.line (by decide) fun _ => by decide) hin.plain
      exact (blocksOf_head (by decide) (hexpr _ .selector b hb)).append
        (hcases.append hdefault).plain
    | ret value =>
      cases value with
      | none =>
        simp only [stmt] at h
        cases h
        exact .line (by decide) fun _ => by decide
      | some e =>
        simp only [stmt, bind_eq_ok, pure_eq_ok] at h
        obtain ⟨value, hvalue, rfl⟩ := h
        refine .line (by simp) fun hnames => ?_
        simp +decide [hexpr e .ret value hvalue hnames]
    | leave =>
      simp only [stmt] at h
      cases h
      exact .line (by decide) fun _ => by decide
    | next =>
      simp only [stmt] at h
      cases h
      exact .line (by decide) fun _ => by decide
    | block body =>
      simp only [stmt, bind_eq_ok, pure_eq_ok] at h
      obtain ⟨code, hcode, rfl⟩ := h
      exact (hbody body (by simp [Stmt.bodies]) code hcode).plain

/-- A body is written in blocks. -/
theorem blocksOf_stmts (hd : d.SpellsInline) (h : d.stmts c root = .ok code) :
    code.BlocksOf (Core.namesOf c.model root) :=
  blocksOf_stmts_of_forall (fun t ht _ => blocksOf_stmt hd ⟨t, ht, .self⟩) h

/-- Two initializers stand before their loop, in a block around both. -/
example (c : Context) : Hlsl.dialect.stmts c
      [.forLoop [.declare "i" .int none, .declare "j" .int none] none [] [.leave]] =
    .ok (Code.block (Code.line "int i;" ++ Code.line "int j;" ++ Code.line "for (; ; )" ++
      Code.block (Code.line "break;") "") "") := rfl

end Dialect

end Shading
