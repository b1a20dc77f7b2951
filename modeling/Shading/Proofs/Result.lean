import Mathlib.Data.List.Forall2

/-!
# Results

Elaboration and emission answer with a result: a value, or the first error.  A
sequence of steps has a value exactly when each step has one, and so has a list
of steps, whether `mapM` takes them or a recursion of its own (`eq_mapM`).
-/

namespace Shading

variable {ε α β γ : Type}

/-! ## Steps in sequence -/

@[simp] theorem bind_eq_ok {x : Except ε α} {f : α → Except ε β} {b : β} :
    (x >>= f) = .ok b ↔ ∃ a, x = .ok a ∧ f a = .ok b := by
  cases x with
  | error e => simp [bind, Except.bind]
  | ok a => simp [bind, Except.bind]

@[simp] theorem pure_eq_ok {a b : α} : (pure a : Except ε α) = .ok b ↔ a = b := by
  simp [pure, Except.pure]

/-- A sequence has a value when its first step has one and what follows has one. -/
theorem exists_bind_ok {x : Except ε α} {f : α → Except ε β} (hx : ∃ a, x = .ok a)
    (hf : ∀ a, x = .ok a → ∃ b, f a = .ok b) : ∃ b, (x >>= f) = .ok b := by
  obtain ⟨a, ha⟩ := hx
  obtain ⟨b, hb⟩ := hf a ha
  exact ⟨b, bind_eq_ok.2 ⟨a, ha, hb⟩⟩

/-- A first step with a value is passed over. -/
theorem bind_of_ok {x : Except ε α} {f : α → Except ε β} {a : α} (h : x = .ok a) :
    (x >>= f) = f a := by subst h; rfl

/-- The error of the first step is the answer. -/
theorem bind_of_error {x : Except ε α} {f : α → Except ε β} {e : ε} (h : x = .error e) :
    (x >>= f) = .error e := by subst h; rfl

/-! ## Steps over a list -/

/-- The values of a list of steps stand in the order of the steps. -/
theorem mapM_eq_ok_iff {f : α → Except ε β} {l : List α} {r : List β} :
    l.mapM f = .ok r ↔ List.Forall₂ (fun a b => f a = .ok b) l r := by
  induction l generalizing r with
  | nil =>
    simp only [List.mapM_nil, pure_eq_ok]
    constructor
    · rintro rfl
      exact .nil
    · intro h
      cases h
      rfl
  | cons a l ih =>
    simp only [List.mapM_cons, bind_eq_ok, pure_eq_ok]
    constructor
    · intro h
      obtain ⟨b, hb, rest, hrest, rfl⟩ := h
      exact .cons hb (ih.1 hrest)
    · intro h
      rcases h with _ | ⟨hb, hrest⟩
      exact ⟨_, hb, _, ih.2 hrest, rfl⟩

/-- A recursion that takes one step for each element takes the steps of `mapM`. -/
theorem eq_mapM {run : List α → Except ε (List β)} {step : α → Except ε β}
    (hnil : run [] = .ok [])
    (hcons : ∀ a rest, run (a :: rest) = do return (← step a) :: (← run rest)) (l : List α) :
    run l = l.mapM step := by
  induction l with
  | nil => rw [hnil, List.mapM_nil]; rfl
  | cons a rest ih => rw [hcons, ih, List.mapM_cons]

/-- A step that may be missing has a value that may be missing. -/
theorem option_mapM_eq_ok_iff {f : α → Except ε β} {o : Option α} {r : Option β} :
    o.mapM f = .ok r ↔ Option.Rel (fun a b => f a = .ok b) o r := by
  cases o with
  | none =>
    rw [Option.mapM_none, pure_eq_ok]
    constructor
    · intro h
      subst h
      exact .none
    · intro h
      cases h
      rfl
  | some a =>
    simp only [Option.mapM_some, map_eq_pure_bind, bind_eq_ok, pure_eq_ok]
    constructor
    · intro h
      obtain ⟨b, hb, rfl⟩ := h
      exact .some hb
    · intro h
      cases h with
      | some hb => exact ⟨_, hb, rfl⟩

theorem exists_mapM_ok {f : α → Except ε β} {l : List α} (h : ∀ a ∈ l, ∃ b, f a = .ok b) :
    ∃ r, l.mapM f = .ok r := by
  induction l with
  | nil => exact ⟨[], rfl⟩
  | cons a l ih =>
    obtain ⟨b, hb⟩ := h a (.head _)
    obtain ⟨r, hr⟩ := ih fun x hx => h x (.tail _ hx)
    exact ⟨b :: r, mapM_eq_ok_iff.2 (.cons hb (mapM_eq_ok_iff.1 hr))⟩

/-- The first step without a value decides the answer. -/
theorem mapM_eq_error {f : α → Except ε β} {before after : List α} {a : α} {e : ε}
    (hb : ∀ x ∈ before, ∃ b, f x = .ok b) (ha : f a = .error e) :
    (before ++ a :: after).mapM f = .error e := by
  induction before with
  | nil =>
    rw [List.nil_append, List.mapM_cons]
    exact bind_of_error ha
  | cons x before ih =>
    obtain ⟨b, hx⟩ := hb x (.head _)
    rw [List.cons_append, List.mapM_cons, bind_of_ok hx]
    exact bind_of_error (ih fun y hy => hb y (.tail _ hy))

/-- An answer that is an error is that of the first step without a value. -/
theorem exists_of_mapM_error {f : α → Except ε β} {l : List α} {e : ε} (h : l.mapM f = .error e) :
    ∃ before a after, l = before ++ a :: after ∧ (∀ x ∈ before, ∃ b, f x = .ok b) ∧
      f a = .error e := by
  induction l with
  | nil => cases h
  | cons a l ih =>
    rw [List.mapM_cons] at h
    cases ha : f a with
    | error e' =>
      obtain rfl := Except.error.inj ((bind_of_error ha).symm.trans h)
      exact ⟨[], a, l, rfl, nofun, ha⟩
    | ok b =>
      rw [bind_of_ok ha] at h
      cases hl : l.mapM f with
      | ok r => rw [bind_of_ok hl] at h; cases h
      | error e' =>
        obtain rfl := Except.error.inj ((bind_of_error hl).symm.trans h)
        obtain ⟨before, x, after, rfl, hbefore, hx⟩ := ih hl
        exact ⟨a :: before, x, after, rfl, List.forall_mem_cons.2 ⟨⟨b, ha⟩, hbefore⟩, hx⟩

/-- A list of checks passes exactly when each check passes. -/
theorem forM_eq_ok {f : α → Except ε Unit} {l : List α} :
    l.forM f = .ok () ↔ ∀ a ∈ l, f a = .ok () := by
  induction l with
  | nil => simp [pure, Except.pure]
  | cons a l ih =>
    simp only [List.forM_eq_forM, List.forM_cons, bind_eq_ok, List.forall_mem_cons] at ih ⊢
    constructor
    · intro h
      obtain ⟨_, ha, hl⟩ := h
      exact ⟨ha, ih.1 hl⟩
    · intro h
      obtain ⟨ha, hl⟩ := h
      exact ⟨(), ha, ih.2 hl⟩

/-! ## Values that are kept -/

/-- Whatever value the first result has, the second has, too. -/
def Kept (x y : Except ε α) : Prop := ∀ a, x = .ok a → y = .ok a

namespace Kept

variable {x y : Except ε α} {f g : α → Except ε β}

theorem refl (x : Except ε α) : Kept x x := fun _ => id

/-- Nothing is to be kept of an error. -/
theorem error {e : ε} : Kept (.error e) y := nofun

/-- Two sequences keep values step by step. -/
theorem bind (hx : Kept x y) (hf : ∀ a, x = .ok a → Kept (f a) (g a)) :
    Kept (x >>= f) (y >>= g) := by
  intro b hb
  obtain ⟨a, ha, hb⟩ := bind_eq_ok.1 hb
  exact bind_eq_ok.2 ⟨a, hx a ha, hf a ha b hb⟩

/-- What follows is the same. -/
theorem bind_left (hx : Kept x y) : Kept (x >>= f) (y >>= f) := hx.bind fun a _ => refl (f a)

theorem mapM {l : List α} (h : ∀ a ∈ l, Kept (f a) (g a)) : Kept (l.mapM f) (l.mapM g) := by
  induction l with
  | nil => exact refl _
  | cons a l ih =>
    simp only [List.mapM_cons]
    exact (h a (.head _)).bind fun _ _ => (ih fun x hx => h x (.tail _ hx)).bind_left

end Kept

/-! ## Errors of one kind -/

theorem bind_eq_error {x : Except ε α} {f : α → Except ε β} {e : ε} :
    (x >>= f) = .error e ↔ x = .error e ∨ ∃ a, x = .ok a ∧ f a = .error e := by
  cases x with
  | error e => simp [bind, Except.bind]
  | ok a => simp [bind, Except.bind]

/-- If the result is an error, the error is of a kind. -/
def FailsAs (P : ε → Prop) (x : Except ε α) : Prop := ∀ e, x = .error e → P e

namespace FailsAs

variable {P Q : ε → Prop} {x : Except ε α} {f : α → Except ε β}

theorem ok {a : α} : FailsAs P (.ok a : Except ε α) := nofun

theorem error {e : ε} (h : P e) : FailsAs P (.error e : Except ε α) := by
  intro e' he
  cases he
  exact h

theorem mono (h : FailsAs P x) (hPQ : ∀ e, P e → Q e) : FailsAs Q x := fun e he => hPQ e (h e he)

/-- A sequence fails as its steps do. -/
theorem bind (hx : FailsAs P x) (hf : ∀ a, FailsAs P (f a)) : FailsAs P (x >>= f) := by
  intro e he
  rcases bind_eq_error.1 he with he | ⟨a, -, he⟩
  · exact hx e he
  · exact hf a e he

/-- A step that is followed by an answer fails as it does alone. -/
theorem bind_pure (hx : FailsAs P x) {f : α → β} : FailsAs P (x >>= fun a => pure (f a)) :=
  hx.bind fun _ => ok

theorem ite {c : Prop} [Decidable c] {y : Except ε α} (hx : FailsAs P x) (hy : FailsAs P y) :
    FailsAs P (if c then x else y) := by
  split
  · exact hx
  · exact hy

theorem mapM (hf : ∀ a, FailsAs P (f a)) (l : List α) : FailsAs P (l.mapM f) := by
  intro e he
  obtain ⟨_, a, _, _, _, ha⟩ := exists_of_mapM_error he
  exact hf a e ha

theorem forM {f : α → Except ε Unit} (hf : ∀ a, FailsAs P (f a)) (l : List α) :
    FailsAs P (l.forM f) := by
  induction l with
  | nil => exact ok
  | cons a l ih => exact (hf a).bind fun _ => ih

theorem foldlM {f : β → α → Except ε β} {l : List α} (hf : ∀ a ∈ l, ∀ b, FailsAs P (f b a))
    (b : β) : FailsAs P (l.foldlM f b) := by
  induction l generalizing b with
  | nil => exact ok
  | cons a l ih =>
    rw [List.foldlM_cons]
    exact (hf a (.head _) b).bind fun b' => ih (fun x hx => hf x (.tail _ hx)) b'

end FailsAs

/-! ## Values in step with what they come from -/

/-- What comes from each element comes from all of them in step. -/
theorem exists_forall₂ {R : α → β → Prop} {l : List α} (h : ∀ a ∈ l, ∃ b, R a b) :
    ∃ r, List.Forall₂ R l r := by
  induction l with
  | nil => exact ⟨[], .nil⟩
  | cons a l ih =>
    obtain ⟨b, hb⟩ := h a (.head _)
    obtain ⟨r, hr⟩ := ih fun x hx => h x (.tail _ hx)
    exact ⟨b :: r, .cons hb hr⟩

theorem forall₂_of_mem_right {R : α → β → Prop} {l : List α} {r : List β}
    (h : List.Forall₂ R l r) {b : β} (hb : b ∈ r) : ∃ a ∈ l, R a b := by
  induction h with
  | nil => cases hb
  | cons hR _ ih =>
    rcases List.mem_cons.1 hb with rfl | hb
    · exact ⟨_, .head _, hR⟩
    · obtain ⟨a, ha, hR⟩ := ih hb
      exact ⟨a, .tail _ ha, hR⟩

theorem forall₂_of_mem_left {R : α → β → Prop} {l : List α} {r : List β}
    (h : List.Forall₂ R l r) {a : α} (ha : a ∈ l) : ∃ b ∈ r, R a b := by
  induction h with
  | nil => cases ha
  | cons hR _ ih =>
    rcases List.mem_cons.1 ha with rfl | ha
    · exact ⟨_, .head _, hR⟩
    · obtain ⟨b, hb, hR⟩ := ih ha
      exact ⟨b, .tail _ hb, hR⟩

/-- What stands in step with an element stands beside every reading of it. -/
theorem exists_mem_zip_map {R : α → β → Prop} (f : α → γ) {l : List α} {r : List β}
    (h : List.Forall₂ R l r) {a : α} (ha : a ∈ l) : ∃ b, R a b ∧ (b, f a) ∈ r.zip (l.map f) := by
  induction h with
  | nil => cases ha
  | cons hR _ ih =>
    rcases List.mem_cons.1 ha with rfl | ha
    · exact ⟨_, hR, .head _⟩
    · obtain ⟨b, hR, hb⟩ := ih ha
      exact ⟨b, hR, .tail _ hb⟩

/-- What is related to the pairs of two lists is related to the members of the first. -/
theorem forall₂_of_zip_map {δ : Type} {R : α → β → Prop} {S : β × γ → δ → Prop} {f : α → γ}
    {l : List α} {r : List β} {t : List δ} (hR : List.Forall₂ R l r)
    (hS : List.Forall₂ S (r.zip (l.map f)) t) :
    List.Forall₂ (fun a d => ∃ b, R a b ∧ S (b, f a) d) l t := by
  induction hR generalizing t with
  | nil =>
    cases hS
    exact .nil
  | cons h _ ih =>
    cases hS with
    | cons hS hrest => exact .cons ⟨_, h, hS⟩ (ih hrest)

/-- A reading that both sides share gives the same list on both. -/
theorem map_eq_of_forall₂ {R : α → β → Prop} {f : α → γ} {g : β → γ} {l : List α} {r : List β}
    (h : List.Forall₂ R l r) (hR : ∀ a b, R a b → g b = f a) : r.map g = l.map f := by
  induction h with
  | nil => rfl
  | cons h _ ih => simp [hR _ _ h, ih]

end Shading
