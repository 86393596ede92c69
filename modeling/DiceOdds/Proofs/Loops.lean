import Mathlib

/-!
# Computations that may fail

How a successful computation is taken apart: a sequence of steps succeeds if each step does, and a
loop that succeeds has gone through all of its elements.
-/

namespace DiceOdds

variable {α β σ ε : Type}

/-! ## 1. Steps -/

@[simp] theorem bind_eq_ok {x : Except ε α} {f : α → Except ε β} {b : β} :
    (x >>= f) = .ok b ↔ ∃ a, x = .ok a ∧ f a = .ok b := by
  cases x with
  | error e => simp [bind, Except.bind]
  | ok a => simp [bind, Except.bind]

@[simp] theorem pure_eq_ok {a b : α} : (pure a : Except ε α) = .ok b ↔ a = b := by
  simp [pure, Except.pure]

/-- Something found in the result of a computation that succeeds. -/
theorem exists_of_any {x : Except ε α} {f : α → Option β} {p : β → Bool}
    (h : (x.toOption.bind f).any p = true) : ∃ a b, x = .ok a ∧ f a = some b ∧ p b = true := by
  cases x with
  | error e => cases h
  | ok a =>
    have hfound : (f a).any p = true := h
    cases hb : f a with
    | none => rw [hb] at hfound; cases hfound
    | some b =>
      rw [hb] at hfound
      exact ⟨a, b, rfl, hb, hfound⟩

/-! ## 2. Loops -/

/-- A loop that adds `F a` to a measure `S` at each element adds the sum of `F`. -/
theorem foldl_measure (step : σ → α → σ) (S : σ → ℚ) (F : α → ℚ) (l : List α) (s : σ)
    (h : ∀ s, ∀ a ∈ l, S (step s a) = S s + F a) :
    S (l.foldl step s) = S s + (l.map F).sum := by
  induction l generalizing s with
  | nil => simp
  | cons a l ih =>
    rw [List.foldl_cons, ih _ fun s a ha => h s a (List.mem_cons_of_mem _ ha),
      h s a (List.mem_cons_self ..), List.map_cons, List.sum_cons, add_assoc]

/-- The same for a loop that may stop with an error, if it does not. -/
theorem foldlM_measure (step : σ → α → Except ε σ) (S : σ → ℚ) (F : α → ℚ) (l : List α)
    {s s' : σ} (hl : l.foldlM step s = .ok s')
    (h : ∀ s s', ∀ a ∈ l, step s a = .ok s' → S s' = S s + F a) :
    S s' = S s + (l.map F).sum := by
  induction l generalizing s with
  | nil =>
    obtain rfl : s = s' := pure_eq_ok.1 hl
    simp
  | cons a l ih =>
    rw [List.foldlM_cons, bind_eq_ok] at hl
    obtain ⟨t, hs, hl⟩ := hl
    rw [ih hl fun s s' a ha => h s s' a (List.mem_cons_of_mem _ ha),
      h s t a (List.mem_cons_self ..) hs, List.map_cons, List.sum_cons, add_assoc]

/-- What every step keeps, a loop keeps. -/
theorem foldl_invariant (step : σ → α → σ) (P : σ → Prop) (l : List α) {s : σ} (hs : P s)
    (h : ∀ s, ∀ a ∈ l, P s → P (step s a)) : P (l.foldl step s) := by
  induction l generalizing s with
  | nil => exact hs
  | cons a l ih =>
    exact ih (h s a (List.mem_cons_self ..) hs) fun s a ha => h s a (List.mem_cons_of_mem _ ha)

/-- What every step keeps, a loop that does not stop with an error keeps. -/
theorem foldlM_invariant (step : σ → α → Except ε σ) (P : σ → Prop) (l : List α) {s s' : σ}
    (hl : l.foldlM step s = .ok s') (hs : P s)
    (h : ∀ s s', ∀ a ∈ l, P s → step s a = .ok s' → P s') : P s' := by
  induction l generalizing s with
  | nil =>
    obtain rfl : s = s' := pure_eq_ok.1 hl
    exact hs
  | cons a l ih =>
    rw [List.foldlM_cons, bind_eq_ok] at hl
    obtain ⟨t, ht, hl⟩ := hl
    exact ih hl (h s t a (List.mem_cons_self ..) hs ht)
      fun s s' a ha => h s s' a (List.mem_cons_of_mem _ ha)

/-- What one step of a loop brings about and every step keeps holds at the end. -/
theorem foldlM_reaches (step : σ → α → Except ε σ) (I P : σ → Prop) {l : List α} {s s' : σ}
    (hl : l.foldlM step s = .ok s') (hs : I s)
    (hI : ∀ s s', ∀ a ∈ l, I s → step s a = .ok s' → I s') {a : α} (ha : a ∈ l)
    (hstep : ∀ s s', I s → step s a = .ok s' → P s')
    (hP : ∀ s s', ∀ b ∈ l, P s → step s b = .ok s' → P s') : P s' := by
  obtain ⟨before, after, rfl⟩ := List.append_of_mem ha
  rw [List.foldlM_append, bind_eq_ok] at hl
  obtain ⟨t, ht, hl⟩ := hl
  rw [List.foldlM_cons, bind_eq_ok] at hl
  obtain ⟨u, hu, hl⟩ := hl
  have hIt := foldlM_invariant step I before ht hs
    fun s s' b hb => hI s s' b (List.mem_append_left _ hb)
  exact foldlM_invariant step P after hl (hstep t u hIt hu)
    fun s s' b hb => hP s s' b (List.mem_append_right _ (List.mem_cons_of_mem _ hb))

/-- A loop brings about what one of its steps brings about. -/
theorem foldlM_exists (step : σ → α → Except ε σ) (P : σ → Prop) (Q : α → Prop) (l : List α)
    {s s' : σ} (hl : l.foldlM step s = .ok s')
    (h : ∀ s s', ∀ a ∈ l, step s a = .ok s' → (P s' ↔ P s ∨ Q a)) :
    P s' ↔ P s ∨ ∃ a ∈ l, Q a := by
  induction l generalizing s with
  | nil =>
    obtain rfl : s = s' := pure_eq_ok.1 hl
    simp
  | cons a l ih =>
    rw [List.foldlM_cons, bind_eq_ok] at hl
    obtain ⟨t, ht, hl⟩ := hl
    rw [ih hl fun s s' b hb => h s s' b (List.mem_cons_of_mem _ hb),
      h s t a (List.mem_cons_self ..) ht, List.exists_mem_cons_iff, or_assoc]

/-- Two loops over the same elements stay related as long as their steps do. -/
theorem foldlM_relate {τ : Type} (f : σ → α → Except ε σ) (g : τ → α → Except ε τ)
    (R : σ → τ → Prop) (l : List α) {s s' : σ} {t t' : τ} (hf : l.foldlM f s = .ok s')
    (hg : l.foldlM g t = .ok t') (hstart : R s t)
    (h : ∀ s s' t t', ∀ a ∈ l, R s t → f s a = .ok s' → g t a = .ok t' → R s' t') : R s' t' := by
  induction l generalizing s t with
  | nil =>
    obtain rfl : s = s' := pure_eq_ok.1 hf
    obtain rfl : t = t' := pure_eq_ok.1 hg
    exact hstart
  | cons a l ih =>
    rw [List.foldlM_cons, bind_eq_ok] at hf hg
    obtain ⟨next, hnext, hf⟩ := hf
    obtain ⟨other, hother, hg⟩ := hg
    exact ih hf hg (h s next t other a (List.mem_cons_self ..) hstart hnext hother)
      fun s s' t t' a ha => h s s' t t' a (List.mem_cons_of_mem _ ha)

/-- Two loops end alike if their steps agree wherever both succeed. -/
theorem foldlM_agree (f g : σ → α → Except ε σ) (l : List α) {s a b : σ}
    (hf : l.foldlM f s = .ok a) (hg : l.foldlM g s = .ok b)
    (h : ∀ s, ∀ x ∈ l, ∀ a b, f s x = .ok a → g s x = .ok b → a = b) : a = b :=
  foldlM_relate f g (· = ·) l hf hg rfl fun s _ _ _ x hx hst hf hg => by
    subst hst
    exact h s x hx _ _ hf hg

/-- A loop over the lists of a list is a loop in a loop. -/
theorem foldlM_flatMap (step : σ → β → Except ε σ) (f : α → List β) (l : List α) (s : σ) :
    (l.flatMap f).foldlM step s = l.foldlM (fun s a => (f a).foldlM step s) s := by
  induction l generalizing s with
  | nil => rfl
  | cons a l ih => simp only [List.flatMap_cons, List.foldlM_append, List.foldlM_cons, ih]

/-- A computation on each element of a list. -/
theorem mapM_eq_ok (f : α → Except ε β) {l : List α} {l' : List β} :
    l.mapM f = .ok l' ↔ List.Forall₂ (fun a b => f a = .ok b) l l' := by
  induction l generalizing l' with
  | nil => rw [List.mapM_nil, pure_eq_ok, List.forall₂_nil_left_iff, eq_comm]
  | cons a l ih =>
    rw [List.mapM_cons]
    simp only [bind_eq_ok, pure_eq_ok, ih]
    constructor
    · rintro ⟨b, hb, bs, hbs, rfl⟩
      exact .cons hb hbs
    · rintro (_ | ⟨hb, hbs⟩)
      exact ⟨_, hb, _, hbs, rfl⟩

/-- Two computations on each element end alike if they agree wherever both succeed. -/
theorem mapM_agree {f g : α → Except ε β} {l : List α} {a b : List β} (hf : l.mapM f = .ok a)
    (hg : l.mapM g = .ok b) (h : ∀ x ∈ l, ∀ a b, f x = .ok a → g x = .ok b → a = b) : a = b := by
  rw [mapM_eq_ok] at hf hg
  induction hf generalizing b with
  | nil => exact (List.forall₂_nil_left_iff.1 hg).symm
  | cons hfirst _ ih =>
    obtain _ | ⟨hother, hrest⟩ := hg
    rw [h _ (List.mem_cons_self ..) _ _ hfirst hother,
      ih hrest fun x hx => h x (List.mem_cons_of_mem _ hx)]

/-- What every step gives, the list of all results has. -/
theorem forall_mem_of_mapM {f : α → Except ε β} {P : β → Prop} {l : List α} {l' : List β}
    (h : l.mapM f = .ok l') (hf : ∀ a ∈ l, ∀ b, f a = .ok b → P b) : ∀ b ∈ l', P b := by
  rw [mapM_eq_ok] at h
  induction h with
  | nil => exact List.forall_mem_nil _
  | cons hb _ ih =>
    exact List.forall_mem_cons.2 ⟨hf _ (List.mem_cons_self ..) _ hb,
      ih fun a ha => hf a (List.mem_cons_of_mem _ ha)⟩

/-! ## 3. Success -/

/-- The computation has a result. -/
def Succeeds (x : Except ε α) : Prop := ∃ a, x = .ok a

@[simp] theorem succeeds_ok (a : α) : Succeeds (.ok a : Except ε α) := ⟨a, rfl⟩

@[simp] theorem succeeds_pure (a : α) : Succeeds (pure a : Except ε α) := ⟨a, rfl⟩

theorem succeeds_of_isOk {x : Except ε α} (h : x.isOk = true) : Succeeds x := by
  cases x with
  | error _ => cases h
  | ok a => exact succeeds_ok a

theorem succeeds_bind {x : Except ε α} {f : α → Except ε β} :
    Succeeds (x >>= f) ↔ ∃ a, x = .ok a ∧ Succeeds (f a) := by
  constructor
  · rintro ⟨b, h⟩
    obtain ⟨a, hx, h⟩ := bind_eq_ok.1 h
    exact ⟨a, hx, b, h⟩
  · rintro ⟨a, hx, b, h⟩
    exact ⟨b, bind_eq_ok.2 ⟨a, hx, h⟩⟩

/-- A loop whose steps succeed or fail whatever has come before them succeeds if each of them
does. -/
theorem succeeds_foldlM (step : σ → α → Except ε σ) (good : α → Prop) (l : List α) (s : σ)
    (h : ∀ s, ∀ a ∈ l, Succeeds (step s a) ↔ good a) :
    Succeeds (l.foldlM step s) ↔ ∀ a ∈ l, good a := by
  induction l generalizing s with
  | nil => exact ⟨fun _ => List.forall_mem_nil _, fun _ => ⟨s, rfl⟩⟩
  | cons a l ih =>
    rw [List.foldlM_cons, succeeds_bind, List.forall_mem_cons]
    have hrest := fun t => ih t fun s b hb => h s b (List.mem_cons_of_mem _ hb)
    constructor
    · rintro ⟨t, ht, hl⟩
      exact ⟨(h s a (List.mem_cons_self ..)).1 ⟨t, ht⟩, (hrest t).1 hl⟩
    · rintro ⟨ha, hl⟩
      obtain ⟨t, ht⟩ := (h s a (List.mem_cons_self ..)).2 ha
      exact ⟨t, ht, (hrest t).2 hl⟩

/-! ## 4. Failure -/

theorem bind_eq_error {x : Except ε α} {f : α → Except ε β} {e : ε} :
    (x >>= f) = .error e ↔ x = .error e ∨ ∃ a, x = .ok a ∧ f a = .error e := by
  cases x with
  | error e' => simp [bind, Except.bind]
  | ok a => simp [bind, Except.bind]

/-- A loop fails as one of its steps does. -/
theorem exists_error_of_foldlM {step : σ → α → Except ε σ} {l : List α} {s : σ} {e : ε}
    (h : l.foldlM step s = .error e) : ∃ a ∈ l, ∃ t, step t a = .error e := by
  induction l generalizing s with
  | nil => cases h
  | cons a l ih =>
    rw [List.foldlM_cons, bind_eq_error] at h
    rcases h with h | ⟨t, -, h⟩
    · exact ⟨a, List.mem_cons_self .., s, h⟩
    · obtain ⟨b, hb, hstep⟩ := ih h
      exact ⟨b, List.mem_cons_of_mem _ hb, hstep⟩

/-! ## 5. Two computations -/

/-- Two computations whose first steps end alike, and whose second steps do after that. -/
theorem map_bind_congr {γ δ : Type} {x x' : Except ε α} {f : α → β} {k : γ → δ}
    {g g' : α → Except ε γ} (h : x.map f = x'.map f)
    (hg : ∀ a a', x = .ok a → x' = .ok a' → f a = f a' → (g a).map k = (g' a').map k) :
    (x >>= g).map k = (x' >>= g').map k := by
  cases x with
  | error e =>
    cases x' with
    | error e' =>
      cases h
      rfl
    | ok a' => cases h
  | ok a =>
    cases x' with
    | error e' => cases h
    | ok a' => exact hg a a' rfl rfl (Except.ok.inj h)

/-- Both computations fail, or their results are related. -/
inductive Agrees {ε' : Type} (R : α → β → Prop) : Except ε α → Except ε' β → Prop where
  | ok {a : α} {b : β} (h : R a b) : Agrees R (.ok a) (.ok b)
  | error (e : ε) (e' : ε') : Agrees R (.error e) (.error e')

namespace Agrees

variable {ε' τ α' β' : Type} {R : α → β → Prop} {S : α' → β' → Prop} {x : Except ε α}
  {y : Except ε' β}

theorem succeeds_iff (h : Agrees R x y) : Succeeds x ↔ Succeeds y := by
  cases h with
  | ok h => simp
  | error e e' =>
    constructor
    · rintro ⟨a, ha⟩
      cases ha
    · rintro ⟨b, hb⟩
      cases hb

theorem rel {a : α} {b : β} (h : Agrees R x y) (hx : x = .ok a) (hy : y = .ok b) : R a b := by
  subst hx hy
  cases h with
  | ok h => exact h

theorem exists_ok {b : β} (h : Agrees R x y) (hy : y = .ok b) : ∃ a, x = .ok a ∧ R a b := by
  subst hy
  cases h with
  | ok h => exact ⟨_, rfl, h⟩

/-- Two computations that agree with a third one. -/
theorem meet {ε₃ γ : Type} {z : Except ε₃ γ} {T : γ → β → Prop} {U : α → γ → Prop}
    (hx : Agrees R x y) (hz : Agrees T z y) (h : ∀ a b c, R a b → T c b → U a c) :
    Agrees U x z := by
  cases hx with
  | ok hx =>
    cases hz with
    | ok hz => exact .ok (h _ _ _ hx hz)
  | error e _ =>
    cases hz with
    | error e₃ _ => exact .error e e₃

theorem imp {T : α → β → Prop} (h : Agrees R x y) (hrel : ∀ a b, R a b → T a b) :
    Agrees T x y := by
  cases h with
  | ok h => exact .ok (hrel _ _ h)
  | error e e' => exact .error e e'

theorem refl (x : Except ε α) : Agrees (· = ·) x x := by
  cases x with
  | error e => exact .error e e
  | ok a => exact .ok rfl

/-- One step after computations that agree. -/
theorem bind {f : α → Except ε α'} {g : β → Except ε' β'} (h : Agrees R x y)
    (hstep : ∀ a b, x = .ok a → y = .ok b → R a b → Agrees S (f a) (g b)) :
    Agrees S (x >>= f) (y >>= g) := by
  cases h with
  | ok h => exact hstep _ _ rfl rfl h
  | error e e' => exact .error e e'

/-- Loops whose steps keep their states related. -/
theorem foldlM {σ' : Type} {R : σ → σ' → Prop} (step : σ → α → Except ε σ)
    (step' : σ' → α → Except ε' σ') (l : List α) {s : σ} {s' : σ'} (hs : R s s')
    (h : ∀ s s', ∀ a ∈ l, R s s' → Agrees R (step s a) (step' s' a)) :
    Agrees R (l.foldlM step s) (l.foldlM step' s') := by
  induction l generalizing s s' with
  | nil => exact .ok hs
  | cons a l ih =>
    rw [List.foldlM_cons, List.foldlM_cons]
    exact (h s s' a (List.mem_cons_self ..) hs).bind fun t t' _ _ ht =>
      ih ht fun s s' b hb => h s s' b (List.mem_cons_of_mem _ hb)

end Agrees

end DiceOdds
