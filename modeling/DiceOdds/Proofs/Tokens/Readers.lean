import DiceOdds.Proofs.Rendering.Phrase

/-!
# What a reader reads does not depend on what is cut off behind it

A reader cuts a piece from the front of a text.  If the text ends earlier, but not inside of that
piece, the same piece is cut off: every reader of this library is `Steady`.

## Why the place of the cut matters

Readers take optional parts, and give them up again where digits are missing or are too many for a
number below `2 ^ 32`.  A cut through a row of digits could make such a number small enough, and a
part that was given up would be read after all.  So a text is only cut where no row of digits is cut
(`CleanCut`).  Every piece that a reader cuts off ends at such a place, because digits are always
read up to the last one.
-/

namespace DiceOdds

/-! ## 1. Clean cuts -/

/-- The two texts do not belong to one row of digits. -/
def CleanCut (kept tail : List Char) : Prop :=
  ∀ c ∈ kept.getLast?, ∀ d ∈ tail.head?, c.isDigit = true → d.isDigit = false

theorem cleanCut_nil (tail : List Char) : CleanCut [] tail := by
  intro c hc
  cases hc

/-- A cut behind a character that is no digit. -/
theorem cleanCut_of_not_isDigit {kept tail : List Char} (h : ∀ c ∈ kept, c.isDigit = false) :
    CleanCut kept tail := by
  intro c hc d _ hdigit
  rw [h c (List.mem_of_getLast? hc)] at hdigit
  cases hdigit

/-- Only the last character in front of a cut matters. -/
theorem CleanCut.of_append {piece kept tail : List Char} (h : CleanCut (piece ++ kept) tail) :
    CleanCut kept tail := by
  intro c hc
  refine h c ?_
  rw [List.getLast?_append, hc]
  rfl

theorem CleanCut.append {piece kept tail : List Char} (hpiece : kept = [] → CleanCut piece tail)
    (hkept : CleanCut kept tail) : CleanCut (piece ++ kept) tail := by
  cases kept with
  | nil => rw [List.append_nil]; exact hpiece rfl
  | cons d kept =>
    intro c hc
    refine hkept c ?_
    rwa [List.getLast?_append_cons] at hc

namespace Reader

variable {α β : Type}

/-! ## 2. Steady readers -/

/-- The reader cuts off a piece that ends cleanly, and cuts off the same piece wherever else the
text ends behind it. -/
structure Steady (reader : Reader α) : Prop where
  exists_piece : ∀ {cs a rest}, reader cs = some (a, rest) →
    ∃ piece, cs = piece ++ rest ∧ CleanCut piece rest ∧ ∀ c ∈ piece, c.utf8Size = 1
  truncate : ∀ {kept tail a rest}, CleanCut kept tail →
    reader (kept ++ tail) = some (a, rest ++ tail) → reader kept = some (a, rest)

/-- What the reader reads from a text is also read if more text follows. -/
structure Extends (reader : Reader α) : Prop where
  append : ∀ {kept tail a rest}, CleanCut kept tail → reader kept = some (a, rest) →
    reader (kept ++ tail) = some (a, rest ++ tail)

/-- Where the reader succeeds, it also succeeds if more text follows, but may then read more. -/
structure Persists (reader : Reader α) : Prop where
  isSome_append : ∀ {kept tail}, CleanCut kept tail → (reader kept).isSome = true →
    (reader (kept ++ tail)).isSome = true

theorem Extends.persists {r : Reader α} (h : Extends r) : Persists r where
  isSome_append hcut hsome := by
    obtain ⟨⟨a, rest⟩, hread⟩ := Option.isSome_iff_exists.1 hsome
    rw [h.append hcut hread]
    rfl

theorem Persists.eq_none {r : Reader α} (h : Persists r) {kept tail : List Char}
    (hcut : CleanCut kept tail) (hnone : r (kept ++ tail) = none) : r kept = none := by
  by_contra hsome
  have := h.isSome_append hcut (Option.isSome_iff_ne_none.2 hsome)
  rw [hnone] at this
  cases this

/-! ## 3. Combining readers -/

/-- One reader after the other. -/
def bind (r : Reader α) (next : α → Reader β) : Reader β := fun cs =>
  (r cs).bind fun found => next found.1 found.2

/-- Reads nothing. -/
def pure (a : α) : Reader α := fun cs => some (a, cs)

theorem steady_pure (a : α) : Steady (pure a) where
  exists_piece h := by
    cases h
    exact ⟨[], rfl, cleanCut_nil _, by simp⟩
  truncate _ h := by
    obtain ⟨rfl, hrest⟩ := Prod.mk.inj (Option.some.inj h)
    rw [pure, List.append_cancel_right hrest]

theorem extends_pure (a : α) : Extends (pure a) where
  append _ h := by
    cases h
    rfl

theorem Steady.bind {r : Reader α} {next : α → Reader β} (hr : Steady r)
    (hnext : ∀ a, Steady (next a)) : Steady (bind r next) where
  exists_piece h := by
    obtain ⟨⟨a, mid⟩, hfirst, hsecond⟩ := Option.bind_eq_some_iff.1 h
    obtain ⟨first, rfl, hcut, hfirstSize⟩ := hr.exists_piece hfirst
    obtain ⟨second, rfl, hcut', hsecondSize⟩ := (hnext a).exists_piece hsecond
    refine ⟨first ++ second, (List.append_assoc ..).symm, .append (fun hnil => ?_) hcut', ?_⟩
    · rwa [hnil] at hcut
    · intro c hc
      exact (List.mem_append.1 hc).elim (hfirstSize c) (hsecondSize c)
  truncate {kept tail b rest} hcut h := by
    obtain ⟨⟨a, mid⟩, hfirst, hsecond⟩ := Option.bind_eq_some_iff.1 h
    obtain ⟨first, hkept, -, -⟩ := hr.exists_piece hfirst
    obtain ⟨second, rfl, -, -⟩ := (hnext a).exists_piece hsecond
    -- the first piece ends before the second one, and so before the cut
    rw [← List.append_assoc, ← List.append_assoc] at hkept
    obtain rfl := List.append_cancel_right hkept
    rw [← List.append_assoc] at hfirst hsecond
    rw [Reader.bind, hr.truncate hcut hfirst]
    rw [List.append_assoc] at hcut
    exact (hnext a).truncate hcut.of_append hsecond

theorem Extends.bind {r : Reader α} {next : α → Reader β} (hsteady : Steady r) (hr : Extends r)
    (hnext : ∀ a, Extends (next a)) : Extends (bind r next) where
  append hcut h := by
    obtain ⟨⟨a, mid⟩, hfirst, hsecond⟩ := Option.bind_eq_some_iff.1 h
    obtain ⟨piece, rfl, -, -⟩ := hsteady.exists_piece hfirst
    rw [Reader.bind, hr.append hcut hfirst]
    exact (hnext a).append hcut.of_append hsecond

theorem Persists.bind {r : Reader α} {next : α → Reader β} (hsteady : Steady r) (hr : Extends r)
    (hnext : ∀ a, Persists (next a)) : Persists (bind r next) where
  isSome_append hcut h := by
    obtain ⟨⟨b, rest⟩, h⟩ := Option.isSome_iff_exists.1 h
    obtain ⟨⟨a, mid⟩, hfirst, hsecond⟩ := Option.bind_eq_some_iff.1 h
    obtain ⟨piece, rfl, -, -⟩ := hsteady.exists_piece hfirst
    rw [Reader.bind, hr.append hcut hfirst]
    exact (hnext a).isSome_append hcut.of_append (Option.isSome_iff_exists.2 ⟨_, hsecond⟩)

/-- An optional part that was given up is given up again. -/
theorem Steady.optionally {r : Reader α} (hr : Steady r) (hpersists : Persists r) :
    Steady (optionally r) where
  exists_piece {cs a rest} h := by
    unfold Reader.optionally at h
    split at h
    · next b rest' hread =>
      cases h
      exact hr.exists_piece hread
    · cases h
      exact ⟨[], rfl, cleanCut_nil _, by simp⟩
  truncate {kept tail a rest} hcut h := by
    unfold Reader.optionally at h ⊢
    split at h
    · next b rest' hread =>
      cases h
      rw [hr.truncate hcut hread]
    · next hread =>
      rw [hpersists.eq_none hcut hread]
      obtain ⟨rfl, hrest⟩ := Prod.mk.inj (Option.some.inj h)
      rw [List.append_cancel_right hrest]

/-- An optional part never stops a reader. -/
theorem persists_optionally (r : Reader α) (f : Option α → β) :
    Persists (Reader.bind (optionally r) fun found => pure (f found)) where
  isSome_append {kept tail} _ _ := by
    unfold Reader.bind Reader.optionally
    cases r (kept ++ tail) <;> rfl

/-- The second alternative is taken again where the first one failed. -/
theorem Steady.orElse {r s : Reader α} (hr : Steady r) (hpersists : Persists r) (hs : Steady s) :
    Steady fun cs => r cs <|> s cs where
  exists_piece {cs a rest} h := by
    cases hread : r cs with
    | none => rw [hread] at h; exact hs.exists_piece h
    | some found => rw [hread] at h; cases h; exact hr.exists_piece hread
  truncate {kept tail a rest} hcut h := by
    cases hread : r (kept ++ tail) with
    | none =>
      rw [hread] at h
      rw [hpersists.eq_none hcut hread]
      exact hs.truncate hcut h
    | some found =>
      rw [hread] at h
      cases h
      rw [hr.truncate hcut hread]
      rfl

/-! ## 4. Single characters and digits -/

/-- A reader of one character that is no digit. -/
structure ReadsOne (r : Reader α) : Prop where
  nil : r [] = none
  cons : ∀ c cs, r (c :: cs) = (r [c]).map fun found => (found.1, cs)
  plain : ∀ c, (r [c]).isSome = true → c.isDigit = false ∧ c.utf8Size = 1

theorem ReadsOne.eq_some {r : Reader α} (h : ReadsOne r) {cs rest : List Char} {a : α}
    (hread : r cs = some (a, rest)) : ∃ c, cs = c :: rest ∧ r [c] = some (a, []) := by
  cases cs with
  | nil => rw [h.nil] at hread; cases hread
  | cons c cs =>
    rw [h.cons] at hread
    obtain ⟨⟨b, end_⟩, hone, heq⟩ := Option.map_eq_some_iff.1 hread
    cases heq
    refine ⟨c, rfl, ?_⟩
    rw [h.cons, hone]
    rfl

theorem ReadsOne.extends {r : Reader α} (h : ReadsOne r) : Extends r where
  append _ hread := by
    obtain ⟨c, rfl, hone⟩ := h.eq_some hread
    rw [List.cons_append, h.cons, hone]
    rfl

theorem ReadsOne.steady {r : Reader α} (h : ReadsOne r) : Steady r where
  exists_piece hread := by
    obtain ⟨c, rfl, hone⟩ := h.eq_some hread
    obtain ⟨hdigit, hsize⟩ := h.plain c (by rw [hone]; rfl)
    refine ⟨[c], rfl, cleanCut_of_not_isDigit ?_, ?_⟩ <;> simp [hdigit, hsize]
  truncate {kept tail a rest} _ hread := by
    obtain ⟨c, hcs, hone⟩ := h.eq_some hread
    rw [← List.cons_append] at hcs
    obtain rfl : kept = c :: rest := List.append_cancel_right hcs
    rw [h.cons, hone]
    rfl

theorem readsOne_char {c : Char} (hc : c.isDigit = false ∧ c.utf8Size = 1) :
    ReadsOne (char c) where
  nil := rfl
  cons d cs := by
    by_cases h : d = c <;> simp [char, h]
  plain d h := by
    by_cases hd : d = c
    · rw [hd]; exact hc
    · simp [char, hd] at h

theorem readsOne_diceLetter : ReadsOne diceLetter where
  nil := rfl
  cons c cs := by
    by_cases hd : c = 'd'
    · subst hd; rfl
    · by_cases hD : c = 'D'
      · subst hD; rfl
      · simp [diceLetter, hd, hD]
  plain c h := by
    by_cases hd : c = 'd'
    · subst hd; decide
    · by_cases hD : c = 'D'
      · subst hD; decide
      · simp [diceLetter, hd, hD] at h

theorem readsOne_keepKind : ReadsOne keepKind where
  nil := rfl
  cons c cs := by
    by_cases hh : c = 'h'
    · subst hh; rfl
    · by_cases hl : c = 'l'
      · subst hl; rfl
      · simp [keepKind, hh, hl]
  plain c h := by
    by_cases hh : c = 'h'
    · subst hh; decide
    · by_cases hl : c = 'l'
      · subst hl; decide
      · simp [keepKind, hh, hl] at h

theorem utf8Size_of_isDigit {c : Char} (h : c.isDigit = true) : c.utf8Size = 1 := by
  simp only [Char.isDigit, Bool.and_eq_true, decide_eq_true_eq] at h
  have hle : c.val ≤ 127 := UInt32.le_trans h.2 (by decide)
  simp [Char.utf8Size, hle]

/-- Digits are read up to the last one. -/
theorem digits_eq_some {cs found rest : List Char} (h : digits cs = some (found, rest)) :
    cs = found ++ rest ∧ found ≠ [] ∧ (∀ c ∈ found, c.isDigit = true)
      ∧ ∀ c ∈ rest.head?, c.isDigit = false := by
  unfold digits at h
  dsimp only at h
  split at h
  · cases h
  · next hne =>
    obtain ⟨rfl, rfl⟩ := Prod.mk.inj (Option.some.inj h)
    refine ⟨List.takeWhile_append_dropWhile.symm, by simpa using hne,
      fun c hc => List.mem_takeWhile_imp hc, fun c hc => ?_⟩
    cases hdrop : cs.dropWhile Char.isDigit with
    | nil => rw [hdrop] at hc; cases hc
    | cons d ds =>
      rw [hdrop] at hc
      cases hc
      have := List.head_dropWhile_not Char.isDigit (l := cs) (by simp [hdrop])
      simpa [hdrop] using this

theorem extends_digits : Extends digits where
  append {kept tail found rest} hcut h := by
    obtain ⟨rfl, hne, hdigits, hrest⟩ := digits_eq_some h
    rw [List.append_assoc]
    refine digits_append hne hdigits fun d hd => ?_
    cases rest with
    | nil =>
      -- the cut is right behind the digits
      rw [List.append_nil] at hcut
      have hlast := List.getLast?_eq_some_getLast hne
      exact hcut _ hlast d hd (hdigits _ (List.getLast_mem hne))
    | cons c rest => exact hrest d hd

theorem steady_digits : Steady digits where
  exists_piece {cs found rest} h := by
    obtain ⟨rfl, -, hdigits, hrest⟩ := digits_eq_some h
    exact ⟨found, rfl, fun _ _ d hd _ => hrest d hd, fun c hc => utf8Size_of_isDigit (hdigits c hc)⟩
  truncate {kept tail found rest} _ h := by
    obtain ⟨hcs, hne, hdigits, hrest⟩ := digits_eq_some h
    rw [← List.append_assoc] at hcs
    obtain rfl := List.append_cancel_right hcs
    refine digits_append hne hdigits fun d hd => hrest d ?_
    rw [List.head?_append, hd]
    rfl

/-- The number that digits write, if it is small enough. -/
def small (found : List Char) : Reader UInt32 := fun cs =>
  if h : Decimal.natOfDigits found < UInt32.size then
    some (UInt32.ofNatLT (Decimal.natOfDigits found) h, cs)
  else none

theorem steady_small (found : List Char) : Steady (small found) where
  exists_piece h := by
    unfold small at h
    split at h
    · cases h
      exact ⟨[], rfl, cleanCut_nil _, by simp⟩
    · cases h
  truncate _ h := by
    unfold small at h ⊢
    split at h
    · next hlt =>
      obtain ⟨rfl, hrest⟩ := Prod.mk.inj (Option.some.inj h)
      obtain rfl := List.append_cancel_right hrest
      rw [dif_pos hlt]
    · cases h

theorem extends_small (found : List Char) : Extends (small found) where
  append _ h := by
    unfold small at h ⊢
    split at h
    · next hlt =>
      cases h
      rw [dif_pos hlt]
    · cases h

theorem steady_nat32 : Steady nat32 := steady_digits.bind steady_small

theorem extends_nat32 : Extends nat32 := extends_digits.bind steady_digits extends_small

/-! ## 5. Marked parts -/

section Marked

variable {c : Char} {r : Reader α}

theorem Steady.after (hc : c.isDigit = false ∧ c.utf8Size = 1) (hr : Steady r) :
    Steady (after c r) :=
  (readsOne_char hc).steady.bind fun _ => hr

theorem Extends.after (hc : c.isDigit = false ∧ c.utf8Size = 1) (hr : Extends r) :
    Extends (after c r) :=
  (readsOne_char hc).extends.bind (readsOne_char hc).steady fun _ => hr

theorem Persists.after (hc : c.isDigit = false ∧ c.utf8Size = 1) (hr : Persists r) :
    Persists (after c r) :=
  .bind (readsOne_char hc).steady (readsOne_char hc).extends fun _ => hr

/-- An optional number behind its marker. -/
theorem steady_marked (hc : c.isDigit = false ∧ c.utf8Size = 1) :
    Steady (optionally (Reader.after c nat32)) :=
  (steady_nat32.after hc).optionally (extends_nat32.after hc).persists

end Marked

theorem faceSpec_eq_bind : faceSpec = bind nat32 fun min =>
    bind (optionally (after '~' nat32)) fun max => pure ⟨min, max⟩ := rfl

theorem steady_faceSpec : Steady faceSpec := by
  rw [faceSpec_eq_bind]
  exact steady_nat32.bind fun min => (steady_marked (by decide)).bind fun max => steady_pure _

/-- Behind a longer text the first number is the same, and a second one may be read where none
was. -/
theorem persists_faceSpec : Persists faceSpec := by
  rw [faceSpec_eq_bind]
  exact .bind steady_nat32 extends_nat32 fun min => persists_optionally _ _

theorem decimal_eq_bind : decimal = bind digits fun whole =>
    bind (optionally (after '.' digits)) fun fraction =>
      pure (Decimal.ofDigits whole (fraction.getD [])) := rfl

theorem steady_decimal : Steady decimal := by
  rw [decimal_eq_bind]
  have hfraction : Steady (optionally (after '.' digits)) :=
    (steady_digits.after (by decide)).optionally (extends_digits.after (by decide)).persists
  exact steady_digits.bind fun whole => hfraction.bind fun fraction => steady_pure _

/-! ## 6. Lexemes -/

theorem countedDice_eq_bind : countedDice = bind nat32 fun count => bind diceLetter fun critical =>
    bind nat32 fun sides => pure (.dice ⟨count, sides, critical⟩) := rfl

theorem steady_countedDice : Steady countedDice := by
  rw [countedDice_eq_bind]
  exact steady_nat32.bind fun count => readsOne_diceLetter.steady.bind fun critical =>
    steady_nat32.bind fun sides => steady_pure _

theorem extends_countedDice : Extends countedDice := by
  rw [countedDice_eq_bind]
  exact extends_nat32.bind steady_nat32 fun count =>
    readsOne_diceLetter.extends.bind readsOne_diceLetter.steady fun critical =>
      extends_nat32.bind steady_nat32 fun sides => extends_pure _

theorem number_eq_bind : number = bind decimal fun value => pure (.number value) := rfl

theorem steady_numberOrDice : Steady numberOrDice := by
  have hnumber : Steady number := by
    rw [number_eq_bind]
    exact steady_decimal.bind fun value => steady_pure _
  exact steady_countedDice.orElse extends_countedDice.persists hnumber

theorem referenceId_eq_bind (critical : Bool) : referenceId critical =
    bind (after '_' nat32) fun id => pure (.reference id critical) := rfl

theorem singleDie_eq_bind (critical : Bool) : singleDie critical =
    bind nat32 fun sides => pure (.dice ⟨1, sides, critical⟩) := rfl

theorem steady_diceOrReference (critical : Bool) : Steady (diceOrReference critical) := by
  have hmarked : Steady (after '_' nat32) := steady_nat32.after (by decide)
  have hreference : Steady (referenceId critical) := by
    rw [referenceId_eq_bind]
    exact hmarked.bind fun id => steady_pure _
  have hextends : Extends (referenceId critical) := by
    rw [referenceId_eq_bind]
    exact (extends_nat32.after (by decide)).bind hmarked fun id => extends_pure _
  have hdie : Steady (singleDie critical) := by
    rw [singleDie_eq_bind]
    exact steady_nat32.bind fun sides => steady_pure _
  exact hreference.orElse hextends.persists hdie

theorem keep_eq_bind : keep = bind keepKind fun kind => bind (optionally nat32) fun count =>
    pure (.keep kind (count.getD 1)) := rfl

theorem steady_keep : Steady keep := by
  rw [keep_eq_bind]
  have hcount : Steady (optionally nat32) := steady_nat32.optionally extends_nat32.persists
  exact readsOne_keepKind.steady.bind fun kind => hcount.bind fun count => steady_pure _

theorem reroll_eq_bind : reroll = bind faceSpec fun faces =>
    bind (optionally (after 'e' nat32)) fun limit => pure (.modifier (.reroll faces limit)) := rfl

theorem steady_reroll : Steady reroll := by
  rw [reroll_eq_bind]
  exact steady_faceSpec.bind fun faces => (steady_marked (by decide)).bind fun limit =>
    steady_pure _

theorem success_eq_bind : success = bind faceSpec fun faces =>
    bind (optionally (after 'x' faceSpec)) fun again =>
      bind (optionally (after 'l' nat32)) fun limit =>
        pure (.modifier (.success faces again limit)) := rfl

theorem steady_success : Steady success := by
  rw [success_eq_bind]
  have hagain : Steady (optionally (after 'x' faceSpec)) :=
    (steady_faceSpec.after (by decide)).optionally (persists_faceSpec.after (by decide))
  exact steady_faceSpec.bind fun faces => hagain.bind fun again =>
    (steady_marked (by decide)).bind fun limit => steady_pure _

theorem explode_eq_bind : explode = bind faceSpec fun faces =>
    bind (optionally (after 'l' nat32)) fun limit => pure (.modifier (.explode faces limit)) := rfl

theorem steady_explode : Steady explode := by
  rw [explode_eq_bind]
  exact steady_faceSpec.bind fun faces => (steady_marked (by decide)).bind fun limit =>
    steady_pure _

/-- The name of a function stands in front of whatever is left. -/
theorem functionNamed_eq_some {name : FunctionName} {cs rest : List Char} {x : Lexeme} :
    functionNamed name cs = some (x, rest) ↔ cs = name.text.toList ++ rest ∧ x = .function name := by
  unfold functionNamed word
  constructor
  · intro h
    obtain ⟨⟨_, cs'⟩, hword, h⟩ := Option.bind_eq_some_iff.1 h
    split at hword
    · next hpre =>
      obtain ⟨tail, rfl⟩ := List.isPrefixOf_iff_prefix.1 hpre
      have hlen : name.text.length = name.text.toList.length := String.length_toList.symm
      cases hword
      cases h
      rw [hlen, List.drop_left]
      exact ⟨rfl, rfl⟩
    · cases hword
  · rintro ⟨rfl, rfl⟩
    have hlen : name.text.length = name.text.toList.length := String.length_toList.symm
    have hpre : name.text.toList.isPrefixOf (name.text.toList ++ rest) = true :=
      List.isPrefixOf_iff_prefix.2 (List.prefix_append ..)
    rw [if_pos hpre, hlen, List.drop_left]
    rfl

theorem extends_functionNamed (name : FunctionName) : Extends (functionNamed name) where
  append _ h := by
    obtain ⟨rfl, rfl⟩ := functionNamed_eq_some.1 h
    exact functionNamed_eq_some.2 ⟨List.append_assoc .., rfl⟩

theorem plain_functionName (name : FunctionName) :
    ∀ c ∈ name.text.toList, c.isDigit = false ∧ c.utf8Size = 1 := by
  cases name <;> simp [FunctionName.text] <;> decide

theorem steady_functionNamed (name : FunctionName) : Steady (functionNamed name) where
  exists_piece h := by
    obtain ⟨rfl, rfl⟩ := functionNamed_eq_some.1 h
    exact ⟨_, rfl, cleanCut_of_not_isDigit fun c hc => (plain_functionName name c hc).1,
      fun c hc => (plain_functionName name c hc).2⟩
  truncate {kept tail x rest} _ h := by
    obtain ⟨hcs, rfl⟩ := functionNamed_eq_some.1 h
    rw [← List.append_assoc] at hcs
    exact functionNamed_eq_some.2 ⟨List.append_cancel_right hcs, rfl⟩

theorem steady_function : Steady function :=
  (steady_functionNamed _).orElse (extends_functionNamed _).persists <|
    (steady_functionNamed _).orElse (extends_functionNamed _).persists <|
      (steady_functionNamed _).orElse (extends_functionNamed _).persists (steady_functionNamed _)

/-- A relation of one character is read where no equals sign makes it a longer one. -/
theorem sign_of_not_equals {rest : List Char} (h : ∀ tail, rest ≠ '=' :: tail) :
    sign ('>' :: rest) = some (.relation .greater, rest)
      ∧ sign ('<' :: rest) = some (.relation .less, rest)
      ∧ sign ('=' :: rest) = some (.relation .equal, rest) := by
  refine ⟨?_, ?_, ?_⟩ <;> rw [sign] <;> exact fun tail hrest => h tail hrest

/-- A sign is a piece of plain characters, and is read again in front of every text that has no
equals sign where the old one had none. -/
theorem sign_eq_some {cs rest : List Char} {x : Lexeme} (h : sign cs = some (x, rest)) :
    ∃ piece, cs = piece ++ rest ∧ (∀ c ∈ piece, c.isDigit = false ∧ c.utf8Size = 1)
      ∧ ∀ {rest'}, ((∀ tail, rest ≠ '=' :: tail) → ∀ tail, rest' ≠ '=' :: tail) →
        sign (piece ++ rest') = some (x, rest') := by
  unfold sign at h
  split at h
  case h_21 => cases h
  all_goals cases h
  case h_1 => exact ⟨['>', '='], rfl, by simp; decide, fun _ => rfl⟩
  case h_2 => exact ⟨['<', '='], rfl, by simp; decide, fun _ => rfl⟩
  case h_3 => exact ⟨['=', '='], rfl, by simp; decide, fun _ => rfl⟩
  case h_4 hne =>
    exact ⟨['>'], rfl, by simp; decide, fun hrest =>
      (sign_of_not_equals (hrest fun tail h => hne tail (by rw [h]))).1⟩
  case h_5 hne =>
    exact ⟨['<'], rfl, by simp; decide, fun hrest =>
      (sign_of_not_equals (hrest fun tail h => hne tail (by rw [h]))).2.1⟩
  case h_6 hne =>
    exact ⟨['='], rfl, by simp; decide, fun hrest =>
      (sign_of_not_equals (hrest fun tail h => hne tail (by rw [h]))).2.2⟩
  -- a symbol is read in front of everything
  all_goals exact ⟨[_], rfl, by simp; decide, fun _ => rfl⟩

theorem steady_sign : Steady sign where
  exists_piece h := by
    obtain ⟨piece, hcs, hplain, -⟩ := sign_eq_some h
    exact ⟨piece, hcs, cleanCut_of_not_isDigit fun c hc => (hplain c hc).1,
      fun c hc => (hplain c hc).2⟩
  truncate {kept tail x rest} _ h := by
    obtain ⟨piece, hcs, -, hagain⟩ := sign_eq_some h
    rw [← List.append_assoc] at hcs
    obtain rfl := List.append_cancel_right hcs
    refine hagain fun hne tail' htail' => hne (tail' ++ tail) ?_
    rw [htail', List.cons_append]

end Reader

/-! ## 7. One lexeme -/

/-- Every lexeme is read by one steady reader, which its first character chooses. -/
theorem Lexeme.exists_reader (c : Char) : ∃ reader : Reader Lexeme, reader.Steady ∧
    ∀ cs offset, ∃ error, Lexeme.scan c cs offset = orLexError (reader (c :: cs)) error := by
  by_cases hdigit : c.isDigit = true
  · exact ⟨_, Reader.steady_numberOrDice, fun cs offset => ⟨_, if_pos hdigit⟩⟩
  by_cases hd : c = 'd'
  · subst hd
    exact ⟨Reader.after 'd' (Reader.diceOrReference false),
      (Reader.steady_diceOrReference false).after (by decide), fun _ _ => ⟨_, rfl⟩⟩
  by_cases hD : c = 'D'
  · subst hD
    exact ⟨Reader.after 'D' (Reader.diceOrReference true),
      (Reader.steady_diceOrReference true).after (by decide), fun _ _ => ⟨_, rfl⟩⟩
  by_cases hk : c = 'k'
  · subst hk
    exact ⟨Reader.after 'k' Reader.keep, Reader.steady_keep.after (by decide), fun _ _ => ⟨_, rfl⟩⟩
  by_cases hr : c = 'r'
  · subst hr
    exact ⟨Reader.after 'r' Reader.reroll, Reader.steady_reroll.after (by decide),
      fun _ _ => ⟨_, rfl⟩⟩
  by_cases hs : c = 's'
  · subst hs
    exact ⟨Reader.after 's' Reader.success, Reader.steady_success.after (by decide),
      fun _ _ => ⟨_, rfl⟩⟩
  by_cases he : c = 'e'
  · subst he
    exact ⟨Reader.after 'e' Reader.explode, Reader.steady_explode.after (by decide),
      fun _ _ => ⟨_, rfl⟩⟩
  by_cases hm : c = 'm'
  · subst hm
    exact ⟨_, Reader.steady_function, fun _ _ => ⟨_, rfl⟩⟩
  · refine ⟨_, Reader.steady_sign, fun _ offset => ⟨.unexpectedCharacter c offset, ?_⟩⟩
    simp [scan, hdigit]

/-- The piece of a text that a lexeme is read from. -/
theorem Lexeme.exists_piece {c : Char} {cs rest : List Char} {offset : ℕ} {x : Lexeme}
    (h : Lexeme.scan c cs offset = .ok (x, rest)) :
    ∃ piece, cs = piece ++ rest ∧ CleanCut (c :: piece) rest ∧ ∀ d ∈ c :: piece, d.utf8Size = 1 := by
  obtain ⟨reader, hsteady, hscan⟩ := exists_reader c
  obtain ⟨error, heq⟩ := hscan cs offset
  rw [heq, orLexError_eq_ok_iff] at h
  obtain ⟨piece, hcs, hcut, hsize⟩ := hsteady.exists_piece h
  have hlt := length_scan_lt (heq.trans (orLexError_eq_ok_iff.2 h))
  cases piece with
  | nil => rw [hcs, List.nil_append] at hlt; exact absurd hlt (lt_irrefl _)
  | cons d piece =>
    obtain ⟨hc, hcs⟩ := List.cons.inj hcs
    rw [← hc] at hcut hsize
    exact ⟨piece, hcs, hcut, hsize⟩

/-- The same lexeme is read, wherever it stands, if the text behind it ends earlier. -/
theorem Lexeme.scan_truncate {c : Char} {kept tail rest : List Char} {offset : ℕ} {x : Lexeme}
    (hcut : CleanCut (c :: kept) tail)
    (h : Lexeme.scan c (kept ++ tail) offset = .ok (x, rest ++ tail)) (offset' : ℕ) :
    Lexeme.scan c kept offset' = .ok (x, rest) := by
  obtain ⟨reader, hsteady, hscan⟩ := exists_reader c
  obtain ⟨error, heq⟩ := hscan (kept ++ tail) offset
  obtain ⟨error', heq'⟩ := hscan kept offset'
  rw [heq, orLexError_eq_ok_iff] at h
  rw [heq', orLexError_eq_ok_iff]
  exact hsteady.truncate hcut h

end DiceOdds
