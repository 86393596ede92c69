import DiceOdds.Proofs.Grammar.Sound
import DiceOdds.Formula.Render

/-!
# Written lexemes are read back

What a tree writes for a number, for dice or for a modifier is cut off again by the scan as that
one lexeme, whatever is written behind it.

## Why it matters what is written behind

Readers are greedy.  `kh` in front of `2` would take the digit, and `>` in front of `=` would become
another relation.  A lexeme is therefore read back *in front of* a text, and all that is
asked of that text is its first character: `BeginsIn` lists the characters that may come.  Behind
an operand that is a sign; behind dice it may also be the letter of a modifier.
-/

namespace DiceOdds

/-! ## 1. First characters -/

/-- The text is empty or begins with one of these characters. -/
def BeginsIn (allowed cs : List Char) : Prop := ∀ c ∈ cs.head?, c ∈ allowed

theorem beginsIn_nil (allowed : List Char) : BeginsIn allowed [] := by simp [BeginsIn]

@[simp] theorem beginsIn_cons {allowed : List Char} {c : Char} {cs : List Char} :
    BeginsIn allowed (c :: cs) ↔ c ∈ allowed := by
  simp [BeginsIn]

theorem BeginsIn.mono {allowed more cs : List Char} (h : BeginsIn allowed cs)
    (hsub : ∀ c ∈ allowed, c ∈ more) : BeginsIn more cs :=
  fun c hc => hsub c (h c hc)

/-- A character that does not count as a beginning is not there. -/
theorem BeginsIn.ne_cons {allowed cs : List Char} (h : BeginsIn allowed cs) {c : Char}
    (hc : c ∉ allowed) (tail : List Char) : cs ≠ c :: tail := by
  rintro rfl
  exact hc (beginsIn_cons.1 h)

/-- The characters of relations and symbols. -/
def signChars : List Char :=
  ['+', '-', '*', '/', '?', ':', ';', ',', '(', ')', '[', ']', '#', '|', '<', '>', '=']

/-- The letters of modifiers. -/
def modifierChars : List Char := ['r', 's', 'e']

/-- A text without blank characters. -/
def NoBlank (cs : List Char) : Prop := ∀ c ∈ cs, isBlank c = false

instance (cs : List Char) : Decidable (NoBlank cs) :=
  inferInstanceAs (Decidable (∀ c ∈ cs, isBlank c = false))

@[simp] theorem noBlank_nil : NoBlank [] := by simp [NoBlank]

@[simp] theorem noBlank_cons {c : Char} {cs : List Char} :
    NoBlank (c :: cs) ↔ isBlank c = false ∧ NoBlank cs := by
  simp [NoBlank]

@[simp] theorem noBlank_append {cs ds : List Char} :
    NoBlank (cs ++ ds) ↔ NoBlank cs ∧ NoBlank ds := by
  simp [NoBlank, or_imp, forall_and]

theorem isBlank_of_isDigit {c : Char} (h : c.isDigit = true) : isBlank c = false := by
  have hlow : '0' ≤ c := by simp [Char.isDigit] at h; exact h.1
  have hhigh : c ≤ '9' := by simp [Char.isDigit] at h; exact h.2
  have hlow' : 48 ≤ c.toNat := hlow
  have hhigh' : c.toNat ≤ 57 := hhigh
  simp [isBlank, blankRanges]
  omega

theorem noBlank_of_digits {ds : List Char} (h : ∀ c ∈ ds, c.isDigit = true) : NoBlank ds :=
  fun c hc => isBlank_of_isDigit (h c hc)

/-! ## 2. Whole numbers -/

theorem natOfDigits_toDigits (n : ℕ) : Decimal.natOfDigits (Nat.toDigits 10 n) = n :=
  Nat.ofDigitChars_toDigits (by decide) (by decide)

theorem isDigit_of_mem_toDigits {n : ℕ} {c : Char} (h : c ∈ Nat.toDigits 10 n) :
    c.isDigit = true :=
  Nat.isDigit_of_mem_toDigits (by decide) (by decide) h

theorem noBlank_toDigits (n : ℕ) : NoBlank (Nat.toDigits 10 n) :=
  noBlank_of_digits fun _ => isDigit_of_mem_toDigits

namespace Reader

/-- A row of digits ends where no digit follows. -/
theorem digits_append {ds rest : List Char} (hne : ds ≠ []) (hds : ∀ c ∈ ds, c.isDigit = true)
    (hrest : ∀ c ∈ rest.head?, c.isDigit = false) : digits (ds ++ rest) = some (ds, rest) := by
  have htake : rest.takeWhile Char.isDigit = [] := by
    cases rest with
    | nil => rfl
    | cons c cs => exact List.takeWhile_cons_of_neg (by simp [hrest c rfl])
  have hdrop : rest.dropWhile Char.isDigit = rest := by
    cases rest with
    | nil => rfl
    | cons c cs => exact List.dropWhile_cons_of_neg (by simp [hrest c rfl])
  have hfound : (ds ++ rest).takeWhile Char.isDigit = ds := by
    rw [List.takeWhile_append_of_pos hds, htake, List.append_nil]
  rw [digits, hfound, List.dropWhile_append_of_pos hds, hdrop]
  simp [hne]

/-- No digits, no number. -/
theorem nat32_eq_none {cs : List Char} (h : ∀ c ∈ cs.head?, c.isDigit = false) :
    nat32 cs = none := by
  cases cs with
  | nil => rfl
  | cons c cs => simp [nat32, digits, h c rfl]

theorem nat32_append (n : UInt32) {rest : List Char}
    (hrest : ∀ c ∈ rest.head?, c.isDigit = false) :
    nat32 (Nat.toDigits 10 n.toNat ++ rest) = some (n, rest) := by
  have hdigits : digits (Nat.toDigits 10 n.toNat ++ rest) = some (Nat.toDigits 10 n.toNat, rest) :=
    digits_append Nat.toDigits_ne_nil (fun _ => isDigit_of_mem_toDigits) hrest
  have hlt : n.toNat < UInt32.size := n.toNat_lt
  simp [nat32, hdigits, natOfDigits_toDigits, hlt]

/-- A number ends where its digits end. -/
theorem digits_of_nat32 {cs rest : List Char} {n : UInt32} (h : nat32 cs = some (n, rest)) :
    ∃ found, digits cs = some (found, rest) := by
  obtain ⟨⟨found, rest'⟩, hfound, h⟩ := Option.bind_eq_some_iff.1 h
  refine ⟨found, ?_⟩
  dsimp only at h
  split at h
  · rw [hfound, (Prod.mk.inj (Option.some.inj h)).2]
  · cases h

/-- A marker that does not come announces nothing. -/
theorem optionally_after_eq_none {α : Type} {marker : Char} {reader : Reader α} {cs : List Char}
    (h : ∀ tail, cs ≠ marker :: tail) :
    optionally (after marker reader) cs = some (none, cs) := by
  cases cs with
  | nil => rfl
  | cons c cs =>
    have hc : c ≠ marker := fun hc => h cs (hc ▸ rfl)
    simp [optionally, after, char, hc]

theorem optionally_after_cons {α : Type} {marker : Char} {reader : Reader α} {cs rest : List Char}
    {a : α} (h : reader cs = some (a, rest)) :
    optionally (after marker reader) (marker :: cs) = some (some a, rest) := by
  simp [optionally, after, char, h]

end Reader

/-! ## 3. Optional parts -/

/-- A number behind its marker, if there is one. -/
def marked (marker : Char) (n : Option UInt32) : List Char :=
  match n with
  | some n => marker :: Nat.toDigits 10 n.toNat
  | none => []

theorem noBlank_marked {marker : Char} (hmarker : isBlank marker = false) (n : Option UInt32) :
    NoBlank (marked marker n) := by
  cases n with
  | none => exact noBlank_nil
  | some n => exact noBlank_cons.2 ⟨hmarker, noBlank_toDigits _⟩

/-- In front of a part that may be missing stands its marker, or whatever stands behind it. -/
theorem BeginsIn.marked {allowed rest : List Char} (h : BeginsIn allowed rest) (marker : Char)
    (n : Option UInt32) : BeginsIn (marker :: allowed) (DiceOdds.marked marker n ++ rest) := by
  cases n with
  | none => exact h.mono fun c hc => List.mem_cons_of_mem _ hc
  | some n => simp [DiceOdds.marked]

/-- None of these characters is a digit. -/
theorem BeginsIn.noDigit {allowed cs : List Char} (h : BeginsIn allowed cs)
    (hallowed : ∀ c ∈ allowed, c.isDigit = false) : ∀ c ∈ cs.head?, c.isDigit = false :=
  fun c hc => hallowed c (h c hc)

theorem Reader.optionally_marked (marker : Char) {allowed rest : List Char} (n : Option UInt32)
    (hrest : BeginsIn allowed rest) (hmarker : marker ∉ allowed)
    (hdigit : ∀ c ∈ allowed, c.isDigit = false) :
    optionally (after marker nat32) (marked marker n ++ rest) = some (n, rest) := by
  cases n with
  | none => exact optionally_after_eq_none (hrest.ne_cons hmarker)
  | some n => exact optionally_after_cons (nat32_append n (hrest.noDigit hdigit))

/-- The faces of a modifier as they are written. -/
def FaceSpec.text (faces : FaceSpec) : List Char :=
  Nat.toDigits 10 faces.min.toNat ++ marked '~' faces.max

theorem FaceSpec.noBlank_text (faces : FaceSpec) : NoBlank faces.text :=
  noBlank_append.2 ⟨noBlank_toDigits _, noBlank_marked (by decide) _⟩

theorem Reader.faceSpec_append (faces : FaceSpec) {allowed rest : List Char}
    (hrest : BeginsIn allowed rest) (hmarker : '~' ∉ allowed)
    (hdigit : ∀ c ∈ allowed, c.isDigit = false) :
    faceSpec (faces.text ++ rest) = some (faces, rest) := by
  have hmin : nat32 (faces.text ++ rest) = some (faces.min, marked '~' faces.max ++ rest) := by
    rw [FaceSpec.text, List.append_assoc]
    refine nat32_append _ ((hrest.marked '~' faces.max).noDigit ?_)
    intro c hc
    rcases List.mem_cons.1 hc with rfl | hc
    · decide
    · exact hdigit c hc
  simp [faceSpec, hmin, optionally_marked '~' faces.max hrest hmarker hdigit]

/-- A range behind its letter, if there is one. -/
def markedFaces (marker : Char) (faces : Option FaceSpec) : List Char :=
  match faces with
  | some faces => marker :: faces.text
  | none => []

theorem noBlank_markedFaces {marker : Char} (hmarker : isBlank marker = false)
    (faces : Option FaceSpec) : NoBlank (markedFaces marker faces) := by
  cases faces with
  | none => exact noBlank_nil
  | some faces => exact noBlank_cons.2 ⟨hmarker, faces.noBlank_text⟩

theorem BeginsIn.markedFaces {allowed rest : List Char} (h : BeginsIn allowed rest) (marker : Char)
    (faces : Option FaceSpec) :
    BeginsIn (marker :: allowed) (DiceOdds.markedFaces marker faces ++ rest) := by
  cases faces with
  | none => exact h.mono fun c hc => List.mem_cons_of_mem _ hc
  | some faces => simp [DiceOdds.markedFaces]

theorem Reader.optionally_markedFaces (marker : Char) {allowed rest : List Char}
    (faces : Option FaceSpec) (hrest : BeginsIn allowed rest) (hmarker : marker ∉ allowed)
    (hrange : '~' ∉ allowed) (hdigit : ∀ c ∈ allowed, c.isDigit = false) :
    optionally (after marker faceSpec) (markedFaces marker faces ++ rest) = some (faces, rest) := by
  cases faces with
  | none => exact optionally_after_eq_none (hrest.ne_cons hmarker)
  | some faces => exact optionally_after_cons (faceSpec_append faces hrest hrange hdigit)

/-! ## 4. Lexemes -/

/-- The text is cut off as this lexeme, in front of every text that begins in the right way. -/
structure Writes (follow cs : List Char) (x : Lexeme) : Prop where
  noBlank : NoBlank cs
  /-- A relation in front of the text keeps its meaning. -/
  begins : ∃ c ∈ cs.head?, c ≠ '='
  scan : ∀ c tail, cs = c :: tail → ∀ rest offset, BeginsIn follow rest →
    Lexeme.scan c (tail ++ rest) offset = .ok (x, rest)

/-- A lexeme that begins with a digit. -/
theorem Writes.of_digit {follow cs : List Char} {x : Lexeme} (hblank : NoBlank cs)
    (hdigit : ∃ c tail, cs = c :: tail ∧ c.isDigit = true)
    (hread : ∀ rest, BeginsIn follow rest → Reader.numberOrDice (cs ++ rest) = some (x, rest)) :
    Writes follow cs x := by
  obtain ⟨c, tail, rfl, hc⟩ := hdigit
  refine ⟨hblank, ⟨c, rfl, ?_⟩, ?_⟩
  · rintro rfl
    cases hc
  · intro c' tail' hcs rest offset hrest
    cases hcs
    simp only [Lexeme.scan, if_pos hc, orLexError_eq_ok_iff]
    exact hread rest hrest

/-- A lexeme that begins with a letter of its own. -/
theorem Writes.of_letter {follow tail : List Char} {c : Char} {x : Lexeme} (hblank : NoBlank tail)
    (hc : c ≠ '=' ∧ isBlank c = false)
    (hscan : ∀ rest offset, BeginsIn follow rest →
      Lexeme.scan c (tail ++ rest) offset = .ok (x, rest)) : Writes follow (c :: tail) x := by
  refine ⟨noBlank_cons.2 ⟨hc.2, hblank⟩, ⟨c, rfl, hc.1⟩, ?_⟩
  intro c' tail' hcs
  cases hcs
  exact hscan

/-- The double is written as digits with at most one fraction, which are read back as that
double. -/
def Decimal.ReadsBack (x : Float) : Prop :=
  ∃ whole fraction : List Char, whole ≠ [] ∧ (∀ c ∈ whole ++ fraction, c.isDigit = true)
    ∧ (Decimal.text x).toList = whole ++ (if fraction = [] then [] else '.' :: fraction)
    ∧ Decimal.ofDigits whole fraction = x

theorem Reader.number_append {whole fraction : List Char} (hwhole : whole ≠ [])
    (hdigits : ∀ c ∈ whole ++ fraction, c.isDigit = true) {rest : List Char}
    (hrest : BeginsIn signChars rest) :
    numberOrDice (whole ++ (if fraction = [] then [] else '.' :: fraction) ++ rest)
      = some (.number (Decimal.ofDigits whole fraction), rest) := by
  have hnoDigit := hrest.noDigit (by simp [signChars])
  have hwholeDigits : ∀ c ∈ whole, c.isDigit = true :=
    fun c hc => hdigits c (List.mem_append_left _ hc)
  rw [List.append_assoc]
  generalize hmore : (if fraction = [] then [] else '.' :: fraction) ++ rest = more
  have hmoreBegins : BeginsIn ('.' :: signChars) more := by
    subst hmore
    split
    · exact hrest.mono fun c hc => List.mem_cons_of_mem _ hc
    · simp
  have hread : digits (whole ++ more) = some (whole, more) :=
    digits_append hwhole hwholeDigits (hmoreBegins.noDigit (by simp [signChars]))
  have hfraction : optionally (after '.' digits) more
      = some (if fraction = [] then none else some fraction, rest) := by
    subst hmore
    split
    · exact optionally_after_eq_none (hrest.ne_cons (by decide))
    · next hne =>
      exact optionally_after_cons (digits_append hne
        (fun c hc => hdigits c (List.mem_append_right _ hc)) hnoDigit)
  have hnumber : number (whole ++ more)
      = some (.number (Decimal.ofDigits whole fraction), rest) := by
    by_cases hnil : fraction = [] <;> simp [number, decimal, hread, hfraction, hnil]
  -- a count of dice would need a dice letter behind the digits
  have hcounted : countedDice (whole ++ more) = none := by
    rw [countedDice]
    cases hn : nat32 (whole ++ more) with
    | none => rfl
    | some found =>
      obtain ⟨n, rest'⟩ := found
      obtain ⟨ds, hds⟩ := digits_of_nat32 hn
      rw [hread] at hds
      cases hds
      have hletter : diceLetter more = none := by
        unfold diceLetter
        split
        · exact absurd rfl (hmoreBegins.ne_cons (by decide) _)
        · exact absurd rfl (hmoreBegins.ne_cons (by decide) _)
        · rfl
      simp [hletter]
  rw [numberOrDice, hcounted, hnumber]
  rfl

theorem Decimal.ReadsBack.writes {x : Float} (h : Decimal.ReadsBack x) :
    Writes signChars (Decimal.text x).toList (.number x) := by
  obtain ⟨whole, fraction, hwhole, hdigits, htext, rfl⟩ := h
  rw [htext]
  have hwholeDigits : ∀ c ∈ whole, c.isDigit = true :=
    fun c hc => hdigits c (List.mem_append_left _ hc)
  have hfraction : NoBlank fraction :=
    noBlank_of_digits fun c hc => hdigits c (List.mem_append_right _ hc)
  refine .of_digit ?_ ?_ fun rest hrest => Reader.number_append hwhole hdigits hrest
  · refine noBlank_append.2 ⟨noBlank_of_digits hwholeDigits, ?_⟩
    split
    · exact noBlank_nil
    · exact noBlank_cons.2 ⟨by decide, hfraction⟩
  · cases whole with
    | nil => exact absurd rfl hwhole
    | cons c tail => exact ⟨c, _, rfl, hwholeDigits c List.mem_cons_self⟩

theorem Reader.singleDie_append (critical : Bool) (sides : UInt32) {follow rest : List Char}
    (hrest : BeginsIn follow rest) (hfollow : ∀ c ∈ follow, c.isDigit = false) :
    diceOrReference critical (Nat.toDigits 10 sides.toNat ++ rest)
      = some (.dice ⟨1, sides, critical⟩, rest) := by
  have hsides := nat32_append sides (hrest.noDigit hfollow)
  -- a digit is no underscore
  have hreference : referenceId critical (Nat.toDigits 10 sides.toNat ++ rest) = none := by
    cases h : Nat.toDigits 10 sides.toNat with
    | nil => exact absurd h Nat.toDigits_ne_nil
    | cons c tail =>
      have hc : c.isDigit = true := isDigit_of_mem_toDigits (h ▸ List.mem_cons_self)
      have hne : c ≠ '_' := by
        rintro rfl
        cases hc
      simp [referenceId, after, char, hne]
  simp [diceOrReference, hreference, singleDie, hsides]

theorem Reader.countedDice_append (d : Dice) {follow rest : List Char}
    (hrest : BeginsIn follow rest) (hfollow : ∀ c ∈ follow, c.isDigit = false) :
    countedDice (Nat.toDigits 10 d.count.toNat ++ (DiceOdds.diceLetter d.critical).toList
      ++ Nat.toDigits 10 d.sides.toNat ++ rest) = some (.dice d, rest) := by
  obtain ⟨count, sides, critical⟩ := d
  have hsides := nat32_append sides (hrest.noDigit hfollow)
  have hcount : ∀ cs, nat32 (Nat.toDigits 10 count.toNat
      ++ (DiceOdds.diceLetter critical).toList ++ cs)
        = some (count, (DiceOdds.diceLetter critical).toList ++ cs) := by
    intro cs
    rw [List.append_assoc]
    refine nat32_append count ?_
    cases critical <;> simp [DiceOdds.diceLetter]
  rw [countedDice, List.append_assoc, hcount]
  cases critical <;> simp [DiceOdds.diceLetter, diceLetter, hsides]

/-- Dice may be followed by the letter of a modifier. -/
theorem Dice.writes (d : Dice) : Writes (modifierChars ++ signChars) d.text.toList (.dice d) := by
  have hfollow : ∀ c ∈ modifierChars ++ signChars, c.isDigit = false := by
    simp [signChars, modifierChars]
  obtain ⟨count, sides, critical⟩ := d
  by_cases hone : count = 1
  · subst hone
    have htext : (Dice.text ⟨1, sides, critical⟩).toList
        = (if critical then 'D' else 'd') :: Nat.toDigits 10 sides.toNat := by
      cases critical <;> simp [Dice.text, diceLetter]
    rw [htext]
    refine .of_letter (noBlank_toDigits _) (by cases critical <;> decide) ?_
    intro rest offset hrest
    have hread := Reader.singleDie_append critical sides hrest hfollow
    cases critical <;> exact orLexError_eq_ok_iff.2 hread
  · have htext : (Dice.text ⟨count, sides, critical⟩).toList = Nat.toDigits 10 count.toNat
        ++ (diceLetter critical).toList ++ Nat.toDigits 10 sides.toNat := by
      simp [Dice.text, hone]
    rw [htext]
    refine .of_digit ?_ ?_ fun rest hrest => ?_
    · refine noBlank_append.2 ⟨noBlank_append.2 ⟨noBlank_toDigits _, ?_⟩, noBlank_toDigits _⟩
      cases critical <;> simp [diceLetter] <;> decide
    · cases h : Nat.toDigits 10 count.toNat with
      | nil => exact absurd h Nat.toDigits_ne_nil
      | cons c tail =>
        exact ⟨c, _, rfl, isDigit_of_mem_toDigits (h ▸ List.mem_cons_self)⟩
    · rw [Reader.numberOrDice, Reader.countedDice_append ⟨count, sides, critical⟩ hrest hfollow]
      rfl

theorem writes_reference (id : UInt32) (critical : Bool) :
    Writes signChars (diceLetter critical ++ "_" ++ toString id.toNat).toList
      (.reference id critical) := by
  have hread : ∀ rest, BeginsIn signChars rest →
      Reader.diceOrReference critical ('_' :: Nat.toDigits 10 id.toNat ++ rest)
        = some (.reference id critical, rest) := by
    intro rest hrest
    have hid := Reader.nat32_append id (hrest.noDigit (by simp [signChars]))
    simp [Reader.diceOrReference, Reader.referenceId, Reader.after, Reader.char, hid]
  have htext : (diceLetter critical ++ "_" ++ toString id.toNat).toList
      = (if critical then 'D' else 'd') :: '_' :: Nat.toDigits 10 id.toNat := by
    cases critical <;> simp [diceLetter]
  rw [htext]
  refine .of_letter (noBlank_cons.2 ⟨by decide, noBlank_toDigits _⟩)
    (by cases critical <;> decide) fun rest offset hrest => ?_
  have := hread rest hrest
  cases critical <;> exact orLexError_eq_ok_iff.2 this

/-- The owner of items is followed by their opening parenthesis. -/
theorem writes_keep (kind : KeepKind) (count : UInt32) :
    Writes ['('] (kind.text ++ if count = 1 then "" else toString count.toNat).toList
      (.keep kind count) := by
  have hcount : ∀ rest, BeginsIn ['('] rest →
      Reader.optionally Reader.nat32
          ((if count = 1 then [] else Nat.toDigits 10 count.toNat) ++ rest)
        = some (if count = 1 then none else some count, rest) := by
    intro rest hrest
    have hdigit := hrest.noDigit (by simp)
    split
    · simp [Reader.optionally, Reader.nat32_eq_none hdigit]
    · simp [Reader.optionally, Reader.nat32_append count hdigit]
  have hblank : NoBlank (if count = 1 then [] else Nat.toDigits 10 count.toNat) := by
    split
    · exact noBlank_nil
    · exact noBlank_toDigits _
  have htext : (kind.text ++ if count = 1 then "" else toString count.toNat).toList
      = 'k' :: (if kind = .highest then 'h' else 'l') ::
        (if count = 1 then [] else Nat.toDigits 10 count.toNat) := by
    cases kind <;> split <;> simp [KeepKind.text]
  have hgetD : (if count = 1 then none else some count).getD 1 = count := by
    split
    · next h => exact h.symm
    · rfl
  rw [htext]
  refine .of_letter (noBlank_cons.2 ⟨by cases kind <;> decide, hblank⟩) (by decide) ?_
  intro rest offset hrest
  refine orLexError_eq_ok_iff.2 ?_
  cases kind <;> simp [Reader.keep, Reader.keepKind, hcount rest hrest, hgetD]

/-- The parenthesis behind `min` and `max` shows that the longer names are not meant. -/
theorem FunctionName.writes (name : FunctionName) :
    Writes ['('] name.text.toList (.function name) := by
  refine ⟨?_, ?_, fun c tail hname rest offset hrest => ?_⟩
  · cases name <;> simp [FunctionName.text] <;> decide
  · cases name <;> exact ⟨'m', rfl, by decide⟩
  · have hread : Reader.function (name.text.toList ++ rest) = some (.function name, rest) := by
      cases rest with
      | nil => cases name <;> rfl
      | cons d rest =>
        obtain rfl : d = '(' := by simpa using hrest
        cases name <;> rfl
    have hfirst : c = 'm' := by
      cases name <;> exact (List.cons.inj hname).1.symm
    subst hfirst
    rw [hname] at hread
    exact orLexError_eq_ok_iff.2 hread

/-! ## 5. Modifiers -/

/-- A modifier as it is written. -/
def ModifierSpec.text : ModifierSpec → List Char
  | reroll faces limit => 'r' :: (faces.text ++ marked 'e' limit)
  | success faces again limit => 's' :: (faces.text ++ markedFaces 'x' again ++ marked 'l' limit)
  | explode faces limit => 'e' :: (faces.text ++ marked 'l' limit)

theorem ModifierSpec.writes (spec : ModifierSpec) :
    Writes signChars spec.text (.modifier spec) := by
  cases spec with
  | reroll faces limit =>
    refine .of_letter (noBlank_append.2 ⟨faces.noBlank_text, noBlank_marked (by decide) _⟩)
      (by decide) fun rest offset hrest => ?_
    have hlimit := Reader.optionally_marked 'e' limit hrest (by decide)
      (by simp [signChars])
    have hfaces := Reader.faceSpec_append faces (hrest.marked 'e' limit) (by decide)
      (by simp [signChars])
    refine orLexError_eq_ok_iff.2 ?_
    rw [List.append_assoc]
    simp [Reader.reroll, hfaces, hlimit]
  | success faces again limit =>
    refine .of_letter (noBlank_append.2 ⟨noBlank_append.2 ⟨faces.noBlank_text,
      noBlank_markedFaces (by decide) _⟩, noBlank_marked (by decide) _⟩) (by decide)
      fun rest offset hrest => ?_
    have hbegins := hrest.marked 'l' limit
    have hlimit := Reader.optionally_marked 'l' limit hrest (by decide)
      (by simp [signChars])
    have hagain := Reader.optionally_markedFaces 'x' again hbegins (by decide)
      (by decide) (by simp [signChars])
    have hfaces := Reader.faceSpec_append faces (hbegins.markedFaces 'x' again) (by decide)
      (by simp [signChars])
    refine orLexError_eq_ok_iff.2 ?_
    rw [List.append_assoc, List.append_assoc]
    simp [Reader.success, hfaces, hagain, hlimit]
  | explode faces limit =>
    refine .of_letter (noBlank_append.2 ⟨faces.noBlank_text, noBlank_marked (by decide) _⟩)
      (by decide) fun rest offset hrest => ?_
    have hlimit := Reader.optionally_marked 'l' limit hrest (by decide)
      (by simp [signChars])
    have hfaces := Reader.faceSpec_append faces (hrest.marked 'l' limit) (by decide)
      (by simp [signChars])
    refine orLexError_eq_ok_iff.2 ?_
    rw [List.append_assoc]
    simp [Reader.explode, hfaces, hlimit]

/-- The number left out if it is the usual one. -/
def shortened (usual : UInt32) (n : Option UInt32) : Option UInt32 :=
  if n.getD usual = usual then none else n

theorem getD_shortened (usual : UInt32) (n : Option UInt32) :
    (shortened usual n).getD usual = n.getD usual := by
  unfold shortened
  split
  · next h => exact h.symm
  · rfl

theorem marked_shortened (marker : Char) (usual : UInt32) (n : Option UInt32) :
    marked marker (shortened usual n) = if n.getD usual = usual then []
      else marker :: Nat.toDigits 10 (n.getD usual).toNat := by
  unfold shortened
  split
  · rfl
  · next h =>
    cases n with
    | none => exact absurd rfl h
    | some n => rfl

/-- The range without its upper end, if that is the expected one. -/
def FaceSpec.shortened (highest : UInt32) (faces : FaceSpec) : FaceSpec :=
  ⟨faces.min, DiceOdds.shortened highest faces.max⟩

theorem FaceSpec.range_shortened (faces : FaceSpec) (highest : UInt32) :
    (faces.shortened highest).range highest = faces.range highest := by
  rw [range, range, shortened, getD_shortened]

theorem FaceSpec.text_range (faces : FaceSpec) (highest : UInt32) :
    ((faces.range highest).text highest).toList = (faces.shortened highest).text := by
  rw [text, shortened, marked_shortened, FaceRange.text, range]
  split <;> simp

/-- The modifier without whatever dice with so many sides assume anyway. -/
def ModifierSpec.shortened (sides : UInt32) : ModifierSpec → ModifierSpec
  | reroll faces limit =>
    reroll (faces.shortened faces.min) (DiceOdds.shortened defaultRerollLimit limit)
  | success faces again limit =>
    success (faces.shortened sides) (again.map (FaceSpec.shortened sides))
      (DiceOdds.shortened defaultExplodeLimit limit)
  | explode faces limit =>
    explode (faces.shortened sides) (DiceOdds.shortened defaultExplodeLimit limit)

/-- What is left out is filled in again. -/
theorem ModifierSpec.modifier_shortened (spec : ModifierSpec) (sides : UInt32) :
    (spec.shortened sides).modifier sides = spec.modifier sides := by
  cases spec with
  | reroll faces limit =>
    have hmin : (faces.shortened faces.min).min = faces.min := rfl
    simp [shortened, modifier, hmin, FaceSpec.range_shortened, getD_shortened]
  | success faces again limit =>
    have hagain : (again.map (FaceSpec.shortened sides)).map (·.range sides)
        = again.map (·.range sides) := by
      rw [Option.map_map]
      exact congrArg (again.map ·) (funext fun faces => faces.range_shortened sides)
    simp only [shortened, modifier, FaceSpec.range_shortened, getD_shortened, hagain]
  | explode faces limit =>
    simp [shortened, modifier, FaceSpec.range_shortened, getD_shortened]

theorem toList_limitText (letter : Char) (limit : Option UInt32) (usual : UInt32) :
    (limitText letter.toString (limit.getD usual) usual).toList
      = marked letter (shortened usual limit) := by
  rw [marked_shortened, limitText]
  split <;> simp

theorem toList_rangeText (letter : Char) (faces : Option FaceSpec) (sides : UInt32) :
    (rangeText letter.toString (faces.map (·.range sides)) sides).toList
      = markedFaces letter (faces.map (FaceSpec.shortened sides)) := by
  cases faces with
  | none => rfl
  | some faces => simp [rangeText, markedFaces, faces.text_range sides]

/-- A tree writes its modifiers in their short form. -/
theorem ModifierSpec.text_modifier (spec : ModifierSpec) (sides : UInt32) :
    ((spec.modifier sides).text sides).toList = (spec.shortened sides).text := by
  cases spec with
  | reroll faces limit =>
    have hlimit := toList_limitText 'e' limit defaultRerollLimit
    rw [modifier, Modifier.text, String.toList_append, String.toList_append]
    exact congrArg₂ (fun u v => 'r' :: (u ++ v)) (faces.text_range faces.min) hlimit
  | success faces again limit =>
    have hlimit := toList_limitText 'l' limit defaultExplodeLimit
    have hfaces := toList_rangeText 's' (some faces) sides
    have hagain := toList_rangeText 'x' again sides
    rw [modifier, Modifier.text, String.toList_append, String.toList_append]
    exact congrArg₂ (· ++ ·) (congrArg₂ (· ++ ·) hfaces hagain) hlimit
  | explode faces limit =>
    have hlimit := toList_limitText 'l' limit defaultExplodeLimit
    have hfaces := toList_rangeText 'e' (some faces) sides
    rw [modifier, Modifier.text, String.toList_append]
    exact congrArg₂ (· ++ ·) hfaces hlimit

end DiceOdds
