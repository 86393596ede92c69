import DiceOdds.Formula.Scan

/-!
# A formula as a list of tokens

`tokenize` removes the blanks and reads one token after the other.

## Why reading comes to an end

Every reader that succeeds leaves less text than it was given (`Reader.Consumes`), and so does
the scan of a whole lexeme (`length_scan_lt`).  That is the measure of the recursion, and the
reason why the offsets of the tokens increase.
-/

namespace DiceOdds

namespace Reader

/-! ## 1. Readers consume text -/

/-- A reader that, whenever it succeeds, leaves less text than it was given. -/
def Consumes {α : Type} (reader : Reader α) : Prop :=
  ∀ {cs a rest}, reader cs = some (a, rest) → rest.length < cs.length

variable {α : Type}

theorem char_consumes (c : Char) : Consumes (char c) := by
  intro cs a rest h
  cases cs with
  | nil => simp [char] at h
  | cons d cs => grind [char]

theorem length_optionally {r : Reader α} (hr : Consumes r) {cs a rest}
    (h : optionally r cs = some (a, rest)) : rest.length ≤ cs.length := by
  unfold optionally at h
  split at h
  · next h' => have := hr h'; grind
  · grind

theorem after_consumes (c : Char) {r : Reader α} (hr : Consumes r) : Consumes (after c r) := by
  intro cs a rest h
  obtain ⟨⟨_, cs'⟩, h1, h2⟩ := Option.bind_eq_some_iff.1 h
  have := char_consumes c h1
  have := hr h2
  omega

theorem orElse_consumes {r s : Reader α} (hr : Consumes r) (hs : Consumes s) :
    Consumes fun cs => r cs <|> s cs := by
  intro cs a rest h
  cases h' : r cs with
  | none => exact hs (by simpa [h'] using h)
  | some found =>
    obtain rfl : found = (a, rest) := by simpa [h'] using h
    exact hr h'

theorem digits_consumes : Consumes digits := by
  intro cs a rest h
  cases cs with
  | nil => simp [digits] at h
  | cons c cs =>
    have := (List.dropWhile_sublist (l := cs) Char.isDigit).length_le
    by_cases hc : c.isDigit <;> simp [digits, hc] at h
    obtain ⟨-, rfl⟩ := h
    simp; omega

theorem nat32_consumes : Consumes nat32 := by
  intro cs a rest h
  obtain ⟨⟨found, cs'⟩, h1, h2⟩ := Option.bind_eq_some_iff.1 h
  have := digits_consumes h1
  grind

theorem faceSpec_consumes : Consumes faceSpec := by
  intro cs a rest h
  obtain ⟨⟨min, cs₁⟩, h1, h⟩ := Option.bind_eq_some_iff.1 h
  obtain ⟨⟨max, cs₂⟩, h2, h⟩ := Option.bind_eq_some_iff.1 h
  have := nat32_consumes h1
  have := length_optionally (after_consumes '~' nat32_consumes) h2
  grind

theorem diceLetter_consumes : Consumes diceLetter := by
  intro cs a rest h
  unfold diceLetter at h
  split at h <;> grind

theorem keepKind_consumes : Consumes keepKind := by
  intro cs a rest h
  unfold keepKind at h
  split at h <;> grind

/-! ## 2. Lexemes consume text -/

theorem countedDice_consumes : Consumes countedDice := by
  intro cs a rest h
  obtain ⟨⟨count, cs₁⟩, h1, h⟩ := Option.bind_eq_some_iff.1 h
  obtain ⟨⟨critical, cs₂⟩, h2, h⟩ := Option.bind_eq_some_iff.1 h
  obtain ⟨⟨sides, cs₃⟩, h3, h⟩ := Option.bind_eq_some_iff.1 h
  have := nat32_consumes h1
  have := diceLetter_consumes h2
  have := nat32_consumes h3
  grind

theorem number_consumes : Consumes number := by
  intro cs a rest h
  obtain ⟨⟨value, cs₁⟩, h1, h⟩ := Option.bind_eq_some_iff.1 h
  obtain ⟨⟨whole, cs₂⟩, h2, h1⟩ := Option.bind_eq_some_iff.1 h1
  obtain ⟨⟨fraction, cs₃⟩, h3, h1⟩ := Option.bind_eq_some_iff.1 h1
  have := digits_consumes h2
  have := length_optionally (after_consumes '.' digits_consumes) h3
  grind

theorem diceOrReference_consumes (critical : Bool) : Consumes (diceOrReference critical) := by
  apply orElse_consumes
  · intro cs a rest h
    obtain ⟨⟨id, cs₁⟩, h1, h⟩ := Option.bind_eq_some_iff.1 h
    have := after_consumes '_' nat32_consumes h1
    grind
  · intro cs a rest h
    obtain ⟨⟨sides, cs₁⟩, h1, h⟩ := Option.bind_eq_some_iff.1 h
    have := nat32_consumes h1
    grind

theorem keep_consumes : Consumes keep := by
  intro cs a rest h
  obtain ⟨⟨kind, cs₁⟩, h1, h⟩ := Option.bind_eq_some_iff.1 h
  obtain ⟨⟨count, cs₂⟩, h2, h⟩ := Option.bind_eq_some_iff.1 h
  have := keepKind_consumes h1
  have := length_optionally nat32_consumes h2
  grind

theorem reroll_consumes : Consumes reroll := by
  intro cs a rest h
  obtain ⟨⟨faces, cs₁⟩, h1, h⟩ := Option.bind_eq_some_iff.1 h
  obtain ⟨⟨limit, cs₂⟩, h2, h⟩ := Option.bind_eq_some_iff.1 h
  have := faceSpec_consumes h1
  have := length_optionally (after_consumes 'e' nat32_consumes) h2
  grind

theorem success_consumes : Consumes success := by
  intro cs a rest h
  obtain ⟨⟨faces, cs₁⟩, h1, h⟩ := Option.bind_eq_some_iff.1 h
  obtain ⟨⟨explode, cs₂⟩, h2, h⟩ := Option.bind_eq_some_iff.1 h
  obtain ⟨⟨limit, cs₃⟩, h3, h⟩ := Option.bind_eq_some_iff.1 h
  have := faceSpec_consumes h1
  have := length_optionally (after_consumes 'x' faceSpec_consumes) h2
  have := length_optionally (after_consumes 'l' nat32_consumes) h3
  grind

theorem explode_consumes : Consumes explode := by
  intro cs a rest h
  obtain ⟨⟨faces, cs₁⟩, h1, h⟩ := Option.bind_eq_some_iff.1 h
  obtain ⟨⟨limit, cs₂⟩, h2, h⟩ := Option.bind_eq_some_iff.1 h
  have := faceSpec_consumes h1
  have := length_optionally (after_consumes 'l' nat32_consumes) h2
  grind

theorem functionNamed_consumes (name : FunctionName) : Consumes (functionNamed name) := by
  intro cs a rest h
  obtain ⟨⟨_, cs₁⟩, h1, h⟩ := Option.bind_eq_some_iff.1 h
  unfold word at h1
  split at h1
  · next hp =>
    have hle := (List.isPrefixOf_iff_prefix.1 hp).length_le
    have hpos : 0 < name.text.length := by cases name <;> decide
    have : name.text.toList.length = name.text.length := String.length_toList
    have : cs₁ = cs.drop name.text.length := by simpa using h1.symm
    grind
  · simp at h1

theorem function_consumes : Consumes function :=
  orElse_consumes (functionNamed_consumes _) <| orElse_consumes (functionNamed_consumes _) <|
    orElse_consumes (functionNamed_consumes _) (functionNamed_consumes _)

theorem sign_consumes : Consumes sign := by
  intro cs a rest h
  unfold sign at h
  split at h <;> grind

end Reader

theorem orLexError_eq_ok_iff {α : Type} {found : Option α} {error : LexError} {a : α} :
    orLexError found error = .ok a ↔ found = some a := by
  cases found <;> simp [orLexError]

theorem Lexeme.length_scan_lt {c : Char} {cs : List Char} {offset : Nat} {lexeme : Lexeme}
    {rest : List Char} (h : Lexeme.scan c cs offset = .ok (lexeme, rest)) :
    rest.length < (c :: cs).length := by
  simp only [Lexeme.scan] at h
  split at h
  · rw [orLexError_eq_ok_iff] at h
    exact Reader.orElse_consumes Reader.countedDice_consumes Reader.number_consumes h
  · split at h <;> rw [orLexError_eq_ok_iff] at h
    · exact Nat.lt_succ_of_lt (Reader.diceOrReference_consumes _ h)
    · exact Nat.lt_succ_of_lt (Reader.diceOrReference_consumes _ h)
    · exact Nat.lt_succ_of_lt (Reader.keep_consumes h)
    · exact Nat.lt_succ_of_lt (Reader.reroll_consumes h)
    · exact Nat.lt_succ_of_lt (Reader.success_consumes h)
    · exact Nat.lt_succ_of_lt (Reader.explode_consumes h)
    · exact Reader.function_consumes h
    · exact Reader.sign_consumes h

/-! ## 3. All tokens -/

/-- Reads tokens up to the end of the text; the first one begins at `offset`. -/
def tokensFrom (offset : Nat) : List Char → Except LexError (List Token)
  | [] => .ok []
  | c :: cs =>
    match h : Lexeme.scan c cs offset with
    | .error e => .error e
    | .ok (lexeme, rest) =>
      match lexeme.check offset with
      | .error e => .error e
      | .ok () => do
        have : rest.length < (c :: cs).length := Lexeme.length_scan_lt h
        let more ← tokensFrom (offset + ((c :: cs).length - rest.length)) rest
        return ⟨lexeme, offset⟩ :: more
termination_by cs => cs.length
decreasing_by exact this

/-- The tokens of a formula.  Offsets count bytes of the text without blanks. -/
def tokenize (text : String) : Except LexError (List Token) := tokensFrom 0 (withoutBlanks text)

end DiceOdds
