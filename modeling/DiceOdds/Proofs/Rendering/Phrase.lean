import DiceOdds.Proofs.Rendering.Spelling

/-!
# Phrases that are cut as they were written

Lexemes that are written one behind the other are cut apart again in the same places, if each of
them means something and is written in front of what may follow it.

## Why no blanks are needed

Nothing separates the lexemes that a tree writes.  Every operand ends before a sign, and begins
with a character that changes no relation in front of it; `Spells` says this of a whole phrase, and
is kept by everything that builds larger phrases from smaller ones.
-/

namespace DiceOdds

/-! ## 1. Checks -/

/-- The ends of the range are in order. -/
def FaceSpec.Ordered (faces : FaceSpec) : Prop := ∀ max ∈ faces.max, faces.min ≤ max

/-- All ranges of the modifier are in order. -/
def ModifierSpec.Ordered : ModifierSpec → Prop
  | reroll faces _ => faces.Ordered
  | success faces again _ => faces.Ordered ∧ ∀ range ∈ again, range.Ordered
  | explode faces _ => faces.Ordered

/-- The lexeme means something: some dice with sides, something kept, faces in every range. -/
def Lexeme.Meaningful : Lexeme → Prop
  | dice d => d.count ≠ 0 ∧ d.sides ≠ 0
  | keep _ count => count ≠ 0
  | modifier spec => spec.Ordered
  | _ => True

theorem FaceSpec.check_eq_ok_iff {faces : FaceSpec} {offset : ℕ} :
    faces.check offset = .ok () ↔ faces.Ordered := by
  unfold check Ordered
  split
  · next max hmax =>
    by_cases h : max < faces.min
    · have hle : ¬ faces.min ≤ max := UInt32.not_le.2 h
      simp [hmax, h, hle]
    · have hle : faces.min ≤ max := UInt32.not_lt.1 h
      simp [hmax, h, hle]
  · next hmax => simp [hmax]

/-- A check asks for a meaning, wherever the lexeme stands. -/
theorem Lexeme.check_eq_ok_iff {x : Lexeme} {offset : ℕ} :
    x.check offset = .ok () ↔ x.Meaningful := by
  cases x with
  | dice d =>
    simp only [check, Meaningful]
    split_ifs <;> simp [*]
  | keep kind count =>
    simp only [check, Meaningful]
    split_ifs <;> simp [*]
  | modifier spec =>
    cases spec with
    | reroll faces limit => exact FaceSpec.check_eq_ok_iff
    | explode faces limit => exact FaceSpec.check_eq_ok_iff
    | success faces again limit =>
      have hbind : (Lexeme.modifier (.success faces again limit)).check offset = .ok ()
          ↔ faces.check offset = .ok () ∧ ∀ range ∈ again, range.check offset = .ok () := by
        simp only [check]
        cases faces.check offset <;> cases again <;> simp [bind, Except.bind]
      rw [hbind]
      exact and_congr FaceSpec.check_eq_ok_iff
        (forall₂_congr fun _ _ => FaceSpec.check_eq_ok_iff)
  | _ => simp [check, Meaningful]

theorem FaceSpec.Ordered.shortened {faces : FaceSpec} (h : faces.Ordered) (highest : UInt32) :
    (faces.shortened highest).Ordered := by
  intro max hmax
  refine h max ?_
  rw [FaceSpec.shortened, DiceOdds.shortened] at hmax
  split at hmax
  · cases hmax
  · exact hmax

theorem ModifierSpec.Ordered.shortened {spec : ModifierSpec} (h : spec.Ordered) (sides : UInt32) :
    (spec.shortened sides).Ordered := by
  cases spec with
  | reroll faces limit => exact FaceSpec.Ordered.shortened h faces.min
  | explode faces limit => exact FaceSpec.Ordered.shortened h sides
  | success faces again limit =>
    obtain ⟨hfaces, hagain⟩ := h
    refine ⟨hfaces.shortened sides, fun range hrange => ?_⟩
    obtain ⟨range', hrange', rfl⟩ := Option.map_eq_some_iff.1 hrange
    exact (hagain range' hrange').shortened sides

/-! ## 2. Texts and the lexemes that are read from them -/

/-- A scanned lexeme that passes its check is the first token. -/
theorem tokensFrom_cons_of_scan {offset : ℕ} {c : Char} {cs rest : List Char} {x : Lexeme}
    {more : List Token} (hscan : Lexeme.scan c cs offset = .ok (x, rest))
    (hcheck : x.check offset = .ok ())
    (hmore : tokensFrom (offset + ((c :: cs).length - rest.length)) rest = .ok more) :
    tokensFrom offset (c :: cs) = .ok (⟨x, offset⟩ :: more) := by
  rw [tokensFrom]
  split
  · next e herror => rw [hscan] at herror; cases herror
  · next x' rest' hscan' =>
    rw [hscan] at hscan'
    cases hscan'
    rw [hcheck]
    exact bind_eq_ok.2 ⟨more, hmore, rfl⟩

/-- The text is cut into these lexemes, at whatever place it stands. -/
def ReadsAs (cs : List Char) (w : List Lexeme) : Prop :=
  ∀ offset, ∃ ts, tokensFrom offset cs = .ok ts ∧ lexemes ts = w

theorem readsAs_nil : ReadsAs [] [] := by
  intro offset
  refine ⟨[], ?_, rfl⟩
  rw [tokensFrom]

/-- One scan after the other. -/
theorem ReadsAs.cons {c : Char} {cs rest : List Char} {x : Lexeme} {w : List Lexeme}
    (hscan : ∀ offset, Lexeme.scan c cs offset = .ok (x, rest)) (hx : x.Meaningful)
    (hrest : ReadsAs rest w) : ReadsAs (c :: cs) (x :: w) := by
  intro offset
  obtain ⟨ts, hts, hw⟩ := hrest (offset + ((c :: cs).length - rest.length))
  refine ⟨⟨x, offset⟩ :: ts, ?_, by rw [lexemes_cons, hw]⟩
  exact tokensFrom_cons_of_scan (hscan offset) (Lexeme.check_eq_ok_iff.2 hx) hts

theorem Writes.readsAs {follow cs rest : List Char} {x : Lexeme} {w : List Lexeme}
    (h : Writes follow cs x) (hx : x.Meaningful) (hbegins : BeginsIn follow rest)
    (hrest : ReadsAs rest w) : ReadsAs (cs ++ rest) (x :: w) := by
  obtain ⟨c, hc, -⟩ := h.begins
  obtain ⟨tail, rfl⟩ : ∃ tail, cs = c :: tail := by
    cases cs with
    | nil => cases hc
    | cons d tail => exact ⟨tail, by rw [Option.some.inj hc]⟩
  exact .cons (fun offset => h.scan c tail rfl rest offset hbegins) hx hrest

theorem ReadsAs.symbol {rest : List Char} {w : List Lexeme} (s : Symbol) (hrest : ReadsAs rest w) :
    ReadsAs (s.char :: rest) (.symbol s :: w) := by
  refine .cons (fun offset => ?_) trivial hrest
  cases s <;> rfl

/-- A sign of one character is not the beginning of a longer one if no equals sign follows. -/
theorem scan_relation (r : Relation) {rest : List Char} (hne : ∀ c ∈ rest.head?, c ≠ '=') {c : Char}
    {tail : List Char} (htext : r.text.toList = c :: tail) (offset : ℕ) :
    Lexeme.scan c (tail ++ rest) offset = .ok (.relation r, rest) := by
  cases rest with
  | nil => cases r <;> cases htext <;> rfl
  | cons d rest =>
    have hd : d ≠ '=' := hne d rfl
    cases r with
    | greaterEqual | lessEqual => cases htext; rfl
    | greater | less | equal =>
      simp only [Relation.text, String.reduceToList, List.cons.injEq] at htext
      obtain ⟨rfl, rfl⟩ := htext
      simp [Lexeme.scan, Reader.sign, orLexError, hd]

/-- A relation must not be followed by an equals sign that would change it. -/
theorem ReadsAs.relation {rest : List Char} {w : List Lexeme} (r : Relation)
    (hne : ∀ c ∈ rest.head?, c ≠ '=') (hrest : ReadsAs rest w) :
    ReadsAs (r.text.toList ++ rest) (.relation r :: w) := by
  cases htext : r.text.toList with
  | nil => cases r <;> cases htext
  | cons c tail => exact .cons (scan_relation r hne htext) trivial hrest

/-! ## 3. Phrases -/

/-- The text of a phrase is cut into these lexemes in front of every sign, and whatever is read
from there on follows them. -/
structure Spells (cs : List Char) (w : List Lexeme) : Prop where
  noBlank : NoBlank cs
  /-- A relation in front of the text keeps its meaning. -/
  begins : ∃ c ∈ cs.head?, c ≠ '='
  reads : ∀ {rest v}, BeginsIn signChars rest → ReadsAs rest v → ReadsAs (cs ++ rest) (w ++ v)

theorem Symbol.char_mem (s : Symbol) : s.char ∈ signChars := by
  cases s <;> decide

theorem Symbol.noBlank (s : Symbol) : isBlank s.char = false := by
  cases s <;> decide

theorem Relation.noBlank (r : Relation) : NoBlank r.text.toList := by
  cases r <;> simp [Relation.text] <;> decide

theorem head?_append_of_mem {cs ds : List Char} (h : ∃ c ∈ cs.head?, c ≠ '=') :
    ∃ c ∈ (cs ++ ds).head?, c ≠ '=' := by
  obtain ⟨c, hc, hne⟩ := h
  exact ⟨c, List.mem_head?_append_of_mem_head? hc, hne⟩

theorem Writes.spells {follow cs : List Char} {x : Lexeme} (h : Writes follow cs x)
    (hx : x.Meaningful) (hfollow : ∀ c ∈ signChars, c ∈ follow) : Spells cs [x] where
  noBlank := h.noBlank
  begins := h.begins
  reads hrest hv := h.readsAs hx (hrest.mono hfollow) hv

/-- A modifier directly behind its dice. -/
theorem spells_modified {d : Dice} {spec : ModifierSpec} (hd : (Lexeme.dice d).Meaningful)
    (hspec : (Lexeme.modifier spec).Meaningful) :
    Spells (d.text.toList ++ spec.text) [.dice d, .modifier spec] where
  noBlank := noBlank_append.2 ⟨d.writes.noBlank, spec.writes.noBlank⟩
  begins := head?_append_of_mem d.writes.begins
  reads {rest v} hrest hv := by
    have hmodifier := spec.writes.readsAs hspec hrest hv
    have hbegins : BeginsIn (modifierChars ++ signChars) (spec.text ++ rest) := by
      cases spec <;> simp [ModifierSpec.text, modifierChars]
    rw [List.append_assoc]
    exact d.writes.readsAs hd hbegins hmodifier

theorem Spells.between {cs ds : List Char} {w v : List Lexeme} (hcs : Spells cs w) (s : Symbol)
    (hds : Spells ds v) : Spells (cs ++ s.char :: ds) (w ++ .symbol s :: v) where
  noBlank := noBlank_append.2 ⟨hcs.noBlank, noBlank_cons.2 ⟨s.noBlank, hds.noBlank⟩⟩
  begins := head?_append_of_mem hcs.begins
  reads {rest v'} hrest hv := by
    have hright := (hds.reads hrest hv).symbol s
    rw [List.append_assoc, List.append_assoc]
    exact hcs.reads (beginsIn_cons.2 s.char_mem) hright

theorem Spells.compare {cs ds : List Char} {w v : List Lexeme} (hcs : Spells cs w) (r : Relation)
    (hds : Spells ds v) : Spells (cs ++ (r.text.toList ++ ds)) (w ++ .relation r :: v) where
  noBlank := noBlank_append.2 ⟨hcs.noBlank, noBlank_append.2 ⟨r.noBlank, hds.noBlank⟩⟩
  begins := head?_append_of_mem hcs.begins
  reads {rest v'} hrest hv := by
    have hne : ∀ c ∈ (ds ++ rest).head?, c ≠ '=' := by
      obtain ⟨c, hc, hne⟩ : ∃ c ∈ (ds ++ rest).head?, c ≠ '=' := head?_append_of_mem hds.begins
      intro d hd
      rw [Option.mem_def.1 hc] at hd
      cases hd
      exact hne
    have hright := (hds.reads hrest hv).relation r hne
    have hbegins : BeginsIn signChars (r.text.toList ++ (ds ++ rest)) := by
      cases r <;> simp [Relation.text, signChars]
    rw [List.append_assoc, List.append_assoc, List.append_assoc]
    exact hcs.reads hbegins hright

theorem Spells.enclosed {cs : List Char} {w : List Lexeme} (hcs : Spells cs w)
    (opening closing : Symbol) :
    Spells (opening.char :: (cs ++ [closing.char]))
      (.symbol opening :: (w ++ [.symbol closing])) where
  noBlank := by simp [opening.noBlank, closing.noBlank, hcs.noBlank]
  begins := ⟨opening.char, rfl, by cases opening <;> decide⟩
  reads {rest v} hrest hv := by
    have hinner := hcs.reads (beginsIn_cons.2 closing.char_mem) (hv.symbol closing)
    have := hinner.symbol opening
    simpa using this

/-- The name of an owner in front of its parentheses. -/
theorem Writes.spells_owner {name cs : List Char} {x : Lexeme} {w : List Lexeme}
    (hname : Writes ['('] name x) (hx : x.Meaningful) (hcs : Spells ('(' :: cs) w) :
    Spells (name ++ '(' :: cs) (x :: w) where
  noBlank := noBlank_append.2 ⟨hname.noBlank, hcs.noBlank⟩
  begins := head?_append_of_mem hname.begins
  reads {rest v} hrest hv := by
    rw [List.append_assoc]
    exact hname.readsAs hx (by simp) (hcs.reads hrest hv)

end DiceOdds
