import DiceOdds.Proofs.Rendering.RoundTrip
import DiceOdds.Proofs.Tokens.Readers

/-!
# Tokens tile the text

The tokens of a text stand one directly behind the other, from its first character to its last.
Each of them can be cut out and read on its own, and where reading fails, everything in front of
that place can be read.

## What carries the induction

`Cuts offset cs ts left` says that the tokens `ts` have been read from the front of `cs`, and that
`left` has not been read yet.  It follows the recursion of `tokensFrom`, but can stop anywhere, so
it speaks of a reading that fails later as well as of one that succeeds.  What has been read can be
read again without what is left (`Cuts.exists_kept`), because every lexeme is read by a steady
reader.
-/

namespace DiceOdds

/-! ## 1. Errors name the place where reading stopped -/

/-- The place of an error, in bytes of the text without blanks. -/
def LexError.offset : LexError → ℕ
  | emptyRange _ _ offset => offset
  | malformedModifier _ offset => offset
  | malformedNumber offset => offset
  | malformedDice _ offset => offset
  | unexpectedCharacter _ offset => offset

theorem FaceSpec.offset_of_check {faces : FaceSpec} {offset : ℕ} {e : LexError}
    (h : faces.check offset = .error e) : e.offset = offset := by
  unfold check at h
  split at h
  · split at h <;> cases h
    rfl
  · cases h

theorem Lexeme.offset_of_check {x : Lexeme} {offset : ℕ} {e : LexError}
    (h : x.check offset = .error e) : e.offset = offset := by
  unfold check at h
  split at h
  · split at h
    · cases h; rfl
    · split at h <;> cases h
      rfl
  · split at h <;> cases h
    rfl
  · exact FaceSpec.offset_of_check h
  · next faces again limit =>
    cases hfaces : faces.check offset with
    | error e' =>
      rw [hfaces] at h
      cases h
      exact FaceSpec.offset_of_check hfaces
    | ok u =>
      rw [hfaces] at h
      dsimp only [bind, Except.bind] at h
      split at h
      · exact FaceSpec.offset_of_check h
      · cases h
  · exact FaceSpec.offset_of_check h
  · cases h

theorem offset_of_orLexError {α : Type} {found : Option α} {e e' : LexError}
    (h : orLexError found e' = .error e) : e.offset = e'.offset := by
  unfold orLexError at h
  split at h
  · cases h
  · cases h; rfl

theorem Lexeme.offset_of_scan {c : Char} {cs : List Char} {offset : ℕ} {e : LexError}
    (h : Lexeme.scan c cs offset = .error e) : e.offset = offset := by
  unfold scan at h
  split at h
  · exact offset_of_orLexError h
  · split at h <;> exact offset_of_orLexError h

/-! ## 2. Readings that stop anywhere -/

/-- These tokens are read from the front of the text, whose first character has this offset, and
the last text is left. -/
inductive Cuts : ℕ → List Char → List Token → List Char → Prop
  | stop (offset : ℕ) (left : List Char) : Cuts offset left [] left
  | next {offset : ℕ} {c : Char} {piece rest left : List Char} {x : Lexeme} {ts : List Token}
      (hscan : Lexeme.scan c (piece ++ rest) offset = .ok (x, rest)) (hx : x.Meaningful)
      (hmore : Cuts (offset + (c :: piece).length) rest ts left) :
      Cuts offset (c :: (piece ++ rest)) (⟨x, offset⟩ :: ts) left

theorem tokensFrom_nil (offset : ℕ) : tokensFrom offset [] = .ok [] := by
  rw [tokensFrom]

/-- What is left of the text behind its first lexeme is read at the place where it stands. -/
theorem length_piece (c : Char) (piece rest : List Char) :
    (c :: (piece ++ rest)).length - rest.length = (c :: piece).length := by
  simp only [List.length_cons, List.length_append]
  omega

/-- A reading that leaves nothing gives all the tokens. -/
theorem Cuts.tokensFrom_eq {offset : ℕ} {cs : List Char} {ts : List Token}
    (h : Cuts offset cs ts []) : tokensFrom offset cs = .ok ts := by
  generalize hleft : ([] : List Char) = left at h
  induction h with
  | stop offset left => rw [← hleft, tokensFrom_nil]
  | next hscan hx hmore ih =>
    refine tokensFrom_cons_of_scan hscan (Lexeme.check_eq_ok_iff.2 hx) ?_
    rw [length_piece]
    exact ih hleft

/-- **Reading a text.**  It either leaves nothing, or stops in front of the place that the error
names. -/
theorem cuts_tokensFrom (offset : ℕ) (cs : List Char) :
    (∀ ts, tokensFrom offset cs = .ok ts → Cuts offset cs ts [])
      ∧ ∀ e, tokensFrom offset cs = .error e →
        ∃ ts left, Cuts offset cs ts left ∧ left ≠ []
          ∧ e.offset + left.length = offset + cs.length := by
  induction hn : cs.length using Nat.strong_induction_on generalizing offset cs with
  | _ n ih =>
    cases cs with
    | nil =>
      rw [tokensFrom_nil]
      refine ⟨fun ts h => ?_, fun e h => (by cases h)⟩
      cases h
      exact .stop offset []
    | cons c cs =>
      rw [tokensFrom]
      split
      · next e hscan =>
        refine ⟨fun ts h => (by cases h), fun e' h => ?_⟩
        cases h
        exact ⟨[], _, .stop offset _, List.cons_ne_nil c cs,
          by rw [Lexeme.offset_of_scan hscan, hn]⟩
      · next x rest hscan =>
        split
        · next e hcheck =>
          refine ⟨fun ts h => (by cases h), fun e' h => ?_⟩
          cases h
          exact ⟨[], _, .stop offset _, List.cons_ne_nil c cs,
            by rw [Lexeme.offset_of_check hcheck, hn]⟩
        · next hcheck =>
          have hx := Lexeme.check_eq_ok_iff.1 hcheck
          have hlt := Lexeme.length_scan_lt hscan
          obtain ⟨piece, rfl, -, -⟩ := Lexeme.exists_piece hscan
          obtain ⟨hok, herror⟩ := ih rest.length (hn ▸ hlt) (offset + (c :: piece).length) rest rfl
          rw [length_piece]
          constructor
          · intro ts h
            obtain ⟨more, hmore, h⟩ := bind_eq_ok.1 h
            rw [← pure_eq_ok.1 h]
            exact .next hscan hx (hok more hmore)
          · intro e h
            cases hmore : tokensFrom (offset + (c :: piece).length) rest with
            | ok more => rw [hmore] at h; cases h
            | error e' =>
              rw [hmore] at h
              cases h
              obtain ⟨ts, left, hcuts, hne, hoffset⟩ := herror e hmore
              refine ⟨_, left, .next hscan hx hcuts, hne, ?_⟩
              simp only [List.length_cons, List.length_append] at hoffset hn ⊢
              omega

/-- **What has been read is read again without what is left.** -/
theorem Cuts.exists_kept {offset : ℕ} {cs left : List Char} {ts : List Token}
    (h : Cuts offset cs ts left) :
    ∃ kept, cs = kept ++ left ∧ CleanCut kept left ∧ (∀ c ∈ kept, c.utf8Size = 1)
      ∧ Cuts offset kept ts [] := by
  induction h with
  | stop offset left => exact ⟨[], rfl, cleanCut_nil left, by simp, .stop offset []⟩
  | @next offset c piece rest left x ts hscan hx hmore ih =>
    obtain ⟨kept, rfl, hcut, hsize, hkept⟩ := ih
    obtain ⟨piece', hpiece', hcut', hsize'⟩ := Lexeme.exists_piece hscan
    obtain rfl := List.append_cancel_right hpiece'
    have hwhole : CleanCut (c :: piece ++ kept) left :=
      .append (fun hnil => by rwa [hnil, List.nil_append] at hcut') hcut
    refine ⟨c :: (piece ++ kept), by simp, hwhole, fun d hd => ?_, .next ?_ hx hkept⟩
    · exact (List.mem_append.1 (List.cons_append ▸ hd)).elim (hsize' d) (hsize d)
    · rw [← List.append_assoc] at hscan
      exact Lexeme.scan_truncate hwhole hscan offset

/-! ## 3. Where the tokens stand -/

/-- The place where the token with number `i` stops: where the next one begins, or else the end of
the text. -/
def stopOf (ts : List Token) (i stop : ℕ) : ℕ := (ts[i + 1]?.map Token.offset).getD stop

/-- The first token begins where the text begins. -/
theorem Cuts.head {offset : ℕ} {cs : List Char} {ts : List Token} (h : Cuts offset cs ts []) :
    (ts[0]?.map Token.offset).getD (offset + cs.length) = offset := by
  cases h with
  | stop => rfl
  | next => rfl

theorem Cuts.le_offset {offset : ℕ} {cs left : List Char} {ts : List Token}
    (h : Cuts offset cs ts left) : ∀ t ∈ ts, offset ≤ t.offset := by
  induction h with
  | stop => simp
  | next hscan hx hmore ih =>
    intro t ht
    rcases List.mem_cons.1 ht with rfl | ht
    · exact le_rfl
    · exact le_of_add_le_left (ih t ht)

theorem Cuts.increasing {offset : ℕ} {cs left : List Char} {ts : List Token}
    (h : Cuts offset cs ts left) : ts.Pairwise fun s t => s.offset < t.offset := by
  induction h with
  | stop => exact .nil
  | @next offset c piece rest left x ts hscan hx hmore ih =>
    refine .cons (fun t ht => ?_) ih
    have hle := hmore.le_offset t ht
    have hpos : 0 < (c :: piece).length := Nat.succ_pos _
    exact (Nat.lt_add_of_pos_right hpos).trans_le hle

theorem Cuts.meaningful {offset : ℕ} {cs left : List Char} {ts : List Token}
    (h : Cuts offset cs ts left) : ∀ t ∈ ts, t.lexeme.Meaningful := by
  induction h with
  | stop => simp
  | next hscan hx hmore ih =>
    intro t ht
    rcases List.mem_cons.1 ht with rfl | ht
    · exact hx
    · exact ih t ht

/-- **Every token can be read on its own** from the piece of text in front of the next one. -/
theorem Cuts.exists_slice {offset : ℕ} {cs : List Char} {ts : List Token} (h : Cuts offset cs ts [])
    (i : ℕ) (hi : i < ts.length) :
    ∃ before piece after, cs = before ++ piece ++ after
      ∧ offset + before.length = ts[i].offset
      ∧ offset + (before ++ piece).length = stopOf ts i (offset + cs.length)
      ∧ tokensFrom 0 piece = .ok [⟨ts[i].lexeme, 0⟩] := by
  generalize hleft : ([] : List Char) = left at h
  induction h generalizing i with
  | stop => exact absurd hi (Nat.not_lt_zero i)
  | @next offset c piece rest left x ts hscan hx hmore ih =>
    subst hleft
    have hend : offset + (c :: piece).length + rest.length
        = offset + (c :: (piece ++ rest)).length := by
      simp only [List.length_cons, List.length_append]
      omega
    cases i with
    | zero =>
      refine ⟨[], c :: piece, rest, rfl, rfl, ?_, ?_⟩
      · have := hmore.head
        rw [hend] at this
        exact this.symm
      · obtain ⟨piece', hpiece', hcut, -⟩ := Lexeme.exists_piece hscan
        obtain rfl := List.append_cancel_right hpiece'
        rw [← List.nil_append rest] at hscan
        have halone := Lexeme.scan_truncate hcut hscan 0
        exact tokensFrom_cons_of_scan halone (Lexeme.check_eq_ok_iff.2 hx) (tokensFrom_nil _)
    | succ i =>
      obtain ⟨before, piece', after, hrest, hstart, hstop, halone⟩ :=
        ih i (Nat.lt_of_succ_lt_succ hi) rfl
      refine ⟨c :: piece ++ before, piece', after, by simp [hrest], ?_, ?_, halone⟩
      · rw [List.length_append, ← add_assoc]
        exact hstart
      · rw [hend] at hstop
        rw [List.append_assoc, List.length_append, ← add_assoc]
        exact hstop

/-! ## 4. Slices of a text -/

/-- The text of a formula as it is read. -/
def textWithoutBlanks (text : String) : String := String.ofList (withoutBlanks text)

/-- The tokens cover the text, and each of them is what its own slice of the text is read as. -/
structure Tiles (t : String) (ts : List Token) : Prop where
  starts : t ≠ "" → ts.head?.map Token.offset = some 0
  increasing : ts.Pairwise fun x y => x.offset < y.offset
  isValid : ∀ x ∈ ts, String.Pos.Raw.IsValid t ⟨x.offset⟩
  alone : ∀ i (_ : i < ts.length),
    tokenize (String.Pos.Raw.extract t ⟨ts[i].offset⟩ ⟨stopOf ts i t.utf8ByteSize⟩)
      = .ok [⟨ts[i].lexeme, 0⟩]
  meaningful : ∀ x ∈ ts, x.lexeme.Meaningful

/-- The text cannot be read from this place on, which lies between two of its characters, and can
be read up to it. -/
structure FailsAt (t : String) (offset : ℕ) : Prop where
  isValid : String.Pos.Raw.IsValid t ⟨offset⟩
  lt_size : offset < t.utf8ByteSize
  readable : ∃ ts, tokenize (String.Pos.Raw.extract t ⟨0⟩ ⟨offset⟩) = .ok ts

theorem noBlank_withoutBlanks (text : String) : NoBlank (withoutBlanks text) := by
  intro c hc
  simpa using (List.mem_filter.1 hc).2

/-- A piece of a text without blanks is read as it is. -/
theorem tokenize_ofList {cs : List Char} (h : NoBlank cs) :
    tokenize (String.ofList cs) = tokensFrom 0 cs := by
  have hcs : withoutBlanks (String.ofList cs) = cs := by
    rw [withoutBlanks, String.toList_ofList, List.filter_eq_self]
    intro c hc
    rw [h c hc]
    rfl
  rw [tokenize, hcs]

/-- Characters of one byte each are counted by their number. -/
theorem utf8Len_eq_length {cs : List Char} (h : ∀ c ∈ cs, c.utf8Size = 1) :
    String.utf8Len cs = cs.length := by
  induction cs with
  | nil => rfl
  | cons c cs ih =>
    rw [String.utf8Len_cons, h c (.head _), ih fun d hd => h d (.tail _ hd), List.length_cons]

theorem isValid_ofList_append (cs ds : List Char) :
    String.Pos.Raw.IsValid (String.ofList (cs ++ ds)) ⟨String.utf8Len cs⟩ := by
  rw [String.Pos.Raw.isValid_iff_exists_append]
  exact ⟨String.ofList cs, String.ofList ds, String.ofList_append, (String.rawEndPos_ofList cs).symm⟩

theorem Cuts.tiles {cs : List Char} {ts : List Token} (h : Cuts 0 cs ts []) (hcs : NoBlank cs) :
    Tiles (String.ofList cs) ts := by
  have hsize : ∀ c ∈ cs, c.utf8Size = 1 := by
    obtain ⟨kept, hkept, -, hsize, -⟩ := h.exists_kept
    rw [List.append_nil] at hkept
    rwa [hkept]
  have hlength : (String.ofList cs).utf8ByteSize = 0 + cs.length := by
    rw [String.utf8ByteSize_ofList, utf8Len_eq_length hsize, zero_add]
  have hslice : ∀ i (hi : i < ts.length), ∃ before piece after, cs = before ++ piece ++ after
      ∧ String.utf8Len before = ts[i].offset
      ∧ String.utf8Len before + String.utf8Len piece = stopOf ts i (0 + cs.length)
      ∧ tokensFrom 0 piece = .ok [⟨ts[i].lexeme, 0⟩] := by
    intro i hi
    obtain ⟨before, piece, after, rfl, hstart, hstop, halone⟩ := h.exists_slice i hi
    have hbefore : String.utf8Len before = before.length :=
      utf8Len_eq_length fun c hc => hsize c (by simp [hc])
    have hpiece : String.utf8Len piece = piece.length :=
      utf8Len_eq_length fun c hc => hsize c (by simp [hc])
    refine ⟨before, piece, after, rfl, ?_, ?_, halone⟩
    · rw [hbefore, ← hstart, zero_add]
    · rw [hbefore, hpiece, ← hstop, List.length_append, zero_add]
  refine ⟨fun hne => ?_, h.increasing, fun x hx => ?_, fun i hi => ?_, h.meaningful⟩
  · cases h with
    | stop => exact absurd String.ofList_nil hne
    | next => rfl
  · obtain ⟨i, hi, rfl⟩ := List.mem_iff_getElem.1 hx
    obtain ⟨before, piece, after, rfl, hstart, -, -⟩ := hslice i hi
    rw [← hstart, List.append_assoc]
    exact isValid_ofList_append before (piece ++ after)
  · obtain ⟨before, piece, after, heq, hstart, hstop, halone⟩ := hslice i hi
    have hpiece : NoBlank piece := by
      rw [heq, noBlank_append, noBlank_append] at hcs
      exact hcs.1.2
    rw [hlength, ← hstart, ← hstop, heq, String.extract_of_valid, tokenize_ofList hpiece, halone]

theorem Cuts.failsAt {cs left : List Char} {ts : List Token} (h : Cuts 0 cs ts left)
    (hcs : NoBlank cs) (hleft : left ≠ []) {offset : ℕ}
    (hoffset : offset + left.length = 0 + cs.length) : FailsAt (String.ofList cs) offset := by
  obtain ⟨kept, rfl, -, hsize, hkept⟩ := h.exists_kept
  obtain rfl : offset = String.utf8Len kept := by
    rw [utf8Len_eq_length hsize]
    rw [List.length_append] at hoffset
    omega
  refine ⟨isValid_ofList_append kept left, ?_, ts, ?_⟩
  · rw [String.utf8ByteSize_ofList, String.utf8Len_append]
    exact Nat.lt_add_of_pos_right (Nat.pos_of_ne_zero fun h => hleft (String.utf8Len_eq_zero.1 h))
  · have hextract := String.extract_of_valid [] kept left
    rw [String.utf8Len_nil, zero_add, List.nil_append] at hextract
    rw [hextract, tokenize_ofList (noBlank_append.1 hcs).1, hkept.tokensFrom_eq]

/-- **The tokens of a text tile it.**  Their offsets start at `0` and increase, every slice between
two offsets is read on its own as the one token that stands there, and all tokens mean something.
A text that cannot be read fails between two of its characters, and everything in front of that
place can be read. -/
theorem tokenize_tiles (text : String) :
    (∀ ts, tokenize text = .ok ts → Tiles (textWithoutBlanks text) ts)
      ∧ ∀ e, tokenize text = .error e → FailsAt (textWithoutBlanks text) e.offset := by
  obtain ⟨hok, herror⟩ := cuts_tokensFrom 0 (withoutBlanks text)
  refine ⟨fun ts hts => (hok ts hts).tiles (noBlank_withoutBlanks text), fun e he => ?_⟩
  obtain ⟨ts, left, hcuts, hleft, hoffset⟩ := herror e he
  exact hcuts.failsAt (noBlank_withoutBlanks text) hleft hoffset

/-- A reroll whose limit is too large for a number is read without it, and so the text fails behind
it. -/
theorem tokenize_tiles_blanksAndLargeLimit :
    Tiles (textWithoutBlanks "2D6 r1~2e3 >=\u00a0kh")
        [⟨.dice ⟨2, 6, true⟩, 0⟩, ⟨.modifier (.reroll ⟨1, some 2⟩ (some 3)), 3⟩,
          ⟨.relation .greaterEqual, 9⟩, ⟨.keep .highest 1, 11⟩]
      ∧ FailsAt (textWithoutBlanks "r1 e99999999999") 2 := by
  refine ⟨(tokenize_tiles _).1 _ ?_, (tokenize_tiles _).2 (.malformedModifier .explode 2) ?_⟩
  · cbv
  · cbv

end DiceOdds
