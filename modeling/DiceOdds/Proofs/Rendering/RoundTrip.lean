import DiceOdds.Proofs.Reuse.Numbering
import DiceOdds.Proofs.Rendering.Phrase

/-!
# A tree that is written is read back

The text of a formula's tree is accepted again, and gives the same formula.

## Why the words may differ

Writing a tree drops what would be assumed anyway, so the lexemes of the new text need not be those
of the old one: `d6r1~1` is written `d6r1`.  They derive the same tree, though, and the grammar has
at most one tree for a word.  Everything here therefore follows one derivation, and replaces its
words from the inside out: `Derives.exists_spelled`.
-/

namespace DiceOdds

/-! ## 1. Trees -/

theorem Node.textAll_cons_cons (separator : String) (node second : Node) (rest : List Node) :
    textAll separator (node :: second :: rest)
      = node.text ++ separator ++ textAll separator (second :: rest) := by
  rw [textAll]
  simp

/-- Phrases with a separator between them. -/
theorem spells_textAll (s : Symbol) (first : List Lexeme × Node)
    {parts : List (List Lexeme × Node)} (hfirst : Spells first.2.text.toList first.1)
    (hparts : ∀ part ∈ parts, Spells part.2.text.toList part.1) :
    Spells (Node.textAll s.char.toString (first.2 :: parts.map (·.2))).toList
      (first.1 ++ separated s parts) := by
  induction parts generalizing first with
  | nil => simpa [Node.textAll, separated] using hfirst
  | cons second parts ih =>
    have hrest := ih second (hparts second List.mem_cons_self)
      fun part hpart => hparts part (List.mem_cons_of_mem _ hpart)
    have htext : (Node.textAll s.char.toString (first.2 :: (second :: parts).map (·.2))).toList
        = first.2.text.toList
          ++ s.char :: (Node.textAll s.char.toString (second.2 :: parts.map (·.2))).toList := by
      simp [Node.textAll_cons_cons]
    rw [htext]
    exact hfirst.between s hrest

/-- Words for the trees of a list, one by one. -/
theorem exists_parts {P : List Lexeme → Node → Prop} {parts : List (List Lexeme × Node)}
    (h : ∀ part ∈ parts, ∃ w, P w part.2) :
    ∃ parts' : List (List Lexeme × Node), parts'.map (·.2) = parts.map (·.2)
      ∧ ∀ part ∈ parts', P part.1 part.2 := by
  induction parts with
  | nil => exact ⟨[], rfl, by simp⟩
  | cons part parts ih =>
    obtain ⟨w, hw⟩ := h part List.mem_cons_self
    obtain ⟨parts', hmap, hparts'⟩ := ih fun part hpart => h part (List.mem_cons_of_mem _ hpart)
    refine ⟨(w, part.2) :: parts', by rw [List.map_cons, List.map_cons, hmap], ?_⟩
    intro part' hpart'
    rcases List.mem_cons.1 hpart' with rfl | hpart'
    · exact hw
    · exact hparts' part' hpart'

/-- An operator is written as the symbol that it was read from. -/
theorem Multiplies.eq_symbol {x : Lexeme} {operation : Operation} (h : Multiplies x operation) :
    ∃ s : Symbol, x = .symbol s ∧ operation.text = s.char.toString := by
  cases h with
  | star => exact ⟨.star, rfl, rfl⟩
  | slash => exact ⟨.slash, rfl, rfl⟩

theorem Adds.eq_symbol {x : Lexeme} {operation : Operation} (h : Adds x operation) :
    ∃ s : Symbol, x = .symbol s ∧ operation.text = s.char.toString := by
  cases h with
  | plus => exact ⟨.plus, rfl, rfl⟩
  | minus => exact ⟨.minus, rfl, rfl⟩

/-- A tree is derived from the lexemes that its text is cut into. -/
theorem Derives.exists_spelled {l : Level} {w : List Lexeme} {a : Node} (h : Derives l w a)
    (hw : ∀ x ∈ w, x.Meaningful)
    (hnumbers : ∀ x, .number x ∈ a.subterms → Decimal.ReadsBack x) :
    ∃ w', Derives l w' a ∧ Spells a.text.toList w' := by
  induction h with
  | number value =>
    have hvalue := hnumbers value (by simp [Node.subterms])
    exact ⟨_, .number value, hvalue.writes.spells trivial fun _ h => h⟩
  | dice d =>
    refine ⟨_, .dice d, ?_⟩
    have htext : (Node.dice d none none).text.toList = d.text.toList := by simp [Node.text]
    rw [htext]
    exact d.writes.spells (hw _ (by simp)) fun c hc => List.mem_append_right _ hc
  | reference id critical =>
    exact ⟨_, .reference id critical, (writes_reference id critical).spells trivial fun _ h => h⟩
  | @modified d spec m hm =>
    obtain rfl := ModifierSpec.modifies_iff.1 hm
    have hshort : Modifies d.sides (spec.shortened d.sides) (spec.modifier d.sides) :=
      ModifierSpec.modifies_iff.2 (spec.modifier_shortened d.sides)
    refine ⟨_, .modified d hshort, ?_⟩
    have htext : (Node.dice d none (some (spec.modifier d.sides))).text.toList
        = d.text.toList ++ (spec.shortened d.sides).text := by
      simp [Node.text, spec.text_modifier]
    rw [htext]
    have hspec : spec.Ordered := hw (.modifier spec) (by simp)
    exact spells_modified (hw _ (by simp)) (hspec.shortened d.sides)
  | ofAtom _ ih =>
    obtain ⟨w', hd, hs⟩ := ih hw hnumbers
    exact ⟨w', .ofAtom hd, hs⟩
  | ofFactor _ ih =>
    obtain ⟨w', hd, hs⟩ := ih hw hnumbers
    exact ⟨w', .ofFactor hd, hs⟩
  | ofMultiplicative _ ih =>
    obtain ⟨w', hd, hs⟩ := ih hw hnumbers
    exact ⟨w', .ofMultiplicative hd, hs⟩
  | ofAdditive _ ih =>
    obtain ⟨w', hd, hs⟩ := ih hw hnumbers
    exact ⟨w', .ofAdditive hd, hs⟩
  | ofComparison _ ih =>
    obtain ⟨w', hd, hs⟩ := ih hw hnumbers
    exact ⟨w', .ofComparison hd, hs⟩
  | group _ ih =>
    obtain ⟨w', hd, hs⟩ := ih (fun x hx => hw x (by simp [hx]))
      fun x hx => hnumbers x (by simp [Node.subterms, hx])
    refine ⟨_, .group hd, ?_⟩
    simpa [Node.text, Symbol.char] using hs.enclosed .leftParen .rightParen
  | double _ ih =>
    obtain ⟨w', hd, hs⟩ := ih (fun x hx => hw x (by simp [hx]))
      fun x hx => hnumbers x (by simp [Node.subterms, hx])
    refine ⟨_, .double hd, ?_⟩
    simpa [Node.text, Symbol.char] using hs.enclosed .hash .hash
  | only _ ih =>
    obtain ⟨w', hd, hs⟩ := ih (fun x hx => hw x (by simp [hx]))
      fun x hx => hnumbers x (by simp [Node.subterms, hx])
    refine ⟨_, .only hd, ?_⟩
    simpa [Node.text, Symbol.char] using hs.enclosed .leftBracket .rightBracket
  | switch _ _ iha ihb =>
    obtain ⟨u', hda, hsa⟩ := iha (fun x hx => hw x (by simp [hx]))
      fun x hx => hnumbers x (by simp [Node.subterms, hx])
    obtain ⟨v', hdb, hsb⟩ := ihb (fun x hx => hw x (by simp [hx]))
      fun x hx => hnumbers x (by simp [Node.subterms, hx])
    refine ⟨_, .switch hda hdb, ?_⟩
    simpa [Node.text, Symbol.char] using (hsa.between .pipe hsb).enclosed .pipe .pipe
  | function name _ _ iha ihb =>
    obtain ⟨u', hda, hsa⟩ := iha (fun x hx => hw x (by simp [hx]))
      fun x hx => hnumbers x (by simp [Node.subterms, Node.subtermsAll, hx])
    obtain ⟨v', hdb, hsb⟩ := ihb (fun x hx => hw x (by simp [hx]))
      fun x hx => hnumbers x (by simp [Node.subterms, Node.subtermsAll, hx])
    refine ⟨_, .function name hda hdb, ?_⟩
    have hitems := (hsa.between .comma hsb).enclosed .leftParen .rightParen
    have := name.writes.spells_owner trivial hitems
    simpa [Node.text, Node.textAll, Symbol.char] using this
  | @keep kind count u a parts _ _ iha ihparts =>
    obtain ⟨u', hd, hs⟩ := iha (fun x hx => hw x (by simp [hx]))
      fun x hx => hnumbers x (by simp [Node.subterms, Node.subtermsAll, hx])
    have hwords : ∀ part ∈ parts, ∃ w', Derives .conditional w' part.2
        ∧ Spells part.2.text.toList w' := by
      intro part hpart
      refine ihparts part hpart (fun x hx => hw x ?_) fun x hx => hnumbers x ?_
      · have hmem : x ∈ separated .semicolon parts :=
          List.mem_flatMap.2 ⟨part, hpart, List.mem_cons_of_mem _ hx⟩
        simp [hmem]
      · have hmem : .number x ∈ Node.subtermsAll (parts.map (·.2)) :=
          Node.mem_subtermsAll.2 ⟨part.2, List.mem_map_of_mem hpart, hx⟩
        simp [Node.subterms, Node.subtermsAll, hmem]
    obtain ⟨parts', hmap, hparts'⟩ :=
      exists_parts (P := fun w b => Derives .conditional w b ∧ Spells b.text.toList w) hwords
    rw [← hmap]
    refine ⟨_, .keep kind count hd fun part hpart => (hparts' part hpart).1, ?_⟩
    have hitems := (spells_textAll .semicolon (u', a) hs
      fun part hpart => (hparts' part hpart).2).enclosed .leftParen .rightParen
    have hcount : (Lexeme.keep kind count).Meaningful := hw _ (by simp)
    have := (writes_keep kind count).spells_owner hcount hitems
    simpa [Node.text, Symbol.char] using this
  | product _ hx _ iha ihb =>
    obtain ⟨u', hda, hsa⟩ := iha (fun x hx => hw x (by simp [hx]))
      fun x hx => hnumbers x (by simp [Node.subterms, hx])
    obtain ⟨v', hdb, hsb⟩ := ihb (fun x hx => hw x (by simp [hx]))
      fun x hx => hnumbers x (by simp [Node.subterms, hx])
    obtain ⟨s, rfl, htext⟩ := hx.eq_symbol
    refine ⟨_, .product hda hx hdb, ?_⟩
    simpa [Node.text, htext] using hsa.between s hsb
  | sum _ hx _ iha ihb =>
    obtain ⟨u', hda, hsa⟩ := iha (fun x hx => hw x (by simp [hx]))
      fun x hx => hnumbers x (by simp [Node.subterms, hx])
    obtain ⟨v', hdb, hsb⟩ := ihb (fun x hx => hw x (by simp [hx]))
      fun x hx => hnumbers x (by simp [Node.subterms, hx])
    obtain ⟨s, rfl, htext⟩ := hx.eq_symbol
    refine ⟨_, .sum hda hx hdb, ?_⟩
    simpa [Node.text, htext] using hsa.between s hsb
  | comparison relation _ _ iha ihb =>
    obtain ⟨u', hda, hsa⟩ := iha (fun x hx => hw x (by simp [hx]))
      fun x hx => hnumbers x (by simp [Node.subterms, hx])
    obtain ⟨v', hdb, hsb⟩ := ihb (fun x hx => hw x (by simp [hx]))
      fun x hx => hnumbers x (by simp [Node.subterms, hx])
    refine ⟨_, .comparison relation hda hdb, ?_⟩
    simpa [Node.text, Symbol.char] using hsa.compare relation hsb
  | conditional _ hcond _ _ ihc iha ihb =>
    obtain ⟨u', hdc, hsc⟩ := ihc (fun x hx => hw x (by simp [hx]))
      fun x hx => hnumbers x (by simp [Node.subterms, hx])
    obtain ⟨v', hda, hsa⟩ := iha (fun x hx => hw x (by simp [hx]))
      fun x hx => hnumbers x (by simp [Node.subterms, hx])
    obtain ⟨w', hdb, hsb⟩ := ihb (fun x hx => hw x (by simp [hx]))
      fun x hx => hnumbers x (by simp [Node.subterms, hx])
    refine ⟨_, .conditional hdc hcond hda hdb, ?_⟩
    simpa [Node.text, Symbol.char] using hsc.between .question (hsa.between .colon hsb)

/-! ## 2. Ids are not written -/

namespace Node

mutual

theorem text_withoutIds : ∀ node : Node, node.withoutIds.text = node.text
  | number _ => rfl
  | dice _ _ _ => by rw [withoutIds, text, text]
  | reference _ _ => rfl
  | keep _ _ items => by rw [withoutIds, text, text, textAll_withoutIdsAll ";" items]
  | comparison _ left right => by
    rw [withoutIds, text, text, text_withoutIds left, text_withoutIds right]
  | conditional condition ifTrue ifFalse => by
    rw [withoutIds, text, text, text_withoutIds condition, text_withoutIds ifTrue,
      text_withoutIds ifFalse]
  | binary _ left right => by
    rw [withoutIds, text, text, text_withoutIds left, text_withoutIds right]
  | double inner => by rw [withoutIds, text, text, text_withoutIds inner]
  | switch normal critical => by
    rw [withoutIds, text, text, text_withoutIds normal, text_withoutIds critical]
  | only inner => by rw [withoutIds, text, text, text_withoutIds inner]
  | function _ args => by rw [withoutIds, text, text, textAll_withoutIdsAll "," args]
  | group inner => by rw [withoutIds, text, text, text_withoutIds inner]

theorem textAll_withoutIdsAll (separator : String) : ∀ nodes : List Node,
    textAll separator (withoutIdsAll nodes) = textAll separator nodes
  | [] => rfl
  | [node] => by
    rw [withoutIdsAll, withoutIdsAll, textAll, textAll, text_withoutIds node]
  | node :: second :: rest => by
    have hrest := textAll_withoutIdsAll separator (second :: rest)
    rw [withoutIdsAll] at hrest
    rw [withoutIdsAll, withoutIdsAll, textAll_cons_cons, textAll_cons_cons, text_withoutIds node,
      hrest]

end

theorem number_mem_withoutIds {node : Node} {x : Float} :
    number x ∈ node.withoutIds.subterms ↔ number x ∈ node.subterms := by
  rw [subterms_withoutIds, List.mem_map]
  constructor
  · rintro ⟨n, hn, hx⟩
    cases n <;> rw [withoutIds] at hx <;> cases hx
    exact hn
  · exact fun h => ⟨number x, h, rfl⟩

end Node

/-! ## 3. Whole formulas -/

/-- The formula of a text: its tokens, their tree, and the numbering of that tree. -/
theorem Formula.ofText_eq_ok_iff {text : String} {f : Formula} :
    ofText text = .ok f ↔ ∃ ts root, tokenize text = .ok ts ∧ Node.ofTokens ts = .ok root
      ∧ f = ofNode root := by
  unfold ofText ofTokens
  constructor
  · intro h
    split at h
    · cases h
    · next ts hts =>
      cases hroot : Node.ofTokens ts with
      | error e => rw [hroot] at h; cases h
      | ok root =>
        rw [hroot] at h
        cases h
        exact ⟨ts, root, hts, hroot, rfl⟩
  · rintro ⟨ts, root, hts, hroot, rfl⟩
    simp [hts, hroot, Except.map]

/-- A text without blanks is tokenized as it stands. -/
theorem Spells.tokenize {text : String} {w : List Lexeme} (h : Spells text.toList w) :
    ∃ ts, DiceOdds.tokenize text = .ok ts ∧ lexemes ts = w := by
  have hblank : withoutBlanks text = text.toList := by
    rw [withoutBlanks, List.filter_eq_self]
    exact fun c hc => by rw [h.noBlank c hc]; rfl
  have hreads := h.reads (beginsIn_nil signChars) readsAs_nil 0
  rw [List.append_nil, List.append_nil] at hreads
  rw [DiceOdds.tokenize, hblank]
  exact hreads

/-- **A formula that is written is read back.**  Where numbers are finite and finite numbers are
read back from their own texts, the text of a formula's tree gives the same tree with the same ids,
and the same registry; so writing the tree again gives the same text. -/
theorem Formula.ofText_text {text : String} {f : Formula} (h : ofText text = .ok f)
    (hfinite : ∀ x, .number x ∈ f.root.subterms → x.isFinite = true)
    (hdecimal : ∀ x, .number x ∈ f.root.subterms → x.isFinite = true → Decimal.ReadsBack x) :
    ofText f.root.text = .ok f
      ∧ (ofText f.root.text).map (·.root.text) = .ok f.root.text := by
  obtain ⟨ts, root, hts, hroot, rfl⟩ := ofText_eq_ok_iff.1 h
  have hderives := Node.ofTokens_eq_ok_iff.1 hroot
  have hforget : (ofNode root).root.withoutIds = root := by
    rw [withoutIds_ofNode, hderives.withoutIds_eq]
  have htext : (ofNode root).root.text = root.text := by
    rw [← Node.text_withoutIds, hforget]
  have hmeaning : ∀ x ∈ lexemes ts, x.Meaningful := by
    intro x hx
    obtain ⟨t, ht, rfl⟩ := List.mem_map.1 hx
    exact Lexeme.check_eq_ok_iff.1 (check_of_mem_tokensFrom hts t ht)
  have hnumbers : ∀ x, .number x ∈ root.subterms → Decimal.ReadsBack x := by
    intro x hx
    have hmem : .number x ∈ (ofNode root).root.subterms := by
      rw [← Node.number_mem_withoutIds, hforget]
      exact hx
    exact hdecimal x hmem (hfinite x hmem)
  obtain ⟨w, hw, hspells⟩ := hderives.exists_spelled hmeaning hnumbers
  obtain ⟨ts', hts', rfl⟩ := hspells.tokenize
  have hagain : ofText root.text = .ok (ofNode root) :=
    ofText_eq_ok_iff.2 ⟨ts', root, hts', Node.ofTokens_eq_ok_iff.2 hw, rfl⟩
  rw [htext, hagain]
  exact ⟨rfl, congrArg Except.ok htext⟩

/-- `1d6r1~1 * 2.50 >= d_1`: a count, the end of a range and a digit that are not written again. -/
def longWritten : Formula where
  root := .comparison .greaterEqual
    (.binary .mul (.dice ⟨1, 6, false⟩ (some 1) (some (.reroll ⟨1, 1⟩ 1))) (.number 2.5))
    (.reference 1 false)
  registry := [⟨1, 6, false⟩]

set_option maxRecDepth 4000 in
theorem ofText_longWritten : Formula.ofText "1d6r1~1 * 2.50 >= d_1" = .ok longWritten := by
  have htokens : tokenize "1d6r1~1 * 2.50 >= d_1" = .ok [⟨.dice ⟨1, 6, false⟩, 0⟩,
      ⟨.modifier (.reroll ⟨1, some 1⟩ none), 3⟩, ⟨.symbol .star, 7⟩, ⟨.number 2.5, 8⟩,
      ⟨.relation .greaterEqual, 12⟩, ⟨.reference 1 false, 14⟩] := by decide +kernel
  rw [Formula.ofText, htokens]
  rfl

set_option maxRecDepth 4000 in
theorem ofText_text_longWritten :
    longWritten.root.text = "d6r1*2.5>=d_1"
      ∧ Formula.ofText "d6r1*2.5>=d_1" = .ok longWritten := by
  have hwritten : longWritten.root.text = "d6r1*2.5>=d_1" := by decide +kernel
  have hnumber : ∀ x, .number x ∈ longWritten.root.subterms → x = 2.5 := by
    intro x hx
    simpa [longWritten, Node.subterms] using hx
  have hfinite : Float.isFinite 2.5 = true := by decide +kernel
  have hreads : Decimal.ReadsBack 2.5 :=
    ⟨['2'], ['5'], by simp, by simp, by decide +kernel, by decide +kernel⟩
  have hround := Formula.ofText_text ofText_longWritten (fun x hx => hnumber x hx ▸ hfinite)
    fun x hx _ => hnumber x hx ▸ hreads
  exact ⟨hwritten, hwritten ▸ hround.1⟩

end DiceOdds
