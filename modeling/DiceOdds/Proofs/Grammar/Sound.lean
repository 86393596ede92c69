import DiceOdds.Proofs.Loops
import DiceOdds.Proofs.Grammar.Derives
import DiceOdds.Formula

/-!
# What the parser accepts is derived

A parser that succeeds has read a word of its level from the front of the tokens, and the tree that
it returns is the tree of that word.  Each level is described under the assumption that the parser
for nested conditionals is described already; `conditional` then follows by induction on the number
of tokens it is given.
-/

namespace DiceOdds

/-! ## 1. Single lexemes -/

/-- The operators of the parser are those of the grammar. -/
theorem multiplies_iff {x : Lexeme} {operation : Operation} :
    Multiplies x operation ↔ Parser.product? x = some operation := by
  constructor
  · rintro (_ | _) <;> rfl
  · intro h
    unfold Parser.product? at h
    split at h <;> cases h
    · exact .star
    · exact .slash

theorem adds_iff {x : Lexeme} {operation : Operation} :
    Adds x operation ↔ Parser.sum? x = some operation := by
  constructor
  · rintro (_ | _) <;> rfl
  · intro h
    unfold Parser.sum? at h
    split at h <;> cases h
    · exact .plus
    · exact .minus

theorem FaceSpec.spans_iff {last : UInt32} {faces : FaceSpec} {range : FaceRange} :
    Spans last faces range ↔ faces.range last = range := by
  constructor
  · rintro (_ | _) <;> rfl
  · rintro rfl
    obtain ⟨low, _ | high⟩ := faces
    · exact .toLast low
    · exact .closed low high

theorem limits_iff {usual limit : UInt32} {written : Option UInt32} :
    Limits usual written limit ↔ written.getD usual = limit := by
  constructor
  · rintro (_ | _) <;> rfl
  · rintro rfl
    cases written with
    | none => exact .leftOut
    | some limit => exact .written limit

/-- The parser takes a modifier to mean what the grammar says, the limits left out included. -/
theorem ModifierSpec.modifies_iff {sides : UInt32} {spec : ModifierSpec} {m : Modifier} :
    Modifies sides spec m ↔ spec.modifier sides = m := by
  constructor
  · intro h
    cases h with
    | reroll hrange hlimit =>
      rw [modifier, FaceSpec.spans_iff.1 hrange, defaultRerollLimit, limits_iff.1 hlimit]
    | success hrange hlimit =>
      rw [modifier, FaceSpec.spans_iff.1 hrange, defaultExplodeLimit, limits_iff.1 hlimit]
      rfl
    | explodingSuccess hrange hmore hlimit =>
      rw [modifier, FaceSpec.spans_iff.1 hrange, defaultExplodeLimit, limits_iff.1 hlimit,
        Option.map_some, FaceSpec.spans_iff.1 hmore]
    | explode hrange hlimit =>
      rw [modifier, FaceSpec.spans_iff.1 hrange, defaultExplodeLimit, limits_iff.1 hlimit]
  · rintro rfl
    cases spec with
    | reroll faces limit => exact .reroll (FaceSpec.spans_iff.2 rfl) (limits_iff.2 rfl)
    | success faces again limit =>
      cases again with
      | none => exact .success (FaceSpec.spans_iff.2 rfl) (limits_iff.2 rfl)
      | some again =>
        exact .explodingSuccess (FaceSpec.spans_iff.2 rfl) (FaceSpec.spans_iff.2 rfl)
          (limits_iff.2 rfl)
    | explode faces limit => exact .explode (FaceSpec.spans_iff.2 rfl) (limits_iff.2 rfl)

/-- The lexemes of some tokens. -/
def lexemes (ts : List Token) : List Lexeme := ts.map Token.lexeme

@[simp] theorem lexemes_nil : lexemes [] = [] := rfl

@[simp] theorem lexemes_cons (t : Token) (ts : List Token) :
    lexemes (t :: ts) = t.lexeme :: lexemes ts := rfl

@[simp] theorem lexemes_append (us vs : List Token) :
    lexemes (us ++ vs) = lexemes us ++ lexemes vs := List.map_append

namespace Parser

/-- The parser reads words of a level from the front of the tokens. -/
def Sound (p : Parser Node) (l : Level) : Prop :=
  ∀ ts a rest, p ts = .ok (a, rest) → ∃ used, ts = used ++ rest ∧ Derives l (lexemes used) a

variable {inner : Parser Node}

/-! ## 2. Parentheses and separators -/

theorem close_eq_ok {symbol opening : Symbol} {offset : ℕ} {ts rest : List Token}
    (h : close symbol opening offset ts = .ok rest) :
    ∃ t : Token, t.lexeme = .symbol symbol ∧ ts = t :: rest := by
  unfold close at h
  split at h
  · next found o rest' =>
    split at h
    · next hf =>
      cases h
      exact ⟨⟨.symbol found, o⟩, by rw [hf], rfl⟩
    · cases h
  · cases h

/-- A nested conditional and the symbol that closes it. -/
theorem closed_sound (hi : Sound inner .conditional) {symbol opening : Symbol} {offset : ℕ}
    {make : Node → Node} {ts rest : List Token} {a : Node}
    (h : (inner ts >>= fun p => close symbol opening offset p.2 >>= fun rest =>
      pure (make p.1, rest)) = .ok (a, rest)) :
    ∃ u node used, ts = used ++ rest ∧ lexemes used = u ++ [.symbol symbol]
      ∧ Derives .conditional u node ∧ a = make node := by
  obtain ⟨⟨node, rest₁⟩, hnode, h⟩ := bind_eq_ok.1 h
  obtain ⟨rest₂, hclose, h⟩ := bind_eq_ok.1 h
  cases pure_eq_ok.1 h
  obtain ⟨used, rfl, hd⟩ := hi _ _ _ hnode
  obtain ⟨t, ht, rfl⟩ := close_eq_ok hclose
  exact ⟨lexemes used, node, used ++ [t], by simp, by simp [ht], hd, rfl⟩

/-- The words of further items, as they are read. -/
theorem itemsAfter_sound (hi : Sound inner .conditional) {separator : Symbol} {n : ℕ}
    {ts rest : List Token} {nodes : List Node}
    (h : itemsAfter inner separator n ts = .ok (nodes, rest)) :
    ∃ (parts : List (List Lexeme × Node)) (used : List Token), ts = used ++ rest
      ∧ lexemes used = separated separator parts ∧ nodes = parts.map (·.2)
      ∧ ∀ part ∈ parts, Derives .conditional part.1 part.2 := by
  induction n generalizing ts nodes with
  | zero =>
    cases h
    exact ⟨[], [], rfl, rfl, rfl, by simp⟩
  | succ n ih =>
    unfold itemsAfter at h
    split at h
    · next found o rest' =>
      split at h
      · next hf =>
        obtain ⟨⟨item, rest₁⟩, hitem, h⟩ := bind_eq_ok.1 h
        obtain ⟨⟨items, rest₂⟩, hitems, h⟩ := bind_eq_ok.1 h
        cases pure_eq_ok.1 h
        obtain ⟨used, rfl, hd⟩ := hi _ _ _ hitem
        obtain ⟨parts, more, rfl, hmore, rfl, hparts⟩ := ih hitems
        refine ⟨(lexemes used, item) :: parts, ⟨.symbol found, o⟩ :: (used ++ more), ?_, ?_, rfl, ?_⟩
        · simp
        · simp [separated, hf] at hmore ⊢
          exact hmore
        · intro part hpart
          rcases List.mem_cons.1 hpart with rfl | hpart
          · exact hd
          · exact hparts part hpart
      · cases h
        exact ⟨[], [], rfl, rfl, rfl, by simp⟩
    · cases h
      exact ⟨[], [], rfl, rfl, rfl, by simp⟩

/-- The words of items in parentheses. -/
theorem items_sound (hi : Sound inner .conditional) {separator : Symbol} {offset : ℕ}
    {ts rest : List Token} {nodes : List Node}
    (h : items inner separator offset ts = .ok (nodes, rest)) :
    ∃ (u : List Lexeme) (a : Node) (parts : List (List Lexeme × Node)) (used : List Token),
      ts = used ++ rest
      ∧ lexemes used
        = .symbol .leftParen :: (u ++ separated separator parts ++ [.symbol .rightParen])
      ∧ nodes = a :: parts.map (·.2) ∧ Derives .conditional u a
      ∧ ∀ part ∈ parts, Derives .conditional part.1 part.2 := by
  unfold items at h
  split at h
  · next o rest' =>
    obtain ⟨⟨first, rest₁⟩, hfirst, h⟩ := bind_eq_ok.1 h
    obtain ⟨⟨more, rest₂⟩, hmore, h⟩ := bind_eq_ok.1 h
    obtain ⟨rest₃, hclose, h⟩ := bind_eq_ok.1 h
    cases pure_eq_ok.1 h
    obtain ⟨used, rfl, hd⟩ := hi _ _ _ hfirst
    obtain ⟨parts, others, rfl, hothers, rfl, hparts⟩ := itemsAfter_sound hi hmore
    obtain ⟨t, ht, rfl⟩ := close_eq_ok hclose
    refine ⟨lexemes used, first, parts, ⟨.symbol .leftParen, o⟩ :: (used ++ others ++ [t]), ?_, ?_,
      rfl, hd, hparts⟩
    · simp
    · simp [hothers, ht]
  · unfold unexpected at h
    split at h <;> cases h

/-! ## 3. Atoms and factors -/

theorem atom_sound (hi : Sound inner .conditional) : Sound (atom inner) .atom := by
  intro ts a rest h
  unfold atom at h
  split at h
  · cases h
  · next lexeme offset rest' =>
    split at h
    · cases h
      exact ⟨[⟨_, offset⟩], rfl, .number _⟩
    · cases h
      exact ⟨[⟨_, offset⟩], rfl, .dice _⟩
    · cases h
      exact ⟨[⟨_, offset⟩], rfl, .reference _ _⟩
    · next kind count =>
      obtain ⟨⟨nodes, rest₁⟩, hitems, h⟩ := bind_eq_ok.1 h
      cases pure_eq_ok.1 h
      obtain ⟨u, a, parts, used, rfl, hused, rfl, ha, hparts⟩ := items_sound hi hitems
      refine ⟨⟨.keep kind count, offset⟩ :: used, rfl, ?_⟩
      rw [lexemes_cons, hused]
      exact .keep kind count ha hparts
    · next name =>
      obtain ⟨⟨args, rest₁⟩, hitems, h⟩ := bind_eq_ok.1 h
      dsimp only at h
      split at h
      · next hlen =>
        cases pure_eq_ok.1 h
        obtain ⟨u, a, parts, used, rfl, hused, rfl, ha, hparts⟩ := items_sound hi hitems
        obtain ⟨⟨v, b⟩, rfl⟩ : ∃ part, parts = [part] := by
          rw [List.length_cons, List.length_map] at hlen
          exact List.length_eq_one_iff.1 (Nat.succ.inj hlen)
        refine ⟨⟨.function name, offset⟩ :: used, rfl, ?_⟩
        rw [lexemes_cons, hused]
        simpa [separated] using Derives.function name ha (hparts _ (List.mem_singleton_self _))
      · cases h
    · obtain ⟨u, node, used, rfl, hused, hd, rfl⟩ := closed_sound hi h
      refine ⟨⟨.symbol .leftParen, offset⟩ :: used, rfl, ?_⟩
      rw [lexemes_cons, hused]
      exact .group hd
    · obtain ⟨u, node, used, rfl, hused, hd, rfl⟩ := closed_sound hi h
      refine ⟨⟨.symbol .hash, offset⟩ :: used, rfl, ?_⟩
      rw [lexemes_cons, hused]
      exact .double hd
    · obtain ⟨⟨normal, rest₁⟩, hnormal, h⟩ := bind_eq_ok.1 h
      obtain ⟨rest₂, hpipe, h⟩ := bind_eq_ok.1 h
      obtain ⟨⟨critical, rest₃⟩, hcritical, h⟩ := bind_eq_ok.1 h
      obtain ⟨rest₄, hclose, h⟩ := bind_eq_ok.1 h
      cases pure_eq_ok.1 h
      obtain ⟨used, rfl, hd⟩ := hi _ _ _ hnormal
      obtain ⟨t, ht, rfl⟩ := close_eq_ok hpipe
      obtain ⟨used', rfl, hd'⟩ := hi _ _ _ hcritical
      obtain ⟨t', ht', rfl⟩ := close_eq_ok hclose
      refine ⟨⟨.symbol .pipe, offset⟩ :: (used ++ t :: (used' ++ [t'])), by simp, ?_⟩
      simpa [ht, ht'] using Derives.switch hd hd'
    · obtain ⟨u, node, used, rfl, hused, hd, rfl⟩ := closed_sound hi h
      refine ⟨⟨.symbol .leftBracket, offset⟩ :: used, rfl, ?_⟩
      rw [lexemes_cons, hused]
      exact .only hd
    · cases h
    · cases h
    · cases h

theorem withoutModifier_eq_ok {node a : Node} {ts rest : List Token}
    (h : withoutModifier node ts = .ok (a, rest)) : node = a ∧ ts = rest := by
  unfold withoutModifier at h
  split at h
  · cases h
  · cases h
    exact ⟨rfl, rfl⟩

/-- The only words with the tree of a literal are literals. -/
theorem eq_of_derives_dice {w : List Lexeme} {d : Dice} {id : Option ℕ}
    (h : Derives .atom w (.dice d id none)) : w = [.dice d] ∧ id = none := by
  cases h
  exact ⟨rfl, rfl⟩

theorem factor_sound (hi : Sound inner .conditional) : Sound (factor inner) .factor := by
  intro ts a rest h
  obtain ⟨⟨node, rest₁⟩, hatom, hmod⟩ := bind_eq_ok.1 h
  obtain ⟨used, rfl, hd⟩ := atom_sound hi _ _ _ hatom
  dsimp only at hmod
  split at hmod
  · next d id spec o rest₂ =>
    obtain ⟨rfl, rfl⟩ := withoutModifier_eq_ok hmod
    obtain ⟨hused, rfl⟩ := eq_of_derives_dice hd
    refine ⟨used ++ [⟨.modifier spec, o⟩], by simp, ?_⟩
    rw [lexemes_append, hused]
    exact .modified d (ModifierSpec.modifies_iff.2 rfl)
  · obtain ⟨rfl, rfl⟩ := withoutModifier_eq_ok hmod
    exact ⟨used, rfl, .ofAtom hd⟩

/-! ## 4. Chains of operations -/

/-- A chain goes on from a word that has been read already. -/
theorem chain_sound {operation? : Lexeme → Option Operation} {operand : Parser Node} {l m : Level}
    (ho : Sound operand l)
    (hstep : ∀ u v a b x operation, Derives m u a → operation? x = some operation →
      Derives l v b → Derives m (u ++ x :: v) (.binary operation a b))
    {n : ℕ} {read ts rest : List Token} {left a : Node} (hleft : Derives m (lexemes read) left)
    (h : chain operation? operand n left ts = .ok (a, rest)) :
    ∃ used, ts = used ++ rest ∧ Derives m (lexemes (read ++ used)) a := by
  induction n generalizing read ts left with
  | zero =>
    cases h
    exact ⟨[], rfl, by rwa [List.append_nil]⟩
  | succ n ih =>
    unfold chain at h
    split at h
    · cases h
      exact ⟨[], rfl, by rwa [List.append_nil]⟩
    · next t rest' =>
      split at h
      · next operation hop =>
        obtain ⟨⟨right, rest₁⟩, hright, hmore⟩ := bind_eq_ok.1 h
        obtain ⟨used, rfl, hd⟩ := ho _ _ _ hright
        have hnext : Derives m (lexemes (read ++ t :: used)) (.binary operation left right) := by
          rw [lexemes_append, lexemes_cons]
          exact hstep _ _ _ _ _ _ hleft hop hd
        obtain ⟨more, rfl, hd'⟩ := ih hnext hmore
        exact ⟨t :: (used ++ more), by simp, by simpa using hd'⟩
      · cases h
        exact ⟨[], rfl, by rwa [List.append_nil]⟩

theorem multiplicative_sound (hi : Sound inner .conditional) :
    Sound (multiplicative inner) .multiplicative := by
  intro ts a rest h
  obtain ⟨⟨left, rest₁⟩, hleft, hchain⟩ := bind_eq_ok.1 h
  obtain ⟨read, rfl, hd⟩ := factor_sound hi _ _ _ hleft
  obtain ⟨used, rfl, hu⟩ :=
    chain_sound (factor_sound hi) (fun _ _ _ _ _ _ hu hx => .product hu (multiplies_iff.2 hx))
      (.ofFactor hd) hchain
  exact ⟨read ++ used, by simp, hu⟩

theorem additive_sound (hi : Sound inner .conditional) : Sound (additive inner) .additive := by
  intro ts a rest h
  obtain ⟨⟨left, rest₁⟩, hleft, hchain⟩ := bind_eq_ok.1 h
  obtain ⟨read, rfl, hd⟩ := multiplicative_sound hi _ _ _ hleft
  obtain ⟨used, rfl, hu⟩ :=
    chain_sound (multiplicative_sound hi) (fun _ _ _ _ _ _ hu hx => .sum hu (adds_iff.2 hx))
      (.ofMultiplicative hd) hchain
  exact ⟨read ++ used, by simp, hu⟩

/-! ## 5. Comparisons and conditionals -/

theorem comparison_sound (hi : Sound inner .conditional) :
    Sound (comparison inner) .comparison := by
  intro ts a rest h
  obtain ⟨⟨left, rest₁⟩, hleft, hmore⟩ := bind_eq_ok.1 h
  obtain ⟨used, rfl, hd⟩ := additive_sound hi _ _ _ hleft
  dsimp only at hmore
  split at hmore
  · next relation o rest₂ =>
    obtain ⟨⟨right, rest₃⟩, hright, hend⟩ := bind_eq_ok.1 hmore
    obtain ⟨used', rfl, hd'⟩ := additive_sound hi _ _ _ hright
    dsimp only at hend
    split at hend
    · cases hend
    · cases hend
      refine ⟨used ++ ⟨.relation relation, o⟩ :: used', by simp, ?_⟩
      rw [lexemes_append, lexemes_cons]
      exact .comparison relation hd hd'
  · cases hmore
    exact ⟨used, rfl, .ofAdditive hd⟩

theorem level_sound (hi : Sound inner .conditional) : Sound (level inner) .conditional := by
  intro ts a rest h
  unfold level at h
  split at h
  · cases h
  · next t ts =>
    obtain ⟨⟨condition, rest₁⟩, hcondition, h⟩ := bind_eq_ok.1 h
    obtain ⟨used, hused, hd⟩ := comparison_sound hi _ _ _ hcondition
    rw [hused]
    dsimp only at h
    split at h
    · next o rest₂ =>
      split at h
      · next hcond =>
        obtain ⟨⟨ifTrue, rest₃⟩, hyes, hcolon⟩ := bind_eq_ok.1 h
        obtain ⟨yes, rfl, hd'⟩ := hi _ _ _ hyes
        dsimp only at hcolon
        split at hcolon
        · next o' rest₄ =>
          obtain ⟨⟨ifFalse, rest₅⟩, hno, hend⟩ := bind_eq_ok.1 hcolon
          obtain ⟨no, rfl, hd''⟩ := hi _ _ _ hno
          cases pure_eq_ok.1 hend
          refine ⟨used ++ ⟨.symbol .question, o⟩ :: (yes ++ ⟨.symbol .colon, o'⟩ :: no),
            by simp, ?_⟩
          simp only [lexemes_append, lexemes_cons]
          exact .conditional hd hcond hd' hd''
        · unfold unexpected at hcolon
          split at hcolon <;> cases hcolon
      · cases h
    · cases h
      exact ⟨used, rfl, .ofComparison hd⟩

/-- **What the parser accepts is derived.** -/
theorem conditional_sound (n : ℕ) : Sound (conditional n) .conditional := by
  induction n with
  | zero =>
    intro ts a rest h
    cases h
  | succ n ih => exact level_sound ih

end Parser

end DiceOdds
