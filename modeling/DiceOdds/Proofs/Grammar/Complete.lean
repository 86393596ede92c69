import DiceOdds.Proofs.Grammar.Sound

/-!
# What is derived the parser accepts

A word of the grammar, followed by anything that its level does not go on with, is read up to its
end and gives its tree.  So no two trees share a word.

## What may follow a word

Only the level of a word decides what may follow it: `Level.continues` says which lexemes a parser
of that level would go on with.  A word of the strongest level has nothing to go on with, so what
stands behind its first part is never looked at.

## Why chains are followed from their left end

The grammar groups operations to the left, and the parser reads them from the left with what it has
so far in hand.  The induction is on the derivation, so it meets the last operation first.  A chain
is therefore described by where the parser stands behind a word: it goes on as if it had just read
the tree of that word (`Reads`).  Whatever follows the word is left open, and an operation may.
-/

namespace DiceOdds

/-! ## 1. What may follow -/

/-- Whether the lexeme is a relation. -/
def Lexeme.isRelation : Lexeme → Bool
  | relation _ => true
  | _ => false

/-- Whether a phrase of the level would go on with the lexeme. -/
def Level.continues : Level → Lexeme → Bool
  | atom, _ => false
  | factor, x => x.isModifier
  | multiplicative, x => x.isModifier || (Parser.product? x).isSome
  | additive, x => x.isModifier || (Parser.product? x).isSome || (Parser.sum? x).isSome
  | comparison, x =>
    x.isModifier || (Parser.product? x).isSome || (Parser.sum? x).isSome || x.isRelation
  | conditional, x =>
    x.isModifier || (Parser.product? x).isSome || (Parser.sum? x).isSome || x.isRelation
      || x = .symbol .question

/-- A phrase of the level ends before these tokens. -/
def Level.EndsAt (l : Level) (rest : List Token) : Prop :=
  ∀ t ∈ rest.head?, l.continues t.lexeme = false

/-- What begins an operation ends the word before it. -/
theorem Multiplies.endsAt_factor {x : Lexeme} {operation : Operation} (h : Multiplies x operation) :
    Level.factor.continues x = false := by
  cases h <;> rfl

theorem Adds.endsAt_multiplicative {x : Lexeme} {operation : Operation} (h : Adds x operation) :
    Level.multiplicative.continues x = false := by
  cases h <;> rfl

theorem Level.endsAt_nil (l : Level) : l.EndsAt [] := by simp [EndsAt]

theorem Level.endsAt_cons {l : Level} {t : Token} {rest : List Token} :
    l.EndsAt (t :: rest) ↔ l.continues t.lexeme = false := by
  simp [EndsAt]

/-- A weaker level goes on with more. -/
theorem Level.EndsAt.mono {l m : Level} {rest : List Token} (h : m.EndsAt rest)
    (hlm : ∀ x, l.continues x = true → m.continues x = true) : l.EndsAt rest := by
  intro t ht
  by_contra hc
  have := hlm _ (Bool.eq_true_of_not_eq_false hc)
  rw [h t ht] at this
  cases this

theorem Level.EndsAt.toComparison {rest : List Token} (h : conditional.EndsAt rest) :
    comparison.EndsAt rest :=
  h.mono fun _ hx => (Bool.or_eq_true _ _).mpr (.inl hx)

theorem Level.EndsAt.toAdditive {rest : List Token} (h : comparison.EndsAt rest) :
    additive.EndsAt rest :=
  h.mono fun _ hx => (Bool.or_eq_true _ _).mpr (.inl hx)

theorem Level.EndsAt.toMultiplicative {rest : List Token} (h : additive.EndsAt rest) :
    multiplicative.EndsAt rest :=
  h.mono fun _ hx => (Bool.or_eq_true _ _).mpr (.inl hx)

theorem Level.EndsAt.toFactor {rest : List Token} (h : multiplicative.EndsAt rest) :
    factor.EndsAt rest :=
  h.mono fun _ hx => (Bool.or_eq_true _ _).mpr (.inl hx)

namespace Parser

/-! ## 2. Loops stop and need no more rounds than tokens -/

/-- A chain ends before anything that is no operation. -/
theorem chain_of_ends {operation? : Lexeme → Option Operation} (operand : Parser Node) (n : ℕ)
    (left : Node) {rest : List Token} (h : ∀ t ∈ rest.head?, operation? t.lexeme = none) :
    chain operation? operand n left rest = .ok (left, rest) := by
  cases n with
  | zero => rfl
  | succ n =>
    cases rest with
    | nil => rfl
    | cons t rest => rw [chain, h t rfl]

/-- More rounds than tokens change nothing. -/
theorem chain_rounds {operation? : Lexeme → Option Operation} {operand : Parser Node} {l : Level}
    (ho : Sound operand l) {n m : ℕ} {left : Node} {ts : List Token} (hn : ts.length ≤ n)
    (hm : ts.length ≤ m) :
    chain operation? operand n left ts = chain operation? operand m left ts := by
  induction n generalizing m left ts with
  | zero =>
    obtain rfl := List.eq_nil_of_length_eq_zero (Nat.le_zero.1 hn)
    cases m <;> rfl
  | succ n ih =>
    cases ts with
    | nil => cases m <;> rfl
    | cons t rest =>
      obtain ⟨m, rfl⟩ := Nat.exists_eq_add_of_lt (Nat.lt_of_lt_of_le (Nat.zero_lt_succ _) hm)
      rw [Nat.zero_add, chain, chain]
      cases hop : operation? t.lexeme with
      | none => rfl
      | some operation =>
        dsimp only
        cases hright : operand rest with
        | error e => rfl
        | ok found =>
          obtain ⟨used, hused, -⟩ := ho _ found.1 found.2 hright
          have hlen := congrArg List.length hused
          simp only [List.length_append, List.length_cons] at hlen hn hm
          exact ih (by omega) (by omega)

theorem close_cons {symbol : Symbol} (opening : Symbol) (offset : ℕ) {t : Token}
    (ht : t.lexeme = .symbol symbol) (rest : List Token) :
    close symbol opening offset (t :: rest) = .ok rest := by
  obtain ⟨lexeme, o⟩ := t
  obtain rfl : lexeme = .symbol symbol := ht
  exact if_pos rfl

/-! ## 3. Reading a word -/

/-- The parser of a level, with nested conditionals of at most `k` tokens, reads some tokens up to
their end.  A chain goes on behind them. -/
def Reads (k : ℕ) (used : List Token) (a : Node) (rest : List Token) : Level → Prop
  | .atom => atom (conditional k) (used ++ rest) = .ok (a, rest)
  | .factor => Level.factor.EndsAt rest → factor (conditional k) (used ++ rest) = .ok (a, rest)
  | .multiplicative => Level.factor.EndsAt rest →
      multiplicative (conditional k) (used ++ rest)
        = chain product? (factor (conditional k)) rest.length a rest
  | .additive => Level.multiplicative.EndsAt rest →
      additive (conditional k) (used ++ rest)
        = chain sum? (multiplicative (conditional k)) rest.length a rest
  | .comparison => Level.comparison.EndsAt rest →
      comparison (conditional k) (used ++ rest) = .ok (a, rest)
  | .conditional => Level.conditional.EndsAt rest →
      conditional (k + 1) (used ++ rest) = .ok (a, rest)

/-- However the word is written as tokens and whatever follows it, it is read up to its end. -/
def ReadsWord (l : Level) (w : List Lexeme) (a : Node) : Prop :=
  ∀ k used rest, lexemes used = w → w.length ≤ k + 1 → Reads k used a rest l

/-- A nested conditional is read with one token less to go. -/
theorem ReadsWord.nested {u : List Lexeme} {a : Node} (h : ReadsWord .conditional u a)
    (hne : u ≠ [])
    {k : ℕ} {used rest : List Token} (hused : lexemes used = u) (hk : u.length ≤ k)
    (hend : Level.conditional.EndsAt rest) : conditional k (used ++ rest) = .ok (a, rest) := by
  obtain ⟨k, rfl⟩ := Nat.exists_eq_add_of_lt (Nat.lt_of_lt_of_le (List.length_pos_iff.2 hne) hk)
  rw [Nat.zero_add] at hk ⊢
  exact h k used rest hused hk hend

/-! ## 4. Atoms -/

theorem lexemes_eq_cons {ts : List Token} {x : Lexeme} {w : List Lexeme}
    (h : lexemes ts = x :: w) : ∃ t rest, ts = t :: rest ∧ t.lexeme = x ∧ lexemes rest = w := by
  obtain ⟨t, rest, rfl, ht, hrest⟩ := List.map_eq_cons_iff.1 h
  exact ⟨t, rest, rfl, ht, hrest⟩

theorem lexemes_eq_append {ts : List Token} {u v : List Lexeme} (h : lexemes ts = u ++ v) :
    ∃ us vs, ts = us ++ vs ∧ lexemes us = u ∧ lexemes vs = v :=
  List.map_eq_append_iff.1 h

theorem lexemes_eq_singleton {ts : List Token} {x : Lexeme} (h : lexemes ts = [x]) :
    ∃ t, ts = [t] ∧ t.lexeme = x := by
  obtain ⟨t, rest, rfl, ht, hrest⟩ := lexemes_eq_cons h
  obtain rfl := List.map_eq_nil_iff.1 hrest
  exact ⟨t, rfl, ht⟩

/-- The words of further items end before a parenthesis, one by one. -/
theorem itemsAfter_complete {separator : Symbol} (hsep : Level.conditional.continues
    (.symbol separator) = false) (hparen : separator ≠ .rightParen)
    {parts : List (List Lexeme × Node)}
    (hparts : ∀ part ∈ parts, part.1 ≠ [] ∧ ReadsWord .conditional part.1 part.2) {k n : ℕ}
    {used : List Token} {t : Token} (rest : List Token) (ht : t.lexeme = .symbol .rightParen)
    (hused : lexemes used = separated separator parts)
    (hk : (separated separator parts).length ≤ k) (hn : parts.length ≤ n) :
    itemsAfter (conditional k) separator n (used ++ t :: rest) = .ok (parts.map (·.2), t :: rest)
      ∧ Level.conditional.EndsAt (used ++ t :: rest) := by
  induction parts generalizing used n with
  | nil =>
    obtain rfl := List.map_eq_nil_iff.1 hused
    obtain ⟨lexeme, o⟩ := t
    obtain rfl : lexeme = .symbol .rightParen := ht
    refine ⟨?_, Level.endsAt_cons.2 rfl⟩
    cases n with
    | zero => rfl
    | succ n => exact if_neg hparen.symm
  | cons part parts ih =>
    obtain ⟨w, a⟩ := part
    obtain ⟨n, rfl⟩ := Nat.exists_eq_add_of_lt (Nat.lt_of_lt_of_le (Nat.zero_lt_succ _) hn)
    rw [Nat.zero_add] at hn ⊢
    obtain ⟨⟨lexeme, o⟩, more, rfl, hlexeme, hmore⟩ := lexemes_eq_cons hused
    obtain rfl : lexeme = .symbol separator := hlexeme
    obtain ⟨us, vs, rfl, hus, hvs⟩ := lexemes_eq_append hmore
    have hlen : w.length ≤ k ∧ (separated separator parts).length ≤ k := by
      simp only [separated, List.flatMap_cons, List.length_append, List.length_cons] at hk ⊢
      omega
    obtain ⟨hitems, hend⟩ := ih (fun part hpart => hparts part (List.mem_cons_of_mem _ hpart)) hvs
      hlen.2 (Nat.le_of_succ_le_succ hn)
    obtain ⟨hne, hread⟩ := hparts (w, a) (List.mem_cons_self ..)
    refine ⟨?_, Level.endsAt_cons.2 hsep⟩
    rw [List.cons_append, List.append_assoc, itemsAfter]
    simp only [if_true, hread.nested hne hus hlen.1 hend]
    change (itemsAfter _ _ _ _ >>= _) = _
    rw [hitems]
    rfl

/-- Items in parentheses. -/
theorem items_complete {separator : Symbol} (hsep : Level.conditional.continues
    (.symbol separator) = false) (hparen : separator ≠ .rightParen) {u : List Lexeme} {a : Node}
    {parts : List (List Lexeme × Node)} (hne : u ≠ []) (ha : ReadsWord .conditional u a)
    (hparts : ∀ part ∈ parts, part.1 ≠ [] ∧ ReadsWord .conditional part.1 part.2) {k : ℕ}
    (offset : ℕ) {used : List Token} (rest : List Token)
    (hused : lexemes used
      = .symbol .leftParen :: (u ++ separated separator parts ++ [.symbol .rightParen]))
    (hk : u.length + (separated separator parts).length ≤ k) :
    items (conditional k) separator offset (used ++ rest) = .ok (a :: parts.map (·.2), rest) := by
  obtain ⟨⟨lexeme, o⟩, more, rfl, hlexeme, hmore⟩ := lexemes_eq_cons hused
  obtain rfl : lexeme = .symbol .leftParen := hlexeme
  obtain ⟨both, ts, rfl, hboth, hts⟩ := lexemes_eq_append hmore
  obtain ⟨us, vs, rfl, hus, hvs⟩ := lexemes_eq_append hboth
  obtain ⟨t, rfl, ht⟩ := lexemes_eq_singleton hts
  have hcount : parts.length ≤ (vs ++ t :: rest).length := by
    have hwords : parts.length ≤ (separated separator parts).length := by
      clear hused hboth hmore hvs hk hparts
      induction parts with
      | nil => exact Nat.zero_le _
      | cons part parts ih =>
        simp only [separated, List.flatMap_cons, List.length_append, List.length_cons] at ih ⊢
        omega
    have hvslen : vs.length = (separated separator parts).length := by
      rw [← hvs, lexemes, List.length_map]
    simp only [List.length_append]
    omega
  obtain ⟨hitems, hend⟩ := itemsAfter_complete (k := k) hsep hparen hparts rest ht hvs
    (by omega) hcount
  have hassoc : ⟨.symbol .leftParen, o⟩ :: (us ++ vs ++ [t]) ++ rest
      = (⟨.symbol .leftParen, o⟩ : Token) :: (us ++ (vs ++ t :: rest)) := by simp
  have hu : u.length ≤ k := by omega
  rw [hassoc, items]
  simp only [ha.nested hne hus hu hend]
  change (itemsAfter _ _ _ _ >>= _) = _
  rw [hitems]
  change (close _ _ _ _ >>= _) = _
  rw [close_cons _ _ ht]
  rfl

theorem reads_keep {kind : KeepKind} {count : UInt32} {u : List Lexeme} {a : Node}
    {parts : List (List Lexeme × Node)} (hne : u ≠ []) (ha : ReadsWord .conditional u a)
    (hparts : ∀ part ∈ parts, part.1 ≠ [] ∧ ReadsWord .conditional part.1 part.2) :
    ReadsWord .atom
      (.keep kind count :: .symbol .leftParen ::
        (u ++ separated .semicolon parts ++ [.symbol .rightParen]))
      (.keep kind count (a :: parts.map (·.2))) := by
  intro k used rest hused hk
  obtain ⟨⟨lexeme, o⟩, more, rfl, hlexeme, hmore⟩ := lexemes_eq_cons hused
  obtain rfl : lexeme = .keep kind count := hlexeme
  have hitems := items_complete (k := k) rfl (by decide) hne ha hparts o rest hmore
    (by simp only [List.length_cons, List.length_append] at hk; omega)
  rw [Reads, List.cons_append, atom, hitems]
  rfl

theorem reads_function {name : FunctionName} {u v : List Lexeme} {a b : Node} (hu : u ≠ [])
    (hv : v ≠ []) (ha : ReadsWord .conditional u a) (hb : ReadsWord .conditional v b) :
    ReadsWord .atom
      (.function name :: .symbol .leftParen :: (u ++ .symbol .comma :: v ++ [.symbol .rightParen]))
      (.function name [a, b]) := by
  intro k used rest hused hk
  obtain ⟨⟨lexeme, o⟩, more, rfl, hlexeme, hmore⟩ := lexemes_eq_cons hused
  obtain rfl : lexeme = .function name := hlexeme
  have hparts : ∀ part ∈ [(v, b)], part.1 ≠ [] ∧ ReadsWord .conditional part.1 part.2 := by
    intro part hpart
    obtain rfl := List.mem_singleton.1 hpart
    exact ⟨hv, hb⟩
  have hwords : lexemes more
      = .symbol .leftParen :: (u ++ separated .comma [(v, b)] ++ [.symbol .rightParen]) := by
    rw [hmore]
    simp [separated]
  have hitems := items_complete (k := k) rfl (by decide) hu ha hparts o rest hwords (by
      simp only [List.length_cons, List.length_append, separated, List.flatMap_cons,
        List.flatMap_nil, List.length_nil] at hk ⊢
      omega)
  rw [Reads, List.cons_append, atom, hitems]
  rfl

/-- A nested conditional in brackets. -/
theorem closed_complete {symbol : Symbol} (opening : Symbol) (offset : ℕ)
    (hsymbol : Level.conditional.continues (.symbol symbol) = false) (make : Node → Node)
    {u : List Lexeme} {a : Node} (hu : u ≠ []) (ha : ReadsWord .conditional u a) {k : ℕ}
    {used : List Token} (rest : List Token) (hused : lexemes used = u ++ [.symbol symbol])
    (hk : u.length ≤ k) :
    (conditional k (used ++ rest) >>= fun p => close symbol opening offset p.2 >>= fun rest =>
      pure (make p.1, rest)) = .ok (make a, rest) := by
  obtain ⟨us, ts, rfl, hus, hts⟩ := lexemes_eq_append hused
  obtain ⟨t, rfl, ht⟩ := lexemes_eq_singleton hts
  rw [List.append_assoc, List.singleton_append,
    ha.nested hu hus hk (Level.endsAt_cons.2 (ht ▸ hsymbol))]
  change (close _ _ _ _ >>= _) = _
  rw [close_cons _ _ ht]
  rfl

theorem reads_group {u : List Lexeme} {a : Node} (hu : u ≠ []) (ha : ReadsWord .conditional u a) :
    ReadsWord .atom (.symbol .leftParen :: (u ++ [.symbol .rightParen])) (.group a) := by
  intro k used rest hused hk
  obtain ⟨⟨lexeme, o⟩, more, rfl, hlexeme, hmore⟩ := lexemes_eq_cons hused
  obtain rfl : lexeme = .symbol .leftParen := hlexeme
  exact closed_complete .leftParen o rfl Node.group hu ha rest hmore
    (by simp only [List.length_cons, List.length_append] at hk; omega)

theorem reads_double {u : List Lexeme} {a : Node} (hu : u ≠ []) (ha : ReadsWord .conditional u a) :
    ReadsWord .atom (.symbol .hash :: (u ++ [.symbol .hash])) (.double a) := by
  intro k used rest hused hk
  obtain ⟨⟨lexeme, o⟩, more, rfl, hlexeme, hmore⟩ := lexemes_eq_cons hused
  obtain rfl : lexeme = .symbol .hash := hlexeme
  exact closed_complete .hash o rfl Node.double hu ha rest hmore
    (by simp only [List.length_cons, List.length_append] at hk; omega)

theorem reads_only {u : List Lexeme} {a : Node} (hu : u ≠ []) (ha : ReadsWord .conditional u a) :
    ReadsWord .atom (.symbol .leftBracket :: (u ++ [.symbol .rightBracket])) (.only a) := by
  intro k used rest hused hk
  obtain ⟨⟨lexeme, o⟩, more, rfl, hlexeme, hmore⟩ := lexemes_eq_cons hused
  obtain rfl : lexeme = .symbol .leftBracket := hlexeme
  exact closed_complete .leftBracket o rfl Node.only hu ha rest hmore
    (by simp only [List.length_cons, List.length_append] at hk; omega)

theorem reads_switch {u v : List Lexeme} {a b : Node} (hu : u ≠ []) (hv : v ≠ [])
    (ha : ReadsWord .conditional u a) (hb : ReadsWord .conditional v b) :
    ReadsWord .atom (.symbol .pipe :: (u ++ .symbol .pipe :: (v ++ [.symbol .pipe])))
      (.switch a b) := by
  intro k used rest hused hk
  obtain ⟨⟨lexeme, o⟩, more, rfl, hlexeme, hmore⟩ := lexemes_eq_cons hused
  obtain rfl : lexeme = .symbol .pipe := hlexeme
  obtain ⟨us, both, rfl, hus, hboth⟩ := lexemes_eq_append hmore
  obtain ⟨t, vs, rfl, ht, hvs⟩ := lexemes_eq_cons hboth
  simp only [List.length_cons, List.length_append] at hk
  have hfirst : conditional k (us ++ t :: (vs ++ rest)) = .ok (a, t :: (vs ++ rest)) :=
    ha.nested hu hus (by omega) (Level.endsAt_cons.2 (by rw [ht]; rfl))
  have hsecond := closed_complete .pipe o rfl (Node.switch a) hv hb rest hvs
    (show v.length ≤ k by omega)
  have hassoc : (⟨.symbol .pipe, o⟩ : Token) :: (us ++ t :: vs) ++ rest
      = ⟨.symbol .pipe, o⟩ :: (us ++ t :: (vs ++ rest)) := by simp
  rw [Reads, hassoc, atom, hfirst]
  change (close _ _ _ _ >>= _) = _
  rw [close_cons _ _ ht]
  exact hsecond

/-! ## 5. Factors and chains -/

theorem withoutModifier_of_ends (a : Node) {rest : List Token} (h : Level.factor.EndsAt rest) :
    withoutModifier a rest = .ok (a, rest) := by
  cases rest with
  | nil => rfl
  | cons t rest =>
    obtain ⟨lexeme, o⟩ := t
    cases lexeme with
    | modifier spec => cases Level.endsAt_cons.1 h
    | _ => rfl

theorem reads_ofAtom {u : List Lexeme} {a : Node} (ha : ReadsWord .atom u a) :
    ReadsWord .factor u a := by
  intro k used rest hused hk hend
  have hatom : atom (conditional k) (used ++ rest) = .ok (a, rest) := ha k used rest hused hk
  rw [factor, hatom]
  dsimp only [bind, Except.bind]
  split
  · cases Level.endsAt_cons.1 hend
  · exact withoutModifier_of_ends a hend

theorem reads_modified {d : Dice} {spec : ModifierSpec} {m : Modifier}
    (hm : Modifies d.sides spec m) :
    ReadsWord .factor [.dice d, .modifier spec] (.dice d none (some m)) := by
  obtain rfl := ModifierSpec.modifies_iff.1 hm
  intro k used rest hused _ hend
  obtain ⟨⟨lexeme, o⟩, more, rfl, hlexeme, hmore⟩ := lexemes_eq_cons hused
  obtain rfl : lexeme = .dice d := hlexeme
  obtain ⟨⟨lexeme, o'⟩, rfl, hlexeme⟩ := lexemes_eq_singleton hmore
  obtain rfl : lexeme = .modifier spec := hlexeme
  exact withoutModifier_of_ends _ hend

theorem product?_of_ends {rest : List Token} (h : Level.multiplicative.EndsAt rest) :
    ∀ t ∈ rest.head?, product? t.lexeme = none := by
  intro t ht
  have hnone := (Bool.or_eq_false_iff.1 (h t ht)).2
  exact Option.isNone_iff_eq_none.1 (Option.isSome_eq_false_iff.1 hnone)

theorem sum?_of_ends {rest : List Token} (h : Level.additive.EndsAt rest) :
    ∀ t ∈ rest.head?, sum? t.lexeme = none := by
  intro t ht
  have hnone := (Bool.or_eq_false_iff.1 (h t ht)).2
  exact Option.isNone_iff_eq_none.1 (Option.isSome_eq_false_iff.1 hnone)

/-- One more operand of a chain. -/
theorem chain_step {operation? : Lexeme → Option Operation} {operand : Parser Node} {l : Level}
    (ho : Sound operand l) {t : Token} {operation : Operation}
    (hop : operation? t.lexeme = some operation) {left right : Node} {vs rest : List Token}
    (hright : operand (vs ++ rest) = .ok (right, rest)) :
    chain operation? operand (t :: (vs ++ rest)).length left (t :: (vs ++ rest))
      = chain operation? operand rest.length (.binary operation left right) rest := by
  rw [List.length_cons, chain, hop]
  change (operand _ >>= _) = _
  rw [hright]
  exact chain_rounds ho (by simp) le_rfl

theorem reads_ofFactor {u : List Lexeme} {a : Node} (ha : ReadsWord .factor u a) :
    ReadsWord .multiplicative u a := by
  intro k used rest hused hk hend
  have hfactor : factor (conditional k) (used ++ rest) = .ok (a, rest) :=
    ha k used rest hused hk hend
  rw [multiplicative, hfactor]
  rfl

theorem reads_product {u v : List Lexeme} {a b : Node} {x : Lexeme} {operation : Operation}
    (ha : ReadsWord .multiplicative u a) (hx : Multiplies x operation)
    (hb : ReadsWord .factor v b) :
    ReadsWord .multiplicative (u ++ x :: v) (.binary operation a b) := by
  intro k used rest hused hk hend
  obtain ⟨us, both, rfl, hus, hboth⟩ := lexemes_eq_append hused
  obtain ⟨t, vs, rfl, ht, hvs⟩ := lexemes_eq_cons hboth
  simp only [List.length_cons, List.length_append] at hk
  rw [List.append_assoc, List.cons_append,
    ha k us _ hus (by omega) (Level.endsAt_cons.2 (ht ▸ hx.endsAt_factor))]
  exact chain_step (factor_sound (conditional_sound k)) (ht ▸ multiplies_iff.1 hx)
    (hb k vs rest hvs (by omega) hend)

/-- A word of products, read to its end. -/
theorem multiplicative_complete {v : List Lexeme} {b : Node} (hb : ReadsWord .multiplicative v b)
    {k : ℕ} {vs rest : List Token} (hvs : lexemes vs = v) (hk : v.length ≤ k + 1)
    (hend : Level.multiplicative.EndsAt rest) :
    multiplicative (conditional k) (vs ++ rest) = .ok (b, rest) :=
  (hb k vs rest hvs hk hend.toFactor).trans (chain_of_ends _ _ _ (product?_of_ends hend))

theorem reads_ofMultiplicative {u : List Lexeme} {a : Node} (ha : ReadsWord .multiplicative u a) :
    ReadsWord .additive u a := by
  intro k used rest hused hk hend
  rw [additive, multiplicative_complete ha hused hk hend]
  rfl

theorem reads_sum {u v : List Lexeme} {a b : Node} {x : Lexeme} {operation : Operation}
    (ha : ReadsWord .additive u a) (hx : Adds x operation)
    (hb : ReadsWord .multiplicative v b) :
    ReadsWord .additive (u ++ x :: v) (.binary operation a b) := by
  intro k used rest hused hk hend
  obtain ⟨us, both, rfl, hus, hboth⟩ := lexemes_eq_append hused
  obtain ⟨t, vs, rfl, ht, hvs⟩ := lexemes_eq_cons hboth
  simp only [List.length_cons, List.length_append] at hk
  rw [List.append_assoc, List.cons_append,
    ha k us _ hus (by omega) (Level.endsAt_cons.2 (ht ▸ hx.endsAt_multiplicative))]
  exact chain_step (multiplicative_sound (conditional_sound k)) (ht ▸ adds_iff.1 hx)
    (multiplicative_complete hb hvs (by omega) hend)

/-- A word of sums, read to its end. -/
theorem additive_complete {v : List Lexeme} {b : Node} (hb : ReadsWord .additive v b)
    {k : ℕ} {vs rest : List Token} (hvs : lexemes vs = v) (hk : v.length ≤ k + 1)
    (hend : Level.additive.EndsAt rest) :
    additive (conditional k) (vs ++ rest) = .ok (b, rest) :=
  (hb k vs rest hvs hk hend.toMultiplicative).trans (chain_of_ends _ _ _ (sum?_of_ends hend))

/-! ## 6. Comparisons and conditionals -/

theorem reads_ofAdditive {u : List Lexeme} {a : Node} (ha : ReadsWord .additive u a) :
    ReadsWord .comparison u a := by
  intro k used rest hused hk hend
  rw [comparison, additive_complete ha hused hk hend.toAdditive]
  cases rest with
  | nil => rfl
  | cons t rest =>
    obtain ⟨lexeme, o⟩ := t
    cases lexeme with
    | relation r => cases Level.endsAt_cons.1 hend
    | _ => rfl

theorem reads_comparison (relation : Relation) {u v : List Lexeme} {a b : Node}
    (ha : ReadsWord .additive u a) (hb : ReadsWord .additive v b) :
    ReadsWord .comparison (u ++ .relation relation :: v) (.comparison relation a b) := by
  intro k used rest hused hk hend
  obtain ⟨us, both, rfl, hus, hboth⟩ := lexemes_eq_append hused
  obtain ⟨⟨lexeme, o⟩, vs, rfl, hlexeme, hvs⟩ := lexemes_eq_cons hboth
  obtain rfl : lexeme = .relation relation := hlexeme
  simp only [List.length_cons, List.length_append] at hk
  rw [comparison, List.append_assoc, List.cons_append,
    additive_complete ha hus (by omega) (Level.endsAt_cons.2 rfl)]
  change (additive _ _ >>= _) = _
  rw [additive_complete hb hvs (by omega) hend.toAdditive]
  cases rest with
  | nil => rfl
  | cons t rest =>
    obtain ⟨lexeme, o'⟩ := t
    cases lexeme with
    | relation r => cases Level.endsAt_cons.1 hend
    | _ => rfl

/-- A level reads what its comparison reads, if there is something to read. -/
theorem level_eq (inner : Parser Node) {ts : List Token} (h : ts ≠ []) :
    level inner ts = comparison inner ts >>= fun p => match p.2 with
      | ⟨.symbol .question, _⟩ :: rest =>
        if p.1.isComparison then branches inner p.1 rest
        else .error (.conditionNotComparison (ts.headD ⟨.number 0, 0⟩).offset)
      | rest => .ok (p.1, rest) := by
  cases ts with
  | nil => exact absurd rfl h
  | cons t ts => rfl

theorem append_ne_nil_of_lexemes {used : List Token} {w : List Lexeme} (hused : lexemes used = w)
    (hw : w ≠ []) (rest : List Token) : used ++ rest ≠ [] := by
  rintro h
  rw [List.append_eq_nil_iff] at h
  rw [h.1] at hused
  exact hw hused.symm

theorem reads_ofComparison {u : List Lexeme} {a : Node} (hu : u ≠ [])
    (ha : ReadsWord .comparison u a) : ReadsWord .conditional u a := by
  intro k used rest hused hk hend
  have hcomparison : comparison (conditional k) (used ++ rest) = .ok (a, rest) :=
    ha k used rest hused hk hend.toComparison
  rw [conditional, level_eq _ (append_ne_nil_of_lexemes hused hu rest), hcomparison]
  cases rest with
  | nil => rfl
  | cons t rest =>
    obtain ⟨lexeme, o⟩ := t
    cases lexeme with
    | symbol s =>
      cases s with
      | question => cases Level.endsAt_cons.1 hend
      | _ => rfl
    | _ => rfl

theorem reads_conditional {u v w : List Lexeme} {c a b : Node} (hu : u ≠ []) (hv : v ≠ [])
    (hw : w ≠ []) (hc : ReadsWord .comparison u c) (hcond : c.isComparison = true)
    (ha : ReadsWord .conditional v a) (hb : ReadsWord .conditional w b) :
    ReadsWord .conditional (u ++ .symbol .question :: (v ++ .symbol .colon :: w))
      (.conditional c a b) := by
  intro k used rest hused hk hend
  obtain ⟨us, more, rfl, hus, hmore⟩ := lexemes_eq_append hused
  obtain ⟨⟨lexeme, o⟩, branch, rfl, hlexeme, hbranch⟩ := lexemes_eq_cons hmore
  obtain rfl : lexeme = .symbol .question := hlexeme
  obtain ⟨vs, more, rfl, hvs, hmore⟩ := lexemes_eq_append hbranch
  obtain ⟨⟨lexeme, o'⟩, ws, rfl, hlexeme, hws⟩ := lexemes_eq_cons hmore
  obtain rfl : lexeme = .symbol .colon := hlexeme
  simp only [List.length_cons, List.length_append] at hk
  have hupos := List.length_pos_iff.2 hu
  have hcomparison : comparison (conditional k)
      (us ++ ⟨.symbol .question, o⟩ :: (vs ++ ⟨.symbol .colon, o'⟩ :: (ws ++ rest)))
      = .ok (c, ⟨.symbol .question, o⟩ :: (vs ++ ⟨.symbol .colon, o'⟩ :: (ws ++ rest))) :=
    hc k us _ hus (by omega) (Level.endsAt_cons.2 rfl)
  have hyes : conditional k (vs ++ ⟨.symbol .colon, o'⟩ :: (ws ++ rest))
      = .ok (a, ⟨.symbol .colon, o'⟩ :: (ws ++ rest)) :=
    ha.nested hv hvs (by omega) (Level.endsAt_cons.2 rfl)
  have hno : conditional k (ws ++ rest) = .ok (b, rest) := hb.nested hw hws (by omega) hend
  have hassoc : us ++ ⟨.symbol .question, o⟩ :: (vs ++ ⟨.symbol .colon, o'⟩ :: ws) ++ rest
      = us ++ (⟨.symbol .question, o⟩ : Token)
          :: (vs ++ ⟨.symbol .colon, o'⟩ :: (ws ++ rest)) := by simp
  rw [conditional, hassoc, level_eq _ (append_ne_nil_of_lexemes hus hu _), hcomparison]
  change (if c.isComparison then branches (conditional k) c _ else _) = _
  rw [if_pos hcond, branches, hyes]
  change (conditional k (ws ++ rest) >>= _) = _
  rw [hno]
  rfl

/-! ## 7. Whole words -/

/-- **Every word of the grammar is read**, one case for each production. -/
theorem reads_of_derives {l : Level} {w : List Lexeme} {a : Node} (h : Derives l w a) :
    ReadsWord l w a := by
  induction h with
  | number value =>
    intro k used rest hused _
    obtain ⟨⟨lexeme, o⟩, rfl, rfl⟩ := lexemes_eq_singleton hused
    rfl
  | dice d =>
    intro k used rest hused _
    obtain ⟨⟨lexeme, o⟩, rfl, rfl⟩ := lexemes_eq_singleton hused
    rfl
  | reference id critical =>
    intro k used rest hused _
    obtain ⟨⟨lexeme, o⟩, rfl, rfl⟩ := lexemes_eq_singleton hused
    rfl
  | keep kind count ha hparts iha ihparts =>
    exact reads_keep ha.ne_nil iha fun part hpart =>
      ⟨(hparts part hpart).ne_nil, ihparts part hpart⟩
  | function name ha hb iha ihb => exact reads_function ha.ne_nil hb.ne_nil iha ihb
  | group ha ih => exact reads_group ha.ne_nil ih
  | double ha ih => exact reads_double ha.ne_nil ih
  | switch ha hb iha ihb => exact reads_switch ha.ne_nil hb.ne_nil iha ihb
  | only ha ih => exact reads_only ha.ne_nil ih
  | ofAtom _ ih => exact reads_ofAtom ih
  | modified d hm => exact reads_modified hm
  | ofFactor _ ih => exact reads_ofFactor ih
  | product _ hx _ iha ihb => exact reads_product iha hx ihb
  | ofMultiplicative _ ih => exact reads_ofMultiplicative ih
  | sum _ hx _ iha ihb => exact reads_sum iha hx ihb
  | ofAdditive _ ih => exact reads_ofAdditive ih
  | comparison relation _ _ iha ihb => exact reads_comparison relation iha ihb
  | ofComparison ha ih => exact reads_ofComparison ha.ne_nil ih
  | conditional hc hcond ha hb ihc iha ihb =>
    exact reads_conditional hc.ne_nil ha.ne_nil hb.ne_nil ihc hcond iha ihb

end Parser

end DiceOdds
