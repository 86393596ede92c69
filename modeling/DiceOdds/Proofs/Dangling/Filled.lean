import DiceOdds.Proofs.Counting.Results
import DiceOdds.Proofs.Doubles.AtLeastOne
import DiceOdds.Evaluation.OfFormula

/-!
# Dice have values in every arithmetic

A roll of dice has some value, with exact weights as well as with doubles: the weights of rolls are
built from `1` by sums and products, and so none of them is ever lost.

## Why nothing is said about the weights themselves

In doubles a weight past `2 ^ 53` is rounded, and a total may grow past every finite double.  What
is needed here is only that a weight stays positive, and for that it is enough that it stays at
least `1` (`CountingWeight`).
-/

namespace DiceOdds

/-! ## 1. Weights that count -/

/-- Arithmetic in which what is built from `1` by sums and products stays positive. -/
class CountingWeight (W : Type) [Weight W] where
  IsCount : W → Prop
  one : IsCount 1
  zero_add : ∀ {w : W}, IsCount w → IsCount (0 + w)
  add : ∀ {v w : W}, IsCount v → IsCount w → IsCount (v + w)
  mul : ∀ {v w : W}, IsCount v → IsCount w → IsCount (v * w)
  pos : ∀ {w : W}, IsCount w → 0 < w

instance : CountingWeight ℚ where
  IsCount w := 1 ≤ w
  one := le_refl (1 : ℚ)
  zero_add {w} h := by rwa [zero_add (M := ℚ)]
  add {v w} hv hw := by
    have : (1 : ℚ) ≤ v + w := by linarith
    exact this
  mul {v w} hv hw := by
    have : (1 : ℚ) ≤ v * w := one_le_mul_of_one_le_of_one_le hv hw
    exact this
  pos {w} h := lt_of_lt_of_le (zero_lt_one' ℚ) h

instance : CountingWeight Float where
  IsCount := AtLeastOne
  one := atLeastOne_one
  zero_add := AtLeastOne.zero_add
  add := AtLeastOne.add
  mul := AtLeastOne.mul
  pos := AtLeastOne.pos

open CountingWeight

/-! ## 2. Loops that fill -/

section Loops

variable {α σ ε : Type}

/-- A loop fills its state if each of its steps does, and there is a step. -/
theorem foldl_fills (step : σ → α → σ) (I P : σ → Prop) {l : List α} (hne : l ≠ []) {s : σ}
    (hs : I s) (hI : ∀ s, P s → I s) (h : ∀ s, ∀ a ∈ l, I s → P (step s a)) :
    P (l.foldl step s) := by
  cases l with
  | nil => exact absurd rfl hne
  | cons a l =>
    rw [List.foldl_cons]
    exact foldl_invariant step P l (h s a (.head _) hs) fun t b hb ht =>
      h t b (.tail _ hb) (hI t ht)

theorem foldlM_fills (step : σ → α → Except ε σ) (I P : σ → Prop) {l : List α} (hne : l ≠ [])
    {s s' : σ} (hl : l.foldlM step s = .ok s') (hs : I s) (hI : ∀ s, P s → I s)
    (h : ∀ s s', ∀ a ∈ l, I s → step s a = .ok s' → P s') : P s' := by
  cases l with
  | nil => exact absurd rfl hne
  | cons a l =>
    rw [List.foldlM_cons] at hl
    obtain ⟨t, ht, hl⟩ := bind_eq_ok.1 hl
    exact foldlM_invariant step P l hl (h s t a (.head _) hs ht) fun t t' b hb hPt =>
      h t t' b (.tail _ hb) (hI t hPt)

end Loops

variable {W : Type} [Weight W] [CountingWeight W]

/-! ## 3. Tables of weights -/

section Tables

variable {κ : Type} [Ord κ] [Std.TransOrd κ] [Std.LawfulEqOrd κ] {t : Std.TreeMap κ W}

/-- All weights count something. -/
def Counted (t : Std.TreeMap κ W) : Prop := ∀ p ∈ t.toList, IsCount p.2

/-- There are weights, and all of them count something. -/
structure Filled (t : Std.TreeMap κ W) : Prop where
  ne_nil : t.toList ≠ []
  counted : Counted t

omit [Std.TransOrd κ] [Std.LawfulEqOrd κ] in
theorem counted_empty : Counted (∅ : Std.TreeMap κ W) := by
  intro p hp
  cases hp

/-- A count that is put into a table or added to a weight fills the table. -/
theorem Counted.alter (h : Counted t) (k : κ) {w : W} (hw : IsCount w) :
    Filled (t.alter k fun old => some (old.getD 0 + w)) where
  ne_nil hnil := by
    have hget : (t.alter k fun old => some (old.getD 0 + w))[k]? = some ((t[k]?).getD 0 + w) := by
      rw [Std.TreeMap.getElem?_alter_self]
    have hmem := Std.TreeMap.mem_toList_iff_getElem?_eq_some.2 hget
    rw [hnil] at hmem
    cases hmem
  counted p hp := by
    have hget := Std.TreeMap.mem_toList_iff_getElem?_eq_some.1 hp
    rw [Std.TreeMap.getElem?_alter] at hget
    split at hget
    · rw [← Option.some.inj hget]
      cases hold : t[k]? with
      | none => exact zero_add hw
      | some old => exact add (h _ (Std.TreeMap.mem_toList_iff_getElem?_eq_some.2 hold)) hw
    · exact h p (Std.TreeMap.mem_toList_iff_getElem?_eq_some.2 hget)

theorem filled_insert (k : κ) : Filled ((∅ : Std.TreeMap κ W).insert k 1) where
  ne_nil hnil := by
    have hmem := Std.TreeMap.mem_toList_iff_getElem?_eq_some.2
      (Std.TreeMap.getElem?_insert_self (t := (∅ : Std.TreeMap κ W)) (k := k) (v := 1))
    rw [hnil] at hmem
    cases hmem
  counted p hp := by
    have hget := Std.TreeMap.mem_toList_iff_getElem?_eq_some.1 hp
    rw [Std.TreeMap.getElem?_insert] at hget
    split at hget
    · rw [← Option.some.inj hget]
      exact one
    · rw [Std.TreeMap.getElem?_emptyc] at hget
      cases hget

end Tables

/-! ## 4. Distributions -/

namespace Distribution

variable {d x y z : Distribution W}

/-- Something can happen, and all weights count something. -/
def Filled (d : Distribution W) : Prop := DiceOdds.Filled d.weights

/-- All weights count something. -/
def Counted (d : Distribution W) : Prop := DiceOdds.Counted d.weights

theorem Filled.counted (h : d.Filled) : d.Counted := DiceOdds.Filled.counted h

theorem counted_empty : (empty : Distribution W).Counted := DiceOdds.counted_empty

theorem Counted.add (h : d.Counted) (v : Outcome) {w : W} (hw : IsCount w) : (d.add v w).Filled := by
  rw [Distribution.add, if_pos (pos hw)]
  exact DiceOdds.Counted.alter h v hw

theorem filled_point (v : Outcome) : (point v 1 : Distribution W).Filled :=
  counted_empty.add v one

theorem filled_ofList {l : List (Outcome × W)} (hne : l ≠ []) (h : ∀ p ∈ l, IsCount p.2) :
    (ofList l).Filled :=
  foldl_fills _ Counted Filled hne counted_empty (fun _ => Filled.counted)
    fun _ p hp hs => hs.add p.1 (h p hp)

/-- The total of weights that count something counts something. -/
theorem Filled.isCount_total (h : d.Filled) : IsCount d.total := by
  obtain ⟨hne, hcount⟩ := h
  rw [total, Weight.sum]
  obtain ⟨p, rest, hlist⟩ := List.exists_cons_of_ne_nil hne
  have hlist' : d.toList = p :: rest := hlist
  rw [hlist', List.map_cons, List.foldl_cons]
  have hall : ∀ q ∈ p :: rest, IsCount q.2 := hlist ▸ hcount
  refine foldl_invariant _ IsCount _ (zero_add (hall p (.head _))) fun s w hw hs => ?_
  obtain ⟨q, hq, rfl⟩ := List.mem_map.1 hw
  exact CountingWeight.add hs (hall q (.tail _ hq))

theorem Filled.tryMap {ε : Type} {f : Outcome → Except ε Outcome} (h : d.Filled)
    (hz : d.tryMap f = .ok z) : z.Filled := by
  refine foldlM_fills _ Counted Filled h.ne_nil hz counted_empty (fun _ => Filled.counted) ?_
  intro s s' p hp hs hstep
  obtain ⟨v, -, hstep⟩ := bind_eq_ok.1 hstep
  rw [← pure_eq_ok.1 hstep]
  exact hs.add v (h.counted p hp)

theorem Counted.addScaled (hd : d.Counted) (hx : x.Filled) : (d.addScaled x 1).Filled :=
  foldl_fills _ Counted Filled hx.ne_nil hd (fun _ => Filled.counted) fun _ p hp hs =>
    hs.add p.1 (mul (hx.counted p hp) one)

theorem Filled.combine {ε : Type} {op : Outcome → Outcome → Except ε Outcome} (hx : x.Filled)
    (hy : y.Filled) (hz : x.combine y op = .ok z) : z.Filled := by
  refine foldlM_fills _ Counted Filled hx.ne_nil hz counted_empty (fun _ => Filled.counted) ?_
  intro s s' p hp hs hstep
  refine foldlM_fills _ Counted Filled hy.ne_nil hstep hs (fun _ => Filled.counted) ?_
  intro t t' q hq ht hinner
  obtain ⟨v, -, hinner⟩ := bind_eq_ok.1 hinner
  rw [← pure_eq_ok.1 hinner]
  exact ht.add v (mul (hx.counted p hp) (hy.counted q hq))

omit [CountingWeight W] in
theorem eq_of_checkWeights (h : d.checkWeights = .ok z) : d = z := by
  unfold checkWeights at h
  split at h
  · exact Except.ok.inj h
  · cases h

theorem Filled.convolve (hx : x.Filled) (hy : y.Filled) (hz : x.convolve y = .ok z) :
    z.Filled := by
  obtain ⟨sums, hsums, hz⟩ := bind_eq_ok.1 hz
  exact eq_of_checkWeights hz ▸ hx.combine hy hsums

theorem Filled.of_addCopies (n : ℕ) {sum base r : Distribution W} (hsum : sum.Filled)
    (hbase : base.Filled) (hr : addCopies sum base n = .ok r) : r.Filled := by
  induction n using Nat.strong_induction_on generalizing sum base with
  | _ n ih =>
    rw [addCopies] at hr
    split at hr
    · rwa [← pure_eq_ok.1 hr]
    · next hn =>
      have hrest : ∀ {next : Distribution W}, next.Filled → (if n / 2 = 0 then pure next
          else base.convolve base >>= fun twice => addCopies next twice (n / 2)) = .ok r →
          r.Filled := by
        intro next hnext hr
        split at hr
        · rwa [← pure_eq_ok.1 hr]
        · obtain ⟨twice, htwice, hr⟩ := bind_eq_ok.1 hr
          exact ih (n / 2) (by omega) hnext (hbase.convolve hbase htwice) hr
      dsimp only at hr
      split at hr
      · obtain ⟨next, hnext, hr⟩ := bind_eq_ok.1 hr
        exact hrest (hsum.convolve hbase hnext) hr
      · exact hrest hsum hr

theorem Filled.sumOfCopies {n : ℕ} (hd : d.Filled) (hz : d.sumOfCopies n = .ok z) : z.Filled :=
  Filled.of_addCopies n (filled_point 0) hd hz

/-! ## 5. One die -/

theorem faces_ne_nil {sides : ℕ} (h : sides ≠ 0) :
    (faces sides).filter (fun _ => true) ≠ [] := by
  rw [List.filter_true, faces, Ne, List.range'_eq_nil_iff]
  exact h

theorem filled_ones {sides : ℕ} (h : sides ≠ 0) (value : ℕ → Outcome) :
    (ofList (((faces sides).filter fun _ => true).map fun face => (value face, (1 : W)))).Filled := by
  refine filled_ofList (by simpa using faces_ne_nil h) fun p hp => ?_
  obtain ⟨face, -, rfl⟩ := List.mem_map.1 hp
  exact one

theorem filled_ofFaces {sides : ℕ} (h : sides ≠ 0) :
    (ofFaces sides fun _ => true : Distribution W).Filled :=
  filled_ones h fun face => Outcome.ofInt face

theorem filled_dicePool {count sides : ℕ} (h : sides ≠ 0) (hz : dicePool count sides = .ok z) :
    z.Filled :=
  (filled_ofFaces h).sumOfCopies hz

namespace Chain

variable {c : Chain} {level : Distribution W}

theorem filled_addFace (hlevel : level.Filled) (hx : x.Counted) {face : ℕ}
    (hz : c.addFace level level.total x face = .ok z) : z.Filled := by
  unfold addFace at hz
  split at hz
  · split at hz
    · obtain ⟨moved, hmoved, hz⟩ := bind_eq_ok.1 hz
      rw [← pure_eq_ok.1 hz]
      exact hx.addScaled (hlevel.tryMap hmoved)
    · cases hz
      exact hx.addScaled hlevel
  · cases hz
    exact hx.add _ hlevel.isCount_total

theorem filled_grow (hsides : c.sides ≠ 0) (hlevel : level.Filled)
    (hz : c.grow (fun _ => true) level = .ok z) : z.Filled := by
  obtain ⟨next, hnext, hz⟩ := bind_eq_ok.1 hz
  refine eq_of_checkWeights hz ▸ foldlM_fills _ Counted Filled (faces_ne_nil hsides) hnext
    counted_empty (fun _ => Filled.counted) ?_
  exact fun _ _ _ _ hx hstep => filled_addFace hlevel hx hstep

theorem filled_growTimes (hsides : c.sides ≠ 0) {n : ℕ} (hlevel : level.Filled)
    (hz : c.growTimes n level = .ok z) : z.Filled := by
  induction n generalizing level with
  | zero => cases hz; exact hlevel
  | succ n ih =>
    obtain ⟨next, hnext, hz⟩ := bind_eq_ok.1 hz
    exact ih (filled_grow hsides hlevel hnext) hz

theorem filled_run (hsides : c.sides ≠ 0) {limit : ℕ}
    (hz : c.run limit (fun _ => true) = .ok z) : z.Filled := by
  have hlast : (c.lastRoll fun _ => true : Distribution W).Filled := filled_ones hsides c.value
  unfold run at hz
  split at hz
  · rw [single, if_pos rfl] at hz
    dsimp only at hz
    split at hz
    · cases hz
      exact filled_point _
    · cases hz
  · split at hz
    · cases hz
      exact hlast
    · obtain ⟨level, hlevel, hz⟩ := bind_eq_ok.1 hz
      exact filled_grow hsides (filled_growTimes hsides hlast hlevel) hz

end Chain

theorem filled_rerolled {sides limit : ℕ} {range : FaceRange} (h : sides ≠ 0)
    (hz : rerolled sides range limit (fun _ => true) = .ok z) : z.Filled := by
  obtain ⟨all, hall, hz⟩ := bind_eq_ok.1 hz
  have hfilled := Chain.filled_run (c := ⟨sides, _, _, _⟩) h hall
  have hlist : z.weights.toList = all.weights.toList := by
    rw [← pure_eq_ok.1 hz, filter, Std.TreeMap.toList_filter, List.filter_true]
  constructor
  · rw [hlist]; exact hfilled.ne_nil
  · intro p hp
    exact hfilled.counted p (hlist ▸ hp)

/-! ## 6. Kept dice -/

theorem filled_keepEach {kind : KeepKind} {count : ℕ} (hx : x.Filled)
    {states : KeepStates W} (hs : DiceOdds.Counted states) (kept : List Outcome) {w : W}
    (hw : IsCount w) : DiceOdds.Filled (keepEach kind count x.toList states kept w) :=
  foldl_fills _ DiceOdds.Counted DiceOdds.Filled hx.ne_nil hs (fun _ => DiceOdds.Filled.counted)
    fun _ p hp hs => hs.alter _ (mul hw (hx.counted p hp))

theorem filled_keepItem {kind : KeepKind} {count : ℕ} (hx : x.Filled)
    {states states' : KeepStates W} (hs : DiceOdds.Filled states)
    (h : keepItem kind count states x = .ok states') : DiceOdds.Filled states' := by
  refine foldlM_fills _ DiceOdds.Counted DiceOdds.Filled hs.ne_nil h DiceOdds.counted_empty
    (fun _ => DiceOdds.Filled.counted) fun next next' p hp hnext hstep => ?_
  dsimp only at hstep
  split at hstep
  · cases hstep
  · cases hstep
    exact filled_keepEach hx hnext p.1 (hs.counted p hp)

theorem filled_ofKeepStates {states : KeepStates W} (hs : DiceOdds.Filled states)
    (h : ofKeepStates states = .ok z) : z.Filled := by
  refine foldlM_fills _ Counted Filled hs.ne_nil h counted_empty (fun _ => Filled.counted)
    fun out out' p hp hout hstep => ?_
  dsimp only at hstep
  split at hstep
  · cases hstep
    exact hout.add _ (hs.counted p hp)
  · cases hstep

theorem filled_keep {items : List (Distribution W)} {count : ℕ} {kind : KeepKind}
    (h : ∀ item ∈ items, item.Filled) (hz : keep items count kind = .ok z) : z.Filled := by
  unfold keep at hz
  split at hz
  · exact foldlM_invariant _ Filled items hz (filled_point 0) fun _ _ item hitem hs hstep =>
      hs.convolve (h item hitem) hstep
  · obtain ⟨states, hstates, hz⟩ := bind_eq_ok.1 hz
    obtain ⟨sums, hsums, hz⟩ := bind_eq_ok.1 hz
    have hfilled : DiceOdds.Filled states :=
      foldlM_invariant _ DiceOdds.Filled items hstates (filled_insert _)
        fun _ _ item hitem hs hstep => filled_keepItem (h item hitem) hs hstep
    exact eq_of_checkWeights hz ▸ filled_ofKeepStates hfilled hsums

end Distribution

/-! ## 7. Groups of dice -/

variable {s : Settings W}

omit [CountingWeight W] in
/-- Where nothing is left out all faces are shown. -/
theorem Settings.admits_all (d : Dice) : s.admits {} d = fun _ => true := by
  unfold admits
  split <;> rfl

theorem Settings.filled_die {d : Dice} (h : d.sides ≠ 0) {modifier : Option Modifier}
    {die : Distribution W} (hdie : s.die {} d modifier = .ok die) : die.Filled := by
  have hsides : d.sides.toNat ≠ 0 := fun hzero => h (UInt32.toNat_inj.1 hzero)
  unfold Settings.die at hdie
  rw [admits_all] at hdie
  dsimp only at hdie
  split at hdie
  · cases hdie
    exact Distribution.filled_ofFaces hsides
  · exact Distribution.filled_rerolled hsides hdie
  · exact Distribution.Chain.filled_run (c := ⟨d.sides.toNat, _, _, _⟩) hsides hdie

/-- A literal with sides is some number of dice with values. -/
theorem Node.filled_die? {d : Dice} (h : d.sides ≠ 0) {id : Option ℕ} {modifier : Option Modifier}
    {found : Option (Distribution W × ℕ)} (hfound : (dice d id modifier).die? s {} = .ok found) :
    ∃ die, found = some (die, d.count.toNat) ∧ die.Filled := by
  have hrolled : (({} : Context).pinned.isSome && id.isSome) = false := rfl
  rw [die?, hrolled, if_neg Bool.false_ne_true] at hfound
  obtain ⟨die, hdie, hfound⟩ := bind_eq_ok.1 hfound
  exact ⟨die, (pure_eq_ok.1 hfound).symm, s.filled_die h (orBlame_eq_ok.1 hdie)⟩

/-- **The node that defines a group of dice has values.** -/
theorem Node.filled_values {node : Node} {id : ℕ} (hid : node.definingId? = some id)
    (hsides : ∀ n ∈ node.subterms, ∀ d, n.literal? = some d → d.sides ≠ 0) {z : Distribution W}
    (hz : node.values s {} = .ok z) : z.Filled := by
  obtain ⟨e, he, hz⟩ := bind_eq_ok.1 hz
  rw [← pure_eq_ok.1 hz]
  cases node with
  | dice d i modifier =>
    have hd : d.sides ≠ 0 := hsides _ (mem_subterms_self _) d rfl
    rw [evaluate, walk] at he
    obtain ⟨x, hx, he⟩ := bind_eq_ok.1 he
    obtain ⟨found, hfound, hx⟩ := bind_eq_ok.1 hx
    obtain ⟨die, rfl, hdie⟩ := filled_die? hd hfound
    rw [← pure_eq_ok.1 he]
    exact hdie.sumOfCopies (orBlame_eq_ok.1 hx)
  | keep kind count items =>
    obtain ⟨item, rfl⟩ : ∃ item, items = [item] := by
      unfold definingId? at hid
      split at hid
      · next heq => exact ⟨_, (keep.inj heq).2.2⟩
      · cases hid
    cases item with
    | dice d i modifier =>
      have hd : d.sides ≠ 0 := hsides (dice d i modifier) (by simp [subterms, subtermsAll]) d rfl
      rw [evaluate, walk] at he
      obtain ⟨found, hfound, he⟩ := bind_eq_ok.1 he
      obtain ⟨die, rfl, hdie⟩ := filled_die? hd hfound
      obtain ⟨values, hvalues, he⟩ := bind_eq_ok.1 he
      obtain ⟨kept, hkept, he⟩ := bind_eq_ok.1 he
      rw [← pure_eq_ok.1 he]
      rw [← pure_eq_ok.1 hvalues] at hkept
      refine Distribution.filled_keep (fun x hx => ?_) (orBlame_eq_ok.1 hkept)
      rwa [List.eq_of_mem_replicate hx]
    | _ => cases hid
  | _ => cases hid

end DiceOdds
