import DiceOdds.Proofs.Critical.Refines
import DiceOdds.Proofs.Critical.Threshold
import DiceOdds.Proofs.Mixing.Blend

/-!
# No face is critical at a rate of zero

At a rate of zero the threshold of a die is one above its highest face, where there is such a number
(`Dice.Fits`).  So leaving critical faces out leaves nothing out, and dice are the same as with
critical hits turned off.

## Why two kinds of readings are left alone

A reading with critical hits off has no faces to leave out and no checks to split.  The same is true
of a reading without critical faces at a rate of zero.  Everything is compared with one of these two
(`Settings.Calm`): with the first to say what a rate of zero does, with the second to say that a
second reading of a check finds nothing.
-/

namespace DiceOdds

variable {s s₀ : Settings ℚ} {ctx ctx' : Context}

namespace Settings

/-- The same settings with critical hits off. -/
def withoutRate (s : Settings ℚ) : Settings ℚ := { s with rate := none }

/-- A reading in which no check is split and no face is left out: one with critical hits off, or one
without critical faces at a rate of zero. -/
structure Calm (s₀ s : Settings ℚ) (ctx : Context) : Prop where
  registry : s₀.registry = s.registry
  mixing : s₀.mixing = s.mixing
  rate : s₀.rate = none ∨ s₀.rate = some 0 ∧ ctx.restrictCritical = true

theorem calm_withoutRate (s : Settings ℚ) (ctx : Context) : s.withoutRate.Calm s ctx :=
  ⟨rfl, rfl, .inl rfl⟩

theorem calm_restricted (hrate : s.rate = some 0) (ctx : Context) : s.Calm s ctx.restricted :=
  ⟨rfl, rfl, .inr ⟨hrate, rfl⟩⟩

theorem Calm.unpinned (h : s₀.Calm s ctx) : s₀.Calm s ctx.unpinned := ⟨h.registry, h.mixing, h.rate⟩

theorem Calm.unsplit (h : s₀.Calm s ctx) :
    (s₀.rate.isSome && ctx.pinned.isNone && !ctx.restrictCritical) = false := by
  rcases h.rate with hnone | ⟨-, hrestricted⟩
  · rw [hnone, Option.isSome_none, Bool.false_and, Bool.false_and]
  · rw [hrestricted, Bool.not_true, Bool.and_false]

end Settings

/-! ## 1. No face is critical -/

theorem criticalFaces_zero (sides : ℕ) : criticalFaces (0 : ℚ) sides = 0 := by
  have hnearest : Weight.nearest? ((sides : ℚ) * 0 / ((100 : ℕ) : ℚ)) = some 0 := by
    rw [mul_zero, zero_div, ← Nat.cast_zero]
    exact congrArg some (nearestOfRat_natCast 0)
  unfold criticalFaces
  simp only [hnearest, Int.toNat_zero, Nat.zero_min]

theorem criticalThreshold_zero {d : Dice} (h : d.Fits) :
    criticalThreshold (0 : ℚ) d.sides.toNat = d.sides.toNat + 1 := by
  rw [criticalThreshold_eq (h.fitsAt 0), criticalFaces_zero, Nat.sub_zero]

/-- No roll of a pool has a critical die. -/
theorem atLeastOneCritical_zero (d : Dice) : atLeastOneCritical (0 : ℚ) d = 0 := by
  have hshare : d.countedShare 0 = 0 := by
    rw [Dice.countedShare, criticalShare, criticalFaces_zero, Nat.cast_zero, zero_div, ite_self]
  rw [atLeastOneCritical_eq, hshare, sub_zero, one_pow, sub_self]

/-- All dice of a tree fit. -/
def Node.Fits (node : Node) : Prop := ∀ p ∈ node.pools, p.dice.Fits

instance (node : Node) : Decidable node.Fits :=
  inferInstanceAs (Decidable (∀ p ∈ node.pools, p.dice.Fits))

theorem Node.Fits.of_mem {node n : Node} (h : node.Fits) (hn : n ∈ node.subterms) : n.Fits := by
  intro p hp
  obtain ⟨m, hm, hpool⟩ := List.mem_filterMap.1 hp
  exact h p (List.mem_filterMap.2 ⟨m, subterms_subset_of_mem hn hm, hpool⟩)

theorem Node.Fits.part {node part : Node} (h : node.Fits) (hpart : part ∈ node.parts) : part.Fits :=
  h.of_mem (subterms_subset_of_mem_parts hpart part.mem_subterms_self)

theorem Node.Fits.dice {d : Dice} {id : Option ℕ} {modifier : Option Modifier}
    (h : (Node.dice d id modifier).Fits) : d.Fits :=
  h ⟨d, modifier⟩ (by rw [pools_dice]; exact List.mem_singleton_self _)

namespace Settings

theorem admits_of_le (hrate : s.rate = some 0) {d : Dice} (hfits : d.Fits) {face : ℕ}
    (h : face ≤ d.sides.toNat) : s.admits ctx d face = true := by
  unfold admits
  rw [hrate]
  dsimp only
  split
  · rw [criticalThreshold_zero hfits]
    exact decide_eq_true (Nat.lt_succ_of_le h)
  · rfl

theorem Calm.admits (h₀ : s₀.Calm s ctx) {d : Dice} (hfits : d.Fits) {face : ℕ}
    (h : face ≤ d.sides.toNat) : s₀.admits ctx d face = true := by
  rcases h₀.rate with hnone | ⟨hzero, -⟩
  · rw [Settings.admits, hnone]
  · exact admits_of_le hzero hfits h

end Settings

theorem Pool.decidingFace_le {p : Pool} {roll : DieRoll} (h : roll ∈ p.dieRolls) :
    p.decidingFace roll ≤ p.dice.sides.toNat :=
  ((mem_dieRolls.1 h).2 _ (decidingFace_mem h)).2

/-- One die is the same at a rate of zero and without a rate, marked or not. -/
theorem toList_die (hrate : s.rate = some 0) (h₀ : s₀.Calm s ctx) {d d' : Dice}
    (hd : { d' with critical := false } = { d with critical := false }) (hfits : d.Fits)
    {modifier : Option Modifier} {die die' : Distribution ℚ}
    (h' : s.die ctx' d' modifier = .ok die') (h : s₀.die ctx d modifier = .ok die) :
    die'.toList = die.toList := by
  have hsides : d'.sides = d.sides := (congrArg Dice.sides hd :)
  have hfits' : d'.Fits := by
    rw [Dice.Fits, hsides]
    exact hfits
  refine Distribution.toList_eq_of_weightOf (positive_die h') (positive_die h) fun v => ?_
  have hall' : ((⟨d', modifier⟩ : Pool).dieRolls.filter fun roll =>
      s.admits ctx' d' ((⟨d', modifier⟩ : Pool).decidingFace roll))
        = (⟨d', modifier⟩ : Pool).dieRolls :=
    List.filter_eq_self.2 fun roll hroll =>
      Settings.admits_of_le hrate hfits' (Pool.decidingFace_le hroll)
  have hall : ((⟨d, modifier⟩ : Pool).dieRolls.filter fun roll =>
      s₀.admits ctx d ((⟨d, modifier⟩ : Pool).decidingFace roll))
        = (⟨d, modifier⟩ : Pool).dieRolls :=
    List.filter_eq_self.2 fun roll hroll => h₀.admits hfits (Pool.decidingFace_le hroll)
  rw [(counts_die (p := ⟨d', modifier⟩) h').weightOf_eq,
    (counts_die (p := ⟨d, modifier⟩) h).weightOf_eq, hall', hall]
  obtain ⟨count, sides, critical⟩ := d
  obtain ⟨count', sides', critical'⟩ := d'
  obtain ⟨rfl, rfl⟩ : count' = count ∧ sides' = sides := by simpa using hd
  rfl

/-! ## 2. Only stored weights matter -/

namespace Distribution

variable {x y : Distribution ℚ}

theorem convolve_congr (h : x.toList = y.toList) (z : Distribution ℚ) :
    z.convolve x = z.convolve y := by
  unfold convolve combine
  rw [h]

theorem sumOfCopies_congr (h : x.toList = y.toList) (n : ℕ) :
    x.sumOfCopies n = y.sumOfCopies n := by
  have htwice : x.convolve x = y.convolve y := by
    unfold convolve combine
    rw [h]
  rw [sumOfCopies, sumOfCopies, addCopies, addCopies, htwice, convolve_congr h]

theorem keep_replicate_congr (h : x.toList = y.toList) (n count : ℕ) (kind : KeepKind) :
    keep (List.replicate n x) count kind = keep (List.replicate n y) count kind := by
  have hfold : ∀ {σ : Type} (f : σ → Distribution ℚ → Except Exceeded σ), (∀ t, f t x = f t y) →
      ∀ t, (List.replicate n x).foldlM f t = (List.replicate n y).foldlM f t := by
    intro σ f hf
    induction n with
    | zero => exact fun _ => rfl
    | succ n ih => simp only [List.replicate_succ, List.foldlM_cons, hf, ih, implies_true]
  have hitem : ∀ states, keepItem kind count states x = keepItem kind count states y := by
    intro states
    unfold keepItem
    rw [h]
  unfold keep
  rw [List.length_replicate, List.length_replicate, hfold _ (fun z => convolve_congr h z),
    hfold _ hitem]

theorem clamp_congr (h : x.toList = y.toList) (name : FunctionName) (threshold : Outcome) :
    x.clamp name threshold = y.clamp name threshold := by
  unfold clamp map
  rw [h]

/-- Functions that agree where both succeed. -/
theorem tryMap_agree {ε : Type} {d a b : Distribution ℚ} {f g : Outcome → Except ε Outcome}
    (hfg : ∀ v c c', f v = .ok c → g v = .ok c' → c = c') (hf : d.tryMap f = .ok a)
    (hg : d.tryMap g = .ok b) : a = b := by
  refine foldlM_agree _ _ _ hf hg fun out p _ a b ha hb => ?_
  obtain ⟨c, hc, ha⟩ := bind_eq_ok.1 ha
  obtain ⟨c', hc', hb⟩ := bind_eq_ok.1 hb
  rw [← pure_eq_ok.1 ha, ← pure_eq_ok.1 hb, hfg p.1 c c' hc hc']

theorem combine_agree {ε : Type} {a b : Distribution ℚ}
    {f g : Outcome → Outcome → Except ε Outcome}
    (hfg : ∀ u v c c', f u v = .ok c → g u v = .ok c' → c = c') (hf : x.combine y f = .ok a)
    (hg : x.combine y g = .ok b) : a = b := by
  refine foldlM_agree _ _ _ hf hg fun out p _ a b ha hb => ?_
  refine foldlM_agree _ _ _ ha hb fun out q _ a b ha hb => ?_
  obtain ⟨c, hc, ha⟩ := bind_eq_ok.1 ha
  obtain ⟨c', hc', hb⟩ := bind_eq_ok.1 hb
  rw [← pure_eq_ok.1 ha, ← pure_eq_ok.1 hb, hfg p.1 q.1 c c' hc hc']

theorem clampEachGivenTotal_congr (h : x.toList = y.toList) (count : ℕ) (name : FunctionName)
    (threshold total : Outcome) :
    x.clampEachGivenTotal count name threshold total
      = y.clampEachGivenTotal count name threshold total := by
  unfold clampEachGivenTotal min? max?
  rw [h]

end Distribution

/-! ## 3. Dice in trees that differ in marks -/

namespace Node

theorem definingId?_withoutMarks (node : Node) :
    node.withoutMarks.definingId? = node.definingId? := by
  cases node with
  | keep kind count items =>
    rcases items with _ | ⟨item, _ | ⟨_, _⟩⟩
    · rfl
    · cases item <;> rfl
    · rfl
  | _ => rfl

theorem pinnedValue?_eq {node node' : Node} (hpinned : ctx'.pinned = ctx.pinned)
    (hmarks : node'.withoutMarks = node.withoutMarks) :
    ctx'.pinnedValue? node' = ctx.pinnedValue? node := by
  unfold Context.pinnedValue?
  rw [hpinned, ← definingId?_withoutMarks node', hmarks, definingId?_withoutMarks]

section Calm

variable (hrate : s.rate = some 0) (h₀ : s₀.Calm s ctx) (hpinned : ctx'.pinned = ctx.pinned)

include hrate h₀ hpinned

/-- The die of a literal in parentheses. -/
theorem die?_calm : ∀ (node node' : Node) {found found' : Option (Distribution ℚ × ℕ)},
    node'.withoutMarks = node.withoutMarks → node.Fits → node'.die? s ctx' = .ok found' →
    node.die? s₀ ctx = .ok found →
    found' = none ∧ found = none ∨ ∃ die' die n, found' = some (die', n) ∧ found = some (die, n)
      ∧ die'.toList = die.toList := by
  intro node
  induction node using stripGroups.induct with
  | case1 inner ih =>
    intro node' found found' hmarks hfits h' h
    cases node' <;> simp only [withoutMarks, reduceCtorEq, group.injEq] at hmarks
    exact ih _ hmarks hfits h' h
  | case2 node hnode =>
    intro node' found found' hmarks hfits h' h
    cases node with
    | group inner => exact absurd rfl (hnode inner)
    | dice d id modifier =>
      cases node' <;> simp only [withoutMarks, reduceCtorEq, dice.injEq] at hmarks
      obtain ⟨hd, rfl, rfl⟩ := hmarks
      rw [die?] at h h'
      rw [hpinned] at h'
      split at h
      · next hgiven =>
        rw [if_pos hgiven] at h'
        cases h
        cases h'
        exact .inl ⟨rfl, rfl⟩
      · next hrolled =>
        rw [if_neg hrolled] at h'
        obtain ⟨die, hdie, h⟩ := bind_eq_ok.1 h
        obtain ⟨die', hdie', h'⟩ := bind_eq_ok.1 h'
        have hcount := congrArg Dice.count hd
        dsimp only at hcount
        rw [hcount] at h'
        exact .inr ⟨die', die, d.count.toNat, (pure_eq_ok.1 h').symm, (pure_eq_ok.1 h).symm,
          toList_die hrate h₀ hd hfits.dice (orBlame_eq_ok.1 hdie') (orBlame_eq_ok.1 hdie)⟩
    | _ =>
      cases node' <;> simp only [withoutMarks, reduceCtorEq] at hmarks
      all_goals
        cases h
        cases h'
        exact .inl ⟨rfl, rfl⟩

theorem onlyDie?_calm {items items' : List Node} {found found' : Option (Distribution ℚ × ℕ)}
    (hmarks : withoutMarksAll items' = withoutMarksAll items) (hfits : ∀ item ∈ items, item.Fits)
    (h' : onlyDie? s ctx' items' = .ok found') (h : onlyDie? s₀ ctx items = .ok found) :
    found' = none ∧ found = none ∨ ∃ die' die n, found' = some (die', n) ∧ found = some (die, n)
      ∧ die'.toList = die.toList := by
  rcases items with _ | ⟨item, _ | ⟨_, _⟩⟩ <;> rcases items' with _ | ⟨item', _ | ⟨_, _⟩⟩ <;>
    simp only [withoutMarksAll, reduceCtorEq, List.cons.injEq, and_true, and_false] at hmarks
  · cases h
    cases h'
    exact .inl ⟨rfl, rfl⟩
  · exact die?_calm hrate h₀ hpinned item item' hmarks (hfits item (by simp)) h' h
  · cases h
    cases h'
    exact .inl ⟨rfl, rfl⟩

theorem roll_calm {node node' : Node} {x x' : Distribution ℚ}
    (hmarks : node'.withoutMarks = node.withoutMarks) (hfits : node.Fits)
    (h' : s.roll ctx' node' = .ok x') (h : s₀.roll ctx node = .ok x) : x' = x := by
  obtain ⟨found, hfound, h⟩ := bind_eq_ok.1 h
  obtain ⟨found', hfound', h'⟩ := bind_eq_ok.1 h'
  rcases die?_calm hrate h₀ hpinned node node' hmarks hfits hfound' hfound with
    ⟨rfl, rfl⟩ | ⟨die', die, n, rfl, rfl, hdie⟩
  · exact (pure_eq_ok.1 h').symm.trans (pure_eq_ok.1 h)
  · have hsum := orBlame_eq_ok.1 h
    rw [← Distribution.sumOfCopies_congr hdie, orBlame_eq_ok.1 h'] at hsum
    exact Except.ok.inj hsum

theorem clampPinned_calm {name : FunctionName} {target target' : Node} {bound : Outcome}
    {clamped? clamped?' : Option (Distribution ℚ)}
    (hmarks : target'.withoutMarks = target.withoutMarks) (hfits : target.Fits)
    (h' : s.clampPinned ctx' name target' bound = .ok clamped?')
    (h : s₀.clampPinned ctx name target bound = .ok clamped?) : clamped?' = clamped? := by
  unfold Settings.clampPinned at h h'
  rw [pinnedValue?_eq hpinned hmarks] at h'
  cases hvalue : ctx.pinnedValue? target with
  | none =>
    rw [hvalue] at h h'
    exact (Except.ok.inj h').symm.trans (Except.ok.inj h)
  | some total =>
    rw [hvalue] at h h'
    obtain ⟨found, hfound, h⟩ := bind_eq_ok.1 h
    obtain ⟨found', hfound', h'⟩ := bind_eq_ok.1 h'
    have hunpinned : ctx'.unpinned.pinned = ctx.unpinned.pinned := rfl
    rcases die?_calm hrate h₀.unpinned hunpinned target target' hmarks hfits hfound' hfound with
      ⟨rfl, rfl⟩ | ⟨die', die, n, rfl, rfl, hdie⟩
    · exact (pure_eq_ok.1 h').symm.trans (pure_eq_ok.1 h)
    · obtain ⟨v, hv, h⟩ := bind_eq_ok.1 h
      obtain ⟨v', hv', h'⟩ := bind_eq_ok.1 h'
      obtain ⟨sum, hsum, h⟩ := bind_eq_ok.1 h
      obtain ⟨sum', hsum', h'⟩ := bind_eq_ok.1 h'
      rw [hv] at hv'
      cases hv'
      have hsum := orBlame_eq_ok.1 hsum
      rw [← Distribution.clampEachGivenTotal_congr hdie, orBlame_eq_ok.1 hsum'] at hsum
      cases hsum
      exact (pure_eq_ok.1 h').symm.trans (pure_eq_ok.1 h)

/-- Limits on single dice. -/
theorem clampEach_calm {name : FunctionName} {target target' : Node} {bound : Outcome}
    {clamped? clamped?' : Option (Distribution ℚ)}
    (hmarks : target'.withoutMarks = target.withoutMarks) (hfits : target.Fits)
    (h' : s.clampEach ctx' name target' bound = .ok clamped?')
    (h : s₀.clampEach ctx name target bound = .ok clamped?) : clamped?' = clamped? := by
  unfold Settings.clampEach at h h'
  split at h
  · next hname =>
    rw [if_pos hname] at h'
    obtain ⟨given, hgiven, h⟩ := bind_eq_ok.1 h
    obtain ⟨given', hgiven', h'⟩ := bind_eq_ok.1 h'
    obtain rfl := clampPinned_calm hrate h₀ hpinned hmarks hfits hgiven' hgiven
    cases given' with
    | some clamped => exact (pure_eq_ok.1 h').symm.trans (pure_eq_ok.1 h)
    | none =>
      obtain ⟨found, hfound, h⟩ := bind_eq_ok.1 h
      obtain ⟨found', hfound', h'⟩ := bind_eq_ok.1 h'
      rcases die?_calm hrate h₀ hpinned target target' hmarks hfits hfound' hfound with
        ⟨rfl, rfl⟩ | ⟨die', die, n, rfl, rfl, hdie⟩
      · exact (pure_eq_ok.1 h').symm.trans (pure_eq_ok.1 h)
      · obtain ⟨sum, hsum, h⟩ := bind_eq_ok.1 h
        obtain ⟨sum', hsum', h'⟩ := bind_eq_ok.1 h'
        have hsum := orBlame_eq_ok.1 hsum
        rw [← Distribution.clamp_congr hdie, orBlame_eq_ok.1 hsum'] at hsum
        cases hsum
        exact (pure_eq_ok.1 h').symm.trans (pure_eq_ok.1 h)
  · next hname =>
    rw [if_neg hname] at h'
    exact (Except.ok.inj h').symm.trans (Except.ok.inj h)

end Calm

end Node

end DiceOdds
