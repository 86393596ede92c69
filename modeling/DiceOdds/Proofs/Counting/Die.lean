import DiceOdds.Proofs.Counting.Roll

/-!
# One die counts its elementary rolls

The distribution of a single die, built up from its last roll, gives each value as often as there
are lists of faces that come to it.  This holds for plain, rerolled and exploding dice alike, and
for a die that is limited to some of its faces it holds of the rolls with such a face.

The invariant of the chain is `Chain.Level`: a level with `n` rolls counts the lists of `n` faces.
A face that ends the chain meets each list of the level below once, which is why it takes the
whole weight of that level.
-/

namespace DiceOdds

theorem followed_ne_nil (again : ℕ → Bool) {roll : DieRoll} (h : roll ≠ []) :
    followed again roll ≠ [] := by
  cases roll with
  | nil => exact absurd rfl h
  | cons face rest =>
    rw [followed]
    split <;> exact List.cons_ne_nil _ _

theorem finalFace_cons (again : ℕ → Bool) (face : ℕ) {rest : DieRoll} (h : rest ≠ []) :
    finalFace again (face :: rest) = if again face then finalFace again rest else face := by
  unfold finalFace
  rw [followed]
  split
  · rw [List.getLastD_cons, List.getLastD_eq_getLast?, List.getLastD_eq_getLast?,
      List.getLast?_eq_some_getLast (followed_ne_nil again h)]
    rfl
  · rfl

namespace Distribution.Chain

/-! ## 1. Lists of faces -/

/-- All lists of `n` faces. -/
def sequences (c : Chain) (n : ℕ) : List DieRoll := (List.replicate n (faces c.sides)).sections

theorem ne_nil_of_mem_sequences {c : Chain} {n : ℕ} {roll : DieRoll}
    (h : roll ∈ c.sequences (n + 1)) : roll ≠ [] := by
  have hlen := List.mem_sections_length h
  rw [List.length_replicate] at hlen
  exact List.ne_nil_of_length_eq_add_one hlen

/-- What a list of faces comes to, in hundredths. -/
def worth (c : Chain) (roll : DieRoll) : ℤ :=
  if c.keepsFace then Outcome.exactSum ((followed c.again roll).map c.value)
  else (c.value (finalFace c.again roll)).hundredths

theorem worth_of_all {c : Chain} (h : c.keepsFace = true) (roll : DieRoll) :
    c.worth roll = Outcome.exactSum ((followed c.again roll).map c.value) :=
  if_pos h

theorem worth_of_final {c : Chain} (h : c.keepsFace = false) (roll : DieRoll) :
    c.worth roll = (c.value (finalFace c.again roll)).hundredths :=
  if_neg (ne_true_of_eq_false h)

/-- What a face adds to a list of later faces. -/
theorem worth_cons (c : Chain) (face : ℕ) {rest : DieRoll} (h : rest ≠ []) :
    c.worth (face :: rest) =
      if c.again face then
        if c.keepsFace then (c.value face).hundredths + c.worth rest else c.worth rest
      else (c.value face).hundredths := by
  unfold worth
  by_cases hk : c.keepsFace
  · by_cases ha : c.again face <;> simp [hk, ha, followed]
  · by_cases ha : c.again face <;> simp [hk, ha, finalFace_cons c.again face h]

theorem worth_singleton (c : Chain) (face : ℕ) : c.worth [face] = (c.value face).hundredths := by
  unfold worth finalFace
  by_cases ha : c.again face <;> simp [ha, followed]

/-! ## 2. Levels -/

/-- A level with `n` rolls counts the lists of `n` faces whose first face is accepted. -/
structure Level (c : Chain) (n : ℕ) (accept : ℕ → Bool) (d : Distribution ℚ) : Prop where
  nonneg : d.Nonneg
  sumOver_eq : ∀ F : ℤ → ℚ, d.sumOver (fun v => F v.hundredths)
    = (((c.sequences n).filter fun roll => accept (firstFace roll)).map
        fun roll => F (c.worth roll)).sum

/-- The sum over lists of faces with an accepted first face. -/
theorem sum_sequences (c : Chain) (n : ℕ) (accept : ℕ → Bool) (F : DieRoll → ℚ) :
    (((c.sequences (n + 1)).filter fun roll => accept (firstFace roll)).map F).sum
      = (((faces c.sides).filter accept).map fun face =>
          ((c.sequences n).map fun rest => F (face :: rest)).sum).sum := by
  rw [sum_filter, sum_filter, sequences, List.replicate_succ, sum_sections_cons]
  refine congrArg List.sum (List.map_congr_left fun face _ => ?_)
  by_cases h : accept face
  · simp [h, firstFace, sequences]
  · simp [h, firstFace]

theorem level_lastRoll (c : Chain) (accept : ℕ → Bool) : c.Level 1 accept (c.lastRoll accept) where
  nonneg := nonneg_ofList _
  sumOver_eq F := by
    have hone : ∀ p ∈ ((faces c.sides).filter accept).map fun face => (c.value face, (1 : ℚ)),
        0 ≤ p.2 := by
      intro p hp
      obtain ⟨face, -, rfl⟩ := List.mem_map.1 hp
      exact zero_le_one
    rw [lastRoll, sumOver_ofList hone, sum_sequences, List.map_map]
    refine congrArg List.sum (List.map_congr_left fun face _ => ?_)
    simp [sequences, worth_singleton]

/-- One face in front of a level. -/
theorem sumOver_addFace {c : Chain} {level out next : Distribution ℚ} {face : ℕ}
    (hl : level.Nonneg) (h : c.addFace level level.total out face = .ok next) (F : ℤ → ℚ) :
    next.sumOver (fun v => F v.hundredths) = out.sumOver (fun v => F v.hundredths) +
      if c.again face then
        if c.keepsFace then level.sumOver fun v => F ((c.value face).hundredths + v.hundredths)
        else level.sumOver fun v => F v.hundredths
      else level.total * F (c.value face).hundredths := by
  unfold addFace at h
  split at h
  · next ha =>
    split at h
    · next hk =>
      obtain ⟨shifted, hshift, hnext⟩ := bind_eq_ok.1 h
      obtain rfl := pure_eq_ok.1 hnext
      rw [if_pos ha, if_pos hk, sumOver_addScaled (nonneg_tryMap hshift) zero_le_one, one_mul,
        sumOver_shift hl hshift]
    · next hk =>
      cases h
      rw [if_pos ha, if_neg hk, sumOver_addScaled hl zero_le_one, one_mul]
  · next ha =>
    cases h
    rw [if_neg ha, sumOver_add hl.total_nonneg]

theorem nonneg_addFace {c : Chain} {level out next : Distribution ℚ} {below : ℚ} {face : ℕ}
    (ho : out.Nonneg) (h : c.addFace level below out face = .ok next) : next.Nonneg := by
  unfold addFace at h
  split at h
  · split at h
    · obtain ⟨shifted, -, hnext⟩ := bind_eq_ok.1 h
      obtain rfl := pure_eq_ok.1 hnext
      exact nonneg_addScaled ho shifted 1
    · cases h
      exact nonneg_addScaled ho level 1
  · cases h
    exact ho.add _ _

/-- One more roll in front of a level counts one more face in front of each list. -/
theorem level_grow {c : Chain} {n : ℕ} {accept : ℕ → Bool} {level next : Distribution ℚ}
    (hl : c.Level (n + 1) (fun _ => true) level) (h : c.grow accept level = .ok next) :
    c.Level (n + 2) accept next := by
  obtain ⟨grown, hgrown, hnext⟩ := bind_eq_ok.1 h
  obtain rfl : grown = next := by simpa using hnext
  refine ⟨foldlM_invariant _ Nonneg _ hgrown nonneg_empty fun _ _ _ _ => nonneg_addFace, fun F => ?_⟩
  have hlevel : ∀ G : ℤ → ℚ, level.sumOver (fun v => G v.hundredths)
      = ((c.sequences (n + 1)).map fun rest => G (c.worth rest)).sum := by
    intro G
    rw [hl.sumOver_eq G, List.filter_true]
  have hsum := foldlM_measure _ (fun d => d.sumOver fun v => F v.hundredths) _ _ hgrown
    fun out next face _ hstep => sumOver_addFace hl.nonneg hstep F
  rw [hsum, sumOver_empty, zero_add, sum_sequences]
  refine congrArg List.sum (List.map_congr_left fun face _ => ?_)
  have hworth : ((c.sequences (n + 1)).map fun rest => F (c.worth (face :: rest))).sum
      = ((c.sequences (n + 1)).map fun rest => F (if c.again face then
          if c.keepsFace then (c.value face).hundredths + c.worth rest else c.worth rest
        else (c.value face).hundredths)).sum :=
    congrArg List.sum (List.map_congr_left fun rest hrest => by
      rw [worth_cons c face (ne_nil_of_mem_sequences hrest)])
  rw [hworth]
  by_cases ha : c.again face
  · by_cases hk : c.keepsFace
    · simp only [ha, hk, if_true]
      exact hlevel fun m => F ((c.value face).hundredths + m)
    · simp only [ha, hk, if_true]
      exact hlevel F
  · simp only [ha, total_eq_sumOver, hlevel fun _ => 1]
    simp

theorem level_growTimes {c : Chain} {n m : ℕ} {level d : Distribution ℚ}
    (hl : c.Level (m + 1) (fun _ => true) level) (h : c.growTimes n level = .ok d) :
    c.Level (m + n + 1) (fun _ => true) d := by
  induction n generalizing m level with
  | zero => cases h; exact hl
  | succ n ih =>
    obtain ⟨next, hnext, h⟩ := bind_eq_ok.1 h
    have := ih (level_grow hl hnext) h
    rwa [show m + 1 + n + 1 = m + (n + 1) + 1 by ring] at this

/-! ## 3. The whole chain -/

theorem sections_replicate_singleton (n a : ℕ) :
    (List.replicate n [a]).sections = [List.replicate n a] := by
  induction n with
  | zero => rfl
  | succ n ih => simp [List.replicate_succ, ih]

/-- A face that never stops a die is shown on every roll. -/
theorem followed_replicate {again : ℕ → Bool} {face : ℕ} (h : again face) (n : ℕ) :
    followed again (List.replicate n face) = List.replicate n face := by
  induction n with
  | zero => rfl
  | succ n ih => simp [List.replicate_succ, followed, h, ih]

/-- What the only roll of a one-sided die comes to. -/
theorem worth_replicate (c : Chain) (limit face : ℕ) :
    c.worth (List.replicate (limit + 1) face)
      = (if c.keepsFace && c.again face then limit + 1 else 1 : ℕ) * (c.value face).hundredths := by
  unfold worth finalFace
  by_cases ha : c.again face
  · rw [followed_replicate ha]
    by_cases hk : c.keepsFace
    · simp [hk, ha, Outcome.exactSum]
    · rw [List.getLastD_eq_getLast?, List.getLast?_replicate]
      simp [hk]
  · simp [ha, List.replicate_succ, followed]

/-- A one-sided die counts its single roll. -/
theorem level_single {c : Chain} {limit : ℕ} {accept : ℕ → Bool} {d : Distribution ℚ}
    (hc : c.sides = 1) (h : c.single limit accept = .ok d) : c.Level (limit + 1) accept d := by
  have hseq : c.sequences (limit + 1) = [List.replicate (limit + 1) 1] := by
    rw [sequences, hc]
    exact sections_replicate_singleton (limit + 1) 1
  have hfirst : firstFace (List.replicate (limit + 1) 1) = 1 := rfl
  unfold single at h
  by_cases ha : accept 1
  · rw [if_pos ha] at h
    dsimp only at h
    cases hsum : (c.value 1).times? (if c.keepsFace && c.again 1 then limit + 1 else 1) with
    | none =>
      rw [hsum] at h
      cases h
    | some sum =>
      rw [hsum] at h
      cases h
      have hworth : sum.hundredths = c.worth (List.replicate (limit + 1) 1) := by
        rw [worth_replicate, Outcome.ofHundredths?_eq_some.1 hsum]
      refine ⟨nonneg_point _, fun F => ?_⟩
      rw [sumOver_point, hseq, hworth]
      simp [hfirst, ha]
  · rw [if_neg ha] at h
    cases h
    refine ⟨nonneg_empty, fun F => ?_⟩
    rw [hseq]
    simp [hfirst, ha]

/-- **A chain counts its lists of faces.** -/
theorem level_run {c : Chain} {limit : ℕ} {accept : ℕ → Bool} {d : Distribution ℚ}
    (h : c.run limit accept = .ok d) : c.Level (limit + 1) accept d := by
  unfold run at h
  split at h
  · next hc => exact level_single hc h
  · cases limit with
    | zero =>
      cases h
      exact level_lastRoll c accept
    | succ n =>
      obtain ⟨level, hlevel, h⟩ := bind_eq_ok.1 h
      have hl := level_growTimes (level_lastRoll c fun _ => true) hlevel
      rw [zero_add] at hl
      exact level_grow hl h

/-- What a chain with an accepted first face counts. -/
theorem Level.counts {c : Chain} {n : ℕ} {accept : ℕ → Bool} {d : Distribution ℚ}
    (h : c.Level n accept d) :
    d.Counts (((c.sequences n).filter fun roll => accept (firstFace roll)).map
      fun roll => Outcome.ofHundredths? (c.worth roll)) :=
  counts_of_hundredths h.sumOver_eq

end Distribution.Chain

/-! ## 4. The dice of a literal -/

/-- A whole number that is no greater than a face can be lies on the grid. -/
theorem Outcome.hundredths_ofInt {n : ℕ} (h : n < 0x100000000) :
    (Outcome.ofInt n).hundredths = n * 100 := by
  unfold ofInt nearHundredths
  rw [dif_neg (by omega), dif_pos (by omega)]

theorem mem_of_mem_followed {again : ℕ → Bool} {roll : DieRoll} {face : ℕ}
    (h : face ∈ followed again roll) : face ∈ roll := by
  induction roll with
  | nil => exact h
  | cons first rest ih =>
    rw [followed] at h
    split at h
    · rcases List.mem_cons.1 h with rfl | h
      · exact List.mem_cons_self ..
      · exact List.mem_cons_of_mem _ (ih h)
    · exact List.mem_cons.2 (.inl (List.mem_singleton.1 h))

/-- The face that stands is one that has been rolled. -/
theorem finalFace_mem (again : ℕ → Bool) {roll : DieRoll} (h : roll ≠ []) :
    finalFace again roll ∈ roll := by
  rw [finalFace, List.getLastD_eq_getLast?,
    List.getLast?_eq_some_getLast (followed_ne_nil again h)]
  exact mem_of_mem_followed (List.getLast_mem _)

theorem firstFace_mem {roll : DieRoll} (h : roll ≠ []) : firstFace roll ∈ roll := by
  cases roll with
  | nil => exact absurd rfl h
  | cons face rest => exact List.mem_cons_self ..

/-- The sum of faces. -/
theorem exactSum_faces (success : Option FaceRange) {faces : List ℕ}
    (h : ∀ face ∈ faces, face < 0x100000000) :
    Outcome.exactSum (faces.map (Distribution.faceValue .sum success)) = (faces.sum : ℕ) * 100 := by
  induction faces with
  | nil => rfl
  | cons face rest ih =>
    rw [List.map_cons, Outcome.exactSum_cons, ih fun f hf => h f (List.mem_cons_of_mem _ hf),
      Distribution.faceValue, Outcome.hundredths_ofInt (h face (List.mem_cons_self ..)), List.sum_cons]
    push_cast
    ring

/-- The number of faces that are a success. -/
theorem exactSum_successes (success : Option FaceRange) (faces : List ℕ) :
    Outcome.exactSum (faces.map (Distribution.faceValue .count success))
      = (faces.countP fun face => success.any (·.contains face) : ℕ) * 100 := by
  induction faces with
  | nil => rfl
  | cons face rest ih =>
    rw [List.map_cons, Outcome.exactSum_cons, ih, List.countP_cons, Distribution.faceValue]
    by_cases h : success.any (·.contains face)
    · rw [if_pos h, if_pos h]
      push_cast
      rw [add_mul, add_comm]
      rfl
    · rw [if_neg h, if_neg h]
      exact zero_add _

namespace Pool

/-- The chain behind the dice of a literal; a plain die never rolls again. -/
def chain (p : Pool) : Distribution.Chain :=
  match p.modifier with
  | none => ⟨p.dice.sides.toNat, fun face => Outcome.ofInt face, fun _ => false, false⟩
  | some (.reroll range _) =>
    ⟨p.dice.sides.toNat, fun face => Outcome.ofInt face, range.contains, false⟩
  | some (.exploding kind success explode _) =>
    ⟨p.dice.sides.toNat, Distribution.faceValue kind success,
      fun face => explode.any (·.contains face), true⟩

theorem sequences_chain (p : Pool) : p.chain.sequences p.facesPerDie = p.dieRolls := by
  obtain ⟨dice, modifier⟩ := p
  rcases modifier with _ | _ | _ <;> rfl

theorem face_lt {p : Pool} {roll : DieRoll} (h : roll ∈ p.dieRolls) {face : ℕ} (hf : face ∈ roll) :
    face < 0x100000000 := by
  have hsides := p.dice.sides.toNat_lt
  have := (mem_dieRolls.1 h).2 face hf
  omega

/-- A die is rolled at least once. -/
theorem ne_nil_of_mem_dieRolls {p : Pool} {roll : DieRoll} (h : roll ∈ p.dieRolls) : roll ≠ [] := by
  rintro rfl
  have hlength := (mem_dieRolls.1 h).1
  unfold facesPerDie at hlength
  split at hlength <;> cases hlength

theorem finalFace_lt {p : Pool} {roll : DieRoll} (h : roll ∈ p.dieRolls) (again : ℕ → Bool) :
    finalFace again roll < 0x100000000 :=
  face_lt h (finalFace_mem again (ne_nil_of_mem_dieRolls h))

/-- The face that decides is one that has been rolled. -/
theorem decidingFace_mem {p : Pool} {roll : DieRoll} (h : roll ∈ p.dieRolls) :
    p.decidingFace roll ∈ roll := by
  have hroll := ne_nil_of_mem_dieRolls h
  unfold decidingFace
  split
  · exact firstFace_mem hroll
  · exact finalFace_mem _ hroll
  · exact firstFace_mem hroll

/-- What the faces of a die come to is its points. -/
theorem worth_chain {p : Pool} {roll : DieRoll} (h : roll ∈ p.dieRolls) :
    p.chain.worth roll = p.points roll * 100 := by
  have hfinal := finalFace_lt h
  have hface : ∀ face ∈ roll, face < 0x100000000 := fun _ => face_lt h
  obtain ⟨dice, modifier⟩ := p
  rcases modifier with _ | ⟨range, limit⟩ | ⟨kind, success, explode, limit⟩
  · have hplain : finalFace (fun _ => false) roll = firstFace roll := by cases roll <;> rfl
    rw [Distribution.Chain.worth_of_final rfl]
    simp only [chain, points]
    rw [Outcome.hundredths_ofInt (hfinal _), hplain]
  · rw [Distribution.Chain.worth_of_final rfl]
    simp only [chain, points]
    rw [Outcome.hundredths_ofInt (hfinal _)]
  · have hmem : ∀ face ∈ followed (fun face => explode.any (·.contains face)) roll,
        face < 0x100000000 := fun face hf => hface face (mem_of_mem_followed hf)
    rw [Distribution.Chain.worth_of_all rfl]
    cases kind with
    | count =>
      simp only [chain, points]
      rw [exactSum_successes]
    | sum =>
      simp only [chain, points]
      rw [exactSum_faces success hmem]

/-- The only value of a list of faces is its points. -/
theorem dieValue?_eq {p : Pool} {roll : DieRoll} (h : roll ∈ p.dieRolls) :
    Outcome.ofHundredths? (p.chain.worth roll) = p.dieValue? roll := by
  rw [worth_chain h, dieValue?]

/-- What the chain of a literal counts, in values of its dice. -/
theorem counts_chain {p : Pool} {accept : ℕ → Bool} {d : Distribution ℚ}
    (h : p.chain.Level p.facesPerDie accept d) :
    d.Counts ((p.dieRolls.filter fun roll => accept (firstFace roll)).map p.dieValue?) := by
  have hcounts := h.counts
  rw [sequences_chain] at hcounts
  rwa [List.map_congr_left fun roll hroll => dieValue?_eq (List.mem_filter.1 hroll).1] at hcounts

theorem ofFaces_eq_lastRoll (dice : Dice) (accept : ℕ → Bool) :
    (Distribution.ofFaces dice.sides.toNat accept : Distribution ℚ)
      = (chain ⟨dice, none⟩).lastRoll accept := by
  unfold Distribution.ofFaces Distribution.Chain.lastRoll
  simp only [chain]

end Pool

namespace Distribution

/-- **A plain die counts its rolls**, one for each face. -/
theorem counts_ofFaces (dice : Dice) (accept : ℕ → Bool) :
    (ofFaces dice.sides.toNat accept : Distribution ℚ).Counts
      (((⟨dice, none⟩ : Pool).dieRolls.filter fun roll => accept (firstFace roll)).map
        (⟨dice, none⟩ : Pool).dieValue?) := by
  have hcounts := Pool.counts_chain (p := ⟨dice, none⟩)
    (Chain.level_lastRoll (Pool.chain ⟨dice, none⟩) accept)
  rwa [← Pool.ofFaces_eq_lastRoll] at hcounts

/-- **An exploding die counts its rolls** with an accepted first face. -/
theorem counts_exploding {dice : Dice} {kind : ExplodeKind} {success explode : Option FaceRange}
    {limit : UInt32} {accept : ℕ → Bool} {d : Distribution ℚ}
    (h : exploding dice.sides.toNat kind success explode limit.toNat accept = .ok d) :
    let p : Pool := ⟨dice, some (.exploding kind success explode limit)⟩
    d.Counts ((p.dieRolls.filter fun roll => accept (firstFace roll)).map p.dieValue?) :=
  Pool.counts_chain (Chain.level_run h)

/-- **A rerolled die counts its rolls** with an accepted final face. -/
theorem counts_rerolled {dice : Dice} {range : FaceRange} {limit : UInt32} {accept : ℕ → Bool}
    {d : Distribution ℚ} (h : rerolled dice.sides.toNat range limit.toNat accept = .ok d) :
    let p : Pool := ⟨dice, some (.reroll range limit)⟩
    d.Counts ((p.dieRolls.filter fun roll => accept (finalFace range.contains roll)).map
      p.dieValue?) := by
  intro p
  obtain ⟨all, hall, hd⟩ := bind_eq_ok.1 h
  obtain rfl := pure_eq_ok.1 hd
  have hcounts := Pool.counts_chain (p := p) (Chain.level_run hall)
  rw [List.filter_true] at hcounts
  have hfilter := hcounts.filter fun value => accept (value.hundredths / 100).toNat
  rw [List.filter_map] at hfilter
  have hface : ∀ roll ∈ p.dieRolls, ((p.dieValue? roll).any fun value =>
      accept (value.hundredths / 100).toNat) = accept (finalFace range.contains roll) := by
    intro roll hroll
    have hlt := Pool.finalFace_lt hroll range.contains
    have hvalue : p.dieValue? roll = some (Outcome.ofInt (finalFace range.contains roll)) := by
      rw [Pool.dieValue?, Outcome.ofHundredths?_eq_some, Outcome.hundredths_ofInt hlt]
      rfl
    rw [hvalue, Option.any_some, Outcome.hundredths_ofInt hlt]
    simp
  simp only [Function.comp_def] at hfilter
  rwa [List.filter_congr hface] at hfilter

end Distribution

end DiceOdds
