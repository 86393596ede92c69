import DiceOdds.Proofs.Counting.Die

/-!
# The face sequences of one die

A die that may roll again is built up from its last roll, and shares of a level are passed on, moved
or merged on the way.  What comes out is what one would count by hand: among all sequences of
`limit + 1` faces, those that lead to a value.

Here the rolls are a set, said without the way in which they are listed, and the weight of a value
is its cardinality.  A die with one side is no exception: its only sequence is the whole set.
-/

namespace DiceOdds

namespace Pool

/-! ## 1. The set of rolls -/

/-- The sequences of as many faces as one die may need. -/
def sequences (p : Pool) : Set DieRoll :=
  {roll | roll.length = p.facesPerDie ∧ ∀ face ∈ roll, 1 ≤ face ∧ face ≤ p.dice.sides.toNat}

theorem length_dieRolls (p : Pool) :
    p.dieRolls.length = p.dice.sides.toNat ^ p.facesPerDie := by
  rw [dieRolls, length_sections, List.map_replicate, List.prod_replicate, Distribution.faces,
    List.length_range']

/-- To count places in the list of rolls is to count sequences. -/
theorem ncard_sequences (p : Pool) (event : DieRoll → Prop) [DecidablePred event] :
    {roll ∈ p.sequences | event roll}.ncard = p.dieRolls.countP event := by
  have hset : {roll ∈ p.sequences | event roll}
      = ((p.dieRolls.filter event).toFinset : Set DieRoll) := by
    ext roll
    simp [sequences, mem_dieRolls]
  rw [hset, Set.ncard_coe_finset, List.toFinset_card_of_nodup (p.nodup_dieRolls.filter _),
    List.countP_eq_length_filter]

/-- The points of a roll are its value. -/
theorem dieValue?_eq_some {p : Pool} {roll : DieRoll} {v : Outcome} :
    p.dieValue? roll = some v ↔ v.hundredths = p.points roll * 100 := by
  rw [dieValue?, Outcome.ofHundredths?_eq_some]

/-! ## 2. What a die enumerates -/

/-- Each value weighs as much as there are sequences that come to it and whose deciding face is
accepted; without restriction all sequences are counted. -/
structure Enumerates (p : Pool) (accept : ℕ → Bool) (d : Distribution ℚ) : Prop where
  weightOf_eq : ∀ v : Outcome, d.weightOf v =
    {roll ∈ p.sequences |
      accept (p.decidingFace roll) = true ∧ v.hundredths = p.points roll * 100}.ncard
  total_eq : (∀ face, accept face = true) →
    d.total = (p.dice.sides.toNat : ℚ) ^ p.facesPerDie

theorem enumerates_of_counts {p : Pool} {accept : ℕ → Bool} {d : Distribution ℚ}
    (h : d.Counts ((p.dieRolls.filter fun roll => accept (p.decidingFace roll)).map p.dieValue?)) :
    p.Enumerates accept d where
  weightOf_eq v := by
    rw [h.weightOf_map, List.countP_filter, ncard_sequences]
    refine congrArg Nat.cast (List.countP_congr fun roll _ => ?_)
    simp only [dieValue?_eq_some, Bool.and_eq_true, decide_eq_true_eq, and_comm]
  total_eq hall := by
    have hfilter : (p.dieRolls.filter fun roll => accept (p.decidingFace roll)) = p.dieRolls :=
      List.filter_eq_self.2 fun roll _ => hall _
    rw [h.total_eq, hfilter, List.length_map, length_dieRolls, Nat.cast_pow]

end Pool

namespace Distribution

/-- **Chained dice enumerate their face sequences.**  A rerolled die counts the sequences by the face
that stands, and its restriction is about this face; an exploding die counts them by the faces
that it follows, added up or tested for success, and its restriction is about the first face. -/
theorem chained_enumerates (dice : Dice) (limit : UInt32) (accept : ℕ → Bool) :
    (∀ (range : FaceRange) (d : Distribution ℚ),
        rerolled dice.sides.toNat range limit.toNat accept = .ok d →
          Pool.Enumerates ⟨dice, some (.reroll range limit)⟩ accept d)
      ∧ ∀ (kind : ExplodeKind) (success explode : Option FaceRange) (d : Distribution ℚ),
        exploding dice.sides.toNat kind success explode limit.toNat accept = .ok d →
          Pool.Enumerates ⟨dice, some (.exploding kind success explode limit)⟩ accept d :=
  ⟨fun _ _ h => Pool.enumerates_of_counts (counts_rerolled h),
    fun _ _ _ _ h => Pool.enumerates_of_counts (counts_exploding h)⟩

/-- A three-sided die that rolls a `1` again comes to a `2` in four of its nine sequences; one that
explodes on a `3` and has to start with a `2` or `3` comes to a `5` in one of them. -/
theorem chained_enumerates_threeSided :
    (∃ d : Distribution ℚ, rerolled 3 ⟨1, 1⟩ 1 (fun _ => true) = .ok d ∧ d.total = 9
        ∧ d.weightOf (Outcome.ofInt 2) = 4)
      ∧ ∃ d : Distribution ℚ, exploding 3 .sum none (some ⟨3, 3⟩) 1 (2 ≤ ·) = .ok d
        ∧ d.weightOf (Outcome.ofInt 5) = 1 := by
  constructor
  · obtain ⟨d, h⟩ : Succeeds (rerolled 3 ⟨1, 1⟩ 1 (fun _ => true) :
        Except Exceeded (Distribution ℚ)) := succeeds_of_isOk (by decide +kernel)
    have hd := (chained_enumerates ⟨1, 3, false⟩ 1 fun _ => true).1 ⟨1, 1⟩ d h
    refine ⟨d, h, (hd.total_eq fun _ => rfl).trans (by decide +kernel), ?_⟩
    rw [hd.weightOf_eq, Pool.ncard_sequences]
    decide +kernel
  · obtain ⟨d, h⟩ : Succeeds (exploding 3 .sum none (some ⟨3, 3⟩) 1 (2 ≤ ·) :
        Except Exceeded (Distribution ℚ)) := succeeds_of_isOk (by decide +kernel)
    have hd := (chained_enumerates ⟨1, 3, false⟩ 1 (2 ≤ ·)).2 .sum none (some ⟨3, 3⟩) d h
    refine ⟨d, h, ?_⟩
    rw [hd.weightOf_eq, Pool.ncard_sequences]
    decide +kernel

end Distribution

end DiceOdds
