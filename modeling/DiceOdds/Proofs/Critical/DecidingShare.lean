import DiceOdds.Proofs.Counting.Sequences
import DiceOdds.Proofs.Critical.Mixture
import DiceOdds.Proofs.Critical.Threshold

/-!
# How often a die is critical

A die is critical by the face that decides: the first one, or the one that stands where a die is
rolled again.  Each face is equally likely to come first, so for the first face the share of critical
rolls is the share of critical faces.  The face that stands is different.  Each further roll replaces
a face of the range by any face, and so moves the share up or down, depending on whether critical
faces are rarer or more frequent among the faces that are rolled again (`decidingShare_rerolled`).
-/

namespace DiceOdds

/-! ## 1. Faces that stand -/

section Faces

variable (faces : List ℕ) (again event : ℕ → Bool)

/-- The number of lists of faces with a property of the first one. -/
theorem countP_firstFace (n : ℕ) :
    (List.replicate (n + 1) faces).sections.countP (fun roll => event (firstFace roll))
      = faces.countP event * faces.length ^ n := by
  have hsum := sum_sections_cons faces (List.replicate n faces)
    fun roll => if event (firstFace roll) then 1 else 0
  rw [← List.replicate_succ, sum_indicator] at hsum
  have hface : ∀ face ∈ faces, ((List.replicate n faces).sections.map fun rest =>
      if event (firstFace (face :: rest)) then (1 : ℚ) else 0).sum
        = (faces.length : ℚ) ^ n * if event face then 1 else 0 := by
    intro face _
    by_cases he : event face <;> simp [firstFace, he, length_sections]
  refine (Nat.cast_inj (R := ℚ)).1 (hsum.trans ?_)
  rw [List.map_congr_left hface, List.sum_map_mul_left, sum_indicator, mul_comm]
  push_cast
  rfl

/-- The number of lists of faces with a property of the one that stands. -/
def standing (n : ℕ) : ℕ :=
  (List.replicate (n + 1) faces).sections.countP fun roll => event (finalFace again roll)

theorem standing_zero : standing faces again event 0 = faces.countP event := by
  have hfirst := countP_firstFace faces event 0
  rw [pow_zero, mul_one] at hfirst
  rw [← hfirst]
  refine List.countP_congr fun roll hroll => ?_
  obtain ⟨face, rfl⟩ := List.length_eq_one_iff.1
    ((List.mem_sections_length hroll).trans List.length_replicate)
  unfold finalFace
  rw [followed]
  split <;> rfl

/-- One more roll: a face of the range leaves it to the other rolls, any other face stands. -/
theorem standing_succ (n : ℕ) :
    (standing faces again event (n + 1) : ℚ)
      = (faces.countP event - faces.countP fun face => event face && again face)
          * faces.length ^ (n + 1) + faces.countP again * standing faces again event n := by
  have hsum := sum_sections_cons faces (List.replicate (n + 1) faces)
    fun roll => if event (finalFace again roll) then 1 else 0
  rw [← List.replicate_succ, sum_indicator] at hsum
  refine hsum.trans ?_
  have hface : ∀ face ∈ faces, ((List.replicate (n + 1) faces).sections.map fun rest =>
      if event (finalFace again (face :: rest)) then (1 : ℚ) else 0).sum
        = (faces.length : ℚ) ^ (n + 1) * (if event face && !again face then 1 else 0)
          + standing faces again event n * if again face then 1 else 0 := by
    intro face _
    have hfinal : ∀ rest ∈ (List.replicate (n + 1) faces).sections,
        finalFace again (face :: rest) = if again face then finalFace again rest else face := by
      intro rest hrest
      refine finalFace_cons again face (List.ne_nil_of_length_eq_add_one (n := n) ?_)
      exact (List.mem_sections_length hrest).trans List.length_replicate
    rw [List.map_congr_left fun rest hrest => by rw [hfinal rest hrest]]
    cases ha : again face with
    | true =>
      simp only [if_true]
      rw [sum_indicator]
      simp [standing]
    | false =>
      simp [length_sections]
  rw [List.map_congr_left hface, List.sum_map_add, List.sum_map_mul_left, List.sum_map_mul_left,
    sum_indicator, sum_indicator, countP_critical faces event again]
  push_cast
  ring

/-- **The share of lists in which a face with a property stands**, as far as it differs from the share
of these faces. -/
theorem standing_eq (h : faces ≠ []) (n : ℕ) :
    (standing faces again event n : ℚ) / faces.length ^ (n + 1)
      = faces.countP event / faces.length
        + (faces.countP again * faces.countP event
            - (faces.countP fun face => event face && again face) * faces.length)
          / faces.length ^ 2 * ∑ i ∈ Finset.range n, (faces.countP again / faces.length : ℚ) ^ i := by
  have hlen : (faces.length : ℚ) ≠ 0 := Nat.cast_ne_zero.2 (List.length_pos_iff.2 h).ne'
  induction n with
  | zero => simp [standing_zero]
  | succ n ih =>
    have hstep : (standing faces again event (n + 1) : ℚ) / faces.length ^ (n + 2)
        = (faces.countP event - faces.countP fun face => event face && again face) / faces.length
          + faces.countP again / faces.length
            * (standing faces again event n / faces.length ^ (n + 1)) := by
      rw [standing_succ]
      field_simp
      ring
    rw [hstep, ih, geom_sum_succ]
    field_simp
    ring

end Faces

/-- The number of faces from one of them on. -/
theorem countP_faces_le {t : ℕ} (ht : 1 ≤ t) (n : ℕ) :
    (Distribution.faces n).countP (fun face => t ≤ face) = n + 1 - t := by
  induction n with
  | zero => simp [Distribution.faces]; omega
  | succ n ih =>
    rw [Distribution.faces] at ih ⊢
    rw [List.range'_1_concat, List.countP_append, ih, List.countP_singleton]
    split <;> simp_all <;> omega

/-- The critical faces are the highest ones. -/
theorem countP_criticalFaces (rate : ℚ) {d : Dice} (h : d.Fits) :
    (Distribution.faces d.sides.toNat).countP
        (fun face => criticalThreshold rate d.sides.toNat ≤ face)
      = criticalFaces rate d.sides.toNat := by
  have hpos : 1 ≤ criticalThreshold rate d.sides.toNat := by
    rw [criticalThreshold_eq (h.fitsAt rate)]
    exact Nat.le_add_left 1 _
  rw [countP_faces_le hpos, facesAbove_eq rate h]

namespace Pool

/-! ## 2. One die -/

/-- The share of rolls of one die in which the deciding face is critical. -/
def decidingShare (rate : ℚ) (p : Pool) : ℚ :=
  p.dieRolls.countP (fun roll => criticalThreshold rate p.dice.sides.toNat ≤ p.decidingFace roll)
    / p.dieRolls.length

/-- Rolling again leaves the share of critical faces as it is: there are no further rolls, or
critical faces are as frequent among the faces that are rolled again as among all faces. -/
def DecidesEvenly (rate : ℚ) (p : Pool) : Prop :=
  ∀ range limit, p.modifier = some (.reroll range limit) → limit = 0 ∨
    let faces := Distribution.faces p.dice.sides.toNat
    faces.countP range.contains * criticalFaces rate p.dice.sides.toNat
      = faces.countP (fun face =>
          decide (criticalThreshold rate p.dice.sides.toNat ≤ face) && range.contains face)
        * p.dice.sides.toNat

theorem faces_length (sides : ℕ) : (Distribution.faces sides).length = sides := List.length_range'

theorem faces_ne_nil {p : Pool} (h : p.dice.sides ≠ 0) :
    Distribution.faces p.dice.sides.toNat ≠ [] := by
  rw [← List.length_pos_iff, faces_length]
  exact Nat.pos_of_ne_zero fun e => h (UInt32.toNat_inj.1 e)

/-- Where the first face decides, each face is equally likely. -/
theorem decidingShare_of_firstFace {rate : ℚ} {p : Pool} {n : ℕ} (hfits : p.dice.Fits)
    (hsides : p.dice.sides ≠ 0) (hn : p.facesPerDie = n + 1) (hface : p.decidingFace = firstFace) :
    p.decidingShare rate = criticalShare rate p.dice.sides.toNat := by
  have hpos : (p.dice.sides.toNat : ℚ) ≠ 0 :=
    Nat.cast_ne_zero.2 fun e => hsides (UInt32.toNat_inj.1 e)
  have hcount := countP_firstFace (Distribution.faces p.dice.sides.toNat)
    (fun face => decide (criticalThreshold rate p.dice.sides.toNat ≤ face)) n
  rw [countP_criticalFaces rate hfits, faces_length] at hcount
  rw [decidingShare, length_dieRolls, dieRolls, hn, hface, hcount, criticalShare]
  push_cast
  field_simp
  ring

/-- **How often a rerolled die is critical.** -/
theorem decidingShare_rerolled (rate : ℚ) {dice : Dice} (hfits : dice.Fits)
    (hsides : dice.sides ≠ 0) (range : FaceRange) (limit : UInt32) :
    let faces := Distribution.faces dice.sides.toNat
    decidingShare rate ⟨dice, some (.reroll range limit)⟩
      = criticalShare rate dice.sides.toNat
        + (faces.countP range.contains * criticalFaces rate dice.sides.toNat
            - (faces.countP fun face =>
                decide (criticalThreshold rate dice.sides.toNat ≤ face) && range.contains face)
              * dice.sides.toNat) / dice.sides.toNat ^ 2
          * ∑ i ∈ Finset.range limit.toNat,
              (faces.countP range.contains / dice.sides.toNat : ℚ) ^ i := by
  intro faces
  have hstanding := standing_eq faces range.contains
    (fun face => decide (criticalThreshold rate dice.sides.toNat ≤ face))
    (faces_ne_nil (p := ⟨dice, none⟩) hsides) limit.toNat
  rw [countP_criticalFaces rate hfits, faces_length] at hstanding
  rw [decidingShare, length_dieRolls, criticalShare, ← hstanding, Nat.cast_pow]
  rfl

/-- The share changes exactly where rolling again prefers or avoids critical faces. -/
theorem decidingShare_eq_iff (rate : ℚ) {p : Pool} (hfits : p.dice.Fits)
    (hsides : p.dice.sides ≠ 0) :
    p.decidingShare rate = criticalShare rate p.dice.sides.toNat ↔ p.DecidesEvenly rate := by
  obtain ⟨dice, modifier⟩ := p
  rcases modifier with _ | ⟨range, limit⟩ | ⟨kind, success, explode, limit⟩
  · refine iff_of_true (decidingShare_of_firstFace (n := 0) hfits hsides rfl rfl) ?_
    rintro range limit ⟨⟩
  swap
  · refine iff_of_true (decidingShare_of_firstFace (n := limit.toNat) hfits hsides rfl rfl) ?_
    rintro range limit ⟨⟩
  · have hpos : (0 : ℚ) < dice.sides.toNat :=
      Nat.cast_pos.2 (Nat.pos_of_ne_zero fun e => hsides (UInt32.toNat_inj.1 e))
    rw [decidingShare_rerolled rate hfits hsides, add_eq_left, mul_eq_zero,
      div_eq_zero_iff, or_iff_left (pow_pos hpos 2).ne', sub_eq_zero]
    -- the sum is zero only where it is empty
    have hsum : ∑ i ∈ Finset.range limit.toNat,
        ((Distribution.faces dice.sides.toNat).countP range.contains / dice.sides.toNat : ℚ) ^ i = 0
          ↔ limit = 0 := by
      rcases Nat.eq_zero_or_pos limit.toNat with hzero | hlimit
      · rw [hzero, Finset.range_zero, Finset.sum_empty]
        exact iff_of_true rfl (UInt32.toNat_inj.1 hzero)
      · have hone : (1 : ℚ) ≤ ∑ i ∈ Finset.range limit.toNat,
            ((Distribution.faces dice.sides.toNat).countP range.contains
              / dice.sides.toNat : ℚ) ^ i := by
          refine (pow_zero _).ge.trans
            (Finset.single_le_sum (fun i _ => ?_) (Finset.mem_range.2 hlimit))
          exact pow_nonneg (div_nonneg (Nat.cast_nonneg _) hpos.le) i
        refine iff_of_false (by linarith) ?_
        rintro rfl
        cases hlimit
    rw [hsum]
    unfold DecidesEvenly
    constructor
    · rintro h range' limit' ⟨⟩
      exact h.symm.imp_right fun e => by exact_mod_cast e
    · intro h
      exact (h range limit rfl).symm.imp_left fun e => by exact_mod_cast e

/-- Of the widest die the highest face is critical at every rate. -/
theorem decidingShare_pos_of_not_fits (rate : ℚ) {p : Pool} (h : ¬p.dice.Fits) :
    0 < p.decidingShare rate := by
  have hroll : List.replicate p.facesPerDie p.dice.sides.toNat ∈ p.dieRolls := by
    refine mem_dieRolls.2 ⟨List.length_replicate, fun face hface => ?_⟩
    rw [List.eq_of_mem_replicate hface, p.dice.sides_of_not_fits h]
    exact ⟨by decide, le_rfl⟩
  have hface := List.eq_of_mem_replicate (decidingFace_mem hroll)
  refine div_pos (Nat.cast_pos.2 (List.countP_pos_iff.2 ⟨_, hroll, ?_⟩))
    (Nat.cast_pos.2 (List.length_pos_of_mem hroll))
  rw [hface]
  exact decide_eq_true (criticalThreshold_le_of_not_fits rate h)

theorem decidingShare_le_one (rate : ℚ) (p : Pool) : p.decidingShare rate ≤ 1 :=
  div_le_one_of_le₀ (Nat.cast_le.2 List.countP_le_length) (Nat.cast_nonneg _)

/-! ## 3. Several dice -/

/-- The dice are independent. -/
theorem lowShare_eq (rate : ℚ) {p : Pool} (hsides : p.dice.sides ≠ 0) :
    p.lowShare rate = (1 - p.decidingShare rate) ^ p.dice.count.toNat := by
  have hlen : (p.dieRolls.length : ℚ) ≠ 0 :=
    Nat.cast_ne_zero.2 (List.length_pos_iff.2 (dieRolls_ne_nil hsides)).ne'
  have hcount := sum_sections_filter
    (fun roll => !decide (criticalThreshold rate p.dice.sides.toNat ≤ p.decidingFace roll))
    (List.replicate p.dice.count.toNat p.dieRolls) fun _ => 1
  rw [List.map_replicate, List.map_const', List.sum_replicate, nsmul_eq_mul, mul_one,
    length_sections, List.map_replicate, List.prod_replicate, sum_indicator,
    ← List.countP_eq_length_filter] at hcount
  have hlow : (p.rolls.countP (fun roll => !p.isCritical rate roll) : ℚ)
      = (p.dieRolls.countP fun roll =>
          !decide (criticalThreshold rate p.dice.sides.toNat ≤ p.decidingFace roll) : ℕ)
        ^ p.dice.count.toNat := by
    rw [← Nat.cast_pow, hcount, rolls]
    refine congrArg Nat.cast (List.countP_congr fun roll _ => ?_)
    rw [isCritical, List.not_any_eq_all_not]
  have hrest : ((p.dieRolls.countP fun roll =>
      !decide (criticalThreshold rate p.dice.sides.toNat ≤ p.decidingFace roll) : ℕ) : ℚ)
        = (1 - p.decidingShare rate) * p.dieRolls.length := by
    rw [decidingShare, sub_mul, one_mul, div_mul_cancel₀ _ hlen, eq_sub_iff_add_eq']
    exact_mod_cast countP_add_countP_not _ p.dieRolls
  rw [lowShare, hlow, hrest, rolls, length_sections, List.map_replicate, List.prod_replicate,
    mul_pow, Nat.cast_pow, mul_div_cancel_right₀ _ (pow_ne_zero _ hlen)]

theorem isCriticalRoll_marked (rate : ℚ) (p : Pool) :
    isCriticalRoll rate [p.marked] = isCriticalRoll rate [p] := by
  funext roll
  cases roll with
  | nil => cases hp : p.dice.critical <;> simp [isCriticalRoll, marked, hp]
  | cons cell roll => cases hp : p.dice.critical <;> simp [isCriticalRoll, marked, hp] <;> rfl

/-- **At least one of several dice is critical.** -/
theorem rollShare_critical_eq (rate : ℚ) {p : Pool} (hsides : p.dice.sides ≠ 0) :
    rollShare [p] (isCriticalRoll rate [p])
      = 1 - (1 - p.decidingShare rate) ^ p.dice.count.toNat := by
  have hrolls : ∀ q ∈ [p.marked], q.rolls ≠ [] := fun q hq => by
    obtain rfl := List.mem_singleton.1 hq
    exact rolls_ne_nil (p := p) hsides
  have hshare : rollShare [p.marked] (isCriticalRoll rate [p.marked])
      = 1 - ((markedPools [p.marked]).map (lowShare rate)).prod := rollShare_critical rfl hrolls
  rw [isCriticalRoll_marked] at hshare
  refine hshare.trans ?_
  rw [← lowShare_eq rate hsides]
  simp [markedPools, marked]
  rfl

end Pool

end DiceOdds
