import DiceOdds.Proofs.Counting.Counts
import DiceOdds.Distribution.Die

/-!
# Elementary rolls

An elementary roll says which faces all dice of a formula show.  All elementary rolls are equally
likely, and they are what weights count.

## Why a die may have more faces than it shows

A die that may roll again is given the faces of all the rolls that it could need, `limit + 1` of
them.  It follows them as long as they lie in its range and leaves the others unused.  So all
elementary rolls of a die are lists of one length.  A die with a single side has only one of them.
-/

namespace DiceOdds

/-! ## 1. The rolls of one literal -/

/-- The dice of one literal, with what they do after their first roll. -/
structure Pool where
  dice : Dice
  modifier : Option Modifier

/-- The faces of one die. -/
abbrev DieRoll := List ℕ

/-- The faces of each die of a literal. -/
abbrev PoolRoll := List DieRoll

/-- The faces of the dice of each literal, in source order. -/
abbrev Roll := List PoolRoll

namespace Pool

/-- How many faces are rolled for one die. -/
def facesPerDie (p : Pool) : ℕ :=
  match p.modifier with
  | none => 1
  | some (.reroll _ limit) => limit.toNat + 1
  | some (.exploding _ _ _ limit) => limit.toNat + 1

/-- All elementary rolls of one die. -/
def dieRolls (p : Pool) : List DieRoll :=
  (List.replicate p.facesPerDie (Distribution.faces p.dice.sides.toNat)).sections

/-- All elementary rolls of the dice of a literal. -/
def rolls (p : Pool) : List PoolRoll := (List.replicate p.dice.count.toNat p.dieRolls).sections

end Pool

/-- All elementary rolls of some literals. -/
def allRolls (pools : List Pool) : List Roll := (pools.map Pool.rolls).sections

/-! ## 2. Each roll is listed once -/

theorem nodup_sections {α : Type} {L : List (List α)} (h : ∀ l ∈ L, l.Nodup) :
    L.sections.Nodup := by
  induction L with
  | nil => simp
  | cons l L ih =>
    rw [List.sections, List.nodup_flatMap]
    refine ⟨fun s _ => (h l (List.mem_cons_self ..)).map fun a b hab => (List.cons.inj hab).1, ?_⟩
    refine (ih fun l hl => h l (List.mem_cons_of_mem _ hl)).imp fun {s t} hst => ?_
    rintro roll hs ht
    obtain ⟨a, -, rfl⟩ := List.mem_map.1 hs
    obtain ⟨b, -, hb⟩ := List.mem_map.1 ht
    exact hst (List.cons.inj hb).2.symm

theorem mem_sections_replicate {α : Type} {l s : List α} {n : ℕ} :
    s ∈ (List.replicate n l).sections ↔ s.length = n ∧ ∀ a ∈ s, a ∈ l := by
  rw [List.mem_sections]
  induction n generalizing s with
  | zero => cases s <;> simp
  | succ n ih => cases s <;> simp [List.replicate_succ, ih, and_left_comm]

theorem mem_faces {sides face : ℕ} : face ∈ Distribution.faces sides ↔ 1 ≤ face ∧ face ≤ sides := by
  rw [Distribution.faces, List.mem_range'_1]
  omega

namespace Pool

theorem mem_dieRolls {p : Pool} {roll : DieRoll} :
    roll ∈ p.dieRolls ↔
      roll.length = p.facesPerDie ∧ ∀ face ∈ roll, 1 ≤ face ∧ face ≤ p.dice.sides.toNat := by
  simp only [dieRolls, mem_sections_replicate, mem_faces]

/-- A die with sides can show its lowest face on every roll. -/
theorem dieRolls_ne_nil {p : Pool} (h : p.dice.sides ≠ 0) : p.dieRolls ≠ [] := by
  refine List.ne_nil_of_mem (a := List.replicate p.facesPerDie 1) (mem_dieRolls.2 ⟨?_, ?_⟩)
  · exact List.length_replicate
  · intro face hface
    rw [List.eq_of_mem_replicate hface]
    exact ⟨le_rfl, Nat.one_le_iff_ne_zero.2 fun e => h (UInt32.toNat_inj.1 e)⟩

theorem mem_rolls {p : Pool} {roll : PoolRoll} :
    roll ∈ p.rolls ↔ roll.length = p.dice.count.toNat ∧ ∀ die ∈ roll, die ∈ p.dieRolls :=
  mem_sections_replicate

theorem rolls_ne_nil {p : Pool} (h : p.dice.sides ≠ 0) : p.rolls ≠ [] := by
  obtain ⟨die, hdie⟩ := List.exists_mem_of_ne_nil _ (dieRolls_ne_nil h)
  refine List.ne_nil_of_mem (a := List.replicate p.dice.count.toNat die) (mem_rolls.2 ⟨?_, ?_⟩)
  · exact List.length_replicate
  · exact fun d hd => List.eq_of_mem_replicate hd ▸ hdie

theorem nodup_dieRolls (p : Pool) : p.dieRolls.Nodup := by
  refine nodup_sections fun l hl => ?_
  obtain rfl := List.eq_of_mem_replicate hl
  exact List.nodup_range'

theorem nodup_rolls (p : Pool) : p.rolls.Nodup := by
  refine nodup_sections fun l hl => ?_
  obtain rfl := List.eq_of_mem_replicate hl
  exact p.nodup_dieRolls

end Pool

theorem mem_allRolls {pools : List Pool} {roll : Roll} :
    roll ∈ allRolls pools ↔ List.Forall₂ (fun cell p => cell ∈ p.rolls) roll pools := by
  rw [allRolls, List.mem_sections, List.forall₂_map_right_iff]

theorem allRolls_ne_nil {pools : List Pool} (h : ∀ p ∈ pools, p.rolls ≠ []) :
    allRolls pools ≠ [] := by
  rw [← List.length_pos_iff, allRolls, length_sections, List.map_map, Nat.pos_iff_ne_zero]
  refine List.prod_ne_zero fun hzero => ?_
  obtain ⟨p, hp, hlen⟩ := List.mem_map.1 hzero
  exact h p hp (List.eq_nil_of_length_eq_zero hlen)

/-- So to count places in the list of all rolls is to count rolls. -/
theorem nodup_allRolls (pools : List Pool) : (allRolls pools).Nodup := by
  refine nodup_sections fun l hl => ?_
  obtain ⟨p, -, rfl⟩ := List.mem_map.1 hl
  exact p.nodup_rolls

/-! ## 3. What a roll is worth -/

/-- The faces that a die follows: each face in `again` is followed by the next one. -/
def followed (again : ℕ → Bool) : List ℕ → List ℕ
  | [] => []
  | face :: rest => if again face then face :: followed again rest else [face]

/-- The face that stands, the last one followed. -/
def finalFace (again : ℕ → Bool) (roll : DieRoll) : ℕ := (followed again roll).getLastD 0

/-- The first face of a die. -/
def firstFace (roll : DieRoll) : ℕ := roll.headD 0

namespace Pool

/-- What the faces of one die amount to: a plain die shows its face, a rerolled one the face that
stands; an exploding one adds its faces, or counts its successes. -/
def points (p : Pool) (roll : DieRoll) : ℕ :=
  match p.modifier with
  | none => firstFace roll
  | some (.reroll range _) => finalFace range.contains roll
  | some (.exploding .sum _ explode _) =>
    (followed (fun face => explode.any (·.contains face)) roll).sum
  | some (.exploding .count success explode _) =>
    (followed (fun face => explode.any (·.contains face)) roll).countP
      fun face => success.any (·.contains face)

/-- The value of one die, if it lies on the grid. -/
def dieValue? (p : Pool) (roll : DieRoll) : Option Outcome :=
  Outcome.ofHundredths? (p.points roll * 100)

/-- The face that makes a die critical: the one that stands, but the first one of an exploding
die. -/
def decidingFace (p : Pool) (roll : DieRoll) : ℕ :=
  match p.modifier with
  | none => firstFace roll
  | some (.reroll range _) => finalFace range.contains roll
  | some (.exploding ..) => firstFace roll

end Pool

end DiceOdds
