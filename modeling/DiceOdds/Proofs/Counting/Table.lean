import DiceOdds.Proofs.Loops

/-!
# Sums over tables of weights

A table gives a weight to each of finitely many keys.  What a table counts is read off through
`tableSum`: the sum of a function over the keys, each key taken as often as its weight says.

## Why sums and not weights

`tableSum` is linear, and adding to one weight adds one term to it, whatever was there before.  So
a loop that fills a table is a sum over what the loop runs through, and nested loops are nested
sums.  A single weight is the sum of an indicator (`tableSum_indicator`), so nothing is lost.
-/

set_option linter.unusedSectionVars false

namespace DiceOdds

open Std (TransOrd LawfulEqOrd TreeMap)

/-! ## 1. The sum over a table -/

variable {K : Type} [Ord K] [TransOrd K] [LawfulEqOrd K]

/-- The sum of `f` over the keys of a table, each with its weight. -/
def tableSum (t : TreeMap K ℚ) (f : K → ℚ) : ℚ := (t.toList.map fun p => p.2 * f p.1).sum

theorem mem_toList {t : TreeMap K ℚ} {p : K × ℚ} (h : p ∈ t.toList) : t.getD p.1 0 = p.2 := by
  rw [TreeMap.getD_eq_getD_getElem?, TreeMap.mem_toList_iff_getElem?_eq_some.1 h, Option.getD_some]

theorem getD_eq_zero {t : TreeMap K ℚ} {k : K} (h : k ∉ t) : t.getD k 0 = 0 := by
  rw [TreeMap.getD_eq_getD_getElem?, TreeMap.getElem?_eq_none h, Option.getD_none]

theorem mem_of_mem_toList {t : TreeMap K ℚ} {p : K × ℚ} (h : p ∈ t.toList) : p.1 ∈ t := by
  rw [← TreeMap.mem_keys, ← TreeMap.map_fst_toList_eq_keys]
  exact List.mem_map_of_mem h

theorem exists_of_mem {t : TreeMap K ℚ} {k : K} (h : k ∈ t) : ∃ p ∈ t.toList, p.1 = k := by
  rw [← TreeMap.mem_keys, ← TreeMap.map_fst_toList_eq_keys] at h
  exact List.mem_map.1 h

/-- A table may be summed over any set that holds its keys. -/
theorem tableSum_eq_finset [DecidableEq K] (t : TreeMap K ℚ) (f : K → ℚ) {s : Finset K}
    (hs : ∀ k ∈ t, k ∈ s) : tableSum t f = ∑ k ∈ s, t.getD k 0 * f k := by
  have hnodup : t.keys.Nodup := TreeMap.nodup_keys
  have hlist : tableSum t f = (t.keys.map fun k => t.getD k 0 * f k).sum := by
    rw [← TreeMap.map_fst_toList_eq_keys, List.map_map]
    refine congrArg List.sum (List.map_congr_left fun p hp => ?_)
    rw [Function.comp_apply, mem_toList hp]
  rw [hlist, ← List.sum_toFinset _ hnodup]
  refine Finset.sum_subset (fun k hk => ?_) fun k _ hk => ?_
  · rw [List.mem_toFinset, TreeMap.mem_keys] at hk
    exact hs k hk
  · rw [List.mem_toFinset, TreeMap.mem_keys] at hk
    rw [getD_eq_zero hk, zero_mul]

/-! ## 2. Linearity -/

@[simp] theorem tableSum_empty (f : K → ℚ) : tableSum (∅ : TreeMap K ℚ) f = 0 := rfl

theorem tableSum_congr {t : TreeMap K ℚ} {f g : K → ℚ} (h : ∀ p ∈ t.toList, f p.1 = g p.1) :
    tableSum t f = tableSum t g :=
  congrArg List.sum (List.map_congr_left fun p hp => by rw [h p hp])

theorem tableSum_zero (t : TreeMap K ℚ) : tableSum t (fun _ => 0) = 0 := by simp [tableSum]

theorem tableSum_mul (t : TreeMap K ℚ) (c : ℚ) (f : K → ℚ) :
    tableSum t (fun k => c * f k) = c * tableSum t f := by
  rw [tableSum, tableSum, ← List.sum_map_mul_left]
  exact congrArg List.sum (List.map_congr_left fun p _ => by ring)

/-- The weight of a key is the sum of its indicator. -/
theorem tableSum_indicator [DecidableEq K] (t : TreeMap K ℚ) (k : K) :
    tableSum t (fun j => if j = k then 1 else 0) = t.getD k 0 := by
  rw [tableSum_eq_finset t _ (s := insert k t.keys.toFinset) fun j hj => by simp [hj]]
  simp

/-! ## 3. Adding to a weight -/

theorem getD_alter_add [DecidableEq K] (t : TreeMap K ℚ) (k j : K) (w : ℚ) :
    (t.alter k fun old => some (old.getD 0 + w)).getD j 0
      = t.getD j 0 + if j = k then w else 0 := by
  rw [TreeMap.getD_alter]
  by_cases h : j = k
  · subst h
    simp [TreeMap.getD_eq_getD_getElem?]
  · have h' : compare k j ≠ .eq := fun e => h (Std.compare_eq_iff_eq.1 e).symm
    simp [h, h']

/-- Adding to one weight adds one term, whatever the weight was before. -/
theorem tableSum_alter (t : TreeMap K ℚ) (k : K) (w : ℚ) (f : K → ℚ) :
    tableSum (t.alter k fun old => some (old.getD 0 + w)) f = tableSum t f + w * f k := by
  classical
  have hkeys : ∀ j, j = k ∨ j ∈ t → j ∈ insert k t.keys.toFinset := by simp
  have hmem : ∀ j ∈ t.alter k (fun old => some (old.getD 0 + w)), j ∈ insert k t.keys.toFinset := by
    intro j hj
    refine hkeys j ?_
    rw [TreeMap.mem_alter] at hj
    by_cases h : compare k j = .eq
    · exact .inl (Std.compare_eq_iff_eq.1 h).symm
    · exact .inr (by simpa [h] using hj)
  rw [tableSum_eq_finset _ f hmem, tableSum_eq_finset t f fun j hj => hkeys j (.inr hj)]
  simp only [getD_alter_add, add_mul, Finset.sum_add_distrib, ite_mul, zero_mul]
  simp

/-- A table with a single key. -/
theorem tableSum_insert_empty (k : K) (w : ℚ) (f : K → ℚ) :
    tableSum ((∅ : TreeMap K ℚ).insert k w) f = w * f k := by
  classical
  rw [tableSum_eq_finset _ f (s := {k}) fun j hj => by
    rw [TreeMap.mem_insert, Std.compare_eq_iff_eq] at hj
    simpa [eq_comm] using hj]
  simp [TreeMap.getD_insert]

/-! ## 4. Signs -/

/-- No weight of the table is negative. -/
def NonnegTable (t : TreeMap K ℚ) : Prop := ∀ k, 0 ≤ t.getD k 0

theorem nonnegTable_empty : NonnegTable (∅ : TreeMap K ℚ) := fun k => by
  rw [getD_eq_zero TreeMap.not_mem_emptyc]

theorem NonnegTable.mem {t : TreeMap K ℚ} (h : NonnegTable t) {p : K × ℚ} (hp : p ∈ t.toList) :
    0 ≤ p.2 :=
  mem_toList hp ▸ h p.1

theorem NonnegTable.alter {t : TreeMap K ℚ} (h : NonnegTable t) (k : K) {w : ℚ} (hw : 0 ≤ w) :
    NonnegTable (t.alter k fun old => some (old.getD 0 + w)) := by
  classical
  intro j
  rw [getD_alter_add]
  refine add_nonneg (h j) ?_
  split
  · exact hw
  · exact le_rfl

theorem NonnegTable.insert {t : TreeMap K ℚ} (h : NonnegTable t) (k : K) {w : ℚ} (hw : 0 ≤ w) :
    NonnegTable (t.insert k w) := by
  intro j
  rw [TreeMap.getD_insert]
  split
  · exact hw
  · exact h j

end DiceOdds
