import DiceOdds.Proofs.Records.Texts
import DiceOdds.Proofs.Safety.Answer
import DiceOdds.Report

/-!
# Records hold every outcome

A record lists weights by the texts of their outcomes.  As long as texts tell outcomes apart, it is
the distribution once more, with another kind of key; nothing gets lost, and the weights of a report
add up to its total.

## Why texts are compared as lists

Two entries of a record meet exactly when their texts are equal.  So the whole question is whether
the texts of a distribution are pairwise different, and a record with pairwise different texts has
the entries that it was made from, in another order.
-/

namespace DiceOdds

variable {W : Type}

/-! ## 1. Records -/

namespace Distribution

/-- The entries of a distribution with the texts of their outcomes. -/
def entries (d : Distribution W) : List (String × W) := d.toList.map fun p => (p.1.text, p.2)

theorem record_eq (d : Distribution W) :
    d.record = d.entries.foldl (fun map entry => map.insert entry.1 entry.2) ∅ := by
  rw [entries, List.foldl_map]
  rfl

/-- Inserting entries with different texts one by one keeps all of them. -/
theorem getElem?_foldl_insert (entries : List (String × W)) (map : Std.TreeMap String W)
    (hnodup : (entries.map Prod.fst).Nodup) (text : String) (weight : W) :
    (entries.foldl (fun map entry => map.insert entry.1 entry.2) map)[text]? = some weight
      ↔ (text, weight) ∈ entries ∨ text ∉ entries.map Prod.fst ∧ map[text]? = some weight := by
  induction entries generalizing map with
  | nil => simp
  | cons entry rest ih =>
    obtain ⟨key, value⟩ := entry
    rw [List.map_cons, List.nodup_cons] at hnodup
    obtain ⟨hnew, hrest⟩ := hnodup
    rw [List.foldl_cons, ih _ hrest, Std.TreeMap.getElem?_insert, List.mem_cons, List.map_cons,
      List.mem_cons, not_or]
    by_cases heq : key = text
    · subst heq
      have hnot : (key, weight) ∉ rest := fun hmem => hnew (List.mem_map.2 ⟨_, hmem, rfl⟩)
      simp [hnew, hnot, eq_comm]
    · simp [heq, Ne.symm heq]

/-- The texts of the outcomes are pairwise different. -/
def HasDistinctTexts (d : Distribution W) : Prop := (d.entries.map Prod.fst).Nodup

theorem hasDistinctTexts {d : Distribution W} (h : ∀ p ∈ d.toList, p.1.PrintsExactly) :
    d.HasDistinctTexts := by
  have hkeys : d.toList.map Prod.fst = d.weights.keys := Std.TreeMap.map_fst_toList_eq_keys
  have hnodup : (d.toList.map Prod.fst).Nodup := hkeys ▸ Std.TreeMap.nodup_keys
  have htexts : d.entries.map Prod.fst = (d.toList.map Prod.fst).map Outcome.text := by
    rw [entries, List.map_map, List.map_map]
    rfl
  rw [HasDistinctTexts, htexts]
  refine hnodup.map_on fun a ha b hb heq => ?_
  obtain ⟨p, hp, rfl⟩ := List.mem_map.1 ha
  obtain ⟨q, hq, rfl⟩ := List.mem_map.1 hb
  exact Outcome.eq_of_text_eq (h p hp) (h q hq) heq

/-- **A record loses nothing** when the texts are different: it has the entries of the
distribution, ordered by their texts. -/
theorem HasDistinctTexts.perm_record {d : Distribution W} (h : d.HasDistinctTexts) :
    d.record.toList.Perm d.entries := by
  have hkeys : (d.record.toList.map Prod.fst).Nodup := by
    rw [Std.TreeMap.map_fst_toList_eq_keys]
    exact Std.TreeMap.nodup_keys
  refine (List.perm_ext_iff_of_nodup hkeys.of_map h.of_map).2 fun ⟨text, weight⟩ => ?_
  rw [Std.TreeMap.mem_toList_iff_getElem?_eq_some, record_eq, getElem?_foldl_insert _ _ h]
  simp

/-- Texts are in alphabetical order, so the `10` of a die comes before its `2`. -/
example : (uniform 10 : Distribution ℚ).record.toList.map Prod.fst
    = ["1", "10", "2", "3", "4", "5", "6", "7", "8", "9"] := by
  decide +kernel

end Distribution

/-! ## 2. Totals -/

section Totals

variable {s : Settings ℚ} {root : Node} {e : Evaluation ℚ} {groups : List (DiceGroup ℚ)}

/-- A check counts cases, so neither of its weights is negative. -/
theorem nonneg_reuseCheck (hgroups : ∀ group ∈ groups, group.2.PositiveWhole) {relation : Relation}
    {left right : Node} (he : reuseCheck s groups root relation left right = .ok e) {c : Check ℚ}
    (hc : e = .check c) : 0 ≤ c.success ∧ 0 ≤ c.failure := by
  obtain ⟨tally, htally, he⟩ := bind_eq_ok.1 he
  obtain rfl := pure_eq_ok.1 he
  cases hc
  rw [forCombinations_eq] at htally
  refine foldlM_invariant _ (fun t : HitTally ℚ => 0 ≤ t.success ∧ 0 ≤ t.failure) _ htally
    ⟨le_rfl, le_rfl⟩ fun t next c hc ht hnext => ?_
  have hweight : 0 ≤ c.2 := nonneg_of_mem_combinations
    (fun group hgroup => (hgroups group hgroup).positive.nonneg) zero_le_one hc
  obtain ⟨holds, -, hnext⟩ := bind_eq_ok.1 hnext
  obtain rfl := pure_eq_ok.1 hnext
  cases holds with
  | true => exact ⟨add_nonneg ht.1 hweight, ht.2⟩
  | false => exact ⟨ht.1, add_nonneg ht.2 hweight⟩

theorem nonneg_reuseByGroups (hgroups : ∀ group ∈ groups, group.2.PositiveWhole)
    (he : reuseByGroups s groups root = .ok e) {c : Check ℚ} (hc : e = .check c) :
    0 ≤ c.success ∧ 0 ≤ c.failure := by
  have hplain (h : reusePlain s groups root = .ok e) : False := by
    obtain ⟨sum, -, h⟩ := bind_eq_ok.1 h
    cases hc.symm.trans (pure_eq_ok.1 h).symm
  -- conditionals and mixtures are no checks
  cases reuseRoute_of_ok he with
  | check _ he => exact nonneg_reuseCheck hgroups he hc
  | conditional _ _ he =>
    obtain ⟨_, tally, -, rfl, -⟩ := reuseConditional_eq_ok he
    exact absurd hc (tally.evaluation_ne_check _ _ c)
  | unguarded _ _ he | plain _ _ _ he => exact (hplain he).elim
  | byRate => cases hc
  | decided _ _ _ _ he =>
    obtain ⟨sums, -, he⟩ := bind_eq_ok.1 he
    cases hc.symm.trans (pure_eq_ok.1 he).symm

theorem nonneg_check_evaluateFormula (he : root.evaluateFormula s = .ok e) {c : Check ℚ}
    (hc : e = .check c) : 0 ≤ c.success ∧ 0 ≤ c.failure := by
  cases route_of_ok he with
  | reuse _ hgroups he => exact nonneg_reuseByGroups (positiveWhole_diceGroups hgroups) he hc
  | mixture _ _ he => cases mixtureRoute_of_ok he <;> cases hc
  | plain _ _ he =>
    rw [hc] at he
    exact Node.nonneg_of_walk he

/-- The total of a report is the sum of the weights that it stands for. -/
theorem totalOutcomes_eq_total (f : Formula) (he : root.evaluateFormula s = .ok e) :
    (Report.ofEvaluation f e).totalOutcomes = e.distribution.total := by
  cases e with
  | check c =>
    obtain ⟨hs, hf⟩ := nonneg_check_evaluateFormula he rfl
    exact (Distribution.total_bernoulli hs hf).symm
  | _ => rfl

/-- The weights of a record whose texts are different add up to the total. -/
theorem Distribution.HasDistinctTexts.sum_record {d : Distribution ℚ} (h : d.HasDistinctTexts) :
    (d.record.toList.map Prod.snd).sum = d.total := by
  have hweights : d.entries.map Prod.snd = d.toList.map Prod.snd := by
    rw [entries, List.map_map]
    rfl
  rw [(h.perm_record.map Prod.snd).sum_eq, hweights, total_eq_sum]

end Totals

/-! ## 3. Records as a whole -/

/-- **A record says everything its distribution says**, wherever texts are exact: for whole
outcomes of any size, and for all others below `2 ^ 46`.  Then a text is the value of its outcome
and of no other one, a record has one entry for each outcome with the weight of that outcome, and
the weights of a report add up to its total. -/
theorem record_faithful (d : Distribution W) (hexact : ∀ p ∈ d.toList, p.1.PrintsExactly) :
    (∀ p ∈ d.toList, Decimal.exactValue? p.1.text = some ((p.1.hundredths : ℚ) / 100))
      ∧ (∀ p ∈ d.toList, ∀ q ∈ d.toList, p.1.text = q.1.text → p.1 = q.1)
      ∧ d.record.toList.Perm (d.toList.map fun p => (p.1.text, p.2))
      ∧ ∀ (text : String) (options : Options ℚ) (report : Report ℚ) (f : Formula)
          (e : Evaluation ℚ), calculate text options = .ok report → Formula.ofText text = .ok f →
          f.root.evaluateFormula (options.settings f.registry) = .ok e →
          (∀ p ∈ e.distribution.toList, p.1.PrintsExactly) →
          (report.distribution.toList.map Prod.snd).sum = report.totalOutcomes := by
  refine ⟨fun p hp => Outcome.exactValue?_text (hexact p hp),
    fun p hp q hq h => Outcome.eq_of_text_eq (hexact p hp) (hexact q hq) h,
    (Distribution.hasDistinctTexts hexact).perm_record,
    fun text options report f e hcalculate htext he hvalues => ?_⟩
  obtain ⟨-, f', e', htext', he', rfl⟩ := calculate_eq_ok hcalculate
  obtain rfl : f' = f := Except.ok.inj (htext'.symm.trans htext)
  obtain rfl : e' = e := Except.ok.inj (he'.symm.trans he)
  rw [Report.distribution_ofEvaluation, totalOutcomes_eq_total f' he]
  exact (Distribution.hasDistinctTexts hvalues).sum_record

/-- `d2*0.25`: the outcomes `0.25` and `0.5`. -/
def quarters : Formula where
  root := .binary .mul (.dice ⟨1, 2, false⟩ none none) (.number 0.25)
  registry := []

set_option maxRecDepth 4000 in
theorem ofText_quarters : Formula.ofText "d2*0.25" = .ok quarters := by
  have htokens : tokenize "d2*0.25" = .ok [⟨.dice ⟨1, 2, false⟩, 0⟩, ⟨.symbol .star, 2⟩,
      ⟨.number 0.25, 3⟩] := by decide +kernel
  rw [Formula.ofText, htokens]
  rfl

set_option maxRecDepth 4000 in
theorem record_faithful_quarters :
    ∃ (report : Report ℚ) (e : Evaluation ℚ), calculate "d2*0.25" .standard = .ok report
      ∧ quarters.root.evaluateFormula ((.standard : Options ℚ).settings quarters.registry) = .ok e
      ∧ e.distribution.toList.map Prod.fst = [⟨25, by decide, by decide⟩, ⟨50, by decide, by decide⟩]
      ∧ e.distribution.record.toList.Perm (e.distribution.toList.map fun p => (p.1.text, p.2))
      ∧ (report.distribution.toList.map Prod.snd).sum = report.totalOutcomes := by
  have hok : (calculate "d2*0.25" (.standard : Options ℚ)).isOk = true := by decide +kernel
  have hvalues : ((quarters.root.evaluateFormula
      ((.standard : Options ℚ).settings quarters.registry)).toOption.all fun e =>
        decide (e.distribution.toList.map Prod.fst
            = [⟨25, by decide, by decide⟩, ⟨50, by decide, by decide⟩])
          && e.distribution.toList.all fun p => decide p.1.PrintsExactly) = true := by decide +kernel
  cases hreport : calculate "d2*0.25" (.standard : Options ℚ) with
  | error _ => rw [hreport] at hok; cases hok
  | ok report =>
    obtain ⟨-, f, e, htext, he, -⟩ := calculate_eq_ok hreport
    obtain rfl : quarters = f := Except.ok.inj (ofText_quarters.symm.trans htext)
    rw [he] at hvalues
    obtain ⟨houtcomes, hprints⟩ := (Bool.and_eq_true _ _).mp hvalues
    have hexact : ∀ p ∈ e.distribution.toList, p.1.PrintsExactly := fun p hp =>
      of_decide_eq_true (List.all_eq_true.1 hprints p hp)
    obtain ⟨-, -, hperm, hsum⟩ := record_faithful e.distribution hexact
    exact ⟨report, e, rfl, he, of_decide_eq_true houtcomes, hperm,
      hsum _ _ report quarters e hreport ofText_quarters he hexact⟩

set_option maxRecDepth 4000 in
/-- From `2 ^ 46` on, neighbouring outcomes share a text: the record of two equally likely outcomes
has a single entry, and the weight of the other one is gone. -/
theorem record_sharedText :
    (∃ a b : Outcome, a ≠ b ∧ a.text = b.text)
      ∧ ((calculate "70368744177664+d2*0.01" (.standard : Options ℚ)).toOption.map
          fun report => (report.distribution.toList, report.totalOutcomes))
        = some ([("70368744177664.02", 1)], 2) := by
  refine ⟨⟨⟨7036874417766401, by decide, by decide⟩, ⟨7036874417766402, by decide, by decide⟩,
    fun h => absurd (congrArg Outcome.hundredths h) (by decide), by decide +kernel⟩, by decide +kernel⟩

end DiceOdds
