import DiceOdds.Proofs.Counting.Group

/-!
# Marking the first dice

Where no dice are marked as critical, the first literal of a check is.  The mark changes which
faces count as critical and nothing else: the marked formula has the same rolls, and the same value
on each of them.
-/

namespace DiceOdds

namespace Pool

/-- The same dice, deciding about critical hits. -/
def marked (p : Pool) : Pool := { p with dice := { p.dice with critical := true } }

@[simp] theorem dieValue?_marked (p : Pool) : p.marked.dieValue? = p.dieValue? := rfl

@[simp] theorem rolls_marked (p : Pool) : p.marked.rolls = p.rolls := rfl

@[simp] theorem values?_marked (p : Pool) : p.marked.values? = p.values? := rfl

@[simp] theorem sum?_marked (p : Pool) : p.marked.sum? = p.sum? := rfl

@[simp] theorem kept?_marked (p : Pool) : p.marked.kept? = p.kept? := rfl

@[simp] theorem clampedSum?_marked (p : Pool) : p.marked.clampedSum? = p.clampedSum? := rfl

end Pool

namespace Node

/-! ## 1. References and parts -/

@[simp] theorem hasReference_binary (operation : Operation) (left right : Node) :
    (binary operation left right).hasReference = (left.hasReference || right.hasReference) := by
  simp [hasReference, subterms]

@[simp] theorem hasReference_group (inner : Node) :
    (group inner).hasReference = inner.hasReference := by
  simp [hasReference, subterms]

/-- Whether some node of a list refers to dice. -/
def hasReferenceIn (nodes : List Node) : Bool := nodes.any hasReference

theorem any_subtermsAll (nodes : List Node) (p : Node → Bool) :
    (subtermsAll nodes).any p = nodes.any fun node => node.subterms.any p := by
  induction nodes with
  | nil => rfl
  | cons node rest ih => simp [subtermsAll, ih]

@[simp] theorem hasReference_keep (kind : KeepKind) (count : UInt32) (items : List Node) :
    (keep kind count items).hasReference = hasReferenceIn items := by
  rw [hasReference, subterms, List.any_cons, any_subtermsAll]
  rfl

@[simp] theorem hasReference_function (name : FunctionName) (args : List Node) :
    (function name args).hasReference = hasReferenceIn args := by
  rw [hasReference, subterms, List.any_cons, any_subtermsAll]
  rfl

/-! ## 2. What marking keeps -/

/-- The marked formula differs from the formula in the mark of its first dice. -/
structure MarkedAs (node marked : Node) : Prop where
  arithmetic : marked.Arithmetic
  hasReference : marked.hasReference = node.hasReference
  pools : ∃ p rest, node.pools = p :: rest ∧ marked.pools = p.marked :: rest
  strippedPool? : marked.strippedPool? = node.strippedPool?.map Pool.marked
  valueOn : ∀ given roll, marked.valueOn given roll = node.valueOn given roll

/-- The same for a list of formulas. -/
structure MarkedAllAs (nodes marked : List Node) : Prop where
  arithmetic : ∀ node ∈ marked, node.Arithmetic
  hasReference : hasReferenceIn marked = hasReferenceIn nodes
  pools : ∃ p rest, poolsAll nodes = p :: rest ∧ poolsAll marked = p.marked :: rest
  onlyPool? : onlyPool? marked = (onlyPool? nodes).map Pool.marked
  valuesOn : ∀ given roll, valuesOn given marked roll = valuesOn given nodes roll

theorem MarkedAs.pools_length {node marked : Node} (h : node.MarkedAs marked) :
    marked.pools.length = node.pools.length := by
  obtain ⟨p, rest, hn, hm⟩ := h.pools
  rw [hn, hm, List.length_cons, List.length_cons]

theorem markedAs_dice (d : Dice) (id : Option ℕ) (modifier : Option Modifier) :
    MarkedAs (dice d id modifier) (dice { d with critical := true } id modifier) where
  arithmetic := .dice _ _ _
  hasReference := rfl
  pools := ⟨⟨d, modifier⟩, [], rfl, rfl⟩
  strippedPool? := rfl
  valueOn given roll := by
    simp only [Node.valueOn]
    exact congrFun (Pool.sum?_marked ⟨d, modifier⟩) _

theorem MarkedAs.group {inner marked : Node} (h : inner.MarkedAs marked) :
    MarkedAs (.group inner) (.group marked) where
  arithmetic := .group h.arithmetic
  hasReference := by rw [hasReference_group, hasReference_group, h.hasReference]
  pools := by simpa using h.pools
  strippedPool? := h.strippedPool?
  valueOn given roll := by simp only [Node.valueOn, h.valueOn]

theorem MarkedAs.binaryLeft {left marked right : Node} (operation : Operation)
    (h : left.MarkedAs marked) (hr : right.Arithmetic) :
    MarkedAs (.binary operation left right) (.binary operation marked right) where
  arithmetic := .binary operation h.arithmetic hr
  hasReference := by rw [hasReference_binary, hasReference_binary, h.hasReference]
  pools := by
    obtain ⟨p, rest, hn, hm⟩ := h.pools
    exact ⟨p, rest ++ right.pools, by simp [hn], by simp [hm]⟩
  strippedPool? := rfl
  valueOn given roll := by simp only [Node.valueOn, h.valueOn, h.pools_length]

theorem MarkedAs.binaryRight {left marked right : Node} (operation : Operation)
    (hl : left.Arithmetic) (hnone : left.pools = []) (h : right.MarkedAs marked) :
    MarkedAs (.binary operation left right) (.binary operation left marked) where
  arithmetic := .binary operation hl h.arithmetic
  hasReference := by rw [hasReference_binary, hasReference_binary, h.hasReference]
  pools := by simpa [hnone] using h.pools
  strippedPool? := rfl
  valueOn given roll := by simp only [Node.valueOn, h.valueOn]

theorem MarkedAs.head {node marked : Node} {rest : List Node} (h : node.MarkedAs marked)
    (hrest : ∀ item ∈ rest, item.Arithmetic) : MarkedAllAs (node :: rest) (marked :: rest) where
  arithmetic item hitem := by
    rcases List.mem_cons.1 hitem with rfl | hitem
    · exact h.arithmetic
    · exact hrest item hitem
  hasReference := by
    rw [hasReferenceIn, hasReferenceIn, List.any_cons, List.any_cons, h.hasReference]
  pools := by
    obtain ⟨p, others, hn, hm⟩ := h.pools
    exact ⟨p, others ++ poolsAll rest, by simp [hn], by simp [hm]⟩
  onlyPool? := by
    cases rest with
    | nil => exact h.strippedPool?
    | cons _ _ => rfl
  valuesOn given roll := by simp only [Node.valuesOn, h.valueOn, h.pools_length]

theorem MarkedAllAs.tail {node : Node} {rest marked : List Node} (hn : node.Arithmetic)
    (hnone : node.pools = []) (h : MarkedAllAs rest marked) :
    MarkedAllAs (node :: rest) (node :: marked) where
  arithmetic item hitem := by
    rcases List.mem_cons.1 hitem with rfl | hitem
    · exact hn
    · exact h.arithmetic item hitem
  hasReference := by
    have hrest := h.hasReference
    rw [hasReferenceIn, hasReferenceIn] at hrest
    rw [hasReferenceIn, hasReferenceIn, List.any_cons, List.any_cons, hrest]
  pools := by simpa [hnone] using h.pools
  onlyPool? := by
    obtain ⟨p, others, hp, hm⟩ := h.pools
    cases rest with
    | nil => cases hp
    | cons _ _ =>
      cases marked with
      | nil => cases hm
      | cons _ _ => rfl
  valuesOn given roll := by simp only [Node.valuesOn, h.valuesOn]

theorem MarkedAllAs.keep {items marked : List Node} (kind : KeepKind) (count : UInt32)
    (h : MarkedAllAs items marked) :
    MarkedAs (.keep kind count items) (.keep kind count marked) where
  arithmetic := .keep kind count h.arithmetic
  hasReference := by rw [hasReference_keep, hasReference_keep, h.hasReference]
  pools := by simpa using h.pools
  strippedPool? := rfl
  valueOn given roll := by
    simp only [Node.valueOn, h.onlyPool?, h.valuesOn]
    cases Node.onlyPool? items <;> rfl

theorem MarkedAs.function {target marked : Node} (name : FunctionName) (bound : Float)
    (h : target.MarkedAs marked) :
    MarkedAs (.function name [target, .number bound]) (.function name [marked, .number bound]) where
  arithmetic := .function name bound h.arithmetic
  hasReference := by
    simp only [hasReference_function, hasReferenceIn, List.any_cons, h.hasReference]
  pools := by simpa using h.pools
  strippedPool? := rfl
  valueOn given roll := by
    have heach : eachPool? name marked = (eachPool? name target).map Pool.marked := by
      unfold eachPool?
      by_cases hname : name.perDie
      · rw [if_pos hname, if_pos hname, h.strippedPool?]
      · rw [if_neg hname, if_neg hname]
        rfl
    simp only [Node.valueOn, heach, h.valueOn]
    cases eachPool? name target <;> rfl

/-! ## 3. The first dice are found -/

/-- The outcome of looking for the first dice of a formula. -/
def MarksFirst (node : Node) : Prop :=
  (node.markLeftmost? = none ∧ node.pools = [])
    ∨ ∃ marked, node.markLeftmost? = some marked ∧ node.MarkedAs marked

theorem markLeftmostIn?_spec {nodes : List Node} (ha : ∀ node ∈ nodes, node.Arithmetic)
    (h : ∀ node ∈ nodes, node.MarksFirst) :
    (markLeftmostIn? nodes = none ∧ poolsAll nodes = [])
      ∨ ∃ marked, markLeftmostIn? nodes = some marked ∧ MarkedAllAs nodes marked := by
  induction nodes with
  | nil => exact .inl ⟨rfl, rfl⟩
  | cons node rest ih =>
    have har : ∀ item ∈ rest, item.Arithmetic := fun item hi => ha item (List.mem_cons_of_mem _ hi)
    rw [markLeftmostIn?]
    rcases h node (List.mem_cons_self ..) with ⟨hmark, hpools⟩ | ⟨marked, hmark, hm⟩
    · rw [hmark]
      rcases ih har fun item hi => h item (List.mem_cons_of_mem _ hi) with
        ⟨hrest, hpr⟩ | ⟨marked, hrest, hm⟩
      · exact .inl ⟨by rw [hrest]; rfl, by rw [poolsAll_cons, hpools, hpr]; rfl⟩
      · exact .inr ⟨node :: marked, by rw [hrest]; rfl,
          hm.tail (ha node (List.mem_cons_self ..)) hpools⟩
    · exact .inr ⟨marked :: rest, by rw [hmark], hm.head har⟩

/-- **Marking finds the first dice**, and fails only where there are none. -/
theorem Arithmetic.marksFirst {node : Node} (h : node.Arithmetic) : node.MarksFirst := by
  induction h with
  | number value => exact .inl ⟨by rw [markLeftmost?], rfl⟩
  | dice d id modifier => exact .inr ⟨_, by rw [markLeftmost?], markedAs_dice d id modifier⟩
  | reference id critical => exact .inl ⟨by rw [markLeftmost?], rfl⟩
  | @keep kind count items ha ih =>
    rcases markLeftmostIn?_spec ha ih with ⟨hmark, hpools⟩ | ⟨marked, hmark, hm⟩
    · exact .inl ⟨by rw [markLeftmost?, hmark]; rfl, by rw [pools_keep, hpools]⟩
    · exact .inr ⟨_, by rw [markLeftmost?, hmark]; rfl, hm.keep kind count⟩
  | @binary operation left right hal har ihl ihr =>
    rcases ihl with ⟨hmark, hpools⟩ | ⟨marked, hmark, hm⟩
    · rcases ihr with ⟨hmarkr, hpoolsr⟩ | ⟨marked, hmarkr, hm⟩
      · exact .inl ⟨by rw [markLeftmost?, hmark, hmarkr]; rfl,
          by rw [pools_binary, hpools, hpoolsr]; rfl⟩
      · exact .inr ⟨_, by rw [markLeftmost?, hmark, hmarkr]; rfl,
          hm.binaryRight operation hal hpools⟩
    · exact .inr ⟨_, by rw [markLeftmost?, hmark], hm.binaryLeft operation har⟩
  | @function name target bound ha ih =>
    rcases ih with ⟨hmark, hpools⟩ | ⟨marked, hmark, hm⟩
    · exact .inl ⟨by simp [markLeftmost?, markLeftmostIn?, hmark], by simp [hpools]⟩
    · exact .inr ⟨_, by simp [markLeftmost?, markLeftmostIn?, hmark], hm.function name bound⟩
  | @group inner ha ih =>
    rcases ih with ⟨hmark, hpools⟩ | ⟨marked, hmark, hm⟩
    · exact .inl ⟨by rw [markLeftmost?, hmark]; rfl, by rw [pools_group, hpools]⟩
    · exact .inr ⟨_, by rw [markLeftmost?, hmark]; rfl, hm.group⟩

end Node

end DiceOdds
