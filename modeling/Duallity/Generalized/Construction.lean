import Duallity.Generalized.Computation
import Mathlib.Data.List.Forall2

/-! What construction gives a Generalized transducer: the operations that fit the budget, each prepared with its scaled
    weight and with the slots of its widths. -/

namespace Duallity
namespace GeneralizedWfst
open GeneralizedOps
variable {N R : Type}

/-- Every prepared operation has its operation, and slots that it shares with the operations of its widths only. -/
structure SlotsFit (src : GeneralizedWfst N R) : Prop where
  operation : ∀ p ∈ src.preparedOperations, ∃ o, src.operations[p.index]? = some o
  sourceSlot_lt : ∀ p ∈ src.preparedOperations, p.sourceWidthSlot < src.sourceWidthSlotCount
  querySlot_lt : ∀ p ∈ src.preparedOperations, p.queryWidthSlot < src.queryWidthSlotCount
  consumeX_eq : ∀ p ∈ src.preparedOperations, ∀ p' ∈ src.preparedOperations, p.sourceWidthSlot = p'.sourceWidthSlot →
    p.consumeX = p'.consumeX
  consumeY_eq : ∀ p ∈ src.preparedOperations, ∀ p' ∈ src.preparedOperations, p.queryWidthSlot = p'.queryWidthSlot →
    p.consumeY = p'.consumeY

/-- The prepared operations are those of the original set whose scaled weight fits the budget. -/
structure PreparedFrom (src : GeneralizedWfst N R) (scale : CostScale) (operations : OperationSet R) : Prop where
  scaled : ∀ o ∈ operations, (scale.toScaled o.weight).isSome
  original : ∀ p ∈ src.preparedOperations, ∃ o ∈ operations, src.operations[p.index]? = some o ∧ p.consumeX = o.consumeX ∧
    p.consumeY = o.consumeY ∧ p.weight = o.weight ∧ scale.toScaled o.weight = some p.scaledWeight
  prepared : ∀ o ∈ operations, ∀ s ≤ src.maxCost, scale.toScaled o.weight = some s → ∃ p ∈ src.preparedOperations,
    src.operations[p.index]? = some o ∧ p.consumeX = o.consumeX ∧ p.consumeY = o.consumeY ∧ p.weight = o.weight ∧
    p.scaledWeight = s

theorem le_foldl_max (xs : List Nat) (init : Nat) : init ≤ xs.foldl max init ∧ ∀ x ∈ xs, x ≤ xs.foldl max init := by
  induction xs generalizing init with
  | nil => simp
  | cons x xs ih =>
    rcases ih (max init x) with ⟨hinit, hmem⟩
    refine ⟨(Nat.le_max_left _ _).trans hinit, ?_⟩
    intro y hy
    rcases List.mem_cons.mp hy with rfl | hy
    · exact (Nat.le_max_right _ _).trans hinit
    · exact hmem y hy

theorem lt_slotCount {slots : List Nat} {slot : Nat} (h : slot ∈ slots) : slot < slotCount slots :=
  (le_foldl_max _ _).2 _ (List.mem_map_of_mem h)

section Construction
variable [DecidableEq R] {D : DictionaryProvider N} {lib : OperationLibrary R} {query : List Char} {maxDistance : Nat}
  {operations : OperationSet R} {limits : GeneralizedWfstLimits} {src : GeneralizedWfst N R}

/-- What a construction has computed when it succeeds. -/
theorem of_tryNewWithLimits (h : tryNewWithLimits D lib query maxDistance operations limits = .ok src) :
    validateConstructionLimits query operations limits = .ok () ∧ ∃ scale maxCost bounded prepared,
      lib.costScaleFor operations = some scale ∧ scale.scaleBudget maxDistance = some maxCost ∧
      boundedOperationSet scale maxCost operations = some bounded ∧ prepareOperations bounded scale = some prepared ∧
      src = ⟨D, lib, query, bounded, prepared, slotCount (prepared.map PreparedOperation.sourceWidthSlot),
        slotCount (prepared.map PreparedOperation.queryWidthSlot), maxCost, limits⟩ := by
  unfold tryNewWithLimits at h
  split at h
  · cases hlimits : validateConstructionLimits query operations limits with
    | error e =>
      rw [hlimits] at h
      cases h
    | ok u =>
      rw [hlimits] at h
      refine ⟨rfl, ?_⟩
      cases hscale : lib.costScaleFor operations with
      | none =>
        rw [hscale] at h
        cases h
      | some scale =>
        rw [hscale] at h
        cases hcost : scale.scaleBudget maxDistance with
        | none =>
          simp only [hcost] at h
          cases h
        | some maxCost =>
          simp only [hcost] at h
          cases hbounded : boundedOperationSet scale maxCost operations with
          | none =>
            simp only [hbounded] at h
            cases h
          | some bounded =>
            simp only [hbounded] at h
            cases hprepared : prepareOperations bounded scale with
            | none =>
              simp only [hprepared] at h
              cases h
            | some prepared =>
              simp only [hprepared] at h
              cases h
              exact ⟨scale, maxCost, bounded, prepared, rfl, hcost, hbounded, hprepared, rfl⟩
  · cases h

/-- The arguments of a construction are kept. -/
theorem arguments_eq (h : tryNewWithLimits D lib query maxDistance operations limits = .ok src) :
    src.dictionary = D ∧ src.library = lib ∧ src.query = query := by
  obtain ⟨-, _, _, _, _, -, -, -, -, rfl⟩ := of_tryNewWithLimits h
  exact ⟨rfl, rfl, rfl⟩

theorem slotsFit (h : tryNewWithLimits D lib query maxDistance operations limits = .ok src) : SlotsFit src := by
  obtain ⟨-, scale, maxCost, bounded, prepared, -, -, -, hprepared, rfl⟩ := of_tryNewWithLimits h
  obtain ⟨-, hoperation, ⟨source, -, hsource⟩, slots, -, hquery⟩ := prepareFrom_spec hprepared
  refine ⟨?_, fun p hp => lt_slotCount (List.mem_map_of_mem hp), fun p hp => lt_slotCount (List.mem_map_of_mem hp), ?_, ?_⟩
  · intro p hp
    obtain ⟨j, hj⟩ := List.getElem?_of_mem hp
    have hprepares := hoperation j p hj
    obtain ⟨o, ho, -⟩ := hprepares.operation
    refine ⟨o, ?_⟩
    rw [hprepares.index, Nat.zero_add]
    exact ho
  · intro p hp p' hp' heq
    exact Interner.id?_injective (hsource p hp) (heq ▸ hsource p' hp')
  · intro p hp p' hp' heq
    exact Interner.id?_injective (hquery p hp) (heq ▸ hquery p' hp')

/-- Prepared operations share a slot if and only if they have the same width on that side. -/
theorem slot_eq_iff (h : tryNewWithLimits D lib query maxDistance operations limits = .ok src) {p p' : PreparedOperation}
    (hp : p ∈ src.preparedOperations) (hp' : p' ∈ src.preparedOperations) :
    (p.sourceWidthSlot = p'.sourceWidthSlot ↔ p.consumeX = p'.consumeX) ∧
    (p.queryWidthSlot = p'.queryWidthSlot ↔ p.consumeY = p'.consumeY) := by
  have hfits := slotsFit h
  obtain ⟨-, scale, maxCost, bounded, prepared, -, -, -, hprepared, rfl⟩ := of_tryNewWithLimits h
  obtain ⟨-, -, ⟨source, -, hsource⟩, slots, -, hquery⟩ := prepareFrom_spec hprepared
  refine ⟨⟨hfits.consumeX_eq p hp p' hp', fun heq => ?_⟩, hfits.consumeY_eq p hp p' hp', fun heq => ?_⟩
  · exact Option.some.inj ((hsource p hp).symm.trans (heq ▸ hsource p' hp'))
  · exact Option.some.inj ((hquery p hp).symm.trans (heq ▸ hquery p' hp'))

/-- The prepared operations are those of the set, in its order. -/
theorem prepared_forall₂ (h : tryNewWithLimits D lib query maxDistance operations limits = .ok src) :
    ∃ scale, lib.costScaleFor operations = some scale ∧ scale.scaleBudget maxDistance = some src.maxCost ∧
      boundedOperationSet scale src.maxCost operations = some src.operations ∧
      List.Forall₂ (fun p o => src.operations[p.index]? = some o ∧ p.consumeX = o.consumeX ∧ p.consumeY = o.consumeY ∧
        p.weight = o.weight ∧ scale.toScaled o.weight = some p.scaledWeight) src.preparedOperations src.operations := by
  obtain ⟨-, scale, maxCost, bounded, prepared, hscale, hcost, hbounded, hprepared, rfl⟩ := of_tryNewWithLimits h
  obtain ⟨hlength, hoperation, -⟩ := prepareFrom_spec hprepared
  refine ⟨scale, hscale, hcost, hbounded, List.forall₂_iff_get.mpr ⟨hlength, fun j hj hj' => ?_⟩⟩
  have hprepares := hoperation j _ (List.getElem?_eq_getElem hj)
  obtain ⟨o, ho, hx, hy, hw, hs⟩ := hprepares.operation
  have hat := ho
  rw [List.getElem?_eq_getElem hj', Option.some.injEq] at ho
  rw [List.get_eq_getElem, List.get_eq_getElem, ho]
  refine ⟨?_, hx, hy, hw, hs⟩
  rw [hprepares.index, Nat.zero_add]
  exact hat

theorem preparedFrom (h : tryNewWithLimits D lib query maxDistance operations limits = .ok src) :
    ∃ scale, lib.costScaleFor operations = some scale ∧ scale.scaleBudget maxDistance = some src.maxCost ∧
      PreparedFrom src scale operations := by
  obtain ⟨-, scale, maxCost, bounded, prepared, hscale, hcost, hbounded, hprepared, rfl⟩ := of_tryNewWithLimits h
  obtain ⟨hscaled, hmem⟩ := boundedOperationSet_spec hbounded
  obtain ⟨hlength, hoperation, -⟩ := prepareFrom_spec hprepared
  refine ⟨scale, hscale, hcost, hscaled, ?_, ?_⟩
  · intro p hp
    obtain ⟨j, hj⟩ := List.getElem?_of_mem hp
    have hprepares := hoperation j p hj
    obtain ⟨o, ho, hx, hy, hw, hs⟩ := hprepares.operation
    refine ⟨o, ((hmem o).mp (List.mem_of_getElem? ho)).1, ?_, hx, hy, hw, hs⟩
    rw [hprepares.index, Nat.zero_add]
    exact ho
  · intro o ho s hs hw
    obtain ⟨j, hj⟩ := List.getElem?_of_mem ((hmem o).mpr ⟨ho, s, hs, hw⟩)
    have hlt : j < prepared.length := hlength ▸ (List.getElem?_eq_some_iff.mp hj).1
    have hprepares := hoperation j _ (List.getElem?_eq_getElem hlt)
    obtain ⟨o', ho', hx, hy, hw', hs'⟩ := hprepares.operation
    cases hj.symm.trans ho'
    refine ⟨prepared[j], List.getElem_mem hlt, ?_, hx, hy, hw', Option.some.inj (hs'.symm.trans hw)⟩
    rw [hprepares.index, Nat.zero_add]
    exact hj

end Construction
end GeneralizedWfst
end Duallity
