import Duallity.Lib.Interner
import Mathlib.Algebra.Order.Field.Rat
import Mathlib.Data.List.Basic

/-! Operations of the Generalized product (`generalized_ops.rs`): filtering and preparation of an operation set, query
    segments between character boundaries, and the test whether an operation applies to a pair of segments. -/

namespace Duallity

/-- `R` are the substitution sets of `liblevenshtein`. -/
inductive OperationApplicability (R : Type)
  | adjacentTranspose
  | any
  | equal
  | listed (restriction : R)
deriving DecidableEq

/-- An operation consumes `consumeX` dictionary characters and `consumeY` query characters. -/
structure OperationType (R : Type) where
  consumeX : Nat
  consumeY : Nat
  weight : ℚ
  applicability : OperationApplicability R
deriving DecidableEq

abbrev OperationSet (R : Type) := List (OperationType R)

/-- An exact fixed-point scale of `liblevenshtein`: the integer that a weight scales to, and that of a whole budget. -/
structure CostScale where
  toScaled : ℚ → Option Nat
  scaleBudget : Nat → Option Nat

/-- What construction and expansion call on `liblevenshtein`. -/
structure OperationLibrary (R : Type) where
  validate : OperationSet R → Bool
  costScaleFor : OperationSet R → Option CostScale
  containsStr : R → List UInt8 → List UInt8 → Bool

structure PreparedOperation where
  index : Nat
  consumeX : Nat
  consumeY : Nat
  sourceWidthSlot : Nat
  queryWidthSlot : Nat
  scaledWeight : Nat
  weight : ℚ
deriving DecidableEq

namespace GeneralizedOps
variable {R : Type} [DecidableEq R]

/-! ### Preparation -/

def operationsHaveSameWfstSemantics (left right : OperationType R) : Bool :=
  left.consumeX = right.consumeX ∧ left.consumeY = right.consumeY ∧ left.weight = right.weight ∧
    left.applicability = right.applicability

def boundedOperationSet (scale : CostScale) (maxCost : Nat) (operations : OperationSet R) : Option (OperationSet R) :=
  (operations.mapM fun operation => scale.toScaled operation.weight).map fun scaledWeights =>
    (operations.zip scaledWeights).foldl (fun bounded (operation, scaledWeight) =>
      if scaledWeight ≤ maxCost ∧ ¬bounded.any fun o => operationsHaveSameWfstSemantics o operation then
        bounded ++ [operation]
      else bounded) []

/-- The slot of a width; a width without one gets the next. -/
def slotFor (slots : Interner Nat Unit) (width : Nat) : Interner Nat Unit × Nat :=
  match h : slots.id? width with
  | some slot => (slots, slot)
  | none => (slots.push width () h, slots.size)

/-- Prepare the operations from `index` on, with the slots given out so far. -/
def prepareFrom (scale : CostScale) (sourceSlots querySlots : Interner Nat Unit) (index : Nat) :
    OperationSet R → Option (List PreparedOperation)
  | [] => some []
  | operation :: operations =>
    let source := slotFor sourceSlots operation.consumeX
    let query := slotFor querySlots operation.consumeY
    (scale.toScaled operation.weight).bind fun scaledWeight =>
      (prepareFrom scale source.1 query.1 (index + 1) operations).map fun prepared =>
        ⟨index, operation.consumeX, operation.consumeY, source.2, query.2, scaledWeight, operation.weight⟩ :: prepared

def prepareOperations (operations : OperationSet R) (scale : CostScale) : Option (List PreparedOperation) :=
  prepareFrom scale .empty .empty 0 operations

/-! ### Segments -/

/-- The length in UTF-8 bytes. -/
def utf8Len (s : List Char) : Nat := (s.map Char.utf8Size).sum

/-- The UTF-8 bytes. -/
def asBytes (s : List Char) : List UInt8 := s.flatMap String.utf8EncodeChar

/-- The characters from a byte position on, when it is a character boundary. -/
def getFrom? : List Char → Nat → Option (List Char)
  | s, 0 => some s
  | [], _ + 1 => none
  | c :: s, start + 1 => if c.utf8Size ≤ start + 1 then getFrom? s (start + 1 - c.utf8Size) else none

def isCharBoundary (s : List Char) (index : Nat) : Bool := (getFrom? s index).isSome

def strSegmentByCharWidth (input : List Char) (start charLen : Nat) : Option (List Char × Nat) :=
  (getFrom? input start).bind fun rest =>
    if charLen ≤ rest.length then some (rest.take charLen, start + utf8Len (rest.take charLen)) else none

/-! ### Application -/

def operationApplies (lib : OperationLibrary R) (op : OperationType R) (dictChars : List Char) (dictBytes : List UInt8)
    (queryChars : List Char) (queryBytes : List UInt8) : Bool :=
  match op.applicability with
  | .adjacentTranspose =>
    dictChars.length = 2 ∧ queryChars.length = 2 ∧ dictChars[0]? = queryChars[1]? ∧ dictChars[1]? = queryChars[0]?
  | .any => true
  | .equal => dictChars = queryChars
  | .listed restriction => lib.containsStr restriction dictBytes queryBytes

/-! ### What preparation keeps -/

section Preparation
variable {scale : CostScale} {maxCost : Nat} {operations : OperationSet R}

theorem slotFor_spec (slots : Interner Nat Unit) (width : Nat) :
    slots ≤ (slotFor slots width).1 ∧ (slotFor slots width).1.id? width = some (slotFor slots width).2 := by
  unfold slotFor
  split
  · rename_i slot h
    exact ⟨le_rfl, h⟩
  · rename_i h
    exact ⟨Interner.le_push h, Interner.id?_push_self h⟩

/-- The pairs of operations and scaled weights. -/
theorem mem_zip_of_mapM {α β : Type} {f : α → Option β} {xs : List α} {ys : List β} (h : xs.mapM f = some ys) :
    (∀ x ∈ xs, (f x).isSome) ∧ ∀ x y, (x, y) ∈ xs.zip ys ↔ x ∈ xs ∧ f x = some y := by
  induction xs generalizing ys with
  | nil => simp
  | cons x xs ih =>
    simp only [List.mapM_cons, Option.bind_eq_bind, Option.bind_eq_some_iff, Option.pure_def, Option.some.injEq] at h
    rcases h with ⟨y, hy, ys, hys, rfl⟩
    rcases ih hys with ⟨hsome, hmem⟩
    refine ⟨?_, ?_⟩
    · intro x' hx'
      rcases List.mem_cons.mp hx' with rfl | hx'
      · rw [hy]
        rfl
      · exact hsome x' hx'
    · intro x' y'
      rw [List.zip_cons_cons, List.mem_cons, hmem, Prod.mk.injEq, List.mem_cons, or_and_right]
      refine or_congr_left ?_
      refine and_congr_right ?_
      rintro rfl
      rw [hy, Option.some.injEq, eq_comm]

theorem operationsHaveSameWfstSemantics_iff {left right : OperationType R} :
    operationsHaveSameWfstSemantics left right = true ↔ left = right := by
  rw [operationsHaveSameWfstSemantics, decide_eq_true_eq]
  refine ⟨?_, fun h => h ▸ ⟨rfl, rfl, rfl, rfl⟩⟩
  intro h
  cases left
  cases right
  rw [OperationType.mk.injEq]
  exact h

/-- The operations that are kept are those whose weight fits the budget, each once. -/
theorem boundedOperationSet_spec {bounded : OperationSet R} (h : boundedOperationSet scale maxCost operations = some bounded) :
    (∀ o ∈ operations, (scale.toScaled o.weight).isSome) ∧
    ∀ o, o ∈ bounded ↔ o ∈ operations ∧ ∃ s ≤ maxCost, scale.toScaled o.weight = some s := by
  rcases Option.map_eq_some_iff.mp h with ⟨scaled, hscaled, rfl⟩
  rcases mem_zip_of_mapM hscaled with ⟨hsome, hmem⟩
  refine ⟨hsome, ?_⟩
  -- The fold adds the operations of the pairs whose weight fits, unless it has them.
  suffices hfold : ∀ (pairs : List (OperationType R × Nat)) (acc : OperationSet R) (o : OperationType R),
      o ∈ pairs.foldl (fun bounded (operation, scaledWeight) =>
        if scaledWeight ≤ maxCost ∧ ¬bounded.any fun o => operationsHaveSameWfstSemantics o operation then
          bounded ++ [operation]
        else bounded) acc ↔ o ∈ acc ∨ ∃ s ≤ maxCost, (o, s) ∈ pairs by
    intro o
    rw [hfold]
    simp only [List.not_mem_nil, false_or, hmem]
    exact ⟨fun ⟨s, hs, ho, hw⟩ => ⟨ho, s, hs, hw⟩, fun ⟨ho, s, hs, hw⟩ => ⟨s, hs, ho, hw⟩⟩
  intro pairs
  induction pairs with
  | nil => simp
  | cons pair pairs ih =>
    intro acc o
    rcases pair with ⟨operation, scaledWeight⟩
    have hcons : (∃ s ≤ maxCost, (o, s) ∈ (operation, scaledWeight) :: pairs) ↔
        o = operation ∧ scaledWeight ≤ maxCost ∨ ∃ s ≤ maxCost, (o, s) ∈ pairs := by
      simp only [List.mem_cons, Prod.mk.injEq, and_or_left, exists_or]
      refine or_congr_left ⟨?_, ?_⟩
      · intro ⟨s, hs, ho, heq⟩
        exact ⟨ho, heq ▸ hs⟩
      · intro ⟨ho, hs⟩
        exact ⟨scaledWeight, hs, ho, rfl⟩
    rw [List.foldl_cons, ih, hcons, ← or_assoc]
    refine or_congr_left ?_
    simp only [List.any_eq_true, operationsHaveSameWfstSemantics_iff, exists_eq_right]
    by_cases hfits : scaledWeight ≤ maxCost
    · by_cases hin : operation ∈ acc
      · rw [if_neg (by simp [hin])]
        refine ⟨Or.inl, ?_⟩
        intro h
        rcases h with h | ⟨rfl, -⟩
        · exact h
        · exact hin
      · rw [if_pos ⟨hfits, hin⟩, List.mem_append, List.mem_singleton]
        simp [hfits]
    · rw [if_neg (by simp [hfits])]
      simp [hfits]

/-- A prepared operation is that of its index, with its scaled weight. -/
structure Prepares (scale : CostScale) (operations : OperationSet R) (index : Nat) (p : PreparedOperation) (j : Nat) : Prop where
  index : p.index = index + j
  operation : ∃ o, operations[j]? = some o ∧ p.consumeX = o.consumeX ∧ p.consumeY = o.consumeY ∧ p.weight = o.weight ∧
    scale.toScaled o.weight = some p.scaledWeight

omit [DecidableEq R] in
theorem prepareFrom_spec {sourceSlots querySlots : Interner Nat Unit} {index : Nat} {prepared : List PreparedOperation}
    (h : prepareFrom scale sourceSlots querySlots index operations = some prepared) :
    prepared.length = operations.length ∧
    (∀ j p, prepared[j]? = some p → Prepares scale operations index p j) ∧
    (∃ slots, sourceSlots ≤ slots ∧ ∀ p ∈ prepared, slots.id? p.consumeX = some p.sourceWidthSlot) ∧
    ∃ slots, querySlots ≤ slots ∧ ∀ p ∈ prepared, slots.id? p.consumeY = some p.queryWidthSlot := by
  induction operations generalizing sourceSlots querySlots index prepared with
  | nil =>
    cases h
    exact ⟨rfl, by simp, ⟨sourceSlots, le_rfl, by simp⟩, querySlots, le_rfl, by simp⟩
  | cons operation operations ih =>
    simp only [prepareFrom, Option.bind_eq_some_iff, Option.map_eq_some_iff] at h
    rcases h with ⟨scaledWeight, hscaled, rest, hrest, rfl⟩
    rcases ih hrest with ⟨hlength, hoperation, ⟨source, hsource, hsourceSlot⟩, query, hquery, hquerySlot⟩
    have hsource' := slotFor_spec sourceSlots operation.consumeX
    have hquery' := slotFor_spec querySlots operation.consumeY
    refine ⟨by simp [hlength], ?_, ⟨source, hsource'.1.trans hsource, ?_⟩, query, hquery'.1.trans hquery, ?_⟩
    · intro j p hp
      cases j with
      | zero =>
        cases hp
        exact ⟨rfl, operation, rfl, rfl, rfl, rfl, hscaled⟩
      | succ j =>
        have hj := hoperation j p hp
        exact ⟨by rw [hj.index]; omega, hj.operation⟩
    · intro p hp
      rcases List.mem_cons.mp hp with rfl | hp
      · exact Interner.le_id? hsource hsource'.2
      · exact hsourceSlot p hp
    · intro p hp
      rcases List.mem_cons.mp hp with rfl | hp
      · exact Interner.le_id? hquery hquery'.2
      · exact hquerySlot p hp

end Preparation

/-! ### Byte positions -/

theorem utf8Len_append (s t : List Char) : utf8Len (s ++ t) = utf8Len s + utf8Len t := by simp [utf8Len]

theorem asBytes_append (s t : List Char) : asBytes (s ++ t) = asBytes s ++ asBytes t := by simp [asBytes]

/-- The character boundaries are the lengths of the prefixes. -/
theorem getFrom?_eq_some {s rest : List Char} {start : Nat} :
    getFrom? s start = some rest ↔ ∃ i ≤ s.length, start = utf8Len (s.take i) ∧ rest = s.drop i := by
  induction s generalizing start with
  | nil => cases start <;> simp [getFrom?, utf8Len, eq_comm]
  | cons c s ih =>
    have hpos := c.utf8Size_pos
    cases start with
    | zero =>
      simp only [getFrom?, Option.some.injEq]
      refine ⟨fun h => ⟨0, by simp [utf8Len, ← h]⟩, ?_⟩
      intro h
      rcases h with ⟨i, hi, h, rfl⟩
      cases i with
      | zero => rfl
      | succ i =>
        simp only [utf8Len, List.take_succ_cons, List.map_cons, List.sum_cons] at h
        omega
    | succ start =>
      simp only [getFrom?, Option.ite_none_right_eq_some, ih]
      refine ⟨?_, ?_⟩
      · intro h
        rcases h with ⟨hle, i, hi, h, rfl⟩
        refine ⟨i + 1, Nat.succ_le_succ hi, ?_, rfl⟩
        simp only [utf8Len, List.take_succ_cons, List.map_cons, List.sum_cons] at h ⊢
        omega
      · intro h
        rcases h with ⟨i, hi, h, rfl⟩
        cases i with
        | zero => cases h
        | succ i =>
          simp only [utf8Len, List.take_succ_cons, List.map_cons, List.sum_cons] at h
          refine ⟨by omega, i, Nat.le_of_succ_le_succ hi, ?_, rfl⟩
          rw [utf8Len]
          omega

theorem getFrom?_take {s : List Char} {i : Nat} (h : i ≤ s.length) : getFrom? s (utf8Len (s.take i)) = some (s.drop i) :=
  getFrom?_eq_some.mpr ⟨i, h, rfl, rfl⟩

theorem isCharBoundary_take (s : List Char) (i : Nat) : isCharBoundary s (utf8Len (s.take i)) = true := by
  rw [isCharBoundary, List.take_eq_take_min, getFrom?_take (Nat.min_le_right _ _)]
  rfl

/-- A byte position is the length of one prefix only. -/
theorem utf8Len_take_injective {s : List Char} {i j : Nat} (hi : i ≤ s.length) (hj : j ≤ s.length)
    (h : utf8Len (s.take i) = utf8Len (s.take j)) : i = j := by
  have hdrop := getFrom?_take hi
  rw [h, getFrom?_take hj] at hdrop
  have := congrArg List.length (Option.some.inj hdrop)
  rw [List.length_drop, List.length_drop] at this
  omega

theorem utf8Len_take_eq {s : List Char} {i : Nat} (hi : i ≤ s.length) : utf8Len (s.take i) = utf8Len s ↔ i = s.length := by
  refine ⟨fun h => utf8Len_take_injective hi le_rfl (by rwa [List.take_length]), ?_⟩
  rintro rfl
  rw [List.take_length]

/-- The segment after a prefix ends at the next prefix. -/
theorem strSegment_take {s : List Char} {i width : Nat} (h : i ≤ s.length) :
    strSegmentByCharWidth s (utf8Len (s.take i)) width =
      if i + width ≤ s.length then some ((s.drop i).take width, utf8Len (s.take (i + width))) else none := by
  rw [strSegmentByCharWidth, getFrom?_take h, Option.bind_some, List.length_drop, List.take_add, utf8Len_append]
  exact if_congr (by omega) rfl rfl

end GeneralizedOps
end Duallity
