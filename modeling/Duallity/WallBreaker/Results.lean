import Duallity.Lib.ArcPath
import Duallity.StateEncoding
import Mathlib.Order.Bounds.Basic

/-! The result forest of a WallBreaker search (`wallbreaker_results.rs`, `wallbreaker_wfst.rs`). Results are reduced to
    one per term, with its least distance; the characters of their terms lie in one arena, in which each term has a span.
    A state is the start or a position inside a span. -/

namespace Duallity

structure WallBreakerResult where
  term : List Char
  distance : Nat
deriving DecidableEq, Repr

structure WallBreakerStateKey where
  resultIndex : Nat
  charPosition : Nat
deriving DecidableEq, Repr

structure ResultCharSpan where
  start : Nat
  len : Nat
deriving DecidableEq, Repr

structure ResultCharArena where
  chars : List Char
  spans : List ResultCharSpan
deriving DecidableEq, Repr

structure WallBreakerWfst where
  resultChars : ResultCharArena
  resultFinalWeights : List (Option Nat)
  emptyResultFinalWeight : Option Nat
  idToState : List WallBreakerStateKey
deriving DecidableEq, Repr

/-- `SUPER_START_RESULT_INDEX` is `u32::MAX`. -/
def superStartResultIndex : Nat := u32Max

def nextWallbreakerStateId (len : Nat) : Option Nat := if len ≤ u32Max then some len else none

def nextWallbreakerResultIndex (index : Nat) : Option Nat :=
  (if index ≤ u32Max then some index else none).filter (· < superStartResultIndex)

def nextWallbreakerCharPosition (position : Nat) : Option Nat := if position ≤ u32Max then some position else none

def distanceToF64 (distance : Nat) : Option Nat := boundedCountToF64 distance

/-! ### Results -/

def lowerDistance (distance : Nat) (existing : WallBreakerResult) : WallBreakerResult :=
  if distance < existing.distance then { existing with distance } else existing

/-- One turn of the loop over the search results; the map has the index of each term. -/
def normalizeResult (maxDistance : Nat) (acc : List WallBreakerResult × List (List Char × Nat)) (result : WallBreakerResult) :
    List WallBreakerResult × List (List Char × Nat) :=
  if maxDistance < result.distance ∨ (distanceToF64 result.distance).isNone then acc
  else
    match acc.2.lookup result.term with
    | some existingIndex => (acc.1.modify existingIndex (lowerDistance result.distance), acc.2)
    | none => (acc.1 ++ [result], (result.term, acc.1.length) :: acc.2)

def normalizeWallbreakerResults (results : List WallBreakerResult) (maxDistance : Nat) : List WallBreakerResult :=
  (results.foldl (normalizeResult maxDistance) ([], [])).1

def wallbreakerResultFinalWeights (results : List WallBreakerResult) : List (Option Nat) :=
  results.map fun result => distanceToF64 result.distance

def emptyWallbreakerResultFinalWeight (results : List WallBreakerResult) (maxDistance : Nat) : Option Nat :=
  (results.filter fun result => result.term = [] ∧ result.distance ≤ maxDistance).foldl (fun bestWeight result =>
    match distanceToF64 result.distance with
    | some weight => some (bestWeight.elim weight fun best => min best weight)
    | none => bestWeight) none

namespace ResultCharArena

def fromResults (results : List WallBreakerResult) : ResultCharArena :=
  results.foldl (fun arena result =>
    ⟨arena.chars ++ result.term, arena.spans ++ [⟨arena.chars.length, result.term.length⟩]⟩) ⟨[], []⟩

variable (arena : ResultCharArena)

def len : Nat := arena.spans.length

def termLen (resultIndex : Nat) : Option Nat := arena.spans[resultIndex]?.map ResultCharSpan.len

def charAt (resultIndex charPosition : Nat) : Option Char :=
  arena.spans[resultIndex]?.bind fun span => if span.len ≤ charPosition then none else arena.chars[span.start + charPosition]?

def firstChar (resultIndex : Nat) : Option Char := arena.charAt resultIndex 0

def stateIdForPosition (resultIndex charPosition : Nat) : Option Nat :=
  (nextWallbreakerResultIndex resultIndex).bind fun _ =>
    if charPosition = 0 then none
    else arena.spans[resultIndex]?.bind fun span =>
      if span.len < charPosition then none
      else (checkedAdd usizeMax span.start charPosition).bind nextWallbreakerStateId

end ResultCharArena

/-! ### States -/

/-- The keys of the positions of a result, and whether there is room for more. -/
def pushPositions (resultIndex : Nat) : List Nat → List WallBreakerStateKey → List WallBreakerStateKey × Bool
  | [], idToState => (idToState, true)
  | pos :: positions, idToState =>
    match nextWallbreakerStateId idToState.length, nextWallbreakerCharPosition pos with
    | some _, some charPosition => pushPositions resultIndex positions (idToState ++ [⟨resultIndex, charPosition⟩])
    | _, _ => (idToState, false)

def pushResults (arena : ResultCharArena) : List Nat → List WallBreakerStateKey → List WallBreakerStateKey
  | [], idToState => idToState
  | resultIdx :: results, idToState =>
    match nextWallbreakerResultIndex resultIdx, arena.termLen resultIdx with
    | some resultIndex, some termLen =>
      match pushPositions resultIndex (List.range' 1 termLen) idToState with
      | (idToState, true) => pushResults arena results idToState
      | (idToState, false) => idToState
    | _, _ => idToState

def buildWallbreakerStateIndex (resultChars : ResultCharArena) : List WallBreakerStateKey :=
  pushResults resultChars (List.range resultChars.len) [⟨superStartResultIndex, 0⟩]

namespace WallBreakerWfst

def fromOwnedResults (maxDistance : Nat) (results : List WallBreakerResult) : WallBreakerWfst :=
  let results := normalizeWallbreakerResults results maxDistance
  let resultChars := ResultCharArena.fromResults results
  { resultChars
    resultFinalWeights := wallbreakerResultFinalWeights results
    emptyResultFinalWeight := emptyWallbreakerResultFinalWeight results maxDistance
    idToState := buildWallbreakerStateIndex resultChars }

variable (src : WallBreakerWfst)

def start : Nat := 0

def numStates : Nat := src.idToState.length

def isValidState (state : Nat) : Bool := src.idToState[state]?.isSome

def lookupState (key : WallBreakerStateKey) : Option Nat :=
  (if key.resultIndex = superStartResultIndex then (if key.charPosition = 0 then some 0 else none)
    else src.resultChars.stateIdForPosition key.resultIndex key.charPosition).bind fun id =>
      if src.idToState[id]? = some key then some id else none

def finalWeightForState (state : Nat) : Option Nat :=
  src.idToState[state]?.bind fun key =>
    if key.resultIndex = superStartResultIndex then src.emptyResultFinalWeight
    else (src.resultChars.termLen key.resultIndex).bind fun termLen =>
      if key.charPosition < termLen then none else src.resultFinalWeights[key.resultIndex]?.join

def computeSuperStartTransitions : Expansion Nat Char Char Nat where
  arcs := (List.range src.resultChars.len).filterMap fun resultIdx =>
    (src.resultChars.firstChar resultIdx).bind fun firstChar =>
      (nextWallbreakerResultIndex resultIdx).bind fun resultIndex =>
        (src.lookupState ⟨resultIndex, 1⟩).map fun newId => ⟨0, some firstChar, some firstChar, newId, 0⟩
  final? := src.emptyResultFinalWeight

def computeResultState (stateId : Nat) (key : WallBreakerStateKey) : Expansion Nat Char Char Nat :=
  match src.resultChars.termLen key.resultIndex, src.resultFinalWeights[key.resultIndex]?.join with
  | some termLen, some finalResultWeight =>
    { arcs := ((src.resultChars.charAt key.resultIndex key.charPosition).bind fun nextChar =>
        (nextWallbreakerCharPosition (saturatingAdd usizeMax key.charPosition 1)).bind fun charPosition =>
          (src.lookupState ⟨key.resultIndex, charPosition⟩).map fun newId =>
            ⟨stateId, some nextChar, some nextChar, newId, 0⟩).toList
      final? := if termLen ≤ key.charPosition then some finalResultWeight else none }
  | _, _ => ⟨[], none⟩

def expandState (state : Nat) : Option (Expansion Nat Char Char Nat) :=
  src.idToState[state]?.map fun key =>
    if key.resultIndex = superStartResultIndex then src.computeSuperStartTransitions else src.computeResultState state key

variable {src}

/-- Finality is the same for a state that is not expanded. -/
theorem finalWeightForState_eq (state : Nat) : src.finalWeightForState state = (src.expandState state).bind Expansion.final? := by
  unfold finalWeightForState expandState
  cases src.idToState[state]? with
  | none => rfl
  | some key =>
    rw [Option.map_some, Option.bind_some, Option.bind_some]
    by_cases hstart : key.resultIndex = superStartResultIndex
    · rw [if_pos hstart, if_pos hstart]
      rfl
    · rw [if_neg hstart, if_neg hstart, computeResultState]
      cases src.resultChars.termLen key.resultIndex with
      | none => rfl
      | some termLen =>
        cases hweight : src.resultFinalWeights[key.resultIndex]?.join with
        | none => simp
        | some weight =>
          by_cases hend : key.charPosition < termLen
          · simp [hend, Nat.not_le_of_lt hend]
          · simp [hend, Nat.le_of_not_lt hend]

end WallBreakerWfst
end Duallity
