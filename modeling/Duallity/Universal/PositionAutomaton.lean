import Duallity.Universal.StateSource
import Mathlib.Data.List.Sort

/-! The universal automaton of the standard operations. Its states are the positions of the Levenshtein automaton,
    relative to the number of characters read, of which the subsumed ones have been removed. -/

namespace Duallity

/-- A position: the offset from the diagonal, shifted by the maximum distance, and the errors spent. -/
structure UniversalPosition where
  shift : Nat
  errors : Nat
deriving DecidableEq, Repr

/-- Positions without duplicates or subsumed ones, in a canonical order. -/
structure PositionState where
  maxDistance : Nat
  positions : List UniversalPosition
deriving DecidableEq, Repr

namespace UniversalPosition

/-- Everything that `p'` accepts, `p` accepts at no higher cost. -/
def subsumes (p p' : UniversalPosition) : Bool :=
  p.errors < p'.errors ∧ p.shift - p'.shift ≤ p'.errors - p.errors ∧ p'.shift - p.shift ≤ p'.errors - p.errors

def before (p p' : UniversalPosition) : Bool := p.errors < p'.errors ∨ p.errors = p'.errors ∧ p.shift ≤ p'.shift

/-- The positions after a character: a match, or an insertion, a substitution, and the deletion of the characters
    before the next match. -/
def advance (maxDistance : Nat) (bits : List Bool) (p : UniversalPosition) : List UniversalPosition :=
  if bits[p.shift]? = some true then [p]
  else if p.errors < maxDistance then
    (if 1 ≤ p.shift then [⟨p.shift - 1, p.errors + 1⟩] else []) ++
      (if p.shift < bits.length then [⟨p.shift, p.errors + 1⟩] else []) ++
      (((List.range (maxDistance - p.errors)).find? fun d => bits[p.shift + d + 1]? = some true).map fun d =>
        ⟨p.shift + d + 1, p.errors + d + 1⟩).toList
  else []

end UniversalPosition

namespace PositionState
open UniversalPosition

def reduce (positions : List UniversalPosition) : List UniversalPosition :=
  ((positions.filter fun p => positions.all fun p' => !p'.subsumes p).dedup).insertionSort fun p p' => before p p'

def transition (s : PositionState) (bits : List Bool) : Option PositionState :=
  match reduce (s.positions.flatMap (advance s.maxDistance bits)) with
  | [] => none
  | positions => some ⟨s.maxDistance, positions⟩

/-- The least cost of deleting the rest of the query from a position, within the maximum distance. -/
def acceptingDistance (s : PositionState) (wordLen inputLen : Nat) : Option Nat :=
  (s.positions.filterMap fun p =>
    let position := inputLen + p.shift - s.maxDistance
    let distance := p.errors + (wordLen - position)
    if s.maxDistance ≤ inputLen + p.shift ∧ position ≤ wordLen ∧ distance ≤ s.maxDistance then some distance
    else none).min?

end PositionState

/-- The universal automaton over position states, reading bit vectors. -/
def positionAutomaton : UniversalAutomaton PositionState (List Bool) PositionState where
  initial maxDistance := ⟨maxDistance, [⟨maxDistance, 0⟩]⟩
  fromPaddedUnits c falsePrefix units := List.replicate falsePrefix false ++ units.map fun u => u == c
  transition s bits _ := s.transition bits
  acceptingDistance s := s.acceptingDistance
  key s := s

theorem positionAutomaton_key_injective : Function.Injective positionAutomaton.key := fun _ _ h => h

end Duallity
