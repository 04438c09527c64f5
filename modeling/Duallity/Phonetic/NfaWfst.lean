import Mathlib.Data.List.Sort
import Mathlib.Data.Rat.Defs
import Duallity.Lib.Interner
import Duallity.Lib.LazyGraph
import Duallity.Phonetic.Nfa

/-! The WFST of a phonetic NFA (`phonetic_nfa_wfst.rs`, `phonetic_nfa_support.rs`). Its states are state sets; wide labels are read
    as candidate characters. -/

namespace Duallity

/-! ### Candidates -/

def maxExactClassRangeChars : Nat := 256

def candidateHashThreshold : Nat := 16

/-- The candidates in the order of their first occurrence; beyond the threshold a hash set has them too. -/
structure CandidateChars where
  ordered : List Char
  seen : Option (List Char)
deriving DecidableEq, Repr

namespace CandidateChars

def empty : CandidateChars := ⟨[], none⟩

def pushUnique (chars : CandidateChars) (candidate : Char) : CandidateChars :=
  match chars.seen with
  | some seen =>
    if seen.contains candidate then chars else ⟨chars.ordered ++ [candidate], some (candidate :: seen)⟩
  | none =>
    if chars.ordered.contains candidate then chars
    else if candidateHashThreshold ≤ chars.ordered.length then
      ⟨chars.ordered ++ [candidate], some (candidate :: chars.ordered)⟩
    else ⟨chars.ordered ++ [candidate], none⟩

end CandidateChars

/-- `char::from_u32`. -/
def charFromU32 (codepoint : Nat) : Option Char := if codepoint.isValidChar then some (Char.ofNat codepoint) else none

def charRangeWidth (start stop : Char) : Option Nat :=
  if stop.toNat < start.toNat then none else some (stop.toNat - start.toNat + 1)

def pushBoundedCharRange (chars : CandidateChars) (start stop : Char) : CandidateChars :=
  match charRangeWidth start stop with
  | none => chars
  | some width =>
    if maxExactClassRangeChars < width then chars
    else
      (List.range width).foldl (fun chars offset =>
        match charFromU32 (start.toNat + offset) with
        | some candidate => chars.pushUnique candidate
        | none => chars) chars

def normalizeAlphabet (alphabet : List Char) : List Char :=
  alphabet.foldl (fun deduped candidate => if deduped.contains candidate then deduped else deduped ++ [candidate]) []

/-! ### Successors -/

/-- `StateSet::insert`. -/
def insertState (states : List Nat) (state : Nat) : List Nat := if states.contains state then states else states ++ [state]

/-- The successors of each candidate. -/
abbrev LabelSuccessors := List (Char × List Nat)

namespace LabelSuccessors

def new (candidates : List Char) : LabelSuccessors := candidates.map fun candidate => (candidate, [])

/-- Insert the target for the candidates that pass. -/
def insertWhere (slots : LabelSuccessors) (pass : Char → Bool) (target : Nat) : LabelSuccessors :=
  slots.map fun (candidate, successors) =>
    if pass candidate then (candidate, insertState successors target) else (candidate, successors)

/-- `slot_mut`: the first slot of a candidate. -/
def slot? (slots : LabelSuccessors) (candidate : Char) : Option Nat := slots.findIdx? fun slot => candidate == slot.1

end LabelSuccessors

def collectLabelSuccessors (label : TransitionLabelChar) (target : Nat) (slots : LabelSuccessors) : LabelSuccessors :=
  match label with
  | .char candidate =>
    match slots.slot? candidate with
    | some i => slots.modify i fun (candidate, successors) => (candidate, insertState successors target)
    | none => slots
  | .charClass cls => slots.insertWhere cls.matchesChar target
  | .any => slots.insertWhere (fun _ => true) target
  | _ => slots

/-! ### States -/

structure RegisteredNfaState where
  stateSet : List Nat
  isFinal : Bool
deriving DecidableEq, Repr

/-- The states in ascending order. -/
def stateSetToKey (stateSet : List Nat) : List Nat := stateSet.insertionSort (· ≤ ·)

abbrev NfaStateRegistry := Interner (List Nat) RegisteredNfaState

namespace NfaStateRegistry

def new (initialClosure : List Nat) (initialIsFinal : Bool) : NfaStateRegistry :=
  (Interner.empty.register u32Count (stateSetToKey initialClosure) ⟨initialClosure, initialIsFinal⟩).1

def getOrCreateWithKey (r : NfaStateRegistry) (stateSet key : List Nat) (isFinal : Bool) : NfaStateRegistry × Option Nat :=
  r.register u32Count key ⟨stateSet, isFinal⟩

end NfaStateRegistry

/-- The target of a candidate that has no id yet. -/
structure MissingTarget where
  index : Nat
  stateSet : List Nat
  key : List Nat

/-- The distinct missing targets, and which of them each missing one is. -/
structure UniqueMissing where
  indexByKey : List (List Nat × Nat)
  targets : List (List Nat × List Nat × Bool)
  uses : List (Nat × Nat)

structure PhoneticNfaWfst where
  nfa : NFAChar
  phoneticWeight : ℚ
  alphabet : List Char

namespace PhoneticNfaWfst
variable (W : PhoneticNfaWfst)

def withPhoneticWeightAndAlphabet (nfa : NFAChar) (phoneticWeight : ℚ) (alphabet : List Char) : PhoneticNfaWfst :=
  ⟨nfa, phoneticWeight, normalizeAlphabet alphabet⟩

def initial : NfaStateRegistry :=
  .new W.nfa.startAnchorClosure (W.nfa.canReachFinalThroughEndAnchors W.nfa.startAnchorClosure)

def start : Nat := 0

def collectCharClassCandidates (cls : CharClassChar) (chars : CandidateChars) : CandidateChars :=
  let chars := W.alphabet.foldl (fun chars candidate =>
    if cls.matchesChar candidate then chars.pushUnique candidate else chars) chars
  if cls.negated then chars else cls.ranges.foldl (fun chars (start, stop) => pushBoundedCharRange chars start stop) chars

def collectLabelCandidates (label : TransitionLabelChar) (chars : CandidateChars) : CandidateChars :=
  match label with
  | .char c => chars.pushUnique c
  | .charClass cls => W.collectCharClassCandidates cls chars
  | .any => W.alphabet.foldl CandidateChars.pushUnique chars
  | _ => chars

def candidates (stateSet : List Nat) : CandidateChars :=
  stateSet.foldl (fun chars state => (W.nfa.transitionsFrom state).foldl (fun chars t =>
    if t.label.consumesInput then W.collectLabelCandidates t.label chars else chars) chars) .empty

def successorsByChar (stateSet : List Nat) : LabelSuccessors :=
  stateSet.foldl (fun slots state => (W.nfa.transitionsFrom state).foldl (fun slots t =>
    collectLabelSuccessors t.label t.target slots) slots) (.new (W.candidates stateSet).ordered)

/-- Each candidate with successors, their epsilon closure and its key. -/
def pendingTargets (stateSet : List Nat) : List (Char × List Nat × List Nat) :=
  (W.successorsByChar stateSet).filterMap fun (c, nextStates) =>
    if nextStates.isEmpty then none
    else
      let nextClosure := W.nfa.epsilonClosure nextStates
      some (c, nextClosure, stateSetToKey nextClosure)

def missingTargets (r : NfaStateRegistry) (pending : List (Char × List Nat × List Nat)) : List MissingTarget :=
  pending.zipIdx.filterMap fun ((_, stateSet, key), index) =>
    if (r.id? key).isSome then none else some ⟨index, stateSet, key⟩

/-- One round of the loop over the missing targets. -/
def addMissing (m : UniqueMissing) (target : MissingTarget) : UniqueMissing :=
  match m.indexByKey.lookup target.key with
  | some uniqueIndex => { m with uses := m.uses ++ [(target.index, uniqueIndex)] }
  | none =>
    { indexByKey := (target.key, m.targets.length) :: m.indexByKey
      targets := m.targets ++ [(target.stateSet, target.key, W.nfa.canReachFinalThroughEndAnchors target.stateSet)]
      uses := m.uses ++ [(target.index, m.targets.length)] }

/-- The registrations of the distinct targets. -/
def registerTargets : List (List Nat × List Nat × Bool) → NfaStateRegistry → NfaStateRegistry × List (Option Nat)
  | [], r => (r, [])
  | (stateSet, key, isFinal) :: targets, r =>
    let (r, id?) := r.getOrCreateWithKey stateSet key isFinal
    let (r, ids) := registerTargets targets r
    (r, id? :: ids)

/-- The ids of the distinct targets at the indices that use them. -/
def fillTargets (ids : List (Option Nat)) (resolved : List (Char × Option Nat)) (uses : List (Nat × Nat)) :
    List (Char × Option Nat) :=
  uses.foldl (fun resolved (resolvedIndex, uniqueIndex) =>
    match (ids[uniqueIndex]?).join with
    | some targetId => resolved.modify resolvedIndex fun (c, _) => (c, some targetId)
    | none => resolved) resolved

def resolveTransitionTargets (r : NfaStateRegistry) (pending : List (Char × List Nat × List Nat)) :
    NfaStateRegistry × List (Char × Option Nat) :=
  let resolved := pending.map fun (c, _, key) => (c, r.id? key)
  let missing := missingTargets r pending
  if missing.isEmpty then (r, resolved)
  else
    let m := missing.foldl W.addMissing ⟨[], [], []⟩
    let (r, ids) := registerTargets m.targets r
    (r, fillTargets ids resolved m.uses)

def computeNfaTransitions (r : NfaStateRegistry) (state : Nat) (registered : RegisteredNfaState) :
    NfaStateRegistry × Expansion Nat Char Char ℚ :=
  let (r, resolved) := W.resolveTransitionTargets r (W.pendingTargets registered.stateSet)
  (r,
    { arcs := resolved.filterMap fun (c, target?) => target?.map fun target => ⟨state, some c, some c, target, W.phoneticWeight⟩
      final? := if registered.isFinal then some 0 else none })

/-- The registered `u32` states. -/
def source : LazySource NfaStateRegistry Nat Char Char ℚ where
  valid r state := (r.value? state).isSome
  expand r state :=
    match r.value? state with
    | none => (r, none)
    | some registered => ((W.computeNfaTransitions r state registered).1, some (W.computeNfaTransitions r state registered).2)

end PhoneticNfaWfst
end Duallity
