import Duallity.Levenshtein.Codec
import Duallity.Lib.LazyGraph
import Duallity.Lib.Scan
import Duallity.NodeRegistry

/-! The Levenshtein state source (`state_source.rs`). A product state is a dictionary node and an
    automaton state. Its expansion walks the node's edges, registers each child that some arc leads to,
    and adds the arcs that stay at the node.

    A `StateId` is a `u32`: an id is a natural number up to `u32Max`. -/

namespace Duallity

def nextIndex (index len : Nat) : Option Nat := (checkedAdd usizeMax index 1).filter (· < len)

def withinMaxDistance (editCost remaining maxDistance : Nat) : Bool :=
  (checkedAdd usizeMax editCost remaining).any (· ≤ maxDistance)

def remainingQueryChars (queryLen queryPos : Nat) : Option Nat :=
  if queryPos ≤ queryLen then some (queryLen - queryPos) else none

section NodeEdges
variable {N U : Type} [CharUnit U] (D : Dictionary N U)

def nodeHasAnyEdge (node : N) : Bool :=
  match D.edgeCount node with
  | none => (D.edges node).head?.isSome
  | some count => 0 < count

def nodeHasCharEdge (node : N) (label : Char) : Bool :=
  match CharUnit.ofChar? label with
  | some unit => D.hasEdge node unit
  | none => false

end NodeEdges

abbrev Transition := Arc Nat Char Char Nat

/-- What an edge to a child may continue with: the input it reads, its weight, and the automaton state at
    the child. -/
structure EdgeTarget where
  input : Option Char
  weight : Nat
  automatonState : Nat
deriving DecidableEq, Repr

structure LevenshteinStateSource (N U : Type) where
  dictionary : Dictionary N U
  queryChars : List Char
  codec : LevenshteinStateCodec

namespace LevenshteinStateSource
variable {N U : Type} [CharUnit U]

def withAlgorithm (dictionary : Dictionary N U) (query : List Char) (maxDistance : Nat) (algorithm : Algorithm) :
    LevenshteinStateSource N U :=
  ⟨dictionary, query, ⟨query.length, maxDistance, algorithm⟩⟩

variable (src : LevenshteinStateSource N U) (r : DictionaryNodeRegistry N)

def start : Nat := 0

def isValidProductState (state : Nat) : Bool :=
  match src.codec.decodeProductState state with
  | none => false
  | some (dictNodeId, automatonStateId) =>
    (src.codec.decodeAutomatonState automatonStateId).isSome && (r.getNode dictNodeId).isSome

def normalFinalWeight (dictNode : N) (queryPos editCost : Nat) : Option Nat :=
  if src.dictionary.isFinal dictNode then
    (remainingQueryChars src.queryChars.length queryPos).bind fun remaining =>
      if withinMaxDistance editCost remaining src.codec.maxDistance then boundedCountToF64 remaining else none
  else none

def finalWeightForState (state : Nat) : Option Nat :=
  (src.codec.decodeProductState state).bind fun (dictNodeId, automatonStateId) =>
    match src.codec.decodeAutomatonState automatonStateId with
    | some (.normal queryPos editCost) =>
      (r.getNode dictNodeId).bind fun dictNode => src.normalFinalWeight dictNode queryPos editCost
    | _ => none

/-! ### Edges to children -/

def registerDictionaryNodeForTargets (parentId : Nat) (edgeLabel : Char) (node : N)
    (targetAutomatonStates : List Nat) : DictionaryNodeRegistry N × Option Nat :=
  let key := DictionaryNodeKey.child parentId edgeLabel
  match r.candidateId key with
  | none => (r, none)
  | some candidateId =>
    if targetAutomatonStates.any fun a => (src.codec.encodeProductState candidateId a).isSome then
      r.registerNode node key
    else (r, none)

/-- One turn of an edge loop: nothing when no operation uses the edge, else the child is registered and
    every target that encodes becomes an arc. -/
def followEdge (dictNodeId fromState : Nat) (dictChar : Char) (child : N) (targets : List EdgeTarget) :
    DictionaryNodeRegistry N × List Transition :=
  if targets.isEmpty then (r, [])
  else
    match src.registerDictionaryNodeForTargets r dictNodeId dictChar child (targets.map (·.automatonState)) with
    | (r', none) => (r', [])
    | (r', some childNodeId) =>
      (r', targets.filterMap fun t =>
        (src.codec.encodeTransitionTarget childNodeId (some t.automatonState)).map fun target =>
          ⟨fromState, t.input, some dictChar, target, t.weight⟩)

section Normal
variable (queryPos editCost : Nat)

def canEdit : Bool := editCost < src.codec.maxDistanceU32

def canReadQuery : Bool := queryPos < src.queryChars.length

def transitionsPerEdge : Nat :=
  let nextPos := nextIndex queryPos src.queryChars.length
  (src.canReadQuery queryPos).toNat +
    if src.canEdit editCost then
      1 + (src.codec.algorithm.supportsTransposition && nextPos.isSome).toNat +
        if src.codec.algorithm.supportsMergeSplit then
          nextPos.isSome.toNat + (src.canReadQuery queryPos).toNat
        else 0
    else 0

def matchOrSubstitute (dictChar : Char) : Option EdgeTarget :=
  (src.queryChars[queryPos]?).bind fun queryChar =>
    let operationCost := if queryChar = dictChar then 0 else 1
    let nextCost := saturatingAdd u32Max editCost operationCost
    if nextCost ≤ src.codec.maxDistanceU32 then
      ((checkedAdd u32Max queryPos 1).bind fun nextQueryPos => src.codec.encodeAutomatonState nextQueryPos nextCost).map
        fun targetState => ⟨some queryChar, operationCost, targetState⟩
    else none

def insertTarget : Option EdgeTarget :=
  if src.canEdit editCost then
    (src.codec.encodeAutomatonState queryPos (saturatingAdd u32Max editCost 1)).map fun state => ⟨none, 1, state⟩
  else none

def transposeTransition (dictChar : Char) (child : N) : Option EdgeTarget :=
  if src.codec.algorithm.supportsTransposition && src.canEdit editCost then
    (nextIndex queryPos src.queryChars.length).bind fun nextPos =>
      (src.queryChars[queryPos]?).bind fun firstQueryChar =>
        (src.queryChars[nextPos]?).bind fun secondQueryChar =>
          (src.codec.encodeTransposeSecondState queryPos (saturatingAdd u32Max editCost 1)).bind fun state =>
            if dictChar = secondQueryChar ∧ firstQueryChar ≠ secondQueryChar ∧
                nodeHasCharEdge src.dictionary child firstQueryChar = true then
              some ⟨some firstQueryChar, 1, state⟩
            else none
  else none

def mergeTransition : Option EdgeTarget :=
  if src.codec.algorithm.supportsMergeSplit && src.canEdit editCost then
    (nextIndex queryPos src.queryChars.length).bind fun _ =>
      (src.queryChars[queryPos]?).bind fun queryChar =>
        (src.codec.encodeMergeSecondState queryPos (saturatingAdd u32Max editCost 1)).map fun state =>
          ⟨some queryChar, 1, state⟩
  else none

def splitTransition (child : N) : Option EdgeTarget :=
  if src.codec.algorithm.supportsMergeSplit && src.canEdit editCost then
    (src.queryChars[queryPos]?).bind fun queryChar =>
      (src.codec.encodeSplitSecondState queryPos (saturatingAdd u32Max editCost 1)).bind fun state =>
        if nodeHasAnyEdge src.dictionary child then some ⟨some queryChar, 1, state⟩ else none
  else none

def normalTargets (dictChar : Char) (child : N) : List EdgeTarget :=
  [src.matchOrSubstitute queryPos editCost dictChar, src.insertTarget queryPos editCost,
    src.transposeTransition queryPos editCost dictChar child, src.mergeTransition queryPos editCost,
    src.splitTransition queryPos editCost child].reduceOption

def deleteTransition (dictNodeId fromState : Nat) : Option Transition :=
  (src.queryChars[queryPos]?).bind fun queryChar =>
    if src.canEdit editCost then
      (src.codec.encodeTransitionTarget dictNodeId ((checkedAdd u32Max queryPos 1).bind fun nextPos =>
        src.codec.encodeAutomatonState nextPos (saturatingAdd u32Max editCost 1))).map fun deleteTarget =>
          ⟨fromState, some queryChar, none, deleteTarget, 1⟩
    else none

def computeNormalTransitions (dictNodeId fromState : Nat) (dictNode : N) :
    DictionaryNodeRegistry N × Expansion Nat Char Char Nat :=
  let edges := if 0 < src.transitionsPerEdge queryPos editCost then
      scan (fun r (e : U × N) => src.followEdge r dictNodeId fromState (CharUnit.toChar e.1) e.2
        (src.normalTargets queryPos editCost (CharUnit.toChar e.1) e.2)) r (src.dictionary.edges dictNode)
    else (r, [])
  (edges.1, ⟨edges.2 ++ (src.deleteTransition queryPos editCost dictNodeId fromState).toList,
    src.normalFinalWeight dictNode queryPos editCost⟩)

end Normal

/-! ### Continuation states -/

section Continuation
variable (queryPos editCost dictNodeId fromState : Nat)

/-- The input, the required output and the target state of the second half of a transposition. -/
def transposeSecondContext : Option (Char × Char × Nat) :=
  (nextIndex queryPos src.queryChars.length).bind fun nextPos =>
    (src.queryChars[nextPos]?).bind fun secondInput =>
      (src.queryChars[queryPos]?).bind fun requiredOutput =>
        ((checkedAdd u32Max queryPos 2).bind fun nextQueryPos =>
          src.codec.encodeAutomatonState nextQueryPos editCost).map fun target => (secondInput, requiredOutput, target)

def computeTransposeSecondTransitions (dictNode : N) :
    DictionaryNodeRegistry N × Expansion Nat Char Char Nat :=
  match src.transposeSecondContext queryPos editCost with
  | none => (r, ⟨[], none⟩)
  | some (secondInput, requiredOutput, targetAutomatonState) =>
    let edges := scan (fun r (e : U × N) => src.followEdge r dictNodeId fromState (CharUnit.toChar e.1) e.2
      (if CharUnit.toChar e.1 = requiredOutput then [⟨some secondInput, 0, targetAutomatonState⟩] else []))
      r (src.dictionary.edges dictNode)
    (edges.1, ⟨edges.2, none⟩)

def computeMergeSecondTransitions : DictionaryNodeRegistry N × Expansion Nat Char Char Nat :=
  let arc := (nextIndex queryPos src.queryChars.length).bind fun nextPos =>
    (src.codec.encodeTransitionTarget dictNodeId ((checkedAdd u32Max queryPos 2).bind fun nextQueryPos =>
      src.codec.encodeAutomatonState nextQueryPos editCost)).bind fun targetState =>
        (src.queryChars[nextPos]?).map fun input => ⟨fromState, some input, none, targetState, 0⟩
  (r, ⟨arc.toList, none⟩)

def splitSecondTarget : Option Nat :=
  if queryPos < src.queryChars.length then
    (checkedAdd u32Max queryPos 1).bind fun nextQueryPos => src.codec.encodeAutomatonState nextQueryPos editCost
  else none

def computeSplitSecondTransitions (dictNode : N) : DictionaryNodeRegistry N × Expansion Nat Char Char Nat :=
  match src.splitSecondTarget queryPos editCost with
  | none => (r, ⟨[], none⟩)
  | some targetAutomatonState =>
    let edges := scan (fun r (e : U × N) => src.followEdge r dictNodeId fromState (CharUnit.toChar e.1) e.2
      [⟨none, 0, targetAutomatonState⟩]) r (src.dictionary.edges dictNode)
    (edges.1, ⟨edges.2, none⟩)

end Continuation

/-! ### Expansion -/

def computeTransitions (dictNodeId automatonStateId : Nat) :
    DictionaryNodeRegistry N × Expansion Nat Char Char Nat :=
  match src.codec.decodeAutomatonState automatonStateId, r.getNode dictNodeId,
      src.codec.encodeProductState dictNodeId automatonStateId with
  | some automatonState, some dictNode, some fromState =>
    match automatonState with
    | .normal queryPos editCost => src.computeNormalTransitions r queryPos editCost dictNodeId fromState dictNode
    | .transposeSecond queryPos editCost =>
      src.computeTransposeSecondTransitions r queryPos editCost dictNodeId fromState dictNode
    | .mergeSecond queryPos editCost => src.computeMergeSecondTransitions r queryPos editCost dictNodeId fromState
    | .splitSecond queryPos editCost =>
      src.computeSplitSecondTransitions r queryPos editCost dictNodeId fromState dictNode
  | _, _, _ => (r, ⟨[], none⟩)

def expandState (state : Nat) : DictionaryNodeRegistry N × Option (Expansion Nat Char Char Nat) :=
  match src.codec.decodeProductState state with
  | none => (r, none)
  | some (dictNodeId, automatonStateId) =>
    let (r', e) := src.computeTransitions r dictNodeId automatonStateId
    (r', some e)

/-- The source over its shared node registry. -/
def source : LazySource (DictionaryNodeRegistry N) Nat Char Char Nat where
  valid r state := state ≤ u32Max ∧ src.isValidProductState r state = true
  expand r state := src.expandState r state

def newRegistry : DictionaryNodeRegistry N := .new src.dictionary.root

end LevenshteinStateSource
end Duallity
