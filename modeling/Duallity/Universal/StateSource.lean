import Duallity.Lib.LazyGraph
import Duallity.Lib.Scan
import Duallity.NodeRegistry

/-! The Universal Levenshtein state source (`universal_state_source.rs`, `universal_state_support.rs`). The
    universal automaton of `liblevenshtein` reads the dictionary path against windows of the query; beside it
    a cursor says how much of the query the input labels have spelled. A product state is a dictionary node
    and an interned pair of automaton state and cursor. -/

namespace Duallity

/-- What the source calls on `liblevenshtein`'s universal automaton. The key of a state is its length
    difference and its positions. -/
structure UniversalAutomaton (σ β κ : Type) where
  initial : Nat → σ
  fromPaddedUnits : Char → Nat → List Char → β
  transition : σ → β → Nat → Option σ
  acceptingDistance : σ → Nat → Nat → Option Nat
  key : σ → κ

/-! ### Query windows -/

structure UniversalQueryWindow where
  falsePrefix : Nat
  units : List Char
deriving DecidableEq, Repr

def relevantWindowAt (word : List Char) (maxDistance position : Nat) : UniversalQueryWindow :=
  let falsePrefix := saturatingAdd usizeMax maxDistance 1 - position
  let firstWordPos := max (position - maxDistance) 1
  let endPos := min (saturatingAdd usizeMax (saturatingAdd usizeMax position maxDistance) 1) word.length
  let units := if firstWordPos ≤ endPos then (word.take endPos).drop (firstWordPos - 1) else []
  ⟨falsePrefix, units⟩

def precomputeRelevantSubwords (queryChars : List Char) (maxDistance : Nat) : List UniversalQueryWindow :=
  (List.range (saturatingAdd usizeMax queryChars.length maxDistance)).map fun dictDepth =>
    relevantWindowAt queryChars maxDistance (dictDepth + 1)

/-! ### Interned states -/

structure UniversalStateKey (κ : Type) where
  queryPos : Nat
  state : κ
deriving DecidableEq, Repr

structure RegisteredUniversalState (σ : Type) where
  state : σ
  queryPos : Nat
deriving DecidableEq, Repr

abbrev UniversalStateRegistry (σ κ : Type) [DecidableEq κ] := Interner (UniversalStateKey κ) (RegisteredUniversalState σ)

def universalQueryStateFactor (queryLen : Nat) : Nat := min (saturatingAdd usizeMax queryLen 1) u32Max

/-- A dictionary edge on which the automaton has a transition. -/
structure PendingEdge (N σ : Type) where
  dictChar : Char
  child : N
  nextAutoState : σ
  nextQueryPos : Nat

abbrev UniversalTransition := Arc Nat Char Char Nat

/-- The two registries, which clones share. -/
abbrev UniversalRegistries (N σ κ : Type) [DecidableEq κ] :=
  DictionaryNodeRegistry (N × Nat) × UniversalStateRegistry σ κ

structure UniversalLevenshteinStateSource (N U σ β κ : Type) where
  automaton : UniversalAutomaton σ β κ
  dictionary : Dictionary N U
  queryChars : List Char
  relevantSubwords : List UniversalQueryWindow
  maxAutomatonStates : Nat

namespace UniversalLevenshteinStateSource
open DictionaryNodeRegistry
variable {N U σ β κ : Type} [CharUnit U] [DecidableEq κ]

def new (automaton : UniversalAutomaton σ β κ) (dictionary : Dictionary N U) (query : List Char) (maxDistance : Nat) :
    UniversalLevenshteinStateSource N U σ β κ where
  automaton := automaton
  dictionary := dictionary
  queryChars := query
  relevantSubwords := precomputeRelevantSubwords query maxDistance
  maxAutomatonStates :=
    max (saturatingMul u32Max (StateEncoding.estimateAutomatonStates query.length maxDistance)
      (universalQueryStateFactor query.length)) 1

variable (src : UniversalLevenshteinStateSource N U σ β κ) (r : UniversalRegistries N σ κ)

def start : Nat := 0

def stateKey (state : σ) (queryPos : Nat) : UniversalStateKey κ := ⟨queryPos, src.automaton.key state⟩

/-- The registries of a new source: the root node and the initial state. -/
def newRegistries (maxDistance : Nat) : UniversalRegistries N σ κ :=
  let initial := src.automaton.initial maxDistance
  (.new (src.dictionary.root, 0), (Interner.register u32Count .empty (src.stateKey initial 0) ⟨initial, 0⟩).1)

def encodeProductState (dictNodeId automatonStateId : Nat) : Option Nat :=
  StateEncoding.tryEncode dictNodeId automatonStateId src.maxAutomatonStates

def isValidProductState (state : Nat) : Bool :=
  match StateEncoding.decode state src.maxAutomatonStates with
  | none => false
  | some (dictNodeId, automatonStateId) => (r.1.getNode dictNodeId).isSome && (r.2.value? automatonStateId).isSome

def registeredFinalWeight (dictNode : N) (automatonState : σ) (queryPos fixedWordLen dictDepth : Nat) : Option Nat :=
  if queryPos ≠ fixedWordLen ∨ src.dictionary.isFinal dictNode = false then none
  else (src.automaton.acceptingDistance automatonState fixedWordLen dictDepth).bind boundedCountToF64

def finalWeightForState (state : Nat) : Option Nat :=
  (StateEncoding.decode state src.maxAutomatonStates).bind fun (dictNodeId, automatonStateId) =>
    (r.1.getNode dictNodeId).bind fun (dictNode, dictDepth) =>
      (r.2.value? automatonStateId).bind fun registered =>
        src.registeredFinalWeight dictNode registered.state registered.queryPos src.queryChars.length dictDepth

def relevantSubwordForDepth (dictDepth : Nat) : Nat × List Char :=
  ((src.relevantSubwords[dictDepth]?).map fun window => (window.falsePrefix, window.units)).getD (0, [])

/-- The edges with a transition, found before any registry is locked for writing. -/
def pendingEdges (dictNode : N) (dictDepth : Nat) (registered : RegisteredUniversalState σ) : List (PendingEdge N σ) :=
  if registered.queryPos ≤ src.queryChars.length then
    let (falsePrefix, subword) := src.relevantSubwordForDepth dictDepth
    let nextQueryPos := registered.queryPos + (src.queryChars[registered.queryPos]?).isSome.toNat
    (src.dictionary.edges dictNode).filterMap fun e =>
      let dictChar := CharUnit.toChar e.1
      (src.automaton.transition registered.state (src.automaton.fromPaddedUnits dictChar falsePrefix subword)
        (saturatingAdd usizeMax dictDepth 1)).map fun next => ⟨dictChar, e.2, next, nextQueryPos⟩
  else []

/-- One turn of the registration loop. An edge whose ids do not encode is skipped before anything is registered. -/
def followEdge (dictNodeId dictDepth fromState : Nat) (queryLabel : Option Char) (edge : PendingEdge N σ) :
    UniversalRegistries N σ κ × List UniversalTransition :=
  let childKey := DictionaryNodeKey.child dictNodeId edge.dictChar
  let nextAutoKey := src.stateKey edge.nextAutoState edge.nextQueryPos
  match r.1.candidateId childKey, r.2.candidate u32Count nextAutoKey with
  | some candidateChildId, some candidateAutoId =>
    if (src.encodeProductState candidateChildId candidateAutoId).isNone then (r, [])
    else
      let nodes := r.1.registerNode (edge.child, dictDepth + 1) childKey
      let states := Interner.register u32Count r.2 nextAutoKey ⟨edge.nextAutoState, edge.nextQueryPos⟩
      let target := nodes.2.bind fun childNodeId => states.2.bind (src.encodeProductState childNodeId)
      ((nodes.1, states.1), (target.map fun t => ⟨fromState, queryLabel, some edge.dictChar, t, 0⟩).toList)
  | _, _ => (r, [])

/-- The arc that reads a query character at the same node and automaton state. -/
def skipQueryChar (dictNodeId fromState : Nat) (registered : RegisteredUniversalState σ) :
    UniversalRegistries N σ κ × List UniversalTransition :=
  match src.queryChars[registered.queryPos]? with
  | none => (r, [])
  | some queryChar =>
    let nextQueryPos := registered.queryPos + 1
    let key := src.stateKey registered.state nextQueryPos
    match r.2.candidate u32Count key with
    | none => (r, [])
    | some candidateAutoId =>
      if (src.encodeProductState dictNodeId candidateAutoId).isSome then
        let states := Interner.register u32Count r.2 key ⟨registered.state, nextQueryPos⟩
        ((r.1, states.1), ((states.2.bind (src.encodeProductState dictNodeId)).map fun t =>
          ⟨fromState, some queryChar, none, t, 0⟩).toList)
      else (r, [])

def computeTransitions (dictNodeId automatonStateId : Nat) :
    UniversalRegistries N σ κ × Expansion Nat Char Char Nat :=
  match r.1.getNode dictNodeId, r.2.value? automatonStateId, src.encodeProductState dictNodeId automatonStateId with
  | some (dictNode, dictDepth), some registered, some fromState =>
    let queryLabel := src.queryChars[registered.queryPos]?
    let edges := scan (fun r edge => src.followEdge r dictNodeId dictDepth fromState queryLabel edge) r
      (src.pendingEdges dictNode dictDepth registered)
    let skip := src.skipQueryChar edges.1 dictNodeId fromState registered
    (skip.1, ⟨edges.2 ++ skip.2,
      src.registeredFinalWeight dictNode registered.state registered.queryPos src.queryChars.length dictDepth⟩)
  | _, _, _ => (r, ⟨[], none⟩)

def expandState (state : Nat) : UniversalRegistries N σ κ × Option (Expansion Nat Char Char Nat) :=
  match StateEncoding.decode state src.maxAutomatonStates with
  | none => (r, none)
  | some (dictNodeId, automatonStateId) =>
    let (r', e) := src.computeTransitions r dictNodeId automatonStateId
    (r', some e)

/-- The source over its shared registries. -/
def source : LazySource (UniversalRegistries N σ κ) Nat Char Char Nat where
  valid r state := state ≤ u32Max ∧ src.isValidProductState r state = true
  expand r state := src.expandState r state

end UniversalLevenshteinStateSource
end Duallity
