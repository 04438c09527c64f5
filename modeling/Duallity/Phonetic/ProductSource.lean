import Duallity.Lib.LazyGraph
import Duallity.Lib.Scan
import Duallity.NodeRegistry
import Duallity.Phonetic.Frontier

/-! The phonetic state source (`phonetic_state_source.rs`). A product state is a dictionary node and an interned frontier of the
    product of the NFA and the Levenshtein automaton. -/

namespace Duallity

/-- What the source calls on `liblevenshtein`'s product automaton, with the initial frontier. -/
structure ProductAutomatonChar where
  initialFrontier : List ProductStateChar
  transitionFrontier : List ProductStateChar → Char → List ProductStateChar
  minAcceptingDistance : List ProductStateChar → Option Nat

/-- Frontiers with the same buckets behave the same, and nothing comes of no states. -/
structure ProductAutomatonChar.Canonical (A : ProductAutomatonChar) : Prop where
  transition : ∀ {frontier frontier'} c, buckets frontier = buckets frontier' →
    buckets (A.transitionFrontier frontier c) = buckets (A.transitionFrontier frontier' c)
  distance : ∀ {frontier frontier'}, buckets frontier = buckets frontier' →
    A.minAcceptingDistance frontier = A.minAcceptingDistance frontier'
  transition_nil : ∀ c, A.transitionFrontier [] c = []
  distance_nil : A.minAcceptingDistance [] = none

/-- A dictionary edge with successors. -/
structure PendingProductEdge (N : Type) where
  dictChar : Char
  child : N
  childKey : DictionaryNodeKey
  successors : List ProductStateChar
  successorKey : List Nat

/-- The two registries, which clones share. -/
abbrev PhoneticRegistries (N : Type) := DictionaryNodeRegistry N × ProductStateRegistry

structure PhoneticStateSource (N U : Type) where
  dictionary : Dictionary N U
  product : ProductAutomatonChar
  maxDistance : Nat
  phoneticWeight : ℚ
  editWeight : ℚ
  maxProductStates : Nat

namespace PhoneticStateSource
open DictionaryNodeRegistry ProductStateRegistry
variable {N U : Type} [CharUnit U]

/-- The source of a product that has been built from the normalized NFA. -/
def fromValidatedWeights (dictionary : Dictionary N U) (product : ProductAutomatonChar) (maxDistance : Nat)
    (phoneticWeight editWeight : ℚ) : PhoneticStateSource N U where
  dictionary := dictionary
  product := product
  maxDistance := maxDistance
  phoneticWeight := phoneticWeight
  editWeight := editWeight
  maxProductStates := estimatedPhoneticProductStates maxDistance

variable (src : PhoneticStateSource N U) (r : PhoneticRegistries N)

def start : Nat := 0

/-- The registries of a new source. -/
def newRegistries : PhoneticRegistries N := (.new src.dictionary.root, .new src.product.initialFrontier)

def encodeProductState (dictNodeId productStateId : Nat) : Option Nat :=
  StateEncoding.tryEncode dictNodeId productStateId src.maxProductStates

def isValidProductState (state : Nat) : Bool :=
  match StateEncoding.decode state src.maxProductStates with
  | none => false
  | some (dictNodeId, productStateId) => (r.1.getNode dictNodeId).isSome && (r.2.getState productStateId).isSome

def productFinalWeight (dictNode : N) (productFrontier : List ProductStateChar) : Option ℚ :=
  if src.dictionary.isFinal dictNode = false then none
  else (src.product.minAcceptingDistance productFrontier).map fun distance : Nat => distance * src.editWeight

def finalWeightForState (state : Nat) : Option ℚ :=
  (StateEncoding.decode state src.maxProductStates).bind fun (dictNodeId, productStateId) =>
    (r.1.getNode dictNodeId).bind fun dictNode =>
      (r.2.getState productStateId).bind fun productFrontier => src.productFinalWeight dictNode productFrontier

/-- The edges with successors, found before any registry is locked for writing. -/
def pendingEdges (dictNodeId : Nat) (dictNode : N) (productFrontier : List ProductStateChar) : List (PendingProductEdge N) :=
  (src.dictionary.edges dictNode).filterMap fun (unit, child) =>
    let dictChar := CharUnit.toChar unit
    let successors := src.product.transitionFrontier productFrontier dictChar
    if successors.isEmpty then none
    else (prepareState successors).map fun (successors, key) =>
      ⟨dictChar, child, .child dictNodeId dictChar, successors, key⟩

/-- One turn of the registration loop. An edge whose ids do not encode is skipped before anything is registered. -/
def followEdge (fromState : Nat) (edge : PendingProductEdge N) : PhoneticRegistries N × List (Arc Nat Char Char ℚ) :=
  match r.1.candidateId edge.childKey, r.2.candidateStateIdForKey edge.successorKey with
  | some candidateChildId, some candidateSuccessorId =>
    if (src.encodeProductState candidateChildId candidateSuccessorId).isNone then (r, [])
    else
      let nodes := r.1.registerNode edge.child edge.childKey
      let states := r.2.registerPreparedStateWithKey edge.successors edge.successorKey
      let target := nodes.2.bind fun childNodeId => states.2.bind fun successorId => src.encodeProductState childNodeId successorId
      ((nodes.1, states.1),
        (target.map fun t => ⟨fromState, some edge.dictChar, some edge.dictChar, t, src.phoneticWeight⟩).toList)
  | _, _ => (r, [])

def computeTransitions (dictNodeId productStateId : Nat) : PhoneticRegistries N × Expansion Nat Char Char ℚ :=
  match r.1.getNode dictNodeId, r.2.getState productStateId, src.encodeProductState dictNodeId productStateId with
  | some dictNode, some productFrontier, some fromState =>
    let edges := scan (fun r edge => src.followEdge r fromState edge) r (src.pendingEdges dictNodeId dictNode productFrontier)
    (edges.1, ⟨edges.2, src.productFinalWeight dictNode productFrontier⟩)
  | _, _, _ => (r, ⟨[], none⟩)

def expandState (state : Nat) : PhoneticRegistries N × Option (Expansion Nat Char Char ℚ) :=
  match StateEncoding.decode state src.maxProductStates with
  | none => (r, none)
  | some (dictNodeId, productStateId) =>
    let (r', e) := src.computeTransitions r dictNodeId productStateId
    (r', some e)

/-- The source over its shared registries. -/
def source : LazySource (PhoneticRegistries N) Nat Char Char ℚ where
  valid r state := state ≤ u32Max ∧ src.isValidProductState r state = true
  expand r state := src.expandState r state

/-! ### Ids -/

/-- What an expansion of the state can read has ids afterwards: they exist, stay below the product-state budget and fit `u32`. -/
def idsFit (state : Nat) : Bool :=
  match StateEncoding.decode state src.maxProductStates with
  | none => true
  | some (dictNodeId, productStateId) =>
    match r.1.getNode dictNodeId, r.2.getState productStateId with
    | some dictNode, some productFrontier =>
      (src.dictionary.edges dictNode).all fun (unit, _) =>
        let successors := src.product.transitionFrontier productFrontier (CharUnit.toChar unit)
        successors.isEmpty || (prepareState successors).any fun (_, key) =>
          ((src.expandState r state).1.1.candidateId (.child dictNodeId (CharUnit.toChar unit))).any fun childId =>
            ((src.expandState r state).1.2.candidateStateIdForKey key).any fun successorId =>
              (src.encodeProductState childId successorId).isSome
    | _, _ => true

end PhoneticStateSource
end Duallity
