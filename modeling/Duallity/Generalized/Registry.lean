import Duallity.NodeRegistry

/-! States of the Generalized product (`generalized_state_support.rs`). A product state is a dictionary node, a query
    offset and a cost. The labels of an operation beyond the first are emitted by the states of a chain, which is
    interned once. -/

namespace Duallity

structure ProductState where
  dictNodeId : Nat
  queryBytePos : Nat
  cost : Nat
deriving DecidableEq, Repr

/-- The labels of one operation and the product state they lead to. -/
structure EmissionChain where
  input : List Char
  output : List Char
  target : Nat
deriving DecidableEq, Repr

structure EmitState where
  chain : EmissionChain
  position : Nat
  next : Nat
deriving DecidableEq, Repr

inductive RegisteredState
  | product (state : ProductState)
  | emit (state : EmitState)
deriving DecidableEq, Repr

/-- A value behind an `Arc`, with the identity of the allocation. -/
structure Owned (N : Type) where
  owner : Nat
  value : N

/-- The ids of products and of chains, whose id is that of their first position, and the states under the ids. -/
structure StateRegistry where
  productToId : List (ProductState × Nat)
  chainToId : List (EmissionChain × Nat)
  idToState : List RegisteredState

/-- `lling_llang`'s `NO_STATE` is `u32::MAX`. -/
def nextStateId (len : Nat) : Option Nat := if len < u32Max then some len else none

def nextRegistryId (len : Nat) : Option Nat := if len ≤ u32Max then some len else none

namespace StateRegistry

def startState : ProductState := ⟨0, 0, 0⟩

def new : StateRegistry := ⟨[(startState, 0)], [], [.product startState]⟩

def get (r : StateRegistry) (state : Nat) : Option RegisteredState := r.idToState[state]?

def len (r : StateRegistry) : Nat := r.idToState.length

def productId (r : StateRegistry) (state : ProductState) : Option Nat := r.productToId.lookup state

def chainId (r : StateRegistry) (chain : EmissionChain) : Option Nat := r.chainToId.lookup chain

/-- Append a state under the id `id`. -/
def insertState (r : StateRegistry) (id : Nat) (state : RegisteredState) : StateRegistry :=
  match state with
  | .product product => { r with productToId := (product, id) :: r.productToId, idToState := r.idToState ++ [state] }
  | .emit emit =>
    if emit.position = 1 then { r with chainToId := (emit.chain, id) :: r.chainToId, idToState := r.idToState ++ [state] }
    else { r with idToState := r.idToState ++ [state] }

/-- Append states; there is no result when an id does not exist. -/
def commitPrepared (r : StateRegistry) (states : List RegisteredState) : Option StateRegistry :=
  states.foldlM (fun r state => (nextStateId r.len).map fun id => r.insertState id state) r

end StateRegistry

namespace DictionaryNodeRegistry
variable {N : Type}

/-- Append nodes. There is no result when an id does not exist, and none when a key has an id already: the source would
    give it a second one. -/
def commitPrepared (r : DictionaryNodeRegistry N) (nodes : List (DictionaryNodeKey × N)) :
    Option (DictionaryNodeRegistry N) := r.pushAll nextRegistryId nodes

end DictionaryNodeRegistry
end Duallity
