import Duallity.Generalized.Operations
import Duallity.Generalized.Registry
import Duallity.Lib.Effect

/-! The transaction of an expansion (`generalized_expansion.rs`, `generalized_limits.rs`): errors and limits, the work
    that is charged, dictionary nodes that are staged, and the batch of states that a commit adds. -/

namespace Duallity

inductive GeneralizedWfstResource
  | queryBytes
  | queryScalars
  | operationSourceScalars
  | operationQueryScalars
  | retainedDictionaryNodes
  | retainedWfstStates
  | pathsPerExpansion
  | workUnitsPerExpansion
deriving DecidableEq, Repr

structure GeneralizedWfstLimits where
  maxQueryBytes : Nat
  maxQueryScalars : Nat
  maxOperationSourceScalars : Nat
  maxOperationQueryScalars : Nat
  maxRetainedDictionaryNodes : Nat
  maxRetainedWfstStates : Nat
  maxPathsPerExpansion : Nat
  maxWorkUnitsPerExpansion : Nat
deriving DecidableEq, Repr

inductive GeneralizedWfstError
  | invalidOperations
  | costScale
  | limitExceeded (resource : GeneralizedWfstResource) (limit required : Nat)
  | arithmeticOverflow (context : String)
  | allocationFailed (context : String)
deriving DecidableEq, Repr

/-- Why an expansion returns no arcs. `panicked` is an `expect` or an index that would abort it; `outOfFuel` says that a
    loop would go on, which is nothing the source reports. -/
inductive ExpansionError
  | resourceExhausted (error : GeneralizedWfstError)
  | invalidState (state : Nat)
  | source (fault : Nat)
  | cancelled (reason : Nat)
  | panicked (message : String)
  | outOfFuel
deriving DecidableEq, Repr

/-- The registries, which clones share. -/
structure Registries (N : Type) where
  nodes : DictionaryNodeRegistry (Owned N)
  states : StateRegistry

/-- What an expansion cannot foresee: the answers of its checks and allocations, one after the other, the owners of the
    nodes it allocates, and what other clones have published when it comes to take a lock. -/
structure Environment (N : Type) where
  cancellation : Nat → Option Nat
  fault : Nat → Option Nat
  reserves : Nat → Bool
  owner : Nat → Nat
  clones : Nat → Registries N → Registries N

/-- The shared registries and the budget of one expansion; `tick` counts the answers of the environment. No step reads
    `pulled` and `retained`: they count the edges that the provider has given and the paths that are kept. -/
structure ExpansionState (N : Type) where
  registries : Registries N
  tick : Nat
  paths : Nat
  work : Nat
  pulled : Nat
  retained : Nat

/-- The registries at the start of an expansion, which has charged nothing yet. -/
def ExpansionState.fresh {N : Type} (registries : Registries N) (tick : Nat) : ExpansionState N :=
  ⟨registries, tick, 0, 0, 0, 0⟩

abbrev ExpansionM (N : Type) := Effect (ExpansionState N) ExpansionError

def requireAtMost (resource : GeneralizedWfstResource) (required limit : Nat) : Except GeneralizedWfstError Unit :=
  if required ≤ limit then .ok () else .error (.limitExceeded resource limit required)

/-! ### Budget -/

namespace ExpansionBudget
variable {N : Type} (env : Environment N) (limits : GeneralizedWfstLimits)

/-- An error of the crate as one of the expansion. -/
def expansionFailure (r : Except GeneralizedWfstError Unit) : ExpansionM N Unit :=
  match r with
  | .ok () => pure ()
  | .error e => Effect.fail (.resourceExhausted e)

/-- The next answer of the environment. -/
def answer {α : Type} (f : Nat → α) : ExpansionM N α := do
  let a ← Effect.read fun s => f s.tick
  Effect.update fun s => { s with tick := s.tick + 1 }
  pure a

/-- Read the shared registries under a lock, before which other clones may have published. -/
def readShared {α : Type} (f : Registries N → α) : ExpansionM N α := do
  Effect.update fun s => { s with registries := env.clones s.tick s.registries, tick := s.tick + 1 }
  Effect.read fun s => f s.registries

def checkCancelled : ExpansionM N Unit := do
  match ← answer env.cancellation with
  | some reason => Effect.fail (.cancelled reason)
  | none => pure ()

def checkSource : ExpansionM N Unit := do
  match ← answer env.fault with
  | some fault => Effect.fail (.source fault)
  | none => pure ()

def tryReserve (context : String) : ExpansionM N Unit := do
  if ← answer env.reserves then pure () else Effect.fail (.resourceExhausted (.allocationFailed context))

def chargeWork (units : Nat) : ExpansionM N Unit := do
  checkCancelled env
  let work ← Effect.read fun s => s.work
  if usizeMax < work + units then
    Effect.fail (.resourceExhausted (.arithmeticOverflow "counting expansion work"))
  else
    Effect.update fun s => { s with work := work + units }
    expansionFailure (requireAtMost .workUnitsPerExpansion (work + units) limits.maxWorkUnitsPerExpansion)

def chargePath : ExpansionM N Unit := do
  checkCancelled env
  let paths ← Effect.read fun s => s.paths
  if usizeMax < paths + 1 then
    Effect.fail (.resourceExhausted (.arithmeticOverflow "counting dictionary paths"))
  else
    Effect.update fun s => { s with paths := paths + 1 }
    expansionFailure (requireAtMost .pathsPerExpansion (paths + 1) limits.maxPathsPerExpansion)

end ExpansionBudget

/-! ### Staging -/

/-- A node by its committed id or by an offset into the staged nodes. -/
inductive PendingDictionaryNode
  | registered (id : Nat)
  | staged (index : Nat)
deriving DecidableEq, Repr

structure PendingOperationArc where
  targetNode : PendingDictionaryNode
  queryBytePos : Nat
  cost : Nat
  input : List Char
  output : List Char
  weight : ℚ

structure StagedDictionaryNode (N : Type) where
  parent : PendingDictionaryNode
  label : Char
  node : Owned N

structure ExpansionStaging (N : Type) where
  nodes : List (StagedDictionaryNode N)
  nodeByStep : List ((PendingDictionaryNode × Char) × PendingDictionaryNode)

namespace ExpansionStaging
open ExpansionBudget
variable {N : Type} (env : Environment N)

def new : ExpansionStaging N := ⟨[], []⟩

def stageChild (staging : ExpansionStaging N) (registered : Option Nat) (parent : PendingDictionaryNode) (label : Char)
    (node : N) : ExpansionM N (ExpansionStaging N × PendingDictionaryNode) :=
  match registered with
  | some id => pure (staging, .registered id)
  | none =>
    match staging.nodeByStep.lookup (parent, label) with
    | some reference => pure (staging, reference)
    | none => do
      let owner ← answer env.owner
      let reference := .staged staging.nodes.length
      pure (⟨staging.nodes ++ [⟨parent, label, ⟨owner, node⟩⟩], ((parent, label), reference) :: staging.nodeByStep⟩,
        reference)

end ExpansionStaging

/-- The id of a reference; `ids` are those of the staged nodes. -/
def resolvedNode (reference : PendingDictionaryNode) (ids : List Nat) : Option Nat :=
  match reference with
  | .registered id => some id
  | .staged index => ids[index]?

/-! ### Batches -/

/-- States to add, with the ids they will have. -/
structure StateBatch where
  states : List RegisteredState
  products : List (ProductState × Nat)
  chains : List (EmissionChain × Nat)

namespace StateBatch
open ExpansionBudget
variable {N : Type} (env : Environment N)

def new : StateBatch := ⟨[], [], []⟩

def checkedStateCount (required limit : Nat) : ExpansionM N Nat := do
  expansionFailure (requireAtMost .retainedWfstStates required limit)
  Effect.orFail (.resourceExhausted (.arithmeticOverflow "encoding a WFST state ID without using NO_STATE"))
    (if required = 0 then none else nextStateId (required - 1))

def nextId (batch : StateBatch) (registry : StateRegistry) (limit : Nat) : ExpansionM N Nat := do
  let index ← Effect.orFail (.resourceExhausted (.arithmeticOverflow "assigning a WFST state ID"))
    (checkedAdd usizeMax registry.len batch.states.length)
  let required ← Effect.orFail (.resourceExhausted (.arithmeticOverflow "counting retained WFST states"))
    (checkedAdd usizeMax index 1)
  checkedStateCount required limit

def product (batch : StateBatch) (registry : StateRegistry) (state : ProductState) (limit : Nat) :
    ExpansionM N (StateBatch × Nat) :=
  match (registry.productId state).or (batch.products.lookup state) with
  | some id => pure (batch, id)
  | none => do
    let id ← batch.nextId registry limit
    pure ({ batch with products := (state, id) :: batch.products, states := batch.states ++ [.product state] }, id)

/-- The states of a chain that starts at the id `first`, from `position` on. -/
def chainStates (chain : EmissionChain) (first width : Nat) : List RegisteredState :=
  (List.range' 1 (width - 1)).map fun position =>
    .emit ⟨chain, position, if position + 1 = width then chain.target else first + position⟩

def chain (batch : StateBatch) (registry : StateRegistry) (chain : EmissionChain) (limit : Nat) :
    ExpansionM N (StateBatch × Nat) :=
  let width := max chain.input.length chain.output.length
  if width ≤ 1 then pure (batch, chain.target)
  else
    match (registry.chainId chain).or (batch.chains.lookup chain) with
    | some id => pure (batch, id)
    | none => do
      let first ← batch.nextId registry limit
      let count := width - 1
      let required ← Effect.orFail (.resourceExhausted (.arithmeticOverflow "counting a complete emission chain"))
        ((checkedAdd usizeMax registry.len batch.states.length).bind fun base => checkedAdd usizeMax base count)
      let _ ← checkedStateCount required limit
      tryReserve env "staging an emission chain"
      pure ({ batch with chains := (chain, first) :: batch.chains,
                         states := batch.states ++ chainStates chain first width }, first)

end StateBatch
end Duallity
