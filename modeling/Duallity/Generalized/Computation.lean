import Duallity.Generalized.Expansion
import Duallity.Lib.LazyGraph

/-! Expansion of a Generalized state (`generalized_wfst.rs`, `generalized_computation.rs`). A product state applies
    every operation to the query segment at its offset and to the dictionary paths below its node. Nodes are staged
    without touching the registries; a commit first reconciles them with what other clones have registered and then
    publishes nodes and states together. -/

namespace Duallity

/-- What a width slot holds of one expansion. -/
inductive WidthCacheEntry (τ : Type)
  | uncomputed
  | missing
  | ready (value : τ)

structure QuerySegment where
  chars : List Char
  bytes : List UInt8
  endBytePos : Nat

structure DictPath where
  targetNode : PendingDictionaryNode
  output : List Char
  bytes : List UInt8

abbrev GeneralizedTransition := Arc Nat Char Char ℚ

/-- The arcs and the final weight that are cached; a state without a final weight is not final. -/
abbrev CachedCharState := Expansion Nat Char Char ℚ

/-- A frame of the walk over the dictionary paths: a node, its edges still to follow, and how much of the buffers
    leads to it. -/
structure PathFrame (N : Type) where
  parent : PendingDictionaryNode
  edges : List (Char × N)
  outputLen : Nat
  byteLen : Nat

structure PathWalk (N : Type) where
  stack : List (PathFrame N)
  output : List Char
  bytes : List UInt8
  staging : ExpansionStaging N
  paths : List DictPath

/-- The state of the loop over the prepared operations. -/
structure ExpansionProgress (N : Type) where
  queries : List (WidthCacheEntry QuerySegment)
  pathsByWidth : List (WidthCacheEntry (List DictPath))
  staging : ExpansionStaging N
  arcs : List PendingOperationArc

/-- A computed product expansion that is not committed yet. -/
structure PendingExpansion (N : Type) where
  state : Nat
  finalWeight : Option ℚ
  staging : ExpansionStaging N
  arcs : List PendingOperationArc

inductive StagedExpansion (N : Type)
  | emitted (value : CachedCharState)
  | pending (expansion : PendingExpansion N)

/-- The staged nodes under the ids that a commit will give them. -/
structure Reconciliation (N : Type) where
  resolved : List Nat
  additions : List (DictionaryNodeKey × Owned N)
  newIds : List (DictionaryNodeKey × Nat)
  staged : List (StagedDictionaryNode N)
  retired : List (Owned N)

/-- A dictionary as its callbacks answer: `nextEdge n k` is what the iterator over the edges of `n` gives when it is
    asked for the `k`-th time. It need not end. -/
structure DictionaryProvider (N : Type) where
  root : N
  isFinal : N → Bool
  nextEdge : N → Nat → Option (Char × N)

def Dictionary.provider {N : Type} (D : Dictionary N Char) : DictionaryProvider N where
  root := D.root
  isFinal := D.isFinal
  nextEdge n k := (D.edges n)[k]?

structure GeneralizedWfst (N R : Type) where
  dictionary : DictionaryProvider N
  library : OperationLibrary R
  query : List Char
  operations : OperationSet R
  preparedOperations : List PreparedOperation
  sourceWidthSlotCount : Nat
  queryWidthSlotCount : Nat
  maxCost : Nat
  limits : GeneralizedWfstLimits

namespace GeneralizedWfst
open ExpansionBudget GeneralizedOps
variable {N R : Type}

/-! ### Construction -/

def validateConstructionLimits (query : List Char) (operations : OperationSet R) (limits : GeneralizedWfstLimits) :
    Except GeneralizedWfstError Unit := do
  requireAtMost .queryBytes (utf8Len query) limits.maxQueryBytes
  requireAtMost .queryScalars query.length limits.maxQueryScalars
  requireAtMost .retainedDictionaryNodes 1 limits.maxRetainedDictionaryNodes
  requireAtMost .retainedWfstStates 1 limits.maxRetainedWfstStates
  operations.forM fun operation => do
    requireAtMost .operationSourceScalars operation.consumeX limits.maxOperationSourceScalars
    requireAtMost .operationQueryScalars operation.consumeY limits.maxOperationQueryScalars

def slotCount (slots : List Nat) : Nat := (slots.map (· + 1)).foldl max 0

def tryNewWithLimits [DecidableEq R] (dictionary : DictionaryProvider N) (library : OperationLibrary R) (query : List Char)
    (maxDistance : Nat) (operations : OperationSet R) (limits : GeneralizedWfstLimits) :
    Except GeneralizedWfstError (GeneralizedWfst N R) :=
  if library.validate operations then do
    validateConstructionLimits query operations limits
    let some costScale := library.costScaleFor operations | .error .costScale
    let some maxCost := costScale.scaleBudget maxDistance | .error .costScale
    let some operations := boundedOperationSet costScale maxCost operations | .error .costScale
    let some preparedOperations := prepareOperations operations costScale | .error .costScale
    pure {
      dictionary, library, query, operations, preparedOperations, maxCost, limits
      sourceWidthSlotCount := slotCount (preparedOperations.map PreparedOperation.sourceWidthSlot)
      queryWidthSlotCount := slotCount (preparedOperations.map PreparedOperation.queryWidthSlot) }
  else .error .invalidOperations

variable (src : GeneralizedWfst N R) (env : Environment N)

/-- The registries of a new transducer; `owner` is the owner of its root node. -/
def newRegistries (owner : Nat) : Registries N := ⟨.new ⟨owner, src.dictionary.root⟩, .new⟩

def start : Nat := 0

/-! ### Finality -/

def productFinalWeight (product : ProductState) (dictNode : N) : Option ℚ :=
  if product.queryBytePos ≠ utf8Len src.query ∨ src.maxCost < product.cost ∨ src.dictionary.isFinal dictNode = false then none
  else some 0

def finalWeightForState (r : Registries N) (state : Nat) : Option ℚ :=
  (r.states.get state).bind fun registered =>
    match registered with
    | .product product => (r.nodes.getNode product.dictNodeId).bind fun node => src.productFinalWeight product node.value
    | .emit _ => none

/-! ### Dictionary paths -/

def dictionaryNode (nodeId : Nat) : ExpansionM N (Option N) :=
  readShared env fun r => (r.nodes.getNode nodeId).map Owned.value

/-- One turn of the loop over the edges of a node. -/
def pullEdge (node : N) (owned : List (Char × N)) : ExpansionM N (List (Char × N) ⊕ List (Char × N)) := do
  chargeWork env src.limits 1
  match src.dictionary.nextEdge node owned.length with
  | some edge => do
    Effect.update fun s => { s with pulled := s.pulled + 1 }
    checkSource env
    pure (.inl (owned ++ [edge]))
  | none => pure (.inr owned)

/-- The turns of a loop that charges a unit of work in each of them. -/
def turns : Nat := src.limits.maxWorkUnitsPerExpansion + 1

def boundedEdges (node : N) : ExpansionM N (List (Char × N)) := do
  chargeWork env src.limits 1
  let owned ← Effect.loop .outOfFuel (src.pullEdge env node) src.turns []
  checkSource env
  pure owned

def registeredChild (parent : PendingDictionaryNode) (label : Char) : ExpansionM N (Option Nat) :=
  match parent with
  | .registered id => readShared env fun r => r.nodes.id? (.child id label)
  | .staged _ => pure none

/-- A path joins those that are kept. -/
def retainPath : ExpansionM N Unit := do
  chargePath env src.limits
  Effect.update fun s => { s with retained := s.retained + 1 }

/-- One turn of the walk over the paths of exactly `width` characters. -/
def walkTurn (width : Nat) (walk : PathWalk N) : ExpansionM N (PathWalk N ⊕ (List DictPath × ExpansionStaging N)) :=
  match walk.stack with
  | [] => pure (.inr (walk.paths, walk.staging))
  | frame :: stack => do
    chargeWork env src.limits 1
    let output := walk.output.take frame.outputLen
    let bytes := walk.bytes.take frame.byteLen
    match frame.edges with
    | [] => pure (.inl { walk with stack, output, bytes })
    | (label, node) :: edges => do
      let registered ← registeredChild env frame.parent label
      let (staging, child) ← walk.staging.stageChild env registered frame.parent label node
      let output := output ++ [label]
      let bytes := bytes ++ String.utf8EncodeChar label
      let stack := { frame with edges } :: stack
      if output.length = width then do
        src.retainPath env
        chargeWork env src.limits (1 + output.length + bytes.length)
        pure (.inl ⟨stack, output, bytes, staging, walk.paths ++ [⟨child, output, bytes⟩]⟩)
      else do
        let childEdges ← src.boundedEdges env node
        pure (.inl ⟨⟨child, childEdges, output.length, bytes.length⟩ :: stack, output, bytes, staging, walk.paths⟩)

def dictionaryPathsExactChars (start width : Nat) (staging : ExpansionStaging N) :
    ExpansionM N (List DictPath × ExpansionStaging N) := do
  let node ← Effect.orFail (.invalidState start) (← dictionaryNode env start)
  if width = 0 then do
    src.retainPath env
    chargeWork env src.limits 1
    pure ([⟨.registered start, [], []⟩], staging)
  else do
    let edges ← src.boundedEdges env node
    Effect.loop .outOfFuel (src.walkTurn env width) src.turns ⟨[⟨.registered start, edges, 0, 0⟩], [], [], staging, []⟩

/-! ### Product states -/

/-- The entry of a slot, computed on first use; the second component is its segment. -/
def querySegmentAt (queries : List (WidthCacheEntry QuerySegment)) (prepared : PreparedOperation) (queryBytePos : Nat) :
    ExpansionM N (List (WidthCacheEntry QuerySegment) × Option QuerySegment) := do
  match ← Effect.orFail (.panicked "query slot") queries[prepared.queryWidthSlot]? with
  | .ready query => pure (queries, some query)
  | .missing => pure (queries, none)
  | .uncomputed => do
    chargeWork env src.limits (prepared.consumeY * 2)
    match strSegmentByCharWidth src.query queryBytePos prepared.consumeY with
    | some (segment, endPos) =>
      let query : QuerySegment := ⟨segment, asBytes segment, endPos⟩
      pure (queries.set prepared.queryWidthSlot (.ready query), some query)
    | none => pure (queries.set prepared.queryWidthSlot .missing, none)

/-- The paths of a slot, computed on first use. -/
def dictionaryPathsAt (pathsByWidth : List (WidthCacheEntry (List DictPath))) (staging : ExpansionStaging N)
    (prepared : PreparedOperation) (dictNodeId : Nat) :
    ExpansionM N (List (WidthCacheEntry (List DictPath)) × ExpansionStaging N × List DictPath) := do
  match ← Effect.orFail (.panicked "path slot") pathsByWidth[prepared.sourceWidthSlot]? with
  | .ready paths => pure (pathsByWidth, staging, paths)
  | .missing => Effect.fail (.panicked "dictionary cache stores complete path sets")
  | .uncomputed => do
    let (paths, staging) ← src.dictionaryPathsExactChars env dictNodeId prepared.consumeX staging
    pure (pathsByWidth.set prepared.sourceWidthSlot (.ready paths), staging, paths)

/-- One turn of the loop over the paths of an operation. -/
def applyOperation (prepared : PreparedOperation) (operation : OperationType R) (query : QuerySegment) (cost : Nat)
    (arcs : List PendingOperationArc) (path : DictPath) : ExpansionM N (List PendingOperationArc) := do
  chargeWork env src.limits (1 + path.bytes.length + query.bytes.length)
  if operationApplies src.library operation path.output path.bytes query.chars query.bytes then do
    chargeWork env src.limits (1 + path.output.length + query.chars.length)
    pure (arcs ++ [⟨path.targetNode, query.endBytePos, cost, query.chars, path.output, prepared.weight⟩])
  else pure arcs

/-- One turn of the loop over the prepared operations. -/
def stageOperation (product : ProductState) (progress : ExpansionProgress N) (prepared : PreparedOperation) :
    ExpansionM N (ExpansionProgress N) := do
  chargeWork env src.limits 1
  if src.maxCost - product.cost < prepared.scaledWeight then pure progress
  else do
    let (queries, query?) ← src.querySegmentAt env progress.queries prepared product.queryBytePos
    match query? with
    | none => pure { progress with queries }
    | some query => do
      let (pathsByWidth, staging, paths) ←
        src.dictionaryPathsAt env progress.pathsByWidth progress.staging prepared product.dictNodeId
      let operation ← Effect.orFail (.panicked "operation index") src.operations[prepared.index]?
      let arcs ← paths.foldlM (src.applyOperation env prepared operation query (product.cost + prepared.scaledWeight))
        progress.arcs
      pure ⟨queries, pathsByWidth, staging, arcs⟩

def widthCache (τ : Type) (count : Nat) : ExpansionM N (List (WidthCacheEntry τ)) := do
  chargeWork env src.limits count
  tryReserve env "reserving width-cache slots"
  pure (List.replicate count .uncomputed)

/-- `compute_product_state` up to its commit. -/
def stageProductState (state : Nat) (product : ProductState) : ExpansionM N (PendingExpansion N) := do
  let node ← Effect.orFail (.invalidState state) (← dictionaryNode env product.dictNodeId)
  if isCharBoundary src.query product.queryBytePos = false ∨ src.maxCost < product.cost then
    Effect.fail (.invalidState state)
  else do
    chargeWork env src.limits 1
    let finalWeight := src.productFinalWeight product node
    checkSource env
    let pathsByWidth ← src.widthCache env (List DictPath) src.sourceWidthSlotCount
    let queries ← src.widthCache env QuerySegment src.queryWidthSlotCount
    let progress ← src.preparedOperations.foldlM (src.stageOperation env product) ⟨queries, pathsByWidth, .new, []⟩
    checkSource env
    -- `commit_expansion` checks and reserves before it takes a lock.
    checkCancelled env
    tryReserve env "reserving retired node owners"
    pure ⟨state, finalWeight, progress.staging, progress.arcs⟩

/-- An expansion up to its commit; the arc of an emission state needs none. -/
def stageExpansion (state : Nat) : ExpansionM N (StagedExpansion N) := do
  checkCancelled env
  checkSource env
  let registered ← Effect.orFail (.invalidState state) (← readShared env fun r => r.states.get state)
  match registered with
  | .product product => do
    let pending ← src.stageProductState env state product
    pure (.pending pending)
  | .emit emit => do
    chargeWork env src.limits 1
    checkCancelled env
    checkSource env
    pure (.emitted ⟨[⟨state, emit.chain.input[emit.position]?, emit.chain.output[emit.position]?, emit.next, 0⟩], none⟩)

/-! ### Commit -/

/-- One turn of the loop that resolves the staged nodes, under the lock of the node registry. -/
def reconcileNode (rec : Reconciliation N) (staged : StagedDictionaryNode N) : ExpansionM N (Reconciliation N) := do
  chargeWork env src.limits 1
  let parent ← Effect.orFail (.panicked "staged parent") (resolvedNode staged.parent rec.resolved)
  let key := DictionaryNodeKey.child parent staged.label
  let nodes ← Effect.read fun s => s.registries.nodes
  match (nodes.id? key).or (rec.newIds.lookup key) with
  | some id => do
    let canonical ← Effect.orFail (.panicked "canonical node")
      ((nodes.getNode id).or ((rec.additions[id - nodes.size]?).map Prod.snd))
    if canonical.owner = staged.node.owner then
      pure { rec with resolved := rec.resolved ++ [id], staged := rec.staged ++ [staged] }
    else
      pure { rec with
        resolved := rec.resolved ++ [id]
        staged := rec.staged ++ [{ staged with node := canonical }]
        retired := rec.retired ++ [staged.node] }
  | none => do
    let count ← Effect.orFail (.resourceExhausted (.arithmeticOverflow "counting dictionary nodes"))
      (checkedAdd usizeMax nodes.size rec.additions.length)
    let required ← Effect.orFail (.resourceExhausted (.arithmeticOverflow "counting dictionary nodes"))
      (checkedAdd usizeMax count 1)
    expansionFailure (requireAtMost .retainedDictionaryNodes required src.limits.maxRetainedDictionaryNodes)
    let id ← Effect.orFail (.resourceExhausted (.arithmeticOverflow "encoding a dictionary node ID")) (nextRegistryId count)
    pure {
      resolved := rec.resolved ++ [id]
      additions := rec.additions ++ [(key, staged.node)]
      newIds := (key, id) :: rec.newIds
      staged := rec.staged ++ [staged]
      retired := rec.retired }

/-- The state that the first arc of an operation leads to. -/
def arcTarget (registry : StateRegistry) (batch : StateBatch) (arc : PendingOperationArc) (target : Nat) :
    ExpansionM N (StateBatch × Nat) :=
  if max arc.input.length arc.output.length ≤ 1 then pure (batch, target)
  else batch.chain env registry ⟨arc.input, arc.output, target⟩ src.limits.maxRetainedWfstStates

/-- One turn of the loop over the arcs: the state an arc leads to joins the batch. -/
def batchArc (state : Nat) (resolved : List Nat) (acc : StateBatch × List GeneralizedTransition)
    (arc : PendingOperationArc) : ExpansionM N (StateBatch × List GeneralizedTransition) := do
  chargeWork env src.limits (1 + 8 * (arc.input.length + arc.output.length))
  let registry ← Effect.read fun s => s.registries.states
  let dictNodeId ← Effect.orFail (.panicked "resolved node") (resolvedNode arc.targetNode resolved)
  let (batch, target) ← acc.1.product registry ⟨dictNodeId, arc.queryBytePos, arc.cost⟩ src.limits.maxRetainedWfstStates
  let (batch, next) ← src.arcTarget env registry batch arc target
  pure (batch, acc.2 ++ [⟨state, arc.input.head?, arc.output.head?, next, arc.weight⟩])

/-- Add the batch to both registries: no other step of the expansion writes to them. -/
def publish (additions : List (DictionaryNodeKey × Owned N)) (states : List RegisteredState) : ExpansionM N Unit := do
  let nodes ← Effect.orFail (.panicked "transaction preflight validated the node ID")
    (← Effect.read fun s => s.registries.nodes.commitPrepared additions)
  Effect.update fun s => { s with registries := { s.registries with nodes } }
  let states ← Effect.orFail (.panicked "preflight validated every state ID")
    (← Effect.read fun s => s.registries.states.commitPrepared states)
  Effect.update fun s => { s with registries := { s.registries with states } }

/-- One turn of the commit loop. When a staged node turns out to be registered under another owner, its owner is
    retired after the lock has been released, and the commit starts over. -/
def commitTurn (pending : PendingExpansion N) : ExpansionM N (PendingExpansion N ⊕ CachedCharState) := do
  readShared env fun _ => ()
  let rec ← pending.staging.nodes.foldlM (src.reconcileNode env) ⟨[], [], [], [], []⟩
  if rec.retired.isEmpty = false then do
    checkCancelled env
    checkSource env
    pure (.inl { pending with staging := { pending.staging with nodes := rec.staged } })
  else do
    let (batch, transitions) ← pending.arcs.foldlM (src.batchArc env pending.state rec.resolved) (.new, [])
    tryReserve env "reserving dictionary identities"
    tryReserve env "reserving WFST identities"
    checkCancelled env
    checkSource env
    publish rec.additions batch.states
    pure (.inr ⟨transitions, pending.finalWeight⟩)

def commitExpansion (pending : PendingExpansion N) : ExpansionM N CachedCharState :=
  Effect.loop .outOfFuel (src.commitTurn env) src.turns pending

def tryComputeRegisteredState (state : Nat) : ExpansionM N CachedCharState := do
  match ← src.stageExpansion env state with
  | .emitted value => pure value
  | .pending pending => src.commitExpansion env pending

end GeneralizedWfst
end Duallity
