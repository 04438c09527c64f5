import Duallity.Ffi.Config
import Duallity.LazyCache

/-! Handle-owned views of the options (`ffi/inspection.rs`): the parsed values are written back into records, each in a boxed
    allocation of its own. -/

namespace Duallity

/-- An allocation and what it holds. -/
structure Box (α : Type) where
  address : Pointer
  value : α
deriving DecidableEq

namespace Box

/-- A memory shows a text where it was allocated. -/
def ShowsText (memory : Memory) (box : Box (List UInt8)) : Prop :=
  box.address ≠ 0 ∧ memory.bytes box.address box.value.length = box.value

/-- A memory shows a record at an aligned address. -/
def Shows {T : Type} [Record T] (memory : Memory) (box : Box T) : Prop :=
  (box.address ≠ 0 ∧ recordAlign ∣ box.address) ∧ Record.read memory box.address = box.value

/-- A memory shows records one after another. -/
def ShowsAll {T : Type} [Record T] (memory : Memory) (box : Box (List T)) : Prop :=
  ∀ index value, box.value[index]? = some value → (⟨box.address + index * Record.size T, value⟩ : Box T).Shows memory

end Box

/-- Where the allocations of one build are put, by what they are for. -/
structure Allocator where
  limits : Pointer
  operations : Pointer
  restrictions : Nat → Pointer
  name : Nat → Pointer
  source : Nat → Nat → Pointer
  target : Nat → Nat → Pointer

/-- Backing of every pointer that the record holds. -/
structure OwnedOptions where
  kind : WfstKind
  record : DuallityWfstOptionsV1
  limits : Option (Box DuallityGeneralizedLimitsV1)
  operations : Box (List DuallityOperationV1)
  restrictions : List (Box (List DuallityRestrictionV1))
  text : List (Box (List UInt8))
deriving DecidableEq

/-- `kind as u32`. -/
def WfstKind.value : WfstKind → Nat
  | .levenshtein => 0
  | .universalStandard => 1
  | .universalTransposition => 2
  | .universalMergeAndSplit => 3
  | .generalizedStandard => 4
  | .generalizedTransposition => 5
  | .generalizedMergeAndSplit => 6
  | .generalizedPhonetic => 7
  | .fzf => 8

/-- The bytes of a pair, as they are copied into a record. -/
def SubstitutionPair.texts : SubstitutionPair → List UInt8 × List UInt8
  | .bytes source target => ([source], [target])
  | .strings source target => (utf8Bytes source, utf8Bytes target)

/-- The allocations that building a part of the catalog pushes, and the records. -/
structure Built (T : Type) where
  records : List T
  restrictions : List (Box (List DuallityRestrictionV1))
  text : List (Box (List UInt8))

namespace OwnedOptions
variable {S : Type}

def header (T : Type) [Record T] : DuallityRecordHeaderV1 := ⟨Record.size T, configRecordVersion, 0⟩

def wire (value : Nat) (name : String) : Except Rejection Nat :=
  if value ≤ u64Max then .ok value else reject .limitExceeded s!"{name} exceeds the revision-3 wire range"

def algorithmValue : EditAlgorithm → Except Rejection Nat
  | .standard => .ok 0
  | .transposition => .ok 1
  | .mergeAndSplit => .ok 2
  | .damerauLevenshtein => .ok 3
  | .unrecognized => reject .invalidArgument "unrecognized edit algorithm cannot be inspected by revision 3"

def limitsRecord (value : GeneralizedWfstLimits) : Except Rejection DuallityGeneralizedLimitsV1 := do
  let maxQueryBytes ← wire value.maxQueryBytes "max_query_bytes"
  let maxQueryScalars ← wire value.maxQueryScalars "max_query_scalars"
  let maxOperationSourceScalars ← wire value.maxOperationSourceScalars "max_operation_source_scalars"
  let maxOperationQueryScalars ← wire value.maxOperationQueryScalars "max_operation_query_scalars"
  let maxRetainedDictionaryNodes ← wire value.maxRetainedDictionaryNodes "max_retained_dictionary_nodes"
  let maxRetainedWfstStates ← wire value.maxRetainedWfstStates "max_retained_wfst_states"
  let maxPathsPerExpansion ← wire value.maxPathsPerExpansion "max_paths_per_expansion"
  let maxWorkUnitsPerExpansion ← wire value.maxWorkUnitsPerExpansion "max_work_units_per_expansion"
  return ⟨header DuallityGeneralizedLimitsV1, maxQueryBytes, maxQueryScalars, maxOperationSourceScalars,
    maxOperationQueryScalars, maxRetainedDictionaryNodes, maxRetainedWfstStates, maxPathsPerExpansion,
    maxWorkUnitsPerExpansion, (0, 0)⟩

/-- The records of the restriction pairs of operation `index`, from `pairIndex` on. -/
def buildRestrictions (alloc : Allocator) (index : Nat) :
    Nat → List SubstitutionPair → Except Rejection (Built DuallityRestrictionV1)
  | _, [] => .ok ⟨[], [], []⟩
  | pairIndex, pair :: pairs => do
    let source := pair.texts.1
    let target := pair.texts.2
    let sourceLen ← wire source.length "restriction source length"
    let targetLen ← wire target.length "restriction target length"
    let rest ← buildRestrictions alloc index (pairIndex + 1) pairs
    let sourceData := alloc.source index pairIndex
    let targetData := alloc.target index pairIndex
    return ⟨⟨header DuallityRestrictionV1, sourceData, sourceLen, targetData, targetLen, (0, 0)⟩ :: rest.records, [],
      ⟨sourceData, source⟩ :: ⟨targetData, target⟩ :: rest.text⟩

/-- The record of an operation, with an empty view of its restrictions. -/
def plainOperation (alloc : Allocator) (index : Nat) (operation : OwnedOperationType S) (applicability : Nat) :
    Except Rejection (Built DuallityOperationV1) := do
  let name := utf8Bytes operation.name
  let consumeX ← wire operation.consumeX "consume_x"
  let consumeY ← wire operation.consumeY "consume_y"
  let nameLen ← wire name.length "operation name length"
  return ⟨[⟨header DuallityOperationV1, consumeX, consumeY, operation.weight, applicability, 0, alloc.name index, nameLen,
    0, 0, 0, (0, 0)⟩], [], [⟨alloc.name index, name⟩]⟩

def buildOperation (lib : SubstitutionLibrary S) (alloc : Allocator) (index : Nat) (operation : OwnedOperationType S) :
    Except Rejection (Built DuallityOperationV1) :=
  match operation.applicability with
  | .any => plainOperation alloc index operation 0
  | .equal => plainOperation alloc index operation 1
  | .adjacentTranspose => plainOperation alloc index operation 2
  | .listed set => do
    let name := utf8Bytes operation.name
    let listed ← buildRestrictions alloc index 0 (lib.pairs set)
    let count ← wire listed.records.length "restriction count"
    let consumeX ← wire operation.consumeX "consume_x"
    let consumeY ← wire operation.consumeY "consume_y"
    let nameLen ← wire name.length "operation name length"
    let restrictions := alloc.restrictions index
    return ⟨[⟨header DuallityOperationV1, consumeX, consumeY, operation.weight, 3, 0, alloc.name index, nameLen,
      restrictions, count, Record.size DuallityRestrictionV1, (0, 0)⟩], [⟨restrictions, listed.records⟩],
      ⟨alloc.name index, name⟩ :: listed.text⟩

/-- The records of the operations from `index` on. -/
def buildOperations (lib : SubstitutionLibrary S) (alloc : Allocator) :
    Nat → List (OwnedOperationType S) → Except Rejection (Built DuallityOperationV1)
  | _, [] => .ok ⟨[], [], []⟩
  | index, operation :: operations => do
    let first ← buildOperation lib alloc index operation
    let rest ← buildOperations lib alloc (index + 1) operations
    return ⟨first.records ++ rest.records, first.restrictions ++ rest.restrictions, first.text ++ rest.text⟩

def build (lib : SubstitutionLibrary S) (alloc : Allocator) (kind : WfstKind) (algorithm : EditAlgorithm)
    (maximumDistance : Nat) (limits : Option GeneralizedWfstLimits)
    (operations : Option (List (OwnedOperationType S))) : Except Rejection OwnedOptions := do
  let limits ← buildLimits limits
  let built ← buildOperations lib alloc 0 (operations.getD [])
  let operationCount ← wire built.records.length "operation count"
  let algorithm ← algorithmField
  let maximumDistance ← maximumDistanceField
  let record : DuallityWfstOptionsV1 := ⟨header DuallityWfstOptionsV1, kind.value, algorithm, maximumDistance, 0, 0, 0,
    limits.elim 0 Box.address, if operationCount = 0 then 0 else alloc.operations, operationCount,
    if operationCount = 0 then 0 else Record.size DuallityOperationV1, (0, 0)⟩
  return ⟨kind, record, limits, ⟨alloc.operations, built.records⟩, built.restrictions, built.text⟩
where
  buildLimits : Option GeneralizedWfstLimits → Except Rejection (Option (Box DuallityGeneralizedLimitsV1))
    | none => .ok none
    | some limits => do
      let record ← limitsRecord limits
      return some ⟨alloc.limits, record⟩
  algorithmField : Except Rejection Nat := if kind = .levenshtein then algorithmValue algorithm else .ok 0
  maximumDistanceField : Except Rejection Nat := if kind = .fzf then .ok 0 else wire maximumDistance "maximum distance"

def fromParsed (lib : SubstitutionLibrary S) (alloc : Allocator) (parsed : ParsedOptions S) :
    Except Rejection OwnedOptions :=
  build lib alloc parsed.kind parsed.algorithm parsed.maximumDistance parsed.limits parsed.operations

/-- The selector and capacity of the provider cache of a resource (`ffi/cache.rs`). -/
def effectivePolicy : Option SharedCachePolicy → Except Rejection (Nat × Nat)
  | none => reject .incompatibleResource "duallity resource has no provider cache"
  | some .cacheAll => .ok (0, 0)
  | some .noCache => .ok (1, 0)
  | some (.lru capacity) => .ok (2, min (capacity : Nat) u64Max)

/-- Copy the record with the policy of the resource's cache. -/
def readback (options : OwnedOptions) (resource : Option SharedCachePolicy) : Except Rejection DuallityWfstOptionsV1 := do
  let (policy, capacity) ← effectivePolicy resource
  return { options.record with cachePolicy := policy, cacheCapacity := capacity }

/-- A memory in which every allocation of the view is live. -/
structure Resident (memory : Memory) (options : OwnedOptions) : Prop where
  limits : ∀ box ∈ options.limits, box.Shows memory
  operations : options.operations.ShowsAll memory
  restrictions : ∀ box ∈ options.restrictions, box.ShowsAll memory
  text : ∀ box ∈ options.text, box.ShowsText memory

end OwnedOptions

end Duallity
