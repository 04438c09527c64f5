import Duallity.Ffi.Records
import Duallity.Generalized.Expansion
import Duallity.Universal.Relation
import Mathlib.Data.PNat.Basic

/-! Owned validation of a caller's options (`ffi/config.rs`). Operations and their restriction pairs are decoded one record
    after the other, with running totals of text, pairs and consumed widths, and what is read of the caller's memory is
    logged. -/

namespace Duallity

/-! ### Kinds, algorithms and policies -/

inductive WfstKind
  | levenshtein
  | universalStandard
  | universalTransposition
  | universalMergeAndSplit
  | generalizedStandard
  | generalizedTransposition
  | generalizedMergeAndSplit
  | generalizedPhonetic
  | fzf
deriving DecidableEq, Repr

/-- `Algorithm` of `liblevenshtein`, a non-exhaustive enumeration. -/
inductive EditAlgorithm
  | standard
  | transposition
  | mergeAndSplit
  | damerauLevenshtein
  | unrecognized
deriving DecidableEq, Repr

inductive RequestedCachePolicy
  | cacheAll
  | noCache
  | lru (capacity : Nat)
deriving DecidableEq, Repr

/-- The policies of the exported provider cache. -/
inductive SharedCachePolicy
  | cacheAll
  | noCache
  | lru (capacity : ℕ+)
deriving DecidableEq

namespace RequestedCachePolicy

/-- A zero capacity is a heuristic that depends on the kind. -/
def effective (policy : RequestedCachePolicy) (kind : WfstKind) : SharedCachePolicy :=
  match policy with
  | .cacheAll => .cacheAll
  | .noCache => .noCache
  | .lru 0 => if kind = .fzf then .noCache else .lru 100000
  | .lru (capacity + 1) => .lru capacity.succPNat

end RequestedCachePolicy

def WfstKind.generalized (kind : WfstKind) : Bool :=
  match kind with
  | .generalizedStandard | .generalizedTransposition | .generalizedMergeAndSplit | .generalizedPhonetic => true
  | _ => false

/-! ### Operations -/

inductive SubstitutionPair
  | bytes (source target : UInt8)
  | strings (source target : String)
deriving DecidableEq

/-- An operation that owns its name. -/
structure OwnedOperationType (S : Type) where
  consumeX : Nat
  consumeY : Nat
  weight : F64
  applicability : OperationApplicability S
  name : String
deriving DecidableEq

/-- What parsing and inspection call on `liblevenshtein`; `S` are its substitution sets. -/
structure SubstitutionLibrary (S : Type) where
  withCapacity : Nat → S
  allowStr : S → String → String → S
  pairs : S → List SubstitutionPair
  validate : List (OwnedOperationType S) → Except String Unit

structure ParsedOptions (S : Type) where
  kind : WfstKind
  algorithm : EditAlgorithm
  maximumDistance : Nat
  cachePolicy : RequestedCachePolicy
  limits : Option GeneralizedWfstLimits
  operations : Option (List (OwnedOperationType S))
deriving DecidableEq

/-- The totals over the operations decoded so far, and the operations. -/
structure OperationProgress (S : Type) where
  totalTextBytes : Nat
  totalPairs : Nat
  totalConsumption : Nat
  operations : List (OwnedOperationType S)

namespace Config
variable {S : Type}

def kind : Nat → Except Rejection WfstKind
  | 0 => .ok .levenshtein
  | 1 => .ok .universalStandard
  | 2 => .ok .universalTransposition
  | 3 => .ok .universalMergeAndSplit
  | 4 => .ok .generalizedStandard
  | 5 => .ok .generalizedTransposition
  | 6 => .ok .generalizedMergeAndSplit
  | 7 => .ok .generalizedPhonetic
  | 8 => .ok .fzf
  | _ => reject .invalidArgument "unknown duallity WFST kind"

def algorithm : Nat → Except Rejection EditAlgorithm
  | 0 => .ok .standard
  | 1 => .ok .transposition
  | 2 => .ok .mergeAndSplit
  | 3 => .ok .damerauLevenshtein
  | _ => reject .invalidArgument "unknown edit algorithm"

def decodeLimits (raw : DuallityGeneralizedLimitsV1) : Except Rejection GeneralizedWfstLimits := do
  rejectIf (raw.reserved ≠ (0, 0)) .invalidArgument "limits reserved fields are nonzero"
  let maxQueryBytes ← integer raw.maxQueryBytes "max_query_bytes"
  let maxQueryScalars ← integer raw.maxQueryScalars "max_query_scalars"
  let maxOperationSourceScalars ← integer raw.maxOperationSourceScalars "max_operation_source_scalars"
  let maxOperationQueryScalars ← integer raw.maxOperationQueryScalars "max_operation_query_scalars"
  let maxRetainedDictionaryNodes ← integer raw.maxRetainedDictionaryNodes "max_retained_dictionary_nodes"
  let maxRetainedWfstStates ← integer raw.maxRetainedWfstStates "max_retained_wfst_states"
  let maxPathsPerExpansion ← integer raw.maxPathsPerExpansion "max_paths_per_expansion"
  let maxWorkUnitsPerExpansion ← integer raw.maxWorkUnitsPerExpansion "max_work_units_per_expansion"
  rejectIf (maxRetainedDictionaryNodes = 0 ∨ maxRetainedWfstStates = 0) .invalidArgument
    "retained node and state limits must be at least one"
  return ⟨maxQueryBytes, maxQueryScalars, maxOperationSourceScalars, maxOperationQueryScalars, maxRetainedDictionaryNodes,
    maxRetainedWfstStates, maxPathsPerExpansion, maxWorkUnitsPerExpansion⟩

def cachePolicy (policy capacity : Nat) : Except Rejection RequestedCachePolicy :=
  match policy with
  | 0 => if capacity = 0 then .ok .cacheAll else nonzeroCapacity
  | 1 => if capacity = 0 then .ok .noCache else nonzeroCapacity
  | 2 => do
    let capacity ← integer capacity "cache capacity"
    return .lru capacity
  | _ => reject .invalidArgument "unknown cache policy"
where
  nonzeroCapacity : Except Rejection RequestedCachePolicy :=
    reject .invalidArgument "non-LRU cache policy requires zero capacity"

/-- Validation of a set of `count` operations; an empty one is not validated. -/
def validateOperations (lib : SubstitutionLibrary S) (count : Nat) (operations : List (OwnedOperationType S)) :
    Except Rejection Unit :=
  if count > 0 then
    match lib.validate operations with
    | .ok () => .ok ()
    | .error error => reject .invalidArgument s!"invalid custom operation set: {error}"
  else .ok ()

end Config

/-! ### Parsing -/

namespace Access
open Traced
variable {S : Type}

/-- One restriction pair: the set with it, and the total of custom text. -/
def parseRestriction (lib : SubstitutionLibrary S) (memory : Memory) (operation : DuallityOperationV1)
    (consumeX consumeY : Nat) (progress : S × Nat) (pairIndex : Nat) : Traced Access Rejection (S × Nat) := do
  let base ← arrayElement operation.restrictions pairIndex operation.restrictionStride
  let pair : DuallityRestrictionV1 ← record memory base "restriction" operation.restrictionStride
  rejectIf (pair.reserved ≠ (0, 0)) .invalidArgument "restriction reserved fields are nonzero"
  let source ← utf8 memory pair.sourceData pair.sourceLen "restriction source" progress.2
  let target ← utf8 memory pair.targetData pair.targetLen "restriction target" source.2
  rejectIf (source.1.length ≠ consumeX ∨ target.1.length ≠ consumeY) .invalidArgument
    "restriction scalar lengths disagree with operation arity"
  return (lib.allowStr progress.1 source.1 target.1, target.2)

/-- The applicability of an operation, and the total of custom text with its pairs. -/
def parseApplicability (lib : SubstitutionLibrary S) (memory : Memory) (operation : DuallityOperationV1) (index : Nat)
    (consumeX consumeY pairCount totalTextBytes : Nat) : Traced Access Rejection (OperationApplicability S × Nat) :=
  if operation.applicability = 0 ∧ pairCount = 0 then return (.any, totalTextBytes)
  else if operation.applicability = 1 ∧ pairCount = 0 ∧ consumeX = consumeY then return (.equal, totalTextBytes)
  else if operation.applicability = 2 ∧ pairCount = 0 ∧ consumeX = 2 ∧ consumeY = 2 then
    return (.adjacentTranspose, totalTextBytes)
  else if operation.applicability = 3 ∧ pairCount > 0 then do
    let parsed ← (List.range' 0 pairCount).foldlM (parseRestriction lib memory operation consumeX consumeY)
      (lib.withCapacity pairCount, totalTextBytes)
    return (.listed parsed.1, parsed.2)
  else reject .invalidArgument s!"operation {index} has incompatible applicability/restrictions"

def parseOperation (lib : SubstitutionLibrary S) (memory : Memory) (operations : Pointer) (operationStride : Nat)
    (progress : OperationProgress S) (index : Nat) : Traced Access Rejection (OperationProgress S) := do
  let base ← arrayElement operations index operationStride
  let operation : DuallityOperationV1 ← record memory base "operation" operationStride
  rejectIf (operation.reservedZero ≠ 0 ∨ operation.reserved ≠ (0, 0)) .invalidArgument
    s!"operation {index} has nonzero reserved fields"
  let consumeX ← integer operation.consumeX "consume_x"
  let consumeY ← integer operation.consumeY "consume_y"
  let consumed ← okOrReject (checkedAdd usizeMax consumeX consumeY) .limitExceeded "operation arity overflows"
  let totalConsumption ← okOrReject (checkedAdd usizeMax progress.totalConsumption consumed) .limitExceeded
    "operation grammar width overflows"
  rejectIf (totalConsumption > configMaxOperations) .limitExceeded "operation grammar width exceeds 4096 scalars"
  rejectIf (consumed = 0 ∨ ¬operation.weight.isFinite ∨ operation.weight.isNegative) .invalidArgument
    s!"operation {index} has no progress or invalid weight"
  rejectIf (operation.weight.isZero ∧ consumeX ≠ consumeY) .invalidArgument
    s!"operation {index} has a zero-cost length change"
  let name ← utf8 memory operation.nameData operation.nameLen "operation name" progress.totalTextBytes
  rejectIf ((utf8Bytes name.1).length > 1024 ∨ 0 ∈ utf8Bytes name.1) .invalidArgument
    s!"operation {index} name is too long or contains NUL"
  let pairCount ← arrayShape (Record.size DuallityRestrictionV1) operation.restrictions operation.restrictionCount
    operation.restrictionStride configMaxRestrictionPairs "restrictions"
  let totalPairs ← okOrReject (checkedAdd usizeMax progress.totalPairs pairCount) .limitExceeded
    "restriction count overflows"
  rejectIf (totalPairs > configMaxRestrictionPairs) .limitExceeded "restriction count exceeds 4096"
  let applicability ← parseApplicability lib memory operation index consumeX consumeY pairCount name.2
  return ⟨applicability.2, totalPairs, totalConsumption,
    progress.operations ++ [⟨consumeX, consumeY, operation.weight, applicability.1, name.1⟩]⟩

def parseLimits (memory : Memory) (limits : Pointer) : Traced Access Rejection (Option GeneralizedWfstLimits) :=
  if limits = 0 then return none
  else do
    let raw ← record memory limits "limits" configMaxRecordBytes
    let limits ← Config.decodeLimits raw
    return some limits

/-- Decode a caller's records into owned data. -/
def parseOptions (lib : SubstitutionLibrary S) (memory : Memory) (pointer : Pointer) :
    Traced Access Rejection (ParsedOptions S) := do
  let raw : DuallityWfstOptionsV1 ← record memory pointer "options" configMaxRecordBytes
  rejectIf (raw.reservedZero ≠ 0 ∨ raw.reserved ≠ (0, 0)) .invalidArgument "options reserved fields are nonzero"
  let kind ← Config.kind raw.kind
  let algorithm ← Config.algorithm raw.algorithm
  let maximumDistance ← integer raw.maximumDistance "maximum distance"
  let cachePolicy ← Config.cachePolicy raw.cachePolicy raw.cacheCapacity
  rejectIf (kind ≠ .levenshtein ∧ raw.algorithm ≠ 0) .invalidArgument
    "this WFST kind requires the standard algorithm sentinel"
  rejectIf (kind = .fzf ∧ maximumDistance ≠ 0) .invalidArgument "FZF requires a zero maximum-distance sentinel"
  rejectIf (kind ≠ .levenshtein ∧ kind ≠ .fzf ∧ maximumDistance > UniversalLevenshteinStateSource.u8Max) .invalidArgument
    "universal/generalized maximum distance must fit u8"
  rejectIf (¬kind.generalized ∧ (raw.limits ≠ 0 ∨ raw.operationCount ≠ 0)) .invalidArgument
    "only generalized kinds accept limits or custom operations"
  let limits ← parseLimits memory raw.limits
  let count ← arrayShape (Record.size DuallityOperationV1) raw.operations raw.operationCount raw.operationStride
    configMaxOperations "operations"
  let progress ← (List.range' 0 count).foldlM (parseOperation lib memory raw.operations raw.operationStride)
    ⟨0, 0, 0, []⟩
  Config.validateOperations lib count progress.operations
  return ⟨kind, algorithm, maximumDistance, cachePolicy, limits, if count > 0 then some progress.operations else none⟩

end Access

/-! ### Parsing without its log -/

namespace Config
variable {S : Type}

def parseRestriction (lib : SubstitutionLibrary S) (memory : Memory) (operation : DuallityOperationV1)
    (consumeX consumeY : Nat) (progress : S × Nat) (pairIndex : Nat) : Except Rejection (S × Nat) :=
  (Access.parseRestriction lib memory operation consumeX consumeY progress pairIndex).result

def parseApplicability (lib : SubstitutionLibrary S) (memory : Memory) (operation : DuallityOperationV1) (index : Nat)
    (consumeX consumeY pairCount totalTextBytes : Nat) : Except Rejection (OperationApplicability S × Nat) :=
  (Access.parseApplicability lib memory operation index consumeX consumeY pairCount totalTextBytes).result

def parseOperation (lib : SubstitutionLibrary S) (memory : Memory) (operations : Pointer) (operationStride : Nat)
    (progress : OperationProgress S) (index : Nat) : Except Rejection (OperationProgress S) :=
  (Access.parseOperation lib memory operations operationStride progress index).result

def parseLimits (memory : Memory) (limits : Pointer) : Except Rejection (Option GeneralizedWfstLimits) :=
  (Access.parseLimits memory limits).result

def parseOptions (lib : SubstitutionLibrary S) (memory : Memory) (pointer : Pointer) : Except Rejection (ParsedOptions S) :=
  (Access.parseOptions lib memory pointer).result

end Config

namespace Access
variable {S : Type} {lib : SubstitutionLibrary S} {memory : Memory}

@[simp] theorem result_parseRestriction {operation : DuallityOperationV1} {consumeX consumeY pairIndex : Nat} {progress : S × Nat} :
    (parseRestriction lib memory operation consumeX consumeY progress pairIndex).result =
      Config.parseRestriction lib memory operation consumeX consumeY progress pairIndex := rfl

@[simp] theorem result_parseApplicability {operation : DuallityOperationV1} {index consumeX consumeY pairCount totalTextBytes : Nat} :
    (parseApplicability lib memory operation index consumeX consumeY pairCount totalTextBytes).result =
      Config.parseApplicability lib memory operation index consumeX consumeY pairCount totalTextBytes := rfl

@[simp] theorem result_parseOperation {operations : Pointer} {stride index : Nat} {progress : OperationProgress S} :
    (parseOperation lib memory operations stride progress index).result =
      Config.parseOperation lib memory operations stride progress index := rfl

@[simp] theorem result_parseLimits {limits : Pointer} : (parseLimits memory limits).result = Config.parseLimits memory limits := rfl

end Access

end Duallity
