import Duallity.Ffi.Status
import Duallity.Lib.Traced
import Duallity.StateEncoding

/-! The records of the C boundary and the checked reads of a caller's memory (`ffi/config.rs`): a record is read after its
    header, an array after its shape, a text after its length and with a running total. Whatever is read is logged. -/

namespace Duallity

def configRecordVersion : Nat := 1
def configMaxRecordBytes : Nat := 4096
def configMaxOperations : Nat := 4096
def configMaxRestrictionPairs : Nat := 4096
def configMaxCustomTextBytes : Nat := 1048576

def isizeMax : Nat := 9223372036854775807

/-- An address; 0 is null. -/
abbrev Pointer := Nat

/-- The `align_of` of every record, which has a `u64` field. -/
def recordAlign : Nat := 8

/-- An `f64` as its bits. -/
structure F64 where
  bits : BitVec 64
deriving DecidableEq

namespace F64

/-- Exponent and significand: everything but the sign. -/
def magnitude (weight : F64) : Nat := weight.bits.toNat % 9223372036854775808

def infinity : Nat := 9218868437227405312

def isFinite (weight : F64) : Bool := weight.magnitude < infinity

/-- `weight < 0.0`, which holds neither of `-0.0` nor of a NaN. -/
def isNegative (weight : F64) : Bool :=
  9223372036854775808 ≤ weight.bits.toNat ∧ 0 < weight.magnitude ∧ weight.magnitude ≤ infinity

/-- `weight == 0.0`, of either sign. -/
def isZero (weight : F64) : Bool := weight.magnitude = 0

end F64

/-! ### Records -/

structure DuallityRecordHeaderV1 where
  structSize : Nat
  recordVersion : Nat
  reserved : Nat
deriving DecidableEq

structure DuallityRestrictionV1 where
  header : DuallityRecordHeaderV1
  sourceData : Pointer
  sourceLen : Nat
  targetData : Pointer
  targetLen : Nat
  reserved : Nat × Nat
deriving DecidableEq

structure DuallityOperationV1 where
  header : DuallityRecordHeaderV1
  consumeX : Nat
  consumeY : Nat
  weight : F64
  applicability : Nat
  reservedZero : Nat
  nameData : Pointer
  nameLen : Nat
  restrictions : Pointer
  restrictionCount : Nat
  restrictionStride : Nat
  reserved : Nat × Nat
deriving DecidableEq

structure DuallityGeneralizedLimitsV1 where
  header : DuallityRecordHeaderV1
  maxQueryBytes : Nat
  maxQueryScalars : Nat
  maxOperationSourceScalars : Nat
  maxOperationQueryScalars : Nat
  maxRetainedDictionaryNodes : Nat
  maxRetainedWfstStates : Nat
  maxPathsPerExpansion : Nat
  maxWorkUnitsPerExpansion : Nat
  reserved : Nat × Nat
deriving DecidableEq

structure DuallityWfstOptionsV1 where
  header : DuallityRecordHeaderV1
  kind : Nat
  algorithm : Nat
  maximumDistance : Nat
  cachePolicy : Nat
  reservedZero : Nat
  cacheCapacity : Nat
  limits : Pointer
  operations : Pointer
  operationCount : Nat
  operationStride : Nat
  reserved : Nat × Nat
deriving DecidableEq

/-- What a typed read finds at an address. -/
structure Memory where
  byte : Pointer → UInt8
  restriction : Pointer → DuallityRestrictionV1
  operation : Pointer → DuallityOperationV1
  limits : Pointer → DuallityGeneralizedLimitsV1
  options : Pointer → DuallityWfstOptionsV1

/-- A `repr(C)` record: its `size_of` on a 64-bit host, its header, and its typed read. -/
class Record (T : Type) where
  size : Nat
  header : T → DuallityRecordHeaderV1
  read : Memory → Pointer → T

instance : Record DuallityRestrictionV1 := ⟨64, DuallityRestrictionV1.header, Memory.restriction⟩
instance : Record DuallityOperationV1 := ⟨104, DuallityOperationV1.header, Memory.operation⟩
instance : Record DuallityGeneralizedLimitsV1 := ⟨96, DuallityGeneralizedLimitsV1.header, Memory.limits⟩
instance : Record DuallityWfstOptionsV1 := ⟨96, DuallityWfstOptionsV1.header, Memory.options⟩

/-! ### Texts -/

/-- `str::as_bytes`. -/
def utf8Bytes (text : String) : List UInt8 := text.toUTF8.data.toList

/-- `str::from_utf8`. -/
def fromUtf8? (bytes : List UInt8) : Option String := String.fromUTF8? ⟨bytes.toArray⟩

theorem fromUtf8?_eq_some {bytes : List UInt8} {text : String} : fromUtf8? bytes = some text ↔ utf8Bytes text = bytes := by
  have inj : text.toUTF8 = ⟨bytes.toArray⟩ ↔ utf8Bytes text = bytes := by
    constructor
    · intro h
      rw [utf8Bytes, h]
    · intro h
      simp [← h, utf8Bytes]
  rw [← inj, fromUtf8?, String.fromUTF8?]
  split
  · rename_i valid
    simp only [Option.some.injEq, ← String.toByteArray_inj]
    exact eq_comm
  · rename_i invalid
    simp only [false_iff, reduceCtorEq]
    intro h
    exact invalid (h ▸ text.isValidUTF8)

/-! ### Checked reads -/

def integer (value : Nat) (name : String) : Except Rejection Nat :=
  if value ≤ usizeMax then .ok value else reject .limitExceeded s!"{name} does not fit the host address space"

def arrayShape (size : Nat) (pointer : Pointer) (count stride maximum : Nat) (name : String) : Except Rejection Nat :=
  if count = 0 then do
    rejectIf (pointer ≠ 0 ∨ stride ≠ 0) .invalidArgument s!"{name} has a noncanonical empty array"
    return 0
  else do
    rejectIf (pointer = 0) .nullPointer s!"{name} is null with nonzero count"
    let count ← integer count s!"{name} count"
    let stride ← integer stride s!"{name} stride"
    rejectIf (count > maximum) .limitExceeded s!"{name} count exceeds {maximum}"
    rejectIf (stride < size ∨ stride > configMaxRecordBytes ∨ ¬recordAlign ∣ stride ∨ ¬recordAlign ∣ pointer)
      .invalidArgument s!"{name} has an invalid stride or alignment"
    let bytes ← okOrReject (checkedMul usizeMax count stride) .limitExceeded s!"{name} byte extent overflows"
    rejectIf (bytes > isizeMax) .limitExceeded s!"{name} byte extent exceeds isize::MAX"
    return count

def Memory.bytes (memory : Memory) (pointer : Pointer) (length : Nat) : List UInt8 :=
  (List.range length).map fun offset => memory.byte (pointer + offset)

/-- A use of the caller's memory: bytes that are read, or an element that is found by `add(index * stride)`, which nothing
    checks. -/
inductive Access
  | read (pointer : Pointer) (length : Nat)
  | element (base : Pointer) (index stride : Nat)
deriving DecidableEq

namespace Access
open Traced

/-- Whatever is read is read here: the bytes are logged, and `view` is what they show. -/
def load {α : Type} (pointer : Pointer) (length : Nat) (view : Pointer → α) : Traced Access Rejection α := do
  touch (.read pointer length)
  return view pointer

/-- `base.cast::<u8>().add(index * stride)`. -/
def arrayElement (base : Pointer) (index stride : Nat) : Traced Access Rejection Pointer := do
  touch (.element base index stride)
  return base + index * stride

/-- The `size_of` of a record header. -/
def headerBytes : Nat := 16

/-- The bytes of a record past those of its known type. -/
def unknownTail (memory : Memory) (pointer : Pointer) (size known : Nat) : Traced Access Rejection (List UInt8) :=
  if size > known then load (pointer + known) (size - known) (memory.bytes · (size - known)) else return []

def record {T : Type} [Record T] (memory : Memory) (pointer : Pointer) (name : String) (available : Nat) :
    Traced Access Rejection T := do
  rejectIf (pointer = 0) .nullPointer s!"{name} is null"
  rejectIf (¬recordAlign ∣ pointer) .invalidArgument s!"{name} is not aligned"
  let header ← load pointer headerBytes fun pointer => Record.header (Record.read memory pointer : T)
  let size := header.structSize
  let known := Record.size T
  rejectIf (size < known ∨ size > configMaxRecordBytes ∨ size > available) .invalidArgument
    s!"{name} has an unsupported size"
  rejectIf (header.recordVersion ≠ configRecordVersion ∨ header.reserved ≠ 0) .invalidArgument
    s!"{name} has an unsupported version or reserved field"
  let tail ← unknownTail memory pointer size known
  rejectIf (tail.any (· != 0)) .invalidArgument s!"{name} has nonzero unknown trailing bytes"
  load pointer known (Record.read memory)

/-- The text, and the total of custom text with it. -/
def utf8 (memory : Memory) (pointer : Pointer) (length : Nat) (name : String) (totalBytes : Nat) :
    Traced Access Rejection (String × Nat) := do
  let length ← integer length s!"{name} length"
  rejectIf (length = 0) .invalidArgument s!"{name} is empty"
  rejectIf (pointer = 0) .nullPointer s!"{name} is null"
  let totalBytes ← okOrReject (checkedAdd usizeMax totalBytes length) .limitExceeded "custom text byte total overflows"
  rejectIf (totalBytes > configMaxCustomTextBytes) .limitExceeded "custom text byte total exceeds one MiB"
  let bytes ← load pointer length (memory.bytes · length)
  let text ← okOrReject (fromUtf8? bytes) .invalidUtf8 s!"{name} is not valid UTF-8"
  return (text, totalBytes)

end Access

/-- A record, without the log of what was read for it. -/
def record {T : Type} [Record T] (memory : Memory) (pointer : Pointer) (name : String) (available : Nat) : Except Rejection T :=
  (Access.record memory pointer name available).result

def utf8 (memory : Memory) (pointer : Pointer) (length : Nat) (name : String) (totalBytes : Nat) : Except Rejection (String × Nat) :=
  (Access.utf8 memory pointer length name totalBytes).result

/-! ### What a read that goes through has checked -/

section Reads
variable {memory : Memory} {pointer : Pointer} {name : String}

@[simp] theorem integer_eq_ok {value result : Nat} : integer value name = .ok result ↔ value = result ∧ value ≤ usizeMax := by
  unfold integer
  split <;> simp [*]

@[simp] theorem length_bytes {length : Nat} : (memory.bytes pointer length).length = length := by simp [Memory.bytes]

@[simp] theorem any_bytes {length : Nat} :
    (memory.bytes pointer length).any (· != 0) = true ↔ ∃ offset < length, memory.byte (pointer + offset) ≠ 0 := by
  simp [Memory.bytes]

namespace Access

@[simp] theorem result_load {α : Type} {length : Nat} {view : Pointer → α} : (load pointer length view).result = pure (view pointer) := rfl

@[simp] theorem result_arrayElement {base : Pointer} {index stride : Nat} :
    (arrayElement base index stride).result = pure (base + index * stride) := rfl

@[simp] theorem result_unknownTail {size known : Nat} :
    (unknownTail memory pointer size known).result = pure (memory.bytes (pointer + known) (size - known)) := by
  unfold unknownTail
  split
  · rfl
  · rename_i hle
    rw [Nat.sub_eq_zero_of_le (not_lt.mp hle)]
    rfl

@[simp] theorem result_record {T : Type} [Record T] {available : Nat} :
    (record memory pointer name available : Traced Access Rejection T).result = Duallity.record memory pointer name available := rfl

@[simp] theorem result_utf8 {length totalBytes : Nat} :
    (utf8 memory pointer length name totalBytes).result = Duallity.utf8 memory pointer length name totalBytes := rfl

end Access

theorem record_eq_ok {T : Type} [Record T] {available : Nat} {value : T} :
    record memory pointer name available = .ok value ↔
      (pointer ≠ 0 ∧ recordAlign ∣ pointer) ∧ Record.read memory pointer = value ∧
      (Record.size T ≤ (Record.header value).structSize ∧ (Record.header value).structSize ≤ configMaxRecordBytes ∧
        (Record.header value).structSize ≤ available) ∧
      ((Record.header value).recordVersion = configRecordVersion ∧ (Record.header value).reserved = 0) ∧
      ∀ offset < (Record.header value).structSize, Record.size T ≤ offset → memory.byte (pointer + offset) = 0 := by
  simp only [record, Access.record, Traced.result_bind, Traced.result_lift, Access.result_load, Access.result_unknownTail, pure_bind,
    bind_eq_ok, rejectIf_eq_ok, pure_eq_ok, any_bytes]
  constructor
  · rintro ⟨-, h1, -, h2, -, h3, -, h4, -, h5, rfl⟩
    simp only [not_or, not_lt, not_not, not_exists, not_and] at h2 h3 h4 h5
    refine ⟨⟨h1, h2⟩, rfl, h3, h4, ?_⟩
    intro offset hlt hle
    have hzero := h5 (offset - Record.size T) (by omega)
    rwa [Nat.add_assoc, Nat.add_sub_cancel' hle] at hzero
  · rintro ⟨⟨h1, h2⟩, rfl, h3, h4, h5⟩
    refine ⟨(), h1, (), not_not.mpr h2, (), ?_, (), ?_, (), ?_, rfl⟩
    · simpa only [not_or, not_lt]
    · simpa only [not_or, not_not]
    · rintro ⟨offset, hlt, hne⟩
      rw [Nat.add_assoc] at hne
      exact hne (h5 _ (by omega) (Nat.le_add_right _ _))

theorem arrayShape_eq_ok {size count stride maximum result : Nat} :
    arrayShape size pointer count stride maximum name = .ok result ↔
      count = result ∧ (count = 0 → pointer = 0 ∧ stride = 0) ∧
      (count ≠ 0 → (pointer ≠ 0 ∧ recordAlign ∣ pointer) ∧ (count ≤ usizeMax ∧ count ≤ maximum) ∧
        (stride ≤ usizeMax ∧ size ≤ stride ∧ stride ≤ configMaxRecordBytes ∧ recordAlign ∣ stride) ∧
        count * stride ≤ isizeMax) := by
  unfold arrayShape
  split
  · rename_i hcount
    simp [-bind_pure_comp, hcount, and_comm]
  · rename_i hcount
    simp only [bind_eq_ok, rejectIf_eq_ok, integer_eq_ok, okOrReject_eq_ok, pure_eq_ok, checkedMul_eq_some, not_or, not_lt,
      not_not]
    constructor
    · rintro ⟨-, h1, _, ⟨rfl, h2⟩, _, ⟨rfl, h3⟩, -, h4, -, ⟨h5, h6, h7, h8⟩, _, ⟨rfl, h9⟩, -, h10, rfl⟩
      exact ⟨rfl, fun h => (hcount h).elim, fun _ => ⟨⟨h1, h8⟩, ⟨h2, h4⟩, ⟨h3, h5, h6, h7⟩, h10⟩⟩
    · rintro ⟨rfl, -, h⟩
      rcases h hcount with ⟨⟨h1, h8⟩, ⟨h2, h4⟩, ⟨h3, h5, h6, h7⟩, h10⟩
      exact ⟨(), h1, _, ⟨rfl, h2⟩, _, ⟨rfl, h3⟩, (), h4, (), ⟨h5, h6, h7, h8⟩, _, ⟨rfl, h10.trans (by decide)⟩, (), h10, rfl⟩

theorem utf8_eq_ok {length totalBytes : Nat} {result : String × Nat} :
    utf8 memory pointer length name totalBytes = .ok result ↔
      pointer ≠ 0 ∧ (length = (utf8Bytes result.1).length ∧ utf8Bytes result.1 ≠ []) ∧
      (result.2 = totalBytes + length ∧ result.2 ≤ configMaxCustomTextBytes) ∧
      memory.bytes pointer length = utf8Bytes result.1 := by
  rcases result with ⟨text, total⟩
  have hmax : configMaxCustomTextBytes ≤ usizeMax := by decide
  simp only [utf8, Access.utf8, Traced.result_bind, Traced.result_lift, Traced.result_pure, Access.result_load, pure_bind, bind_eq_ok,
    rejectIf_eq_ok, integer_eq_ok, okOrReject_eq_ok, pure_eq_ok, checkedAdd_eq_some, fromUtf8?_eq_some, Prod.mk.injEq, not_lt]
  constructor
  · rintro ⟨_, ⟨rfl, h1⟩, -, h2, -, h3, _, ⟨rfl, h4⟩, -, h5, _, h6, rfl, rfl⟩
    refine ⟨h3, ⟨by simp [h6], fun h => h2 ?_⟩, ⟨rfl, h5⟩, h6.symm⟩
    simpa [h6] using congrArg List.length h
  · rintro ⟨h1, ⟨rfl, h2⟩, ⟨rfl, h3⟩, h4⟩
    have hlen : (utf8Bytes text).length ≤ usizeMax := (Nat.le_add_left _ _).trans (h3.trans hmax)
    exact ⟨_, ⟨rfl, hlen⟩, (), by simpa using h2, (), h1, _, ⟨rfl, h3.trans hmax⟩, (), h3, _, h4.symm, rfl, rfl⟩

end Reads

end Duallity
