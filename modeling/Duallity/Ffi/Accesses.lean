import Duallity.Ffi.RoundTrip

/-! What parsing does with a caller's memory: every read and every unchecked index of `ffi/config.rs` stays inside an extent
    that the records advertise. -/

namespace Duallity
variable {S : Type}

/-! ### Extents -/

section Extents

def AcceptedOptions (memory : Memory) (options : Pointer) (raw : DuallityWfstOptionsV1) : Prop :=
  record memory options "options" configMaxRecordBytes = .ok raw

def AcceptedOperations (memory : Memory) (options : Pointer) (raw : DuallityWfstOptionsV1) (count : Nat) : Prop :=
  AcceptedOptions memory options raw ∧
    arrayShape (Record.size DuallityOperationV1) raw.operations raw.operationCount raw.operationStride configMaxOperations
      "operations" = .ok count

/-- An operation record of the accepted array. -/
def AcceptedOperation (memory : Memory) (options : Pointer) (operation : DuallityOperationV1) : Prop :=
  ∃ raw count, AcceptedOperations memory options raw count ∧ ∃ index < count,
    record memory (raw.operations + index * raw.operationStride) "operation" raw.operationStride = .ok operation

def AcceptedRestrictions (memory : Memory) (options : Pointer) (operation : DuallityOperationV1) (pairCount : Nat) : Prop :=
  AcceptedOperation memory options operation ∧
    arrayShape (Record.size DuallityRestrictionV1) operation.restrictions operation.restrictionCount
      operation.restrictionStride configMaxRestrictionPairs "restrictions" = .ok pairCount

/-- A restriction record of an accepted array. -/
def AcceptedRestriction (memory : Memory) (options : Pointer) (pair : DuallityRestrictionV1) : Prop :=
  ∃ operation pairCount, AcceptedRestrictions memory options operation pairCount ∧ ∃ pairIndex < pairCount,
    record memory (operation.restrictions + pairIndex * operation.restrictionStride) "restriction"
      operation.restrictionStride = .ok pair

/-- The start and the size of a readable extent. A record that is not in an array has at least `least` bytes, whatever it
    advertises; the records in an array are covered by the extent of the array. -/
inductive Extent (least : Nat) (memory : Memory) (options : Pointer) : Pointer → Nat → Prop
  | options : options ≠ 0 → Extent least memory options options (max least (memory.options options).header.structSize)
  | limits {raw : DuallityWfstOptionsV1} : AcceptedOptions memory options raw → raw.limits ≠ 0 →
      Extent least memory options raw.limits (max least (memory.limits raw.limits).header.structSize)
  | operations {raw : DuallityWfstOptionsV1} {count : Nat} : AcceptedOperations memory options raw count →
      Extent least memory options raw.operations (count * raw.operationStride)
  | name {operation : DuallityOperationV1} : AcceptedOperation memory options operation →
      Extent least memory options operation.nameData operation.nameLen
  | restrictions {operation : DuallityOperationV1} {pairCount : Nat} :
      AcceptedRestrictions memory options operation pairCount →
      Extent least memory options operation.restrictions (pairCount * operation.restrictionStride)
  | source {pair : DuallityRestrictionV1} : AcceptedRestriction memory options pair →
      Extent least memory options pair.sourceData pair.sourceLen
  | target {pair : DuallityRestrictionV1} : AcceptedRestriction memory options pair →
      Extent least memory options pair.targetData pair.targetLen

/-- Every byte that is read is in an extent. An element starts inside the extent of its array. -/
def Safe (least : Nat) (memory : Memory) (options : Pointer) : Access → Prop
  | .read pointer length => length ≤ isizeMax ∧ ∀ address, pointer ≤ address → address < pointer + length →
      ∃ start size, Extent least memory options start size ∧ start ≤ address ∧ address < start + size
  | .element base index stride => index * stride ≤ isizeMax ∧
      ∃ size, Extent least memory options base size ∧ index * stride < size

end Extents

/-! ### What each part touches -/

namespace Access
open Traced

section Touched
variable {lib : SubstitutionLibrary S} {least : Nat} {memory : Memory} {options : Pointer}

theorem safe_read {start size offset length : Nat} (h : Extent least memory options start size) (hle : offset + length ≤ size)
    (hmax : length ≤ isizeMax) : Safe least memory options (.read (start + offset) length) :=
  ⟨hmax, fun _ hge hlt => ⟨start, size, h, (Nat.le_add_right _ _).trans hge,
    hlt.trans_le ((Nat.add_assoc ..).trans_le (Nat.add_le_add_left hle start))⟩⟩

theorem safe_read_start {start size length : Nat} (h : Extent least memory options start size) (hle : length ≤ size)
    (hmax : length ≤ isizeMax) : Safe least memory options (.read start length) :=
  safe_read h ((Nat.zero_add length).trans_le hle) hmax

theorem touches_load {α : Type} {p : Access → Prop} {pointer length : Nat} {view : Pointer → α} (h : p (.read pointer length)) :
    Touches p (load pointer length view) := .bind (.touch h) fun _ _ => .pure

theorem touches_record {T : Type} [Record T] {p : Access → Prop} {pointer available : Nat} {name : String}
    (hheader : pointer ≠ 0 → p (.read pointer headerBytes))
    (hbody : pointer ≠ 0 → ∀ offset length, offset + length ≤ (Record.header (Record.read memory pointer : T)).structSize →
      (Record.header (Record.read memory pointer : T)).structSize ≤ min configMaxRecordBytes available →
      p (.read (pointer + offset) length)) :
    Touches p (record memory pointer name available : Traced Access Rejection T) := by
  unfold record
  refine .bind .lift fun _ hnull => .bind .lift fun _ _ => ?_
  have hnonnull : pointer ≠ 0 := rejectIf_eq_ok.mp hnull
  refine .bind (touches_load (hheader hnonnull)) fun header hread => .bind .lift fun _ hsize => .bind .lift fun _ _ => ?_
  obtain rfl : Record.header (Record.read memory pointer : T) = header := pure_eq_ok.mp hread
  obtain ⟨hknown, hmax, havailable⟩ : Record.size T ≤ _ ∧ _ ≤ configMaxRecordBytes ∧ _ ≤ available := by
    simpa using rejectIf_eq_ok.mp hsize
  have hbody := fun offset length hle => hbody hnonnull offset length hle (le_min hmax havailable)
  have htail : Touches p (unknownTail memory pointer _ (Record.size T)) :=
    .ite (fun _ => touches_load (hbody _ _ (Nat.add_sub_cancel' hknown).le)) fun _ => .pure
  exact .bind htail fun _ _ => .bind .lift fun _ _ => touches_load (hbody 0 _ ((Nat.zero_add _).trans_le hknown))

/-- A record that is not in an array. -/
theorem touches_header {T : Type} [Record T] {pointer : Pointer} {name : String} (hleast : headerBytes ≤ least)
    (h : pointer ≠ 0 →
      Extent least memory options pointer (max least (Record.header (Record.read memory pointer : T)).structSize)) :
    Touches (Safe least memory options) (record memory pointer name configMaxRecordBytes : Traced Access Rejection T) := by
  have hword : configMaxRecordBytes ≤ isizeMax ∧ headerBytes ≤ isizeMax := by decide
  refine touches_record (fun hnonnull => ?_) fun hnonnull offset length hle hmax => ?_
  · exact safe_read_start (h hnonnull) (by omega) hword.2
  · exact safe_read (h hnonnull) (by omega) (by omega)

section Array
variable {T : Type} [Record T] {base : Pointer} {given count stride maximum index : Nat} {name : String}

theorem touches_arrayElement (h : Extent least memory options base (count * stride))
    (hshape : arrayShape (Record.size T) base given stride maximum name = .ok count) (hsize : headerBytes ≤ Record.size T)
    (hindex : index < count) : Touches (Safe least memory options) (arrayElement base index stride) := by
  obtain ⟨rfl, -, hfull⟩ := arrayShape_eq_ok.mp hshape
  obtain ⟨-, -, ⟨-, hstride, -, -⟩, hextent⟩ := hfull (by omega)
  have hpos : 0 < headerBytes := by decide
  have hlt : index * stride < given * stride := Nat.mul_lt_mul_of_pos_right hindex (by omega)
  exact .bind (.touch ⟨by omega, _, h, hlt⟩) fun _ _ => .pure

/-- A record in an array: its own size is no larger than the stride. -/
theorem touches_element (h : Extent least memory options base (count * stride))
    (hshape : arrayShape (Record.size T) base given stride maximum name = .ok count) (hsize : headerBytes ≤ Record.size T)
    (hindex : index < count) (name' : String) :
    Touches (Safe least memory options) (record memory (base + index * stride) name' stride : Traced Access Rejection T) := by
  obtain ⟨rfl, -, hfull⟩ := arrayShape_eq_ok.mp hshape
  obtain ⟨-, -, ⟨-, hstride, -, -⟩, hextent⟩ := hfull (by omega)
  have hlast : index * stride + stride ≤ given * stride := by
    rw [← Nat.succ_mul]
    exact Nat.mul_le_mul_right stride hindex
  have hinside : ∀ offset length, offset + length ≤ stride →
      Safe least memory options (.read (base + index * stride + offset) length) := by
    intro offset length hle
    rw [Nat.add_assoc]
    exact safe_read h (by omega) (by omega)
  exact touches_record (fun _ => hinside 0 _ (by omega)) fun _ offset length hle hmax => hinside offset length (by omega)

end Array

theorem touches_utf8 {pointer : Pointer} {length totalBytes : Nat} {name : String}
    (h : Extent least memory options pointer length) :
    Touches (Safe least memory options) (utf8 memory pointer length name totalBytes) := by
  unfold utf8
  refine .bind .lift fun length' hlength => .bind .lift fun _ _ => .bind .lift fun _ _ => .bind .lift fun total htotal =>
    .bind .lift fun _ hmax => ?_
  obtain ⟨rfl, -⟩ : length = length' ∧ length ≤ usizeMax := integer_eq_ok.mp hlength
  obtain ⟨htotal, -⟩ := checkedAdd_eq_some.mp (okOrReject_eq_ok.mp htotal)
  have hmax : ¬total > configMaxCustomTextBytes := rejectIf_eq_ok.mp hmax
  have hword : configMaxCustomTextBytes ≤ isizeMax := by decide
  exact .bind (touches_load (safe_read_start h le_rfl (by omega))) fun _ _ => .bind .lift fun _ _ => .pure

theorem touches_parseRestriction {operation : DuallityOperationV1} {pairCount pairIndex consumeX consumeY : Nat} {progress : S × Nat}
    (h : AcceptedRestrictions memory options operation pairCount) (hindex : pairIndex < pairCount) :
    Touches (Safe least memory options) (parseRestriction lib memory operation consumeX consumeY progress pairIndex) := by
  have hsize : headerBytes ≤ Record.size DuallityRestrictionV1 := by decide
  unfold parseRestriction
  refine .bind (touches_arrayElement (.restrictions h) h.2 hsize hindex) fun base hbase => ?_
  obtain rfl : operation.restrictions + pairIndex * operation.restrictionStride = base := pure_eq_ok.mp hbase
  refine .bind (touches_element (.restrictions h) h.2 hsize hindex _) fun pair hpair => .bind .lift fun _ _ => ?_
  have haccepted : AcceptedRestriction memory options pair := ⟨_, _, h, pairIndex, hindex, hpair⟩
  exact .bind (touches_utf8 (.source haccepted)) fun _ _ => .bind (touches_utf8 (.target haccepted)) fun _ _ =>
    .bind .lift fun _ _ => .pure

theorem touches_parseApplicability {operation : DuallityOperationV1} {index consumeX consumeY pairCount totalTextBytes : Nat}
    (h : AcceptedRestrictions memory options operation pairCount) :
    Touches (Safe least memory options)
      (parseApplicability lib memory operation index consumeX consumeY pairCount totalTextBytes) := by
  unfold parseApplicability
  refine .ite (fun _ => .pure) fun _ => .ite (fun _ => .pure) fun _ => .ite (fun _ => .pure) fun _ => .ite (fun _ => ?_) fun _ => .lift
  refine .bind (.foldlM (fun progress pairIndex hmem => touches_parseRestriction h ?_) _) fun _ _ => .pure
  simpa using hmem

theorem touches_parseOperation {raw : DuallityWfstOptionsV1} {count index : Nat} {progress : OperationProgress S}
    (h : AcceptedOperations memory options raw count) (hindex : index < count) :
    Touches (Safe least memory options) (parseOperation lib memory raw.operations raw.operationStride progress index) := by
  have hsize : headerBytes ≤ Record.size DuallityOperationV1 := by decide
  unfold parseOperation
  refine .bind (touches_arrayElement (.operations h) h.2 hsize hindex) fun base hbase => ?_
  obtain rfl : raw.operations + index * raw.operationStride = base := pure_eq_ok.mp hbase
  refine .bind (touches_element (.operations h) h.2 hsize hindex _) fun operation hoperation => ?_
  have haccepted : AcceptedOperation memory options operation :=
    ⟨_, _, h, index, hindex, hoperation⟩
  -- the checks on widths and weight read nothing
  refine .bind .lift fun _ _ => .bind .lift fun _ _ => .bind .lift fun _ _ => .bind .lift fun _ _ => .bind .lift fun _ _ =>
    .bind .lift fun _ _ => .bind .lift fun _ _ => .bind .lift fun _ _ => ?_
  refine .bind (touches_utf8 (.name haccepted)) fun _ _ => .bind .lift fun _ _ => .bind .lift fun pairCount hshape => ?_
  refine .bind .lift fun _ _ => .bind .lift fun _ _ => ?_
  exact .bind (touches_parseApplicability ⟨haccepted, hshape⟩) fun _ _ => .pure

theorem touches_parseLimits {raw : DuallityWfstOptionsV1} (hleast : headerBytes ≤ least)
    (h : AcceptedOptions memory options raw) : Touches (Safe least memory options) (parseLimits memory raw.limits) := by
  unfold parseLimits
  refine .ite (fun _ => .pure) fun _ => ?_
  exact .bind (touches_header hleast fun hnonnull => .limits h hnonnull) fun _ _ => .bind .lift fun _ _ => .pure

theorem touches_parseOptions (hleast : headerBytes ≤ least) :
    Touches (Safe least memory options) (parseOptions lib memory options) := by
  unfold parseOptions
  refine .bind (touches_header hleast .options) fun raw hraw => ?_
  have haccepted : AcceptedOptions memory options raw := hraw
  refine .bind .lift fun _ _ => .bind .lift fun _ _ => .bind .lift fun _ _ => .bind .lift fun _ _ => .bind .lift fun _ _ =>
    .bind .lift fun _ _ => .bind .lift fun _ _ => .bind .lift fun _ _ => .bind .lift fun _ _ => ?_
  refine .bind (touches_parseLimits hleast haccepted) fun _ _ => .bind .lift fun count hshape => ?_
  refine .bind (.foldlM (fun progress index hmem => touches_parseOperation ⟨haccepted, hshape⟩ ?_) _) fun _ _ =>
    .bind .lift fun _ _ => .pure
  simpa using hmem

end Touched

end Access

/-! ### Aggregate bounds -/

namespace OperationProgress

/-- The totals over operations with the pairs that they list. -/
theorem addAll_eq (progress : OperationProgress S) (added : List (OwnedOperationType S × List (String × String))) :
    progress.addAll added =
      ⟨progress.totalTextBytes + (added.map fun entry => (utf8Bytes entry.1.name).length + (entry.2.map pairLength).sum).sum,
        progress.totalPairs + (added.map fun entry => entry.2.length).sum,
        progress.totalConsumption + (added.map fun entry => entry.1.consumeX + entry.1.consumeY).sum,
        progress.operations ++ added.map Prod.fst⟩ := by
  induction added generalizing progress with
  | nil => simp [addAll]
  | cons entry added ih =>
    have := ih (progress.add entry.1 entry.2)
    simpa [addAll, add, Nat.add_assoc] using this

end OperationProgress

open Traced Config in
/-- Parsing logs its accesses beside its result. Every byte that it reads is in an extent that the records advertise, where
    a record has at least the bytes of its header, and no index overflows. Accepted operations fit their own conditions and
    keep the aggregate bounds. -/
theorem parse_stays_inside (lib : SubstitutionLibrary S) (memory : Memory) (pointer : Pointer) :
    (Access.parseOptions lib memory pointer).result = parseOptions lib memory pointer ∧
    Touches (Safe Access.headerBytes memory pointer) (Access.parseOptions lib memory pointer) ∧
    ∀ parsed operations, parseOptions lib memory pointer = .ok parsed → parsed.operations = some operations →
      ∃ added : List (OwnedOperationType S × List (String × String)), operations = added.map Prod.fst ∧
        (∀ entry ∈ added, OperationFits lib entry.1 entry.2) ∧
        (operations.map fun operation => operation.consumeX + operation.consumeY).sum ≤ configMaxOperations ∧
        (added.map fun entry => entry.2.length).sum ≤ configMaxRestrictionPairs ∧
        (added.map fun entry => (utf8Bytes entry.1.name).length + (entry.2.map pairLength).sum).sum ≤
          configMaxCustomTextBytes := by
  refine ⟨rfl, Access.touches_parseOptions le_rfl, ?_⟩
  intro parsed operations hparsed hoperations
  obtain ⟨added, accepted⟩ := OwnedOptions.parseOptions_ok hparsed
  obtain rfl : operations = added.map Prod.fst := by
    rw [accepted.operations] at hoperations
    split at hoperations
    · exact (Option.some.inj hoperations).symm
    · cases hoperations
  obtain ⟨htext, hpairs, hwidth⟩ := accepted.totals
  simp only [OperationProgress.addAll_eq, OperationProgress.zero, Nat.zero_add] at htext hpairs hwidth
  refine ⟨added, rfl, accepted.fits, ?_, hpairs, htext⟩
  rw [List.map_map]
  exact hwidth

open OwnedOptions Config in
theorem parse_stays_inside_catalog :
    parseOptions pairSets catalogMemory 8 = .ok catalogOptions ∧
      ∃ added : List (OwnedOperationType (List (String × String)) × List (String × String)),
        catalogOptions.operations = some (added.map Prod.fst) ∧ (∀ entry ∈ added, OperationFits pairSets entry.1 entry.2) ∧
          (added.map fun entry => entry.2.length).sum ≤ configMaxRestrictionPairs := by
  have hparsed : parseOptions pairSets catalogMemory 8 = .ok catalogOptions := by decide +kernel
  obtain ⟨added, heq, hfits, -, hpairs, -⟩ := (parse_stays_inside pairSets catalogMemory 8).2.2 _ _ hparsed rfl
  exact ⟨hparsed, added, congrArg some heq, hfits, hpairs⟩

/-- Options that advertise 8 bytes, fewer than their header has. -/
def shortMemory : Memory where
  byte _ := 0
  restriction _ := ⟨⟨0, 0, 0⟩, 0, 0, 0, 0, (0, 0)⟩
  operation _ := ⟨⟨0, 0, 0⟩, 0, 0, ⟨0⟩, 0, 0, 0, 0, 0, 0, 0, (0, 0)⟩
  limits _ := ⟨⟨0, 0, 0⟩, 0, 0, 0, 0, 0, 0, 0, 0, (0, 0)⟩
  options _ := ⟨⟨8, 1, 0⟩, 0, 0, 0, 0, 0, 0, 0, 0, 0, 0, (0, 0)⟩

theorem not_acceptedOptions_short {raw : DuallityWfstOptionsV1} : ¬AcceptedOptions shortMemory 8 raw := by
  intro h
  obtain ⟨-, rfl, ⟨hknown, -⟩, -⟩ := record_eq_ok.mp h
  exact absurd hknown (by decide)

/-- The header of the options is read whole before the size in it is. -/
theorem header_read_past_short_record :
    ¬Traced.Touches (Safe 0 shortMemory 8) (Access.parseOptions OwnedOptions.pairSets shortMemory 8) := by
  intro h
  have hread : .read 8 16 ∈ (Access.parseOptions OwnedOptions.pairSets shortMemory 8).accesses := by decide +kernel
  obtain ⟨start, size, hextent, hstart, hlt⟩ := (h _ hread).2 16 (by decide) (by decide)
  cases hextent with
  | options => exact absurd hlt (by decide)
  | limits hraw => exact not_acceptedOptions_short hraw
  | operations hraw => exact not_acceptedOptions_short hraw.1
  | name hoperation =>
    obtain ⟨raw, count, hraw, -⟩ := hoperation
    exact not_acceptedOptions_short hraw.1
  | restrictions hlist =>
    obtain ⟨⟨raw, count, hraw, -⟩, -⟩ := hlist
    exact not_acceptedOptions_short hraw.1
  | source hpair =>
    obtain ⟨operation, pairCount, ⟨⟨raw, count, hraw, -⟩, -⟩, -⟩ := hpair
    exact not_acceptedOptions_short hraw.1
  | target hpair =>
    obtain ⟨operation, pairCount, ⟨⟨raw, count, hraw, -⟩, -⟩, -⟩ := hpair
    exact not_acceptedOptions_short hraw.1

end Duallity
