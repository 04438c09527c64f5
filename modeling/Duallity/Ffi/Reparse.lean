import Duallity.Ffi.Contents

/-! Parsing back what a memory shows of accepted operations. Restriction pairs come back once each, so no running total
    grows. -/

namespace Duallity
variable {S : Type} {lib : SubstitutionLibrary S} {memory : Memory}

namespace Config
open OperationProgress OwnedOptions

/-! ### Records in a memory -/

/-- A record with the header of its type passes the checks on reads. -/
theorem record_of_shows {T : Type} [Record T] {pointer : Pointer} {value : T} (name : String) (available : Nat)
    (h : (⟨pointer, value⟩ : Box T).Shows memory) (hheader : Record.header value = header T)
    (hknown : Record.size T ≤ configMaxRecordBytes) (havailable : Record.size T ≤ available) :
    record memory pointer name available = .ok value := by
  rw [record_eq_ok, hheader]
  exact ⟨h.1, h.2, ⟨le_rfl, hknown, havailable⟩, ⟨rfl, rfl⟩, fun offset hlt hle => absurd hlt hle.not_gt⟩

/-- Elements of an aligned array are aligned. -/
theorem shows_element {T : Type} [Record T] {pointer : Pointer} (hpointer : pointer ≠ 0 ∧ recordAlign ∣ pointer)
    (hsize : recordAlign ∣ Record.size T) (index : Nat) :
    (⟨pointer + index * Record.size T, Record.read memory (pointer + index * Record.size T)⟩ : Box T).Shows memory :=
  ⟨⟨by simp [hpointer.1], Nat.dvd_add hpointer.2 (hsize.mul_left index)⟩, rfl⟩

/-- The shape of an array of records with the size of their type as its stride. -/
theorem arrayShape_of_shows {size count stride maximum length : Nat} {pointer : Pointer} (name : String)
    (hpointer : pointer ≠ 0 ∧ recordAlign ∣ pointer) (hstride : stride = size) (hcount : count = length)
    (hsize : size ≤ configMaxRecordBytes) (halign : recordAlign ∣ size) (hmaximum : maximum ≤ 4096) (hle : length ≤ maximum)
    (hpos : 0 < length) :
    arrayShape size pointer count stride maximum name = .ok length := by
  subst hstride hcount
  have hle' : count ≤ 4096 := hle.trans hmaximum
  have hextent : count * stride ≤ 4096 * 4096 := Nat.mul_le_mul hle' hsize
  rw [arrayShape_eq_ok]
  exact ⟨rfl, fun h => absurd h hpos.ne', fun _ => ⟨hpointer, ⟨hle'.trans (by decide), hle⟩,
    ⟨hsize.trans (by decide), le_rfl, hsize, halign⟩, hextent.trans (by decide)⟩⟩

/-- A memory shows a text under a pointer and a length. -/
structure ShowsText (memory : Memory) (pointer : Pointer) (length : Nat) (bytes : List UInt8) : Prop where
  nonnull : pointer ≠ 0
  lengthEq : length = bytes.length
  bytesEq : memory.bytes pointer length = bytes

theorem utf8_of_shows {pointer : Pointer} {length totalBytes : Nat} {text : String} (name : String)
    (h : ShowsText memory pointer length (utf8Bytes text)) (hne : utf8Bytes text ≠ [])
    (hmax : totalBytes + (utf8Bytes text).length ≤ configMaxCustomTextBytes) :
    utf8 memory pointer length name totalBytes = .ok (text, totalBytes + (utf8Bytes text).length) := by
  rw [utf8_eq_ok]
  exact ⟨h.nonnull, ⟨h.lengthEq, hne⟩, ⟨by rw [h.lengthEq], hmax⟩, h.bytesEq⟩

structure ShowsPair (memory : Memory) (record : DuallityRestrictionV1) (texts : List UInt8 × List UInt8) : Prop where
  header : record.header = header DuallityRestrictionV1
  source : ShowsText memory record.sourceData record.sourceLen texts.1
  target : ShowsText memory record.targetData record.targetLen texts.2
  reserved : record.reserved = (0, 0)

/-- A memory shows the pairs of a restriction set under an operation record. -/
structure ShowsListed (memory : Memory) (record : DuallityOperationV1) (texts : List (List UInt8 × List UInt8)) : Prop where
  nonnull : record.restrictions ≠ 0 ∧ recordAlign ∣ record.restrictions
  count : record.restrictionCount = texts.length
  stride : record.restrictionStride = Record.size DuallityRestrictionV1
  pair : ∀ index pair, texts[index]? = some pair →
    ShowsPair memory (memory.restriction (record.restrictions + index * Record.size DuallityRestrictionV1)) pair

/-- A memory shows the restrictions of an operation under its record. -/
def ShowsApplicability (lib : SubstitutionLibrary S) (memory : Memory) (record : DuallityOperationV1) :
    OperationApplicability S → Prop
  | .any => record.applicability = 0 ∧ record.restrictions = 0 ∧ record.restrictionCount = 0 ∧ record.restrictionStride = 0
  | .equal => record.applicability = 1 ∧ record.restrictions = 0 ∧ record.restrictionCount = 0 ∧ record.restrictionStride = 0
  | .adjacentTranspose =>
    record.applicability = 2 ∧ record.restrictions = 0 ∧ record.restrictionCount = 0 ∧ record.restrictionStride = 0
  | .listed set => record.applicability = 3 ∧ ShowsListed memory record (lib.listed set)

structure ShowsOperation (lib : SubstitutionLibrary S) (memory : Memory) (record : DuallityOperationV1)
    (operation : OwnedOperationType S) : Prop where
  header : record.header = header DuallityOperationV1
  consumeX : record.consumeX = operation.consumeX
  consumeY : record.consumeY = operation.consumeY
  weight : record.weight = operation.weight
  reserved : record.reservedZero = 0 ∧ record.reserved = (0, 0)
  name : ShowsText memory record.nameData record.nameLen (utf8Bytes operation.name)
  applicability : ShowsApplicability lib memory record operation.applicability

/-! ### Pairs listed once -/

/-- Listed pairs are some of the inserted pairs, each once. -/
theorem exists_listed (hlists : lib.Lists) (capacity : Nat) (inserted : List (String × String)) :
    ∃ pairs : List (String × String),
      lib.listed (lib.insertAll (lib.withCapacity capacity) inserted) = pairs.map pairBytes ∧ pairs.Nodup ∧ pairs ⊆ inserted := by
  have hexists : ∀ texts ∈ lib.listed (lib.insertAll (lib.withCapacity capacity) inserted),
      ∃ pair ∈ inserted, pairBytes pair = texts := fun texts => (hlists.mem capacity inserted texts).mp
  obtain ⟨pairs, hmap, hsub⟩ : ∃ pairs : List (String × String),
      lib.listed (lib.insertAll (lib.withCapacity capacity) inserted) = pairs.map pairBytes ∧ pairs ⊆ inserted := by
    generalize lib.listed (lib.insertAll (lib.withCapacity capacity) inserted) = listed at hexists
    induction listed with
    | nil => exact ⟨[], rfl, by simp⟩
    | cons texts listed ih =>
      obtain ⟨⟨pair, hpair, hbytes⟩, hrest⟩ := List.forall_mem_cons.mp hexists
      obtain ⟨pairs, hmap, hsub⟩ := ih hrest
      exact ⟨pair :: pairs, by simp [hbytes, hmap], List.cons_subset.mpr ⟨hpair, hsub⟩⟩
  exact ⟨pairs, hmap, .of_map _ (hmap ▸ hlists.nodup capacity inserted), hsub⟩

theorem sum_le_of_nodup {α : Type} {xs ys : List α} (f : α → Nat) (hnodup : xs.Nodup) (hsub : xs ⊆ ys) :
    (xs.map f).sum ≤ (ys.map f).sum := by
  obtain ⟨zs, hperm, hsublist⟩ := hnodup.subperm hsub
  rw [← (hperm.map f).sum_eq]
  exact (hsublist.map f).sum_le_sum (fun _ _ => Nat.zero_le _)

/-! ### Parsing what a memory shows -/

theorem parseRestriction_of_shows {operation : DuallityOperationV1} {consumeX consumeY index : Nat} {progress : S × Nat}
    {pair : String × String}
    (hnonnull : operation.restrictions ≠ 0 ∧ recordAlign ∣ operation.restrictions)
    (hstride : operation.restrictionStride = Record.size DuallityRestrictionV1)
    (h : ShowsPair memory (memory.restriction (operation.restrictions + index * Record.size DuallityRestrictionV1))
      (pairBytes pair))
    (hfits : PairFits consumeX consumeY pair) (hmax : progress.2 + pairLength pair ≤ configMaxCustomTextBytes) :
    parseRestriction lib memory operation consumeX consumeY progress index =
      .ok (lib.allowStr progress.1 pair.1 pair.2, progress.2 + pairLength pair) := by
  have hrecord : record memory (operation.restrictions + index * operation.restrictionStride) "restriction"
      operation.restrictionStride =
        .ok (memory.restriction (operation.restrictions + index * Record.size DuallityRestrictionV1)) := by
    rw [hstride]
    exact record_of_shows _ _ (shows_element hnonnull (by decide) index) h.header (by decide) le_rfl
  rw [pairLength, ← Nat.add_assoc] at hmax ⊢
  have hsource := utf8_of_shows ("restriction source") h.source hfits.source.2 ((Nat.le_add_right _ _).trans hmax)
  have htarget := utf8_of_shows ("restriction target") h.target hfits.target.2 hmax
  simp only [parseRestriction, Access.parseRestriction, Traced.result_bind, Traced.result_lift, Traced.result_pure,
    Access.result_arrayElement, Access.result_record, Access.result_utf8, pure_bind, bind_eq_ok, rejectIf_eq_ok, pure_eq_ok, not_or,
    not_not]
  exact ⟨_, hrecord, (), h.reserved, _, hsource, _, htarget, (), ⟨hfits.source.1, hfits.target.1⟩, rfl⟩

theorem parseRestrictions_of_shows {operation : DuallityOperationV1} {consumeX consumeY : Nat}
    {pairs : List (String × String)} {start : Nat} {progress : S × Nat}
    (hnonnull : operation.restrictions ≠ 0 ∧ recordAlign ∣ operation.restrictions)
    (hstride : operation.restrictionStride = Record.size DuallityRestrictionV1)
    (h : ∀ index pair, pairs[index]? = some pair →
      ShowsPair memory (memory.restriction (operation.restrictions + (start + index) * Record.size DuallityRestrictionV1))
        (pairBytes pair))
    (hfits : ∀ pair ∈ pairs, PairFits consumeX consumeY pair)
    (hmax : progress.2 + (pairs.map pairLength).sum ≤ configMaxCustomTextBytes) :
    (List.range' start pairs.length).foldlM (parseRestriction lib memory operation consumeX consumeY) progress =
      .ok (lib.insertAll progress.1 pairs, progress.2 + (pairs.map pairLength).sum) := by
  induction pairs generalizing start progress with
  | nil => simp [SubstitutionLibrary.insertAll, pure, Except.pure]
  | cons pair pairs ih =>
    obtain ⟨hpair, hpairs⟩ := List.forall_mem_cons.mp hfits
    simp only [List.map_cons, List.sum_cons] at hmax
    simp only [List.length_cons, List.range'_succ, List.foldlM_cons, bind_eq_ok]
    refine ⟨_, parseRestriction_of_shows hnonnull hstride (h 0 pair rfl) hpair (by omega), ?_⟩
    rw [ih (fun index pair' hget => ?_) hpairs (by simpa [Nat.add_assoc] using hmax)]
    · simp [SubstitutionLibrary.insertAll, Nat.add_assoc]
    · rw [Nat.add_assoc, Nat.add_comm 1]
      exact h (index + 1) pair' hget

theorem same_of_listed_eq {set set' : S} {pairs : List (String × String)} (hset : lib.listed set = pairs.map pairBytes)
    (hmem : ∀ texts, texts ∈ lib.listed set' ↔ ∃ pair ∈ pairs, pairBytes pair = texts) :
    lib.SameApplicability (.listed set) (.listed set') := by
  intro texts
  rw [hset, hmem, List.mem_map]

/-- Parsing an applicability back finds it again, with fewer pairs where some were inserted more than once. -/
theorem parseApplicability_of_shows (hlists : lib.Lists) {operation : DuallityOperationV1} {applicability : OperationApplicability S}
    (index : Nat) {consumeX consumeY totalTextBytes : Nat} {inserted : List (String × String)}
    (h : ShowsApplicability lib memory operation applicability) (hadmits : Admits lib consumeX consumeY inserted applicability)
    (hmax : totalTextBytes + (inserted.map pairLength).sum ≤ configMaxCustomTextBytes)
    (hcount : inserted.length ≤ configMaxRestrictionPairs) (name : String) :
    ∃ applicability' pairs,
      arrayShape (Record.size DuallityRestrictionV1) operation.restrictions operation.restrictionCount
        operation.restrictionStride configMaxRestrictionPairs name = .ok pairs.length ∧
      parseApplicability lib memory operation index consumeX consumeY pairs.length totalTextBytes =
        .ok (applicability', totalTextBytes + (pairs.map pairLength).sum) ∧
      lib.SameApplicability applicability applicability' ∧
      (pairs.map pairLength).sum ≤ (inserted.map pairLength).sum ∧ pairs.length ≤ inserted.length ∧
      Admits lib consumeX consumeY pairs applicability' := by
  cases applicability with
  | any =>
    obtain ⟨happ, hptr, hcount, hstride⟩ := h
    exact ⟨.any, [], by simp [arrayShape_eq_ok, hptr, hcount, hstride], by simp [parseApplicability, Access.parseApplicability, happ], trivial, by simp,
      by simp, rfl⟩
  | equal =>
    obtain ⟨happ, hptr, hcount, hstride⟩ := h
    exact ⟨.equal, [], by simp [arrayShape_eq_ok, hptr, hcount, hstride], by simp [parseApplicability, Access.parseApplicability, happ, hadmits.2], trivial,
      by simp, by simp, rfl, hadmits.2⟩
  | adjacentTranspose =>
    obtain ⟨happ, hptr, hcount, hstride⟩ := h
    exact ⟨.adjacentTranspose, [], by simp [arrayShape_eq_ok, hptr, hcount, hstride],
      by simp [parseApplicability, Access.parseApplicability, happ, hadmits.2], trivial, by simp, by simp, rfl, hadmits.2⟩
  | listed set =>
    obtain ⟨happ, hshows⟩ := h
    obtain ⟨hne, ⟨capacity, rfl⟩, hfits⟩ := hadmits
    obtain ⟨pairs, hlisted, hnodup, hsub⟩ := exists_listed hlists capacity inserted
    have hsum := sum_le_of_nodup pairLength hnodup hsub
    have hlen : pairs.length ≤ inserted.length := (hnodup.subperm hsub).length_le
    have hpairsNe : pairs ≠ [] := by
      obtain ⟨pair, hpair⟩ := List.exists_mem_of_ne_nil _ hne
      have := (hlists.mem capacity inserted (pairBytes pair)).mpr ⟨pair, hpair, rfl⟩
      rintro rfl
      simp [hlisted] at this
    have hpos : 0 < pairs.length := List.length_pos_iff.mpr hpairsNe
    have hshape := arrayShape_of_shows name hshows.nonnull hshows.stride (hshows.count.trans (by simp [hlisted])) (by decide)
      (by decide) (by decide) (hlen.trans hcount) hpos
    have hparse : (List.range' 0 pairs.length).foldlM (parseRestriction lib memory operation consumeX consumeY)
        (lib.withCapacity pairs.length, totalTextBytes) =
          .ok (lib.insertAll (lib.withCapacity pairs.length) pairs, totalTextBytes + (pairs.map pairLength).sum) := by
      refine parseRestrictions_of_shows hshows.nonnull hshows.stride (fun index pair hget => ?_)
        (fun pair hpair => hfits pair (hsub hpair)) ((Nat.add_le_add_left hsum _).trans hmax)
      rw [Nat.zero_add]
      exact hshows.pair index (pairBytes pair) (by simp [hlisted, hget])
    refine ⟨.listed (lib.insertAll (lib.withCapacity pairs.length) pairs), pairs, hshape, ?_, ?_, hsum, hlen, hpairsNe,
      ⟨_, rfl⟩, fun pair hpair => hfits pair (hsub hpair)⟩
    · simp [parseApplicability, Access.parseApplicability, happ, hpos, -bind_pure_comp, hparse]
    · exact same_of_listed_eq hlisted (hlists.mem _ _)

theorem parseOperation_of_shows (hlists : lib.Lists) {operations : Pointer} {index : Nat}
    {progress progress' : OperationProgress S} {operation : OwnedOperationType S} {inserted : List (String × String)}
    (hpointer : operations ≠ 0 ∧ recordAlign ∣ operations)
    (h : ShowsOperation lib memory (memory.operation (operations + index * Record.size DuallityOperationV1)) operation)
    (hfits : OperationFits lib operation inserted) (hle : progress'.TotalsLe progress)
    (hlimits : (progress.add operation inserted).WithinLimits) :
    ∃ operation' inserted',
      parseOperation lib memory operations (Record.size DuallityOperationV1) progress' index =
        .ok (progress'.add operation' inserted') ∧
      lib.SameOperation operation operation' ∧
      (progress'.add operation' inserted').TotalsLe (progress.add operation inserted) := by
  have hrecord : record memory (operations + index * Record.size DuallityOperationV1) "operation"
      (Record.size DuallityOperationV1) = .ok (memory.operation (operations + index * Record.size DuallityOperationV1)) :=
    record_of_shows _ _ (shows_element hpointer (by decide) index) h.header (by decide) le_rfl
  obtain ⟨consumed, finite, nonnegative, zeroCost, ⟨hname, hlong, hnul⟩, happ⟩ := hfits
  obtain ⟨htext, hpairs, hwidth⟩ := hlimits
  simp only [add] at htext hpairs hwidth
  have hle₁ := hle.text
  have hle₂ := hle.pairs
  have hle₃ := hle.consumption
  have hword : configMaxOperations ≤ usizeMax ∧ configMaxRestrictionPairs ≤ usizeMax := by decide
  have hutf8 := utf8_of_shows "operation name" h.name hname (by omega : progress'.totalTextBytes + _ ≤ _)
  obtain ⟨applicability', pairs, hshape, hparse, hsame, hsum, hlen, -⟩ :=
    parseApplicability_of_shows hlists index h.applicability happ
      (by omega : progress'.totalTextBytes + (utf8Bytes operation.name).length + _ ≤ _) (by omega) "restrictions"
  refine ⟨⟨operation.consumeX, operation.consumeY, operation.weight, applicability', operation.name⟩, pairs, ?_,
    ⟨rfl, rfl, rfl, rfl, hsame⟩, ?_⟩
  · simp only [parseOperation, Access.parseOperation, Traced.result_bind, Traced.result_lift, Traced.result_pure,
      Access.result_arrayElement, Access.result_record, Access.result_utf8, Access.result_parseApplicability, pure_bind, bind_eq_ok,
      rejectIf_eq_ok, integer_eq_ok, okOrReject_eq_ok, pure_eq_ok, checkedAdd_eq_some, not_or, not_lt, not_not, not_and]
    rw [← h.consumeX, ← h.consumeY, ← h.weight] at *
    refine ⟨_, hrecord, (), h.reserved, _, ⟨rfl, by omega⟩, _, ⟨rfl, by omega⟩, _, ⟨rfl, by omega⟩, _, ⟨rfl, by omega⟩, (),
      by omega, (), ⟨consumed, finite, by simpa using nonnegative⟩, (), zeroCost, _, hutf8, (), ⟨hlong, hnul⟩, _, hshape, _,
      ⟨rfl, by omega⟩, (), by omega, _, hparse, ?_⟩
    simp [add]
  · constructor <;> simp only [add] <;> omega

/-- Parsing operations back finds them again, in their order. -/
theorem parseOperations_of_shows (hlists : lib.Lists) {operations : Pointer}
    {added : List (OwnedOperationType S × List (String × String))} {start : Nat} {progress progress' : OperationProgress S}
    (hpointer : operations ≠ 0 ∧ recordAlign ∣ operations)
    (h : ∀ index entry, added[index]? = some entry →
      ShowsOperation lib memory (memory.operation (operations + (start + index) * Record.size DuallityOperationV1)) entry.1)
    (hfits : ∀ entry ∈ added, OperationFits lib entry.1 entry.2) (hle : progress'.TotalsLe progress)
    (hlimits : (progress.addAll added).WithinLimits) :
    ∃ added',
      (List.range' start added.length).foldlM (parseOperation lib memory operations (Record.size DuallityOperationV1)) progress' =
        .ok (progress'.addAll added') ∧
      List.Forall₂ lib.SameOperation (added.map Prod.fst) (added'.map Prod.fst) := by
  induction added generalizing start progress progress' with
  | nil => exact ⟨[], rfl, .nil⟩
  | cons entry added ih =>
    obtain ⟨hentry, hadded⟩ := List.forall_mem_cons.mp hfits
    have hnext : (progress.add entry.1 entry.2).WithinLimits :=
      ((progress.add entry.1 entry.2).le_addAll added).withinLimits hlimits
    obtain ⟨operation', inserted', hparse, hsame, hle'⟩ :=
      parseOperation_of_shows hlists hpointer (h 0 entry rfl) hentry hle hnext
    have hrest : ∀ index entry', added[index]? = some entry' →
        ShowsOperation lib memory
          (memory.operation (operations + (start + 1 + index) * Record.size DuallityOperationV1)) entry'.1 := by
      intro index entry' hget
      rw [Nat.add_assoc, Nat.add_comm 1]
      exact h (index + 1) entry' hget
    obtain ⟨added', hrun, hsames⟩ := ih hrest hadded hle' hlimits
    refine ⟨(operation', inserted') :: added', ?_, .cons hsame hsames⟩
    simp only [List.length_cons, List.range'_succ, List.foldlM_cons, bind_eq_ok]
    exact ⟨_, hparse, hrun⟩

end Config

end Duallity
