import Duallity.Ffi.Reparse

/-! The round trip of options: a memory that shows what was built from accepted options is accepted again, with the same
    contents. -/

namespace Duallity
variable {S : Type} {lib : SubstitutionLibrary S}

namespace OperationProgress

/-- Before any operation. -/
def zero : OperationProgress S := ⟨0, 0, 0, []⟩

theorem WithinLimits.zero : (zero : OperationProgress S).WithinLimits := by constructor <;> simp [OperationProgress.zero]

theorem operations_zero_addAll (added : List (OwnedOperationType S × List (String × String))) :
    (OperationProgress.zero.addAll added).operations = added.map Prod.fst := by
  simp [operations_addAll, OperationProgress.zero]

/-- Within the limits every operation is alone. -/
theorem WithinLimits.of_mem {progress : OperationProgress S} {added : List (OwnedOperationType S × List (String × String))}
    (h : (progress.addAll added).WithinLimits) {entry : OwnedOperationType S × List (String × String)} (hentry : entry ∈ added) :
    (OperationProgress.zero.add entry.1 entry.2).WithinLimits := by
  induction added generalizing progress with
  | nil => cases hentry
  | cons head added ih =>
    rcases List.mem_cons.mp hentry with rfl | hmem
    · have hle : (OperationProgress.zero.add entry.1 entry.2).TotalsLe (progress.add entry.1 entry.2) := by
        constructor <;> simp [OperationProgress.zero, add, Nat.add_assoc]
      exact (hle.trans (le_addAll _ added)).withinLimits h
    · exact ih h hmem

end OperationProgress

namespace OwnedOptions
open Config OperationProgress
variable (alloc : Allocator)

@[simp] theorem wire_eq_ok {value result : Nat} {name : String} : wire value name = .ok result ↔ value = result ∧ value ≤ u64Max := by
  unfold wire
  split <;> simp [*]

/-! ### Records of pairs and operations -/

theorem showsText_of_box {memory : Memory} {pointer : Pointer} {bytes : List UInt8}
    (h : (⟨pointer, bytes⟩ : Box (List UInt8)).ShowsText memory) : Config.ShowsText memory pointer bytes.length bytes :=
  ⟨h.1, rfl, h.2⟩

theorem buildRestrictions_ok (index : Nat) {pairs : List SubstitutionPair}
    (hlen : ∀ pair ∈ pairs, pair.texts.1.length ≤ u64Max ∧ pair.texts.2.length ≤ u64Max) (start : Nat) :
    ∃ built, buildRestrictions alloc index start pairs = .ok built ∧ built.records.length = pairs.length ∧
      ∀ memory, (∀ box ∈ built.text, box.ShowsText memory) →
        ∀ (pairIndex : Nat) (pair : SubstitutionPair), pairs[pairIndex]? = some pair →
        ∃ record, built.records[pairIndex]? = some record ∧ ShowsPair memory record pair.texts := by
  induction pairs generalizing start with
  | nil => exact ⟨_, rfl, rfl, by simp⟩
  | cons pair pairs ih =>
    obtain ⟨hpair, hpairs⟩ := List.forall_mem_cons.mp hlen
    obtain ⟨rest, hrest, hrecords, hshows⟩ := ih hpairs (start + 1)
    have hbuilt : buildRestrictions alloc index start (pair :: pairs) =
        .ok ⟨⟨header DuallityRestrictionV1, alloc.source index start, pair.texts.1.length, alloc.target index start,
            pair.texts.2.length, (0, 0)⟩ :: rest.records, [],
          ⟨alloc.source index start, pair.texts.1⟩ :: ⟨alloc.target index start, pair.texts.2⟩ :: rest.text⟩ := by
      simp only [buildRestrictions, bind_eq_ok, wire_eq_ok, pure_eq_ok]
      exact ⟨_, ⟨rfl, hpair.1⟩, _, ⟨rfl, hpair.2⟩, rest, hrest, rfl⟩
    refine ⟨_, hbuilt, by simp [hrecords], ?_⟩
    intro memory htext pairIndex pair' hget
    simp only [List.forall_mem_cons] at htext
    cases pairIndex with
    | zero =>
      obtain rfl : pair = pair' := by simpa using hget
      exact ⟨_, rfl, rfl, showsText_of_box htext.1, showsText_of_box htext.2.1, rfl⟩
    | succ pairIndex => exact hshows memory htext.2.2 pairIndex pair' (by simpa using hget)

/-- Every listed pair is short enough for the wire. -/
theorem texts_length_le (hlists : lib.Lists) {capacity : Nat} {inserted : List (String × String)}
    (hmax : (inserted.map pairLength).sum ≤ configMaxCustomTextBytes) :
    ∀ pair ∈ lib.pairs (lib.insertAll (lib.withCapacity capacity) inserted),
      pair.texts.1.length ≤ u64Max ∧ pair.texts.2.length ≤ u64Max := by
  intro pair hpair
  obtain ⟨strings, hmem, hbytes⟩ := (hlists.mem capacity inserted pair.texts).mp (List.mem_map_of_mem hpair)
  have hle : pairLength strings ≤ (inserted.map pairLength).sum := List.le_sum_of_mem (List.mem_map_of_mem hmem)
  have hword : configMaxCustomTextBytes ≤ u64Max := by decide
  simp only [pairLength] at hle
  rw [← hbytes]
  exact ⟨by simp only [pairBytes]; omega, by simp only [pairBytes]; omega⟩

/-- The records of a restriction set show its pairs. -/
theorem buildListed_ok (hlists : lib.Lists) {inserted : List (String × String)} (hne : inserted ≠ []) (capacity : Nat)
    (hmax : (inserted.map pairLength).sum ≤ configMaxCustomTextBytes) (hcount : inserted.length ≤ configMaxRestrictionPairs)
    (index : Nat) :
    ∃ built, buildRestrictions alloc index 0 (lib.pairs (lib.insertAll (lib.withCapacity capacity) inserted)) = .ok built ∧
      built.records.length ≤ configMaxRestrictionPairs ∧
      ∀ memory (record : DuallityOperationV1), record.restrictions = alloc.restrictions index →
        record.restrictionCount = built.records.length → record.restrictionStride = Record.size DuallityRestrictionV1 →
        (⟨alloc.restrictions index, built.records⟩ : Box (List DuallityRestrictionV1)).ShowsAll memory →
        (∀ box ∈ built.text, box.ShowsText memory) →
          ShowsListed memory record (lib.listed (lib.insertAll (lib.withCapacity capacity) inserted)) := by
  obtain ⟨pairs, hlisted, hnodup, hsub⟩ := exists_listed hlists capacity inserted
  have hlen : (lib.listed (lib.insertAll (lib.withCapacity capacity) inserted)).length ≤ inserted.length := by
    rw [hlisted, List.length_map]
    exact (hnodup.subperm hsub).length_le
  have hlen' : (lib.listed (lib.insertAll (lib.withCapacity capacity) inserted)).length =
      (lib.pairs (lib.insertAll (lib.withCapacity capacity) inserted)).length := by simp [SubstitutionLibrary.listed]
  obtain ⟨built, hbuilt, hrecords, hshows⟩ := buildRestrictions_ok alloc index (texts_length_le hlists hmax) 0
  refine ⟨built, hbuilt, by omega, ?_⟩
  intro memory record hpointer hrecordCount hstride harray htext
  have hpos : 0 < built.records.length := by
    obtain ⟨pair, hpair⟩ := List.exists_mem_of_ne_nil _ hne
    rw [hrecords, ← hlen']
    exact List.length_pos_of_mem ((hlists.mem capacity inserted (pairBytes pair)).mpr ⟨pair, hpair, rfl⟩)
  have hfirst := (harray 0 _ (List.getElem?_eq_getElem hpos)).1
  refine ⟨by simpa [hpointer] using hfirst, by omega, hstride, ?_⟩
  intro pairIndex texts hget
  simp only [SubstitutionLibrary.listed, List.getElem?_map, Option.map_eq_some_iff] at hget
  obtain ⟨pair, hget, rfl⟩ := hget
  obtain ⟨shown, hshown, hpair⟩ := hshows memory htext pairIndex pair hget
  have hread : memory.restriction (alloc.restrictions index + pairIndex * Record.size DuallityRestrictionV1) = shown :=
    (harray pairIndex shown hshown).2
  rw [hpointer, hread]
  exact hpair

/-- What the allocations of a record show of its operation. -/
def ShowsBuilt (lib : SubstitutionLibrary S) (built : Built DuallityOperationV1) (record : DuallityOperationV1)
    (operation : OwnedOperationType S) : Prop :=
  ∀ memory, (∀ box ∈ built.restrictions, box.ShowsAll memory) → (∀ box ∈ built.text, box.ShowsText memory) →
    ShowsOperation lib memory record operation

theorem buildOperation_ok (hlists : lib.Lists) {operation : OwnedOperationType S} {inserted : List (String × String)}
    (hfits : OperationFits lib operation inserted)
    (hlimits : (OperationProgress.zero.add operation inserted).WithinLimits) (index : Nat) :
    ∃ built record, buildOperation lib alloc index operation = .ok built ∧ built.records = [record] ∧
      ShowsBuilt lib built record operation := by
  obtain ⟨htext, hpairs, hwidth⟩ := hlimits
  simp only [add, OperationProgress.zero, Nat.zero_add] at htext hpairs hwidth
  have hword : configMaxCustomTextBytes ≤ u64Max ∧ configMaxRestrictionPairs ≤ u64Max ∧ configMaxOperations ≤ u64Max := by
    decide
  have hname : (utf8Bytes operation.name).length ≤ u64Max := by omega
  have hx : operation.consumeX ≤ u64Max := by omega
  have hy : operation.consumeY ≤ u64Max := by omega
  have hplain (applicability : Nat)
      (hshows : ∀ memory record, record.applicability = applicability → record.restrictions = 0 →
        record.restrictionCount = 0 → record.restrictionStride = 0 →
          ShowsApplicability lib memory record operation.applicability) :
      ∃ built record, plainOperation alloc index operation applicability = .ok built ∧ built.records = [record] ∧
        ShowsBuilt lib built record operation := by
    have hbuilt : plainOperation alloc index operation applicability =
        .ok ⟨[⟨header DuallityOperationV1, operation.consumeX, operation.consumeY, operation.weight, applicability, 0,
            alloc.name index, (utf8Bytes operation.name).length, 0, 0, 0, (0, 0)⟩], [],
          [⟨alloc.name index, utf8Bytes operation.name⟩]⟩ := by
      simp only [plainOperation, bind_eq_ok, wire_eq_ok, pure_eq_ok]
      exact ⟨_, ⟨rfl, hx⟩, _, ⟨rfl, hy⟩, _, ⟨rfl, hname⟩, rfl⟩
    refine ⟨_, _, hbuilt, rfl, ?_⟩
    intro memory _ htext
    exact ⟨rfl, rfl, rfl, rfl, ⟨rfl, rfl⟩, showsText_of_box (htext _ (List.mem_singleton_self _)),
      hshows memory _ rfl rfl rfl rfl⟩
  obtain ⟨x, y, weight, applicability, name⟩ := operation
  cases applicability with
  | any => exact hplain 0 fun _ _ h1 h2 h3 h4 => ⟨h1, h2, h3, h4⟩
  | equal => exact hplain 1 fun _ _ h1 h2 h3 h4 => ⟨h1, h2, h3, h4⟩
  | adjacentTranspose => exact hplain 2 fun _ _ h1 h2 h3 h4 => ⟨h1, h2, h3, h4⟩
  | listed set =>
    obtain ⟨hne, ⟨capacity, rfl⟩, -⟩ := hfits.applicability
    obtain ⟨listed, hlisted, hcount, hshows⟩ :=
      buildListed_ok alloc hlists hne capacity ((Nat.le_add_left _ _).trans htext) hpairs index
    have hcount' : listed.records.length ≤ u64Max := hcount.trans hword.2.1
    have hbuilt : buildOperation lib alloc index ⟨x, y, weight, .listed (lib.insertAll (lib.withCapacity capacity) inserted),
        name⟩ = .ok ⟨[⟨header DuallityOperationV1, x, y, weight, 3, 0, alloc.name index, (utf8Bytes name).length,
            alloc.restrictions index, listed.records.length, Record.size DuallityRestrictionV1, (0, 0)⟩],
          [⟨alloc.restrictions index, listed.records⟩], ⟨alloc.name index, utf8Bytes name⟩ :: listed.text⟩ := by
      simp only [buildOperation, bind_eq_ok, wire_eq_ok, pure_eq_ok]
      exact ⟨listed, hlisted, _, ⟨rfl, hcount'⟩, _, ⟨rfl, hx⟩, _, ⟨rfl, hy⟩, _, ⟨rfl, hname⟩, rfl⟩
    refine ⟨_, _, hbuilt, rfl, ?_⟩
    intro memory hrestrictions htext
    obtain ⟨hnameShown, htext⟩ := List.forall_mem_cons.mp htext
    exact ⟨rfl, rfl, rfl, rfl, ⟨rfl, rfl⟩, showsText_of_box hnameShown,
      rfl, hshows memory _ rfl rfl rfl (hrestrictions _ (List.mem_singleton_self _)) htext⟩

/-- The records of operations, one after another. -/
theorem buildOperations_ok (hlists : lib.Lists) {added : List (OwnedOperationType S × List (String × String))}
    (hfits : ∀ entry ∈ added, OperationFits lib entry.1 entry.2)
    (hlimits : ∀ entry ∈ added, (OperationProgress.zero.add entry.1 entry.2).WithinLimits) (start : Nat) :
    ∃ built, buildOperations lib alloc start (added.map Prod.fst) = .ok built ∧ built.records.length = added.length ∧
      ∀ memory, (∀ box ∈ built.restrictions, box.ShowsAll memory) → (∀ box ∈ built.text, box.ShowsText memory) →
        ∀ (index : Nat) (entry : OwnedOperationType S × List (String × String)), added[index]? = some entry →
          ∃ record, built.records[index]? = some record ∧ ShowsOperation lib memory record entry.1 := by
  induction added generalizing start with
  | nil => exact ⟨_, rfl, rfl, by simp⟩
  | cons entry added ih =>
    obtain ⟨hentry, hadded⟩ := List.forall_mem_cons.mp hfits
    obtain ⟨hentry', hadded'⟩ := List.forall_mem_cons.mp hlimits
    obtain ⟨first, record, hfirst, hrecord, hshows⟩ := buildOperation_ok alloc hlists hentry hentry' start
    obtain ⟨rest, hrest, hrecords, hshows'⟩ := ih hadded hadded' (start + 1)
    have hbuilt : buildOperations lib alloc start ((entry :: added).map Prod.fst) =
        .ok ⟨first.records ++ rest.records, first.restrictions ++ rest.restrictions, first.text ++ rest.text⟩ := by
      simp only [List.map_cons, buildOperations, bind_eq_ok, pure_eq_ok]
      exact ⟨first, hfirst, rest, hrest, rfl⟩
    refine ⟨_, hbuilt, by simp [hrecord, hrecords], ?_⟩
    intro memory hrestrictions htext index entry' hget
    simp only [List.forall_mem_append] at hrestrictions htext
    cases index with
    | zero =>
      obtain rfl : entry = entry' := by simpa using hget
      exact ⟨record, by simp [hrecord], hshows memory hrestrictions.1 htext.1⟩
    | succ index =>
      obtain ⟨record', hget', hshows'⟩ := hshows' memory hrestrictions.2 htext.2 index entry' (by simpa using hget)
      exact ⟨record', by simpa [hrecord] using hget', hshows'⟩

/-! ### Limits and policies -/

structure LimitsFit (limits : GeneralizedWfstLimits) : Prop where
  query : limits.maxQueryBytes ≤ usizeMax ∧ limits.maxQueryScalars ≤ usizeMax
  operation : limits.maxOperationSourceScalars ≤ usizeMax ∧ limits.maxOperationQueryScalars ≤ usizeMax
  nodes : limits.maxRetainedDictionaryNodes ≤ usizeMax ∧ limits.maxRetainedDictionaryNodes ≠ 0
  states : limits.maxRetainedWfstStates ≤ usizeMax ∧ limits.maxRetainedWfstStates ≠ 0
  expansion : limits.maxPathsPerExpansion ≤ usizeMax ∧ limits.maxWorkUnitsPerExpansion ≤ usizeMax

def limitsFields (limits : GeneralizedWfstLimits) : DuallityGeneralizedLimitsV1 :=
  ⟨header DuallityGeneralizedLimitsV1, limits.maxQueryBytes, limits.maxQueryScalars, limits.maxOperationSourceScalars,
    limits.maxOperationQueryScalars, limits.maxRetainedDictionaryNodes, limits.maxRetainedWfstStates,
    limits.maxPathsPerExpansion, limits.maxWorkUnitsPerExpansion, (0, 0)⟩

theorem decodeLimits_ok {raw : DuallityGeneralizedLimitsV1} {limits : GeneralizedWfstLimits}
    (h : decodeLimits raw = .ok limits) : LimitsFit limits := by
  simp only [decodeLimits, bind_eq_ok, rejectIf_eq_ok, integer_eq_ok, pure_eq_ok, not_or] at h
  obtain ⟨-, -, _, ⟨rfl, h1⟩, _, ⟨rfl, h2⟩, _, ⟨rfl, h3⟩, _, ⟨rfl, h4⟩, _, ⟨rfl, h5⟩, _, ⟨rfl, h6⟩, _, ⟨rfl, h7⟩, _, ⟨rfl, h8⟩,
    -, ⟨h9, h10⟩, rfl⟩ := h
  exact ⟨⟨h1, h2⟩, ⟨h3, h4⟩, ⟨h5, h9⟩, ⟨h6, h10⟩, h7, h8⟩

theorem decodeLimits_limitsFields {limits : GeneralizedWfstLimits} (h : LimitsFit limits) :
    decodeLimits (limitsFields limits) = .ok limits := by
  obtain ⟨⟨h1, h2⟩, ⟨h3, h4⟩, ⟨h5, h9⟩, ⟨h6, h10⟩, h7, h8⟩ := h
  simp only [decodeLimits, bind_eq_ok, rejectIf_eq_ok, integer_eq_ok, pure_eq_ok, not_or]
  exact ⟨(), by simp [limitsFields], _, ⟨rfl, h1⟩, _, ⟨rfl, h2⟩, _, ⟨rfl, h3⟩, _, ⟨rfl, h4⟩, _, ⟨rfl, h5⟩, _, ⟨rfl, h6⟩, _,
    ⟨rfl, h7⟩, _, ⟨rfl, h8⟩, (), ⟨h9, h10⟩, rfl⟩

theorem limitsRecord_eq {limits : GeneralizedWfstLimits} (h : LimitsFit limits) :
    limitsRecord limits = .ok (limitsFields limits) := by
  obtain ⟨⟨h1, h2⟩, ⟨h3, h4⟩, ⟨h5, -⟩, ⟨h6, -⟩, h7, h8⟩ := h
  simp only [limitsRecord, bind_eq_ok, wire_eq_ok, pure_eq_ok]
  exact ⟨_, ⟨rfl, h1⟩, _, ⟨rfl, h2⟩, _, ⟨rfl, h3⟩, _, ⟨rfl, h4⟩, _, ⟨rfl, h5⟩, _, ⟨rfl, h6⟩, _, ⟨rfl, h7⟩, _, ⟨rfl, h8⟩, rfl⟩

/-- The policy that a resource reports requests the same effective policy. -/
theorem cachePolicy_effective {policy : RequestedCachePolicy} (kind : WfstKind)
    (h : ∀ capacity, policy = .lru capacity → capacity ≤ usizeMax) :
    ∃ selector capacity requested, effectivePolicy (some (policy.effective kind)) = .ok (selector, capacity) ∧
      cachePolicy selector capacity = .ok requested ∧ requested.effective kind = policy.effective kind := by
  have hlru (capacity : ℕ+) (hle : (capacity : Nat) ≤ usizeMax) :
      ∃ selector value requested, effectivePolicy (some (.lru capacity)) = .ok (selector, value) ∧
        cachePolicy selector value = .ok requested ∧ requested.effective kind = .lru capacity := by
    refine ⟨2, capacity, .lru capacity, ?_, ?_, ?_⟩
    · have hmin : min (capacity : Nat) u64Max = capacity := min_eq_left hle
      simp [effectivePolicy, hmin]
    · simp only [cachePolicy, bind_eq_ok, integer_eq_ok, pure_eq_ok]
      exact ⟨_, ⟨rfl, hle⟩, rfl⟩
    · rw [← capacity.succPNat_natPred]
      rfl
  cases policy with
  | cacheAll => exact ⟨0, 0, .cacheAll, rfl, rfl, rfl⟩
  | noCache => exact ⟨1, 0, .noCache, rfl, rfl, rfl⟩
  | lru capacity =>
    cases capacity with
    | zero =>
      by_cases hkind : kind = .fzf
      · exact ⟨1, 0, .noCache, by simp [RequestedCachePolicy.effective, hkind, effectivePolicy], rfl,
          by simp [RequestedCachePolicy.effective, hkind]⟩
      · simpa [RequestedCachePolicy.effective, hkind] using hlru 100000 (by decide)
    | succ capacity => exact hlru capacity.succPNat (h _ rfl)

/-! ### Options -/

/-- Conditions on accepted options, whose operations are those of `added`. -/
structure Accepted (lib : SubstitutionLibrary S) (parsed : ParsedOptions S)
    (added : List (OwnedOperationType S × List (String × String))) : Prop where
  maximumDistance : parsed.maximumDistance ≤ usizeMax
  capacity : ∀ capacity, parsed.cachePolicy = .lru capacity → capacity ≤ usizeMax
  algorithm : ∃ value, Config.algorithm value = .ok parsed.algorithm ∧ (parsed.kind ≠ .levenshtein → value = 0)
  fzf : parsed.kind = .fzf → parsed.maximumDistance = 0
  bounded : parsed.kind ≠ .levenshtein → parsed.kind ≠ .fzf →
    parsed.maximumDistance ≤ UniversalLevenshteinStateSource.u8Max
  plain : parsed.kind.generalized = false → parsed.limits = none ∧ added = []
  limits : ∀ limits ∈ parsed.limits, LimitsFit limits
  count : added.length ≤ configMaxOperations
  fits : ∀ entry ∈ added, OperationFits lib entry.1 entry.2
  totals : (OperationProgress.zero.addAll added).WithinLimits
  operations : parsed.operations = if added.length > 0 then some (added.map Prod.fst) else none
  validates : added.length > 0 → lib.validate (added.map Prod.fst) = .ok ()

theorem validateOperations_eq_ok {count : Nat} {operations : List (OwnedOperationType S)} {u : Unit} :
    validateOperations lib count operations = .ok u ↔ (count > 0 → lib.validate operations = .ok ()) := by
  unfold validateOperations
  split
  · split <;> simp [*]
  · simp [*]

theorem cachePolicy_capacity {selector value : Nat} {policy : RequestedCachePolicy} (h : cachePolicy selector value = .ok policy)
    (capacity : Nat) (hlru : policy = .lru capacity) : capacity ≤ usizeMax := by
  subst hlru
  unfold cachePolicy at h
  split at h
  · split at h <;> cases h
  · split at h <;> cases h
  · simp only [bind_eq_ok, integer_eq_ok, pure_eq_ok, RequestedCachePolicy.lru.injEq] at h
    obtain ⟨_, ⟨rfl, hle⟩, rfl⟩ := h
    exact hle
  · cases h

theorem parseLimits_ok {memory : Memory} {pointer : Pointer} {limits : Option GeneralizedWfstLimits}
    (h : parseLimits memory pointer = .ok limits) : (pointer = 0 → limits = none) ∧ ∀ l ∈ limits, LimitsFit l := by
  simp only [parseLimits, Access.parseLimits, Traced.result_ite, Traced.result_bind, Traced.result_lift, Traced.result_pure,
    Access.result_record] at h
  split at h
  · cases h
    simp
  · rename_i hpointer
    simp only [bind_eq_ok, pure_eq_ok] at h
    obtain ⟨raw, -, decoded, hdecoded, rfl⟩ := h
    exact ⟨fun h => absurd h hpointer, by simpa using decodeLimits_ok hdecoded⟩

theorem parseOptions_ok {memory : Memory} {pointer : Pointer} {parsed : ParsedOptions S}
    (h : parseOptions lib memory pointer = .ok parsed) : ∃ added, Accepted lib parsed added := by
  simp only [parseOptions, Access.parseOptions, Traced.result_bind, Traced.result_lift, Traced.result_pure, Traced.result_foldlM,
    Access.result_record, Access.result_parseLimits, Access.result_parseOperation, bind_eq_ok, rejectIf_eq_ok, integer_eq_ok, pure_eq_ok,
    arrayShape_eq_ok, validateOperations_eq_ok, not_and, not_or, not_lt, not_not] at h
  obtain ⟨raw, -, -, -, kind, hkind, algorithm, halgorithm, _, ⟨rfl, hdistance⟩, policy, hpolicy, -, hsentinel, -, hfzf, -,
    hbounded, -, hplain, limits, hlimits, _, ⟨rfl, -, hcount⟩, progress, hprogress, -, hvalidate, rfl⟩ := h
  obtain ⟨added, hlen, hfits, rfl, htotals⟩ := parseOperations_ok WithinLimits.zero hprogress
  rw [List.length_range'] at hlen
  rw [← hlen] at hvalidate hcount
  obtain ⟨hnull, hlimits⟩ := parseLimits_ok hlimits
  refine ⟨added, hdistance, cachePolicy_capacity hpolicy, ⟨raw.algorithm, halgorithm, hsentinel⟩, hfzf, hbounded, ?_, hlimits,
    ?_, hfits, htotals, ?_, ?_⟩
  · intro hgeneralized
    obtain ⟨hpointer, hzero⟩ := hplain (by simp [hgeneralized])
    exact ⟨hnull hpointer, List.length_eq_zero_iff.mp (hlen.trans hzero)⟩
  · by_cases hzero : added.length = 0
    · simp [hzero]
    · exact (hcount hzero).2.1.2
  · simp only [← hlen, operations_zero_addAll]
  · simpa only [operations_zero_addAll] using hvalidate

/-- Equal options, with equal effective policies and restriction sets compared by their pairs. -/
structure SameOptions (lib : SubstitutionLibrary S) (parsed parsed' : ParsedOptions S) : Prop where
  kind : parsed'.kind = parsed.kind
  algorithm : parsed'.algorithm = parsed.algorithm
  maximumDistance : parsed'.maximumDistance = parsed.maximumDistance
  cachePolicy : parsed'.cachePolicy.effective parsed'.kind = parsed.cachePolicy.effective parsed.kind
  limits : parsed'.limits = parsed.limits
  operations : Option.Rel (List.Forall₂ lib.SameOperation) parsed.operations parsed'.operations

theorem kind_value (kind : WfstKind) : Config.kind kind.value = .ok kind := by cases kind <;> rfl

/-- The algorithm field of a record. -/
theorem algorithm_field {kind : WfstKind} {algorithm : EditAlgorithm}
    (h : ∃ value, Config.algorithm value = .ok algorithm ∧ (kind ≠ .levenshtein → value = 0)) :
    ∃ value, build.algorithmField kind algorithm = .ok value ∧
      Config.algorithm value = .ok algorithm ∧ (kind ≠ .levenshtein → value = 0) := by
  obtain ⟨value, hvalue, hzero⟩ := h
  by_cases hkind : kind = .levenshtein
  · cases algorithm with
    | standard => exact ⟨0, by simp [build.algorithmField, hkind, algorithmValue], rfl, fun _ => rfl⟩
    | transposition => exact ⟨1, by simp [build.algorithmField, hkind, algorithmValue], rfl, fun h => absurd hkind h⟩
    | mergeAndSplit => exact ⟨2, by simp [build.algorithmField, hkind, algorithmValue], rfl, fun h => absurd hkind h⟩
    | damerauLevenshtein => exact ⟨3, by simp [build.algorithmField, hkind, algorithmValue], rfl, fun h => absurd hkind h⟩
    | unrecognized =>
      unfold Config.algorithm at hvalue
      split at hvalue <;> cases hvalue
  · obtain rfl := hzero hkind
    exact ⟨0, by simp [build.algorithmField, hkind], hvalue, fun _ => rfl⟩

theorem distance_field {kind : WfstKind} {maximumDistance : Nat} (hle : maximumDistance ≤ usizeMax)
    (hfzf : kind = .fzf → maximumDistance = 0) :
    build.maximumDistanceField kind maximumDistance = .ok maximumDistance := by
  unfold build.maximumDistanceField
  by_cases hkind : kind = .fzf
  · simp [hkind, hfzf hkind]
  · rw [if_neg hkind, wire_eq_ok]
    exact ⟨rfl, hle⟩

/-- The limits field of a record. -/
theorem buildLimits_ok {limits : Option GeneralizedWfstLimits} (h : ∀ l ∈ limits, LimitsFit l) :
    ∃ box, build.buildLimits alloc limits = .ok box ∧ (limits = none → box = none) ∧
      ∀ memory, (∀ b ∈ box, b.Shows memory) → parseLimits memory (box.elim 0 Box.address) = .ok limits := by
  cases limits with
  | none => exact ⟨none, rfl, fun _ => rfl, fun _ _ => rfl⟩
  | some limits =>
    have hfit := h limits rfl
    refine ⟨some ⟨alloc.limits, limitsFields limits⟩, ?_, fun h => (Option.some_ne_none _ h).elim, ?_⟩
    · simp only [build.buildLimits, bind_eq_ok, pure_eq_ok]
      exact ⟨_, limitsRecord_eq hfit, rfl⟩
    · intro memory hshows
      have hshown := hshows _ rfl
      have hrecord := record_of_shows ("limits") configMaxRecordBytes hshown rfl (by decide) (by decide)
      have hparse : parseLimits memory alloc.limits = .ok (some limits) := by
        rw [parseLimits, Access.parseLimits, if_neg hshown.1.1]
        simp only [Traced.result_bind, Traced.result_lift, Traced.result_pure, Access.result_record, bind_eq_ok, pure_eq_ok]
        exact ⟨_, hrecord, _, decodeLimits_limitsFields hfit, rfl⟩
      exact hparse

/-- The record of options, with empty arrays in their canonical form. -/
def optionsFields (kind : WfstKind) (algorithm maximumDistance cachePolicy cacheCapacity : Nat) (limits operations : Pointer)
    (count : Nat) : DuallityWfstOptionsV1 :=
  ⟨header DuallityWfstOptionsV1, kind.value, algorithm, maximumDistance, cachePolicy, 0, cacheCapacity, limits,
    if count = 0 then 0 else operations, count, if count = 0 then 0 else Record.size DuallityOperationV1, (0, 0)⟩

/-- The operations of a view are parsed back. -/
theorem parseOperations_of_resident (hlists : lib.Lists) {added : List (OwnedOperationType S × List (String × String))}
    {built : Built DuallityOperationV1} {memory : Memory} (hfits : ∀ entry ∈ added, OperationFits lib entry.1 entry.2)
    (hcount : added.length ≤ configMaxOperations) (htotals : (OperationProgress.zero.addAll added).WithinLimits)
    (hrecords : built.records.length = added.length)
    (harray : (⟨alloc.operations, built.records⟩ : Box (List DuallityOperationV1)).ShowsAll memory)
    (hshows : ∀ (index : Nat) (entry : OwnedOperationType S × List (String × String)), added[index]? = some entry →
      ∃ record, built.records[index]? = some record ∧ ShowsOperation lib memory record entry.1) :
    ∃ pointer stride added', pointer = (if added.length = 0 then 0 else alloc.operations) ∧
      stride = (if added.length = 0 then 0 else Record.size DuallityOperationV1) ∧
      arrayShape (Record.size DuallityOperationV1) pointer added.length stride configMaxOperations "operations" =
        .ok added.length ∧
      (List.range' 0 added.length).foldlM (parseOperation lib memory pointer stride) OperationProgress.zero =
        .ok (OperationProgress.zero.addAll added') ∧
      List.Forall₂ lib.SameOperation (added.map Prod.fst) (added'.map Prod.fst) := by
  by_cases hempty : added.length = 0
  · obtain rfl := List.length_eq_zero_iff.mp hempty
    exact ⟨0, 0, [], rfl, rfl, rfl, rfl, .nil⟩
  have hpos : 0 < built.records.length := by omega
  have hpointer : alloc.operations ≠ 0 ∧ recordAlign ∣ alloc.operations := by
    simpa using (harray 0 _ (List.getElem?_eq_getElem hpos)).1
  have hshown : ∀ index entry, added[index]? = some entry →
      ShowsOperation lib memory (memory.operation (alloc.operations + (0 + index) * Record.size DuallityOperationV1)) entry.1 := by
    intro index entry hget
    obtain ⟨record, hrecord, hoperation⟩ := hshows index entry hget
    have hread : memory.operation (alloc.operations + index * Record.size DuallityOperationV1) = record :=
      (harray index record hrecord).2
    rw [Nat.zero_add, hread]
    exact hoperation
  obtain ⟨added', hrun, hsame⟩ := parseOperations_of_shows hlists hpointer hshown hfits ⟨le_rfl, le_rfl, le_rfl⟩ htotals
  exact ⟨alloc.operations, _, added', by simp [hempty], by simp [hempty],
    arrayShape_of_shows _ hpointer rfl rfl (by decide) (by decide) (by decide) hcount (by omega), hrun, hsame⟩

/-- Building a view of accepted options succeeds, and parsing the record that it reads back finds the options again. -/
theorem readback_parses (hlists : lib.Lists) (hvalidates : lib.ValidatesContents) {memory : Memory} {pointer : Pointer}
    {parsed : ParsedOptions S} (hparsed : parseOptions lib memory pointer = .ok parsed) :
    ∃ options record, fromParsed lib alloc parsed = .ok options ∧
      options.readback (some (parsed.cachePolicy.effective parsed.kind)) = .ok record ∧
      ∀ memory' pointer', options.Resident memory' → (⟨pointer', record⟩ : Box DuallityWfstOptionsV1).Shows memory' →
        ∃ parsed', parseOptions lib memory' pointer' = .ok parsed' ∧ SameOptions lib parsed parsed' := by
  obtain ⟨added, accepted⟩ := parseOptions_ok hparsed
  obtain ⟨box, hbox, hboxNone, hlimits⟩ := buildLimits_ok alloc accepted.limits
  obtain ⟨built, hbuilt, hrecords, hshows⟩ :=
    buildOperations_ok alloc hlists accepted.fits (fun entry hmem => accepted.totals.of_mem hmem) 0
  obtain ⟨value, hvalue, halgorithm, hsentinel⟩ := algorithm_field accepted.algorithm
  obtain ⟨selector, capacity, requested, heffective, hrequested, hsame⟩ :=
    cachePolicy_effective parsed.kind accepted.capacity
  have hcatalog : parsed.operations.getD [] = added.map Prod.fst := by
    rw [accepted.operations]
    cases added <;> simp
  have hcount : built.records.length ≤ u64Max := by
    rw [hrecords]
    exact accepted.count.trans (by decide)
  have hfrom : fromParsed lib alloc parsed = .ok ⟨parsed.kind,
      optionsFields parsed.kind value parsed.maximumDistance 0 0 (box.elim 0 Box.address) alloc.operations added.length,
      box, ⟨alloc.operations, built.records⟩, built.restrictions, built.text⟩ := by
    simp only [fromParsed, build, bind_eq_ok, pure_eq_ok, hcatalog, wire_eq_ok]
    refine ⟨_, hbox, _, hbuilt, _, ⟨rfl, hcount⟩, _, hvalue, _, distance_field accepted.maximumDistance accepted.fzf, ?_⟩
    rw [hrecords]
    rfl
  refine ⟨_, optionsFields parsed.kind value parsed.maximumDistance selector capacity (box.elim 0 Box.address)
    alloc.operations added.length, hfrom, ?_, ?_⟩
  · simp only [readback, heffective, bind_eq_ok, pure_eq_ok]
    exact ⟨_, rfl, rfl⟩
  intro memory' pointer' hresident hshown
  have hrecord := record_of_shows "options" configMaxRecordBytes hshown rfl (by decide) (by decide)
  obtain ⟨pointer, stride, added', hpointer, hstride, hshape, hrun, hoperations⟩ :=
    parseOperations_of_resident alloc hlists accepted.fits accepted.count accepted.totals hrecords hresident.operations
      (hshows memory' hresident.restrictions hresident.text)
  subst hpointer hstride
  have hplain : ¬parsed.kind.generalized = true → box.elim 0 Box.address = 0 ∧ added.length = 0 := by
    intro hgeneralized
    obtain ⟨hnone, hempty⟩ := accepted.plain (by simpa using hgeneralized)
    simp [hboxNone hnone, hempty]
  refine ⟨⟨parsed.kind, parsed.algorithm, parsed.maximumDistance, requested, parsed.limits,
    if added.length > 0 then some (added'.map Prod.fst) else none⟩, ?_, rfl, rfl, rfl, hsame, rfl, ?_⟩
  · simp only [parseOptions, Access.parseOptions, Traced.result_bind, Traced.result_lift, Traced.result_pure, Traced.result_foldlM,
      Access.result_record, Access.result_parseLimits, Access.result_parseOperation, bind_eq_ok, rejectIf_eq_ok, integer_eq_ok,
      pure_eq_ok, validateOperations_eq_ok, not_and, not_or, not_lt, not_not]
    refine ⟨_, hrecord, (), ⟨rfl, rfl⟩, _, kind_value _, _, halgorithm, _, ⟨rfl, accepted.maximumDistance⟩, _, hrequested, (),
      hsentinel, (), accepted.fzf, (), accepted.bounded, (), hplain, _, hlimits memory' hresident.limits, _, hshape, _, hrun,
      (), ?_, ?_⟩
    · intro hpos
      rw [operations_zero_addAll]
      exact hvalidates _ _ hoperations (accepted.validates hpos)
    · rw [operations_zero_addAll]
      rfl
  · rw [accepted.operations]
    split
    · exact .some hoperations
    · exact .none

/-! ### One catalog -/

/-- Substitution sets as lists without repetition. -/
def pairSets : SubstitutionLibrary (List (String × String)) where
  withCapacity _ := []
  allowStr set source target := set.insert (source, target)
  pairs set := set.map fun pair => .strings pair.1 pair.2
  validate _ := .ok ()

theorem mem_insertAll {set inserted : List (String × String)} {pair : String × String} :
    pair ∈ pairSets.insertAll set inserted ↔ pair ∈ set ∨ pair ∈ inserted := by
  induction inserted generalizing set with
  | nil => simp [SubstitutionLibrary.insertAll]
  | cons head inserted ih =>
    have hstep : pairSets.insertAll set (head :: inserted) = pairSets.insertAll (set.insert head) inserted := rfl
    rw [hstep, ih, List.mem_insert_iff, List.mem_cons]
    tauto

theorem nodup_insertAll {set inserted : List (String × String)} (h : set.Nodup) :
    (pairSets.insertAll set inserted).Nodup := by
  induction inserted generalizing set with
  | nil => exact h
  | cons head inserted ih => exact ih h.insert

theorem pairBytes_injective : Function.Injective pairBytes := by
  intro pair pair' h
  obtain ⟨hsource, htarget⟩ := Prod.mk.inj h
  have hinj {text text' : String} (h : utf8Bytes text = utf8Bytes text') : text = text' :=
    Option.some.inj ((fromUtf8?_eq_some.mpr rfl).symm.trans (fromUtf8?_eq_some.mpr h.symm))
  exact Prod.ext (hinj hsource) (hinj htarget)

theorem listed_pairSets (set : List (String × String)) : pairSets.listed set = set.map pairBytes := by
  rw [SubstitutionLibrary.listed, pairSets, List.map_map]
  rfl

theorem pairSets_lists : pairSets.Lists where
  nodup _ _ := by
    rw [listed_pairSets]
    exact (nodup_insertAll .nil).map pairBytes_injective
  mem _ _ _ := by
    simp only [listed_pairSets, List.mem_map, mem_insertAll]
    simp [pairSets]

/-- Two copies of a catalog whose operation rewrites `ph` to `f`; the first lists its pair twice. -/
def catalogMemory : Memory where
  byte pointer := match pointer % 65536 with
    | 1000 => 112
    | 1001 => 104
    | 2000 => 112
    | 2001 => 104
    | 3000 => 102
    | _ => 0
  restriction pointer := ⟨⟨64, 1, 0⟩, pointer / 65536 * 65536 + 2000, 2, pointer / 65536 * 65536 + 3000, 1, (0, 0)⟩
  operation pointer := ⟨⟨104, 1, 0⟩, 2, 1, ⟨4602678819172646912#64⟩, 3, 0, pointer / 65536 * 65536 + 1000, 2,
    pointer / 65536 * 65536 + 1024, if pointer < 65536 then 2 else 1, 64, (0, 0)⟩
  limits _ := ⟨⟨96, 1, 0⟩, 0, 0, 0, 0, 0, 0, 0, 0, (0, 0)⟩
  options pointer := ⟨⟨96, 1, 0⟩, 7, 0, 1, 2, 0, if pointer < 65536 then 0 else 100000, 0, pointer / 65536 * 65536 + 512, 1,
    104, (0, 0)⟩

def catalogAllocator : Allocator := ⟨0, 66048, fun _ => 66560, fun _ => 66536, fun _ _ => 67536, fun _ _ => 68536⟩

def catalogOptions : ParsedOptions (List (String × String)) :=
  ⟨.generalizedPhonetic, .standard, 1, .lru 0, none, some [⟨2, 1, ⟨4602678819172646912#64⟩, .listed [("ph", "f")], "ph"⟩]⟩

def catalogView : OwnedOptions :=
  ⟨.generalizedPhonetic, ⟨⟨96, 1, 0⟩, 7, 0, 1, 0, 0, 0, 0, 66048, 1, 104, (0, 0)⟩, none,
    ⟨66048, [⟨⟨104, 1, 0⟩, 2, 1, ⟨4602678819172646912#64⟩, 3, 0, 66536, 2, 66560, 1, 64, (0, 0)⟩]⟩,
    [⟨66560, [⟨⟨64, 1, 0⟩, 67536, 2, 68536, 1, (0, 0)⟩]⟩], [⟨66536, [112, 104]⟩, ⟨67536, [112, 104]⟩, ⟨68536, [102]⟩]⟩

theorem showsAll_singleton {T : Type} [Record T] {memory : Memory} {address : Pointer} {value : T} :
    (⟨address, [value]⟩ : Box (List T)).ShowsAll memory ↔ (⟨address, value⟩ : Box T).Shows memory := by
  constructor
  · intro h
    simpa using h 0 value rfl
  · intro h index value' hget
    obtain ⟨rfl, rfl⟩ : index = 0 ∧ value = value' := by simpa [List.getElem?_singleton] using hget
    simpa using h

theorem resident_catalogView : catalogView.Resident catalogMemory where
  limits := by simp [catalogView]
  operations := showsAll_singleton.mpr ⟨by decide, rfl⟩
  restrictions := by
    simp only [catalogView, List.forall_mem_singleton, showsAll_singleton]
    exact ⟨by decide, rfl⟩
  text := by
    simp only [catalogView, List.forall_mem_cons, List.not_mem_nil, false_implies, implies_true, and_true]
    exact ⟨⟨by decide, by decide⟩, ⟨by decide, by decide⟩, ⟨by decide, by decide⟩⟩

theorem readback_parses_catalog :
    ∃ options record, fromParsed pairSets catalogAllocator catalogOptions = .ok options ∧
      options.readback (some (.lru 100000)) = .ok record ∧
      (options.Resident catalogMemory ∧ (⟨65544, record⟩ : Box DuallityWfstOptionsV1).Shows catalogMemory) ∧
      ∃ parsed, parseOptions pairSets catalogMemory 65544 = .ok parsed ∧ SameOptions pairSets catalogOptions parsed := by
  have hparsed : parseOptions pairSets catalogMemory 8 = .ok catalogOptions := by decide +kernel
  obtain ⟨options, record, hoptions, hrecord, hparse⟩ :=
    readback_parses catalogAllocator pairSets_lists (fun _ _ _ _ => rfl) hparsed
  have hview : fromParsed pairSets catalogAllocator catalogOptions = .ok catalogView := by decide +kernel
  have hreadback : catalogView.readback (some (.lru 100000)) = .ok (catalogMemory.options 65544) := by decide +kernel
  obtain rfl : catalogView = options := Except.ok.inj (hview.symm.trans hoptions)
  obtain rfl : catalogMemory.options 65544 = record := Except.ok.inj (hreadback.symm.trans hrecord)
  have hshows : (⟨65544, catalogMemory.options 65544⟩ : Box DuallityWfstOptionsV1).Shows catalogMemory := ⟨by decide, rfl⟩
  exact ⟨_, _, hoptions, hrecord, ⟨resident_catalogView, hshows⟩,
    hparse catalogMemory 65544 resident_catalogView hshows⟩

end OwnedOptions

end Duallity
