import Duallity.Ffi.Config
import Duallity.WallBreaker.Paths
import Mathlib.Algebra.Order.BigOperators.Group.List

/-! Ingress of WallBreaker results (`ffi/wallbreaker.rs`). Records of terms and distances are read one after the other, and the
    constructor goes through exactly for distinct texts within the limits. What it exports spells them. -/

namespace Duallity

def maxResults : Nat := 4096
def maxResultBytes : Nat := 1048576
def maxTextScalars : Nat := 256

structure DuallityWallBreakerResultV1 where
  header : DuallityRecordHeaderV1
  termData : Pointer
  termLen : Nat
  distance : Nat
  reserved : Nat × Nat
deriving DecidableEq

/-- The number that the bytes from an address on stand for, the least significant first. -/
def Memory.word (memory : Memory) (pointer : Pointer) (width : Nat) : Nat :=
  (memory.bytes pointer width).foldr (fun byte n => byte.toNat + 256 * n) 0

instance : Record DuallityWallBreakerResultV1 where
  size := 56
  header := DuallityWallBreakerResultV1.header
  read memory pointer :=
    ⟨⟨memory.word pointer 4, memory.word (pointer + 4) 4, memory.word (pointer + 8) 8⟩, memory.word (pointer + 16) 8,
      memory.word (pointer + 24) 8, memory.word (pointer + 32) 8, (memory.word (pointer + 40) 8, memory.word (pointer + 48) 8)⟩

/-- What a caller gets; the results are owned. -/
structure WallBreakerHandle where
  query : String
  maximumDistance : Nat
  algorithm : EditAlgorithm
  wfst : WallBreakerWfst
  cachePolicy : SharedCachePolicy

/-- What has been read so far. -/
structure ResultProgress where
  totalBytes : Nat
  seen : List String
  owned : List WallBreakerResult

namespace Config

/-- `checked_pointer`, of a pointer-aligned slot. -/
def checkedPointer (pointer : Pointer) (name : String) : Except Rejection Pointer := do
  rejectIf (pointer = 0) .nullPointer s!"{name} is null"
  rejectIf (¬recordAlign ∣ pointer) .invalidArgument s!"{name} is not aligned"
  return pointer

def query (memory : Memory) (data : Pointer) (len : Nat) : Except Rejection String := do
  rejectIf (data = 0 ∧ len ≠ 0) .nullPointer "query data is null"
  okOrReject (fromUtf8? (memory.bytes data len)) .invalidUtf8 "query is not valid UTF-8"

/-- One record: its term and its distance. -/
def parseResult (memory : Memory) (results : Pointer) (stride maximumDistance : Nat) (progress : ResultProgress) (index : Nat) :
    Except Rejection ResultProgress := do
  let item : DuallityWallBreakerResultV1 ← record memory (results + index * stride) "WallBreaker result" stride
  rejectIf (item.reserved ≠ (0, 0)) .invalidArgument "WallBreaker result reserved fields are nonzero"
  rejectIf (item.distance > maximumDistance) .invalidArgument "WallBreaker result distance exceeds maximum_distance"
  let termLen ← okOrReject (if item.termLen ≤ usizeMax then some item.termLen else none) .limitExceeded
    "WallBreaker result length exceeds address space"
  let totalBytes ← okOrReject (checkedAdd usizeMax progress.totalBytes termLen) .limitExceeded
    "WallBreaker result byte total overflows"
  rejectIf (totalBytes > maxResultBytes) .limitExceeded "WallBreaker result byte limit exceeded"
  rejectIf (termLen > 0 ∧ item.termData = 0) .nullPointer "WallBreaker result term_data is null"
  let term ← okOrReject (fromUtf8? (memory.bytes item.termData termLen)) .invalidUtf8 "WallBreaker result term is not UTF-8"
  rejectIf (term.length > maxTextScalars) .limitExceeded "WallBreaker result term scalar limit exceeded"
  rejectIf (term ∈ progress.seen) .invalidArgument "WallBreaker result term is duplicated"
  return ⟨totalBytes, term :: progress.seen, progress.owned ++ [⟨term.toList, item.distance⟩]⟩

/-- `duallity_wallbreaker_wfst_new_results`: what the slot receives, or the rejection that leaves it null. -/
def newResults (memory : Memory) (queryData : Pointer) (queryLen algorithmValue maximumDistance : Nat) (results : Pointer)
    (resultCount resultStride policy cacheCapacity : Nat) (outWfst : Pointer) : Except Rejection WallBreakerHandle := do
  let _ ← checkedPointer outWfst "out_wfst"
  let query ← query memory queryData queryLen
  rejectIf (query.length > maxTextScalars) .limitExceeded "WallBreaker query scalar limit exceeded"
  rejectIf (maximumDistance > 8) .invalidArgument "WallBreaker maximum_distance must be in 0:8"
  let algorithm ← algorithm algorithmValue
  rejectIf (algorithmValue > 2) .invalidArgument
    "WallBreaker supports standard, transposition, and merge-and-split algorithms"
  let policy ← cachePolicy policy cacheCapacity
  let count ← arrayShape (Record.size DuallityWallBreakerResultV1) results resultCount resultStride maxResults
    "WallBreaker results"
  let progress ← (List.range' 0 count).foldlM (parseResult memory results resultStride maximumDistance) ⟨0, [], []⟩
  return ⟨query, maximumDistance, algorithm, .fromOwnedResults maximumDistance progress.owned, policy.effective .levenshtein⟩

end Config

/-! ### What goes through -/

/-- A record shows a text and a distance. -/
structure ShowsResult (memory : Memory) (pointer stride maximumDistance : Nat) (shown : String × Nat) : Prop where
  item : ∃ item : DuallityWallBreakerResultV1, record memory pointer "WallBreaker result" stride = .ok item ∧ item.reserved = (0, 0) ∧
    item.distance = shown.2 ∧ item.termLen = (utf8Bytes shown.1).length ∧ (item.termLen > 0 → item.termData ≠ 0) ∧
    memory.bytes item.termData item.termLen = utf8Bytes shown.1
  distance_le : shown.2 ≤ maximumDistance
  length_le : shown.1.length ≤ maxTextScalars

def textBytes (shown : List (String × Nat)) : Nat := (shown.map fun s => (utf8Bytes s.1).length).sum

def resultOf (shown : String × Nat) : WallBreakerResult := ⟨shown.1.toList, shown.2⟩

/-- A caller's memory shows a result set: distinct texts, within the limits. -/
structure ShowsResults (memory : Memory) (results : Pointer) (stride count maximumDistance : Nat) (shown : List (String × Nat)) : Prop where
  records : List.Forall₂ (fun i s => ShowsResult memory (results + i * stride) stride maximumDistance s) (List.range' 0 count) shown
  nodup : (shown.map Prod.fst).Nodup
  bytes_le : textBytes shown ≤ maxResultBytes

/-- A caller asks within the limits, for a query, and shows a result set. -/
structure ShowsRequest (memory : Memory) (queryData : Pointer) (queryLen algorithmValue maximumDistance : Nat) (results : Pointer)
    (resultCount resultStride policy cacheCapacity : Nat) (outWfst : Pointer) (query : String) (shown : List (String × Nat)) : Prop where
  slot : outWfst ≠ 0 ∧ recordAlign ∣ outWfst
  query_data : queryLen ≠ 0 → queryData ≠ 0
  query_bytes : memory.bytes queryData queryLen = utf8Bytes query
  query_le : query.length ≤ maxTextScalars
  distance_le : maximumDistance ≤ 8
  algorithm_le : algorithmValue ≤ 2
  cache : ∃ requested, Config.cachePolicy policy cacheCapacity = .ok requested
  array : arrayShape (Record.size DuallityWallBreakerResultV1) results resultCount resultStride maxResults "WallBreaker results" =
    .ok resultCount
  results : ShowsResults memory results resultStride resultCount maximumDistance shown

/-- What reading adds. -/
def ResultProgress.add (progress : ResultProgress) (shown : List (String × Nat)) : ResultProgress :=
  ⟨progress.totalBytes + textBytes shown, (shown.map Prod.fst).reverse ++ progress.seen, progress.owned ++ shown.map resultOf⟩

namespace Config
section Results
variable {memory : Memory} {results : Pointer} {stride maximumDistance : Nat} {progress progress' : ResultProgress} {index start count : Nat}
  {s : String × Nat} {shown : List (String × Nat)}

theorem textBytes_cons : textBytes (s :: shown) = (utf8Bytes s.1).length + textBytes shown := by simp [textBytes]

theorem add_add : (progress.add [s]).add shown = progress.add (s :: shown) := by
  simp [ResultProgress.add, textBytes, Nat.add_assoc]

theorem parseResult_eq_ok : parseResult memory results stride maximumDistance progress index = .ok progress' ↔
    ∃ s, ShowsResult memory (results + index * stride) stride maximumDistance s ∧ s.1 ∉ progress.seen ∧
      progress.totalBytes + (utf8Bytes s.1).length ≤ maxResultBytes ∧ progress' = progress.add [s] := by
  have hmax : maxResultBytes ≤ usizeMax := by decide
  simp only [parseResult, bind_eq_ok, rejectIf_eq_ok, okOrReject_eq_ok, pure_eq_ok, checkedAdd_eq_some, Option.ite_none_right_eq_some,
    Option.some.injEq, fromUtf8?_eq_some, not_lt, not_and, not_not]
  constructor
  · rintro ⟨item, hitem, -, hreserved, -, hdistance, _, ⟨hfits, rfl⟩, _, ⟨rfl, hadd⟩, -, htotal, -, hnull, text, hbytes, -, hlength, -, hnew,
      rfl⟩
    have hlen : item.termLen = (utf8Bytes text).length := by rw [hbytes, length_bytes]
    refine ⟨(text, item.distance), ⟨⟨item, hitem, hreserved, rfl, hlen, hnull, hbytes.symm⟩, hdistance, hlength⟩, hnew, hlen ▸ htotal, ?_⟩
    simp [ResultProgress.add, textBytes, resultOf, hlen]
  · rintro ⟨⟨text, distance⟩, ⟨⟨item, hitem, hreserved, rfl, hlen, hnull, hbytes⟩, hdistance, hlength⟩, hnew, htotal, rfl⟩
    have htotal' : progress.totalBytes + item.termLen ≤ maxResultBytes := hlen ▸ htotal
    have hfits : item.termLen ≤ usizeMax := by omega
    refine ⟨item, hitem, (), hreserved, (), hdistance, _, ⟨hfits, rfl⟩, _, ⟨rfl, htotal'.trans hmax⟩, (), htotal', (), hnull, text, hbytes.symm,
      (), hlength, (), hnew, ?_⟩
    simp [ResultProgress.add, textBytes, resultOf, hlen]

theorem parseResults_eq_ok (hbytes : progress.totalBytes ≤ maxResultBytes) :
    (List.range' start count).foldlM (parseResult memory results stride maximumDistance) progress = .ok progress' ↔
      ∃ shown, List.Forall₂ (fun i s => ShowsResult memory (results + i * stride) stride maximumDistance s)
        (List.range' start count) shown ∧ (shown.map Prod.fst).Nodup ∧ (∀ s ∈ shown, s.1 ∉ progress.seen) ∧
        progress.totalBytes + textBytes shown ≤ maxResultBytes ∧ progress' = progress.add shown := by
  induction count generalizing start progress with
  | zero =>
    refine ⟨fun h => ⟨[], .nil, List.nodup_nil, nofun, hbytes, ?_⟩, ?_⟩
    · cases h
      simp [ResultProgress.add, textBytes]
    · rintro ⟨shown, hshown, -, -, -, rfl⟩
      cases hshown
      simp [ResultProgress.add, textBytes, pure, Except.pure]
  | succ count ih =>
    rw [List.range'_succ, List.foldlM_cons, bind_eq_ok]
    constructor
    · rintro ⟨next, hnext, hrest⟩
      obtain ⟨s, hs, hnew, htotal, rfl⟩ := parseResult_eq_ok.mp hnext
      obtain ⟨shown, hshown, hnodup, hfresh, hsum, rfl⟩ := (ih (by simpa [ResultProgress.add, textBytes] using htotal)).mp hrest
      have hseen (s' : String × Nat) (hs' : s' ∈ shown) : s'.1 ≠ s.1 ∧ s'.1 ∉ progress.seen := by
        simpa [ResultProgress.add] using hfresh s' hs'
      refine ⟨s :: shown, .cons hs hshown, List.nodup_cons.mpr ⟨?_, hnodup⟩, ?_, ?_, add_add⟩
      · intro hmem
        obtain ⟨s', hs', heq⟩ := List.mem_map.mp hmem
        exact (hseen s' hs').1 heq
      · intro s' hs'
        rcases List.mem_cons.mp hs' with rfl | hs'
        · exact hnew
        · exact (hseen s' hs').2
      · simpa [ResultProgress.add, textBytes, Nat.add_assoc] using hsum
    · rintro ⟨shown, hshown, hnodup, hfresh, hsum, rfl⟩
      obtain ⟨s, rest, hs, hrest, rfl⟩ := List.forall₂_cons_left_iff.mp hshown
      obtain ⟨hout, hnodup⟩ := List.nodup_cons.mp hnodup
      rw [textBytes_cons, ← Nat.add_assoc] at hsum
      have htotal := (Nat.le_add_right _ _).trans hsum
      refine ⟨_, parseResult_eq_ok.mpr ⟨s, hs, hfresh s List.mem_cons_self, htotal, rfl⟩, ?_⟩
      refine (ih (by simpa [ResultProgress.add, textBytes] using htotal)).mpr ⟨rest, hrest, hnodup, ?_, ?_, add_add.symm⟩
      · intro s' hs'
        have hne : s'.1 ≠ s.1 := fun heq => hout (heq ▸ List.mem_map_of_mem hs')
        simpa [ResultProgress.add] using ⟨hne, hfresh s' (List.mem_cons_of_mem _ hs')⟩
      · simpa [ResultProgress.add, textBytes] using hsum

end Results

section Ingress
variable {memory : Memory} {queryData results outWfst : Pointer}
  {queryLen algorithmValue maximumDistance resultCount resultStride policy cacheCapacity : Nat} {query : String} {shown : List (String × Nat)}

theorem shows_of_newResults {handle : WallBreakerHandle}
    (h : newResults memory queryData queryLen algorithmValue maximumDistance results resultCount resultStride policy cacheCapacity outWfst =
      .ok handle) :
    ∃ query shown, ShowsRequest memory queryData queryLen algorithmValue maximumDistance results resultCount resultStride policy cacheCapacity
      outWfst query shown := by
  simp only [newResults, checkedPointer, Config.query, bind_eq_ok, rejectIf_eq_ok, okOrReject_eq_ok, pure_eq_ok, fromUtf8?_eq_some, not_lt,
    not_and, not_not] at h
  obtain ⟨-, ⟨-, hnull, -, halign, -⟩, query, ⟨-, hdata, hquery⟩, -, hlength, -, hdistance, -, -, -, halgorithm, requested, hcache, count, harray,
    progress, hrun, -⟩ := h
  obtain rfl := (arrayShape_eq_ok.mp harray).1
  obtain ⟨shown, hshown, hnodup, -, hbytes, -⟩ := (parseResults_eq_ok (Nat.zero_le _)).mp hrun
  refine ⟨query, shown, ⟨hnull, halign⟩, fun hlen hzero => hlen (hdata hzero), hquery.symm, hlength, hdistance, halgorithm, ⟨requested, hcache⟩,
    harray, hshown, hnodup, ?_⟩
  simpa using hbytes

theorem algorithm_of_le (h : algorithmValue ≤ 2) : ∃ value, algorithm algorithmValue = .ok value := by
  obtain rfl | rfl | rfl : algorithmValue = 0 ∨ algorithmValue = 1 ∨ algorithmValue = 2 := by omega
  all_goals exact ⟨_, rfl⟩

theorem newResults_of_shows
    (h : ShowsRequest memory queryData queryLen algorithmValue maximumDistance results resultCount resultStride policy cacheCapacity outWfst
      query shown) :
    ∃ algorithm requested, newResults memory queryData queryLen algorithmValue maximumDistance results resultCount resultStride policy
        cacheCapacity outWfst = .ok ⟨query, maximumDistance, algorithm, .fromOwnedResults maximumDistance (shown.map resultOf),
          RequestedCachePolicy.effective requested .levenshtein⟩ ∧
      Config.algorithm algorithmValue = .ok algorithm ∧ Config.cachePolicy policy cacheCapacity = .ok requested := by
  obtain ⟨value, halgorithm⟩ := algorithm_of_le h.algorithm_le
  obtain ⟨requested, hcache⟩ := h.cache
  have hrun : (List.range' 0 resultCount).foldlM (parseResult memory results resultStride maximumDistance) ⟨0, [], []⟩ =
      .ok ((⟨0, [], []⟩ : ResultProgress).add shown) := by
    refine (parseResults_eq_ok (Nat.zero_le _)).mpr ⟨shown, h.results.records, h.results.nodup, ?_, ?_, rfl⟩
    · simp
    · simpa using h.results.bytes_le
  refine ⟨value, requested, ?_, halgorithm, hcache⟩
  simp only [newResults, checkedPointer, Config.query, bind_eq_ok, rejectIf_eq_ok, okOrReject_eq_ok, pure_eq_ok, fromUtf8?_eq_some, not_lt,
    not_and, not_not]
  refine ⟨_, ⟨(), h.slot.1, (), h.slot.2, rfl⟩, query, ⟨(), ?_, h.query_bytes.symm⟩, (), h.query_le, (), h.distance_le, value, halgorithm, (),
    h.algorithm_le, requested, hcache, resultCount, h.array, _, hrun, ?_⟩
  · intro hzero
    by_contra hlen
    exact h.query_data hlen hzero
  · simp [ResultProgress.add]

end Ingress
end Config

namespace WallBreakerWfst
section Distinct
variable {maxDistance : Nat} {results : List WallBreakerResult} {r : WallBreakerResult}

/-- Distinct terms at kept distances are all retained, as they are. -/
theorem mem_normalize_iff (hnodup : (results.map WallBreakerResult.term).Nodup)
    (hkept : ∀ r ∈ results, KeptDistance maxDistance r.distance) : r ∈ normalizeWallbreakerResults results maxDistance ↔ r ∈ results := by
  obtain ⟨t, d⟩ := r
  rw [← isLeast_iff_mem (reduced_normalize maxDistance results)]
  refine ⟨fun h => h.1.1, fun h => ⟨⟨h, hkept _ h⟩, ?_⟩⟩
  rintro d' ⟨hd', -⟩
  have heq := List.inj_on_of_nodup_map hnodup h hd' rfl
  exact (congrArg WallBreakerResult.distance heq).le

theorem Retained.accepts_forest_iff (h : Retained maxDistance results) {x y : List Char} {v : Nat} :
    (ArcPath.machine (forest maxDistance results).expandState).Accepts start x y v ↔ x = y ∧ ⟨x, v⟩ ∈ results := by
  rw [ArcPath.accepts_iff_exists_isPath]
  constructor
  · rintro ⟨arcs, t, e, f, hpath, he, hf, rfl, rfl, rfl⟩
    obtain ⟨i, r, hr, rfl, rfl⟩ := h.accepting_iff.mp ⟨t, e, hpath, he, hf⟩
    simpa [inputs_spell, outputs_spell, weight_spell] using List.mem_of_getElem? hr
  · rintro ⟨rfl, hmem⟩
    obtain ⟨i, hr⟩ := List.getElem?_of_mem hmem
    obtain ⟨t, e, hpath, he, hf⟩ := h.accepting_iff.mpr ⟨i, _, hr, rfl, rfl⟩
    exact ⟨_, t, e, v, hpath, he, hf, by simp [inputs_spell], by simp [outputs_spell], by simp [weight_spell]⟩

theorem Retained.existsUnique_accepting (h : Retained maxDistance results) (hr : r ∈ results) :
    ∃! arcs, ArcPath.IsAccepting (forest maxDistance results).expandState start r.term r.term arcs := by
  obtain ⟨i, hi⟩ := List.getElem?_of_mem hr
  obtain ⟨t, e, hpath, he, hf⟩ := h.accepting_iff.mpr ⟨i, r, hi, rfl, rfl⟩
  refine ⟨_, ⟨t, e, hpath, he, by simp [hf], by simp [inputs_spell], by simp [outputs_spell]⟩, ?_⟩
  rintro arcs ⟨t, e, hpath, he, hf, hx, -⟩
  obtain ⟨f, hf⟩ := Option.isSome_iff_exists.mp hf
  obtain ⟨j, r', hj, -, rfl⟩ := h.accepting_iff.mp ⟨t, e, hpath, he, hf⟩
  rw [inputs_spell, List.take_length] at hx
  cases h.index_inj hj hi hx
  cases hi.symm.trans hj
  rfl

end Distinct
end WallBreakerWfst

namespace ShowsResults
variable {memory : Memory} {results : Pointer} {stride count maximumDistance : Nat} {shown : List (String × Nat)}

theorem shows (h : ShowsResults memory results stride count maximumDistance shown) {s : String × Nat} (hs : s ∈ shown) :
    ∃ i, ShowsResult memory (results + i * stride) stride maximumDistance s := by
  obtain ⟨n, hn, rfl⟩ := List.mem_iff_getElem.mp hs
  exact ⟨_, h.records.get (by rw [h.records.length_eq]; exact hn) hn⟩

theorem length_eq (h : ShowsResults memory results stride count maximumDistance shown) : shown.length = count := by
  rw [← h.records.length_eq, List.length_range']

theorem nodup_terms (h : ShowsResults memory results stride count maximumDistance shown) :
    ((shown.map resultOf).map WallBreakerResult.term).Nodup := by
  have hmap : (shown.map resultOf).map WallBreakerResult.term = (shown.map Prod.fst).map String.toList := by simp [resultOf]
  rw [hmap]
  exact h.nodup.map fun s t => String.toList_inj.mp

theorem kept (h : ShowsResults memory results stride count maximumDistance shown) (hle : maximumDistance ≤ 8) :
    ∀ r ∈ shown.map resultOf, KeptDistance maximumDistance r.distance := by
  intro r hr
  obtain ⟨s, hs, rfl⟩ := List.mem_map.mp hr
  obtain ⟨i, hi⟩ := h.shows hs
  have hdistance : (resultOf s).distance ≤ maximumDistance := hi.distance_le
  exact ⟨hdistance, by omega⟩

/-- The limits leave an id for each character. -/
theorem spansFit (h : ShowsResults memory results stride count maximumDistance shown) (hcount : count ≤ maxResults) :
    WallBreakerWfst.SpansFit maximumDistance (shown.map resultOf) := by
  have hterm (t : List Char) (ht : t ∈ WallBreakerWfst.retainedTerms maximumDistance (shown.map resultOf)) : t.length ≤ maxTextScalars := by
    obtain ⟨d, hd, -⟩ := WallBreakerWfst.mem_retainedTerms.mp ht
    obtain ⟨s, hs, heq⟩ := List.mem_map.mp hd
    obtain ⟨i, hi⟩ := h.shows hs
    cases heq
    simpa [resultOf, String.length_toList] using hi.length_le
  have hlength : (WallBreakerWfst.retainedTerms maximumDistance (shown.map resultOf)).length ≤ maxResults := by
    refine (List.dedup_sublist _).length_le.trans ?_
    rw [List.length_map]
    refine (List.length_filter_le _ _).trans ?_
    rw [List.length_map, h.length_eq]
    exact hcount
  have hsum := List.sum_le_card_nsmul
    ((WallBreakerWfst.retainedTerms maximumDistance (shown.map resultOf)).map List.length) maxTextScalars (by simpa using hterm)
  rw [WallBreakerWfst.SpansFit, List.length_flatten]
  simp only [List.length_map, nsmul_eq_mul, Nat.cast_id, maxTextScalars, maxResults, u32Count] at *
  omega

end ShowsResults

/-- The constructor goes through exactly for requests within the limits, and what it exports spells each shown text with its
    distance, on one path, and nothing else. -/
theorem ingress_spelled (memory : Memory) (queryData results outWfst : Pointer)
    (queryLen algorithmValue maximumDistance resultCount resultStride policy cacheCapacity : Nat) :
    (∀ handle, Config.newResults memory queryData queryLen algorithmValue maximumDistance results resultCount resultStride policy
        cacheCapacity outWfst = .ok handle →
      ∃ query shown, ShowsRequest memory queryData queryLen algorithmValue maximumDistance results resultCount resultStride policy
        cacheCapacity outWfst query shown) ∧
    ∀ query shown, ShowsRequest memory queryData queryLen algorithmValue maximumDistance results resultCount resultStride policy
        cacheCapacity outWfst query shown →
      ∃ handle, Config.newResults memory queryData queryLen algorithmValue maximumDistance results resultCount resultStride policy
          cacheCapacity outWfst = .ok handle ∧ handle.query = query ∧
        (∀ x y v, (ArcPath.machine handle.wfst.expandState).Accepts WallBreakerWfst.start x y v ↔
          x = y ∧ ∃ text, (text, v) ∈ shown ∧ text.toList = x) ∧
        ∀ entry ∈ shown, ∃! arcs,
          ArcPath.IsAccepting handle.wfst.expandState WallBreakerWfst.start entry.1.toList entry.1.toList arcs := by
  refine ⟨fun handle h => Config.shows_of_newResults h, ?_⟩
  intro query shown h
  obtain ⟨algorithm, requested, hok, -, -⟩ := Config.newResults_of_shows h
  have hcount : resultCount ≤ maxResults := by
    by_cases hzero : resultCount = 0
    · exact hzero ▸ Nat.zero_le _
    · exact ((arrayShape_eq_ok.mp h.array).2.2 hzero).2.1.2
  have hretained := WallBreakerWfst.retained_normalize (h.results.spansFit hcount)
  have hmem := fun r : WallBreakerResult => WallBreakerWfst.mem_normalize_iff (r := r) h.results.nodup_terms (h.results.kept h.distance_le)
  refine ⟨_, hok, rfl, ?_, ?_⟩
  · intro x y v
    refine hretained.accepts_forest_iff.trans (and_congr_right fun _ => (hmem _).trans ?_)
    simp [resultOf]
  · intro entry hentry
    exact hretained.existsUnique_accepting ((hmem (resultOf entry)).mpr (List.mem_map_of_mem hentry))

/-- Two records, of a text of one byte and of one character of two bytes. -/
def resultMemory : Memory where
  byte
    | 8 => 56
    | 12 => 1
    | 24 => 200
    | 32 => 1
    | 40 => 1
    | 64 => 56
    | 68 => 1
    | 80 => 201
    | 88 => 2
    | 96 => 2
    | 200 => 0x61
    | 201 => 0xc3
    | 202 => 0xa9
    | _ => 0
  restriction _ := ⟨⟨0, 0, 0⟩, 0, 0, 0, 0, (0, 0)⟩
  operation _ := ⟨⟨0, 0, 0⟩, 0, 0, ⟨0⟩, 0, 0, 0, 0, 0, 0, 0, (0, 0)⟩
  limits _ := ⟨⟨0, 0, 0⟩, 0, 0, 0, 0, 0, 0, 0, 0, (0, 0)⟩
  options _ := ⟨⟨0, 0, 0⟩, 0, 0, 0, 0, 0, 0, 0, 0, 0, 0, (0, 0)⟩

theorem showsRequest_resultMemory : ShowsRequest resultMemory 0 0 1 2 8 2 56 2 0 128 "" [("a", 1), ("\u00e9", 2)] where
  slot := by decide
  query_data := nofun
  query_bytes := by decide
  query_le := by decide
  distance_le := by decide
  algorithm_le := by decide
  cache := ⟨.lru 0, rfl⟩
  array := by decide
  results := by
    have hfirst : ShowsResult resultMemory 8 56 2 ("a", 1) :=
      ⟨⟨⟨⟨56, 1, 0⟩, 200, 1, 1, (0, 0)⟩, by decide +kernel, by decide +kernel⟩, by decide, by decide⟩
    have hsecond : ShowsResult resultMemory 64 56 2 ("\u00e9", 2) :=
      ⟨⟨⟨⟨56, 1, 0⟩, 201, 2, 2, (0, 0)⟩, by decide +kernel, by decide +kernel⟩, by decide, by decide⟩
    exact ⟨.cons hfirst (.cons hsecond .nil), by decide, by decide⟩

/-- Both texts are accepted, each at its distance on one path, and nothing else is. -/
theorem ingress_spelled_two : ∃ handle, Config.newResults resultMemory 0 0 1 2 8 2 56 2 0 128 = .ok handle ∧
    (∀ x y v, (ArcPath.machine handle.wfst.expandState).Accepts WallBreakerWfst.start x y v ↔
      x = y ∧ (x = ['a'] ∧ v = 1 ∨ x = ['\u00e9'] ∧ v = 2)) ∧
    ∃! arcs, ArcPath.IsAccepting handle.wfst.expandState WallBreakerWfst.start ['\u00e9'] ['\u00e9'] arcs := by
  obtain ⟨handle, hok, -, haccepts, hunique⟩ := (ingress_spelled resultMemory 0 8 128 0 1 2 2 56 2 0).2 _ _ showsRequest_resultMemory
  refine ⟨handle, hok, fun x y v => (haccepts x y v).trans (and_congr_right fun _ => ?_), hunique ("\u00e9", 2) (by simp)⟩
  simp only [List.mem_pair, Prod.mk.injEq]
  constructor
  · rintro ⟨text, ⟨rfl, rfl⟩ | ⟨rfl, rfl⟩, rfl⟩
    · exact Or.inl ⟨rfl, rfl⟩
    · exact Or.inr ⟨rfl, rfl⟩
  · rintro (⟨rfl, rfl⟩ | ⟨rfl, rfl⟩)
    · exact ⟨"a", Or.inl ⟨rfl, rfl⟩, rfl⟩
    · exact ⟨"\u00e9", Or.inr ⟨rfl, rfl⟩, rfl⟩

end Duallity
