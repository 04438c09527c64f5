import Duallity.CachedSource
import Duallity.Generalized.Expansion
import Duallity.Levenshtein.Validity
import Duallity.Phonetic.Validity
import Duallity.Universal.Validity
import Duallity.WallBreaker.Results
import Mathlib.Order.CompletePartialOrder

/-! Expansions of the same state, one after the other. What an edge leads to is settled when it is followed: its ids are registered
    then, or they do not fit and later ones fit no better. -/

namespace Duallity
open StateEncoding

/-! ### Levenshtein -/

namespace LevenshteinStateSource
variable {N U : Type} [CharUnit U] {src : LevenshteinStateSource N U} {r r' : DictionaryNodeRegistry N} {state id s : Nat} {c : Char}
  {a : AutomatonState} {child n : N} {targets : List EdgeTarget}

def charStateSource (src : LevenshteinStateSource N U) : CharStateSource Unit (DictionaryNodeRegistry N) ExpansionError Nat :=
  .ofProduct src.isValidProductState src.expandState src.finalWeightForState .invalidState

omit [CharUnit U] in
theorem size_followEdge_le (h : r.size ≤ u32Count) : (src.followEdge r id s c child targets).1.size ≤ u32Count := by
  rcases followEdge_cases src r id s c child targets with ⟨heq, -⟩ | ⟨i, -, heq⟩
  · rwa [heq]
  · rw [heq]
    exact Interner.size_register_le h

omit [CharUnit U] in
/-- An edge that is followed again gives the same arcs. -/
theorem followEdge_again (hsize : r'.size ≤ u32Count) (hle : (src.followEdge r id s c child targets).1 ≤ r') :
    (src.followEdge r' id s c child targets).2 = (src.followEdge r id s c child targets).2 := by
  have hnone : ∀ {i j}, i ≤ j → ∀ t : EdgeTarget, src.codec.encodeProductState i t.automatonState = none →
      src.codec.encodeProductState j t.automatonState = none := by
    intro i j hij t hi
    simp only [← Option.not_isSome_iff_eq_none] at hi ⊢
    exact fun hj => hi (tryEncode_isSome_mono hj hij le_rfl)
  rcases followEdge_cases src r id s c child targets with ⟨heq, htargets⟩ | ⟨i, hi, heq⟩
  · rw [heq] at hle
    rcases followEdge_cases src r' id s c child targets with ⟨heq', -⟩ | ⟨j, hj, heq'⟩
    · rw [heq, heq']
    · obtain ⟨i, hij, hi⟩ := Interner.exists_candidate_le hle hsize hj
      rw [heq, heq', List.filterMap_eq_nil_iff]
      intro t ht
      rw [hnone hij t (htargets i hi t ht), Option.map_none]
  · rw [heq] at hle
    have hi' : r'.candidateId (.child id c) = some i := Interner.candidate_of_register_le hi hle
    rcases followEdge_cases src r' id s c child targets with ⟨heq', htargets⟩ | ⟨j, hj, heq'⟩
    · rw [heq, heq', eq_comm, List.filterMap_eq_nil_iff]
      intro t ht
      rw [htargets i hi' t ht, Option.map_none]
    · obtain rfl := Option.some.inj (hi'.symm.trans hj)
      rw [heq, heq']

/-- The expansion of a valid state follows the edges of its node. -/
theorem expandState_of_valid (hvalid : src.isValidProductState r state = true) (hstate : state ≤ u32Max) :
    ∃ id a n, ∀ r', r ≤ r' → src.expandState r' state = ((src.followEdges r' a id state n).1,
        some ⟨(src.followEdges r' a id state n).2 ++ src.stayTransitions a id state, src.finalWeight? a n⟩) ∧
      src.finalWeightForState r' state = src.finalWeight? a n := by
  obtain ⟨id, aid, hdecode, ⟨a, ha⟩, n, hn⟩ := isValidProductState_iff.mp hvalid
  refine ⟨id, a, n, fun r' hle => ?_⟩
  have hn' := Interner.le_value? hle hn
  have hencode : src.codec.encodeProductState id aid = some state := tryEncode_of_decode hdecode hstate
  refine ⟨by simp only [expandState, hdecode, computeTransitions_eq ha hn' hencode], ?_⟩
  simp only [finalWeightForState, hdecode, Option.bind_some, ha]
  cases a with
  | normal i d => simp only [DictionaryNodeRegistry.getNode, hn', Option.bind_some, finalWeight?]
  | transposeSecond i d => rfl
  | mergeSecond i d => rfl
  | splitSecond i d => rfl

theorem reexpands (src : LevenshteinStateSource N U) : CharStateSource.Reexpands src.isValidProductState src.expandState
    src.finalWeightForState fun r => r.size ≤ u32Count where
  keeps {r state} hr hvalid hstate := by
    obtain ⟨id, a, n, hexpand⟩ := expandState_of_valid hvalid hstate
    rw [(hexpand r le_rfl).1]
    exact Scan.inv_scan (fun r : DictionaryNodeRegistry N => r.size ≤ u32Count) (fun _ _ _ => size_followEdge_le) hr
  le {r state} hvalid hstate := by
    obtain ⟨id, a, n, hexpand⟩ := expandState_of_valid hvalid hstate
    rw [(hexpand r le_rfl).1]
    exact Scan.le_scan fun _ _ => le_followEdge
  valid {r r' state} hle hvalid := by
    obtain ⟨id, aid, hdecode, ha, n, hn⟩ := isValidProductState_iff.mp hvalid
    exact isValidProductState_iff.mpr ⟨id, aid, hdecode, ha, n, Interner.le_value? hle hn⟩
  final {r r' state} hle hvalid hstate := by
    obtain ⟨id, a, n, hexpand⟩ := expandState_of_valid hvalid hstate
    exact ⟨_, congrArg Prod.snd (hexpand r' hle).1, (hexpand r le_rfl).2⟩
  again {r r' state} hr' hvalid hstate hle := by
    obtain ⟨id, a, n, hexpand⟩ := expandState_of_valid hvalid hstate
    have hgrows : r ≤ (src.followEdges r a id state n).1 := Scan.le_scan fun _ _ => le_followEdge
    rw [(hexpand r le_rfl).1] at hle ⊢
    rw [(hexpand r' (hgrows.trans hle)).1]
    have hagain : (src.followEdges r' a id state n).2 = (src.followEdges r a id state n).2 :=
      Scan.scan_again (fun r : DictionaryNodeRegistry N => r.size ≤ u32Count) (fun _ _ => le_followEdge)
        (fun _ _ _ => size_followEdge_le) (fun e _ {_ _} => followEdge_again) hr' hle
    rw [hagain]

end LevenshteinStateSource

/-! ### Products of registered components -/

section Pairs
variable {κ ν κ' ν' γ : Type} [DecidableEq κ] [DecidableEq κ'] {r r' : Interner κ ν × Interner κ' ν'}

/-- All ids fit `u32`. -/
def IdsFit (r : Interner κ ν × Interner κ' ν') : Prop := r.1.size ≤ u32Count ∧ r.2.size ≤ u32Count

/-- An edge that registers a node and a state when the product of the ids that they are offered encodes, for an arc to it. -/
structure FollowsPair (follow : Interner κ ν × Interner κ' ν' → (Interner κ ν × Interner κ' ν') × List γ) (key : κ) (node : ν)
    (key' : κ') (value : ν') (radix : Nat) (arc : Nat → γ) : Prop where
  cases : ∀ r, follow r = (r, []) ∨ ∃ i j target, r.1.candidate u32Count key = some i ∧ r.2.candidate u32Count key' = some j ∧
    tryEncode i j radix = some target ∧
    follow r = (((r.1.register u32Count key node).1, (r.2.register u32Count key' value).1), [arc target])
  encodes : ∀ {r i j target}, r.1.candidate u32Count key = some i → r.2.candidate u32Count key' = some j →
    tryEncode i j radix = some target →
    follow r = (((r.1.register u32Count key node).1, (r.2.register u32Count key' value).1), [arc target])

variable {follow : Interner κ ν × Interner κ' ν' → (Interner κ ν × Interner κ' ν') × List γ} {key : κ} {node : ν} {key' : κ'} {value : ν'}
  {radix : Nat} {arc : Nat → γ}

theorem FollowsPair.idsFit (h : FollowsPair follow key node key' value radix arc) (hr : IdsFit r) : IdsFit (follow r).1 := by
  rcases h.cases r with heq | ⟨i, j, target, -, -, -, heq⟩
  · rwa [heq]
  · rw [heq]
    exact ⟨Interner.size_register_le hr.1, Interner.size_register_le hr.2⟩

/-- An edge that is followed again gives the same arcs. -/
theorem FollowsPair.again (h : FollowsPair follow key node key' value radix arc) (hr' : IdsFit r') (hle : (follow r).1 ≤ r') :
    (follow r').2 = (follow r).2 := by
  rcases h.cases r with heq | ⟨i, j, target, hi, hj, htarget, heq⟩
  · rw [heq] at hle
    rcases h.cases r' with heq' | ⟨i', j', target', hi', hj', htarget', -⟩
    · rw [heq, heq']
    · obtain ⟨i, hii', hi⟩ := Interner.exists_candidate_le hle.1 hr'.1 hi'
      obtain ⟨j, hjj', hj⟩ := Interner.exists_candidate_le hle.2 hr'.2 hj'
      have hfits := tryEncode_isSome_mono (Option.isSome_of_eq_some htarget') hii' hjj'
      obtain ⟨target, htarget⟩ := Option.isSome_iff_exists.mp hfits
      simpa using congrArg Prod.snd (heq.symm.trans (h.encodes hi hj htarget))
  · rw [heq] at hle
    have hi' := Interner.candidate_of_register_le hi hle.1
    have hj' := Interner.candidate_of_register_le hj hle.2
    rw [heq, h.encodes hi' hj' htarget]

end Pairs

/-! ### Universal -/

namespace UniversalLevenshteinStateSource
open DictionaryNodeRegistry
variable {N U σ β κ : Type} [CharUnit U] [DecidableEq κ] {src : UniversalLevenshteinStateSource N U σ β κ}
  {r r' : UniversalRegistries N σ κ} {state id depth s : Nat} {n : N} {registered : RegisteredUniversalState σ}

def charStateSource (src : UniversalLevenshteinStateSource N U σ β κ) :
    CharStateSource Unit (UniversalRegistries N σ κ) ExpansionError Nat :=
  .ofProduct src.isValidProductState src.expandState src.finalWeightForState .invalidState

omit [CharUnit U] in
theorem followsPair (src : UniversalLevenshteinStateSource N U σ β κ) (id depth s : Nat) (label : Option Char) (edge : PendingEdge N σ) :
    FollowsPair (fun r => src.followEdge r id depth s label edge) (.child id edge.dictChar) (edge.child, depth + 1)
      (src.stateKey edge.nextAutoState edge.nextQueryPos) ⟨edge.nextAutoState, edge.nextQueryPos⟩ src.maxAutomatonStates
      fun target => ⟨s, label, some edge.dictChar, target, 0⟩ :=
  ⟨fun r => followEdge_cases src r id depth s label edge, followEdge_of_encode⟩

omit [CharUnit U] in
theorem idsFit_skipQueryChar (hr : IdsFit r) : IdsFit (src.skipQueryChar r id s registered).1 := by
  rcases skipQueryChar_cases src r id s registered with heq | ⟨a, j, target, -, -, -, heq⟩
  · rwa [heq]
  · rw [heq]
    exact ⟨hr.1, Interner.size_register_le hr.2⟩

omit [CharUnit U] in
/-- A query character that is skipped again gives the same arc. -/
theorem skipQueryChar_again (hr' : IdsFit r') (hle : (src.skipQueryChar r id s registered).1 ≤ r') :
    (src.skipQueryChar r' id s registered).2 = (src.skipQueryChar r id s registered).2 := by
  rcases skipQueryChar_cases src r id s registered with heq | ⟨a, j, target, ha, hj, htarget, heq⟩
  · rw [heq] at hle
    rcases skipQueryChar_cases src r' id s registered with heq' | ⟨a, j', target', ha, hj', htarget', -⟩
    · rw [heq, heq']
    · obtain ⟨j, hjj', hj⟩ := Interner.exists_candidate_le hle.2 hr'.2 hj'
      have hfits := tryEncode_isSome_mono (Option.isSome_of_eq_some htarget') le_rfl hjj'
      obtain ⟨target, htarget⟩ := Option.isSome_iff_exists.mp hfits
      simpa using congrArg Prod.snd (heq.symm.trans (skipQueryChar_of_encode ha hj htarget))
  · rw [heq] at hle
    rw [heq, skipQueryChar_of_encode ha (Interner.candidate_of_register_le hj hle.2) htarget]

/-- What an expansion does with a node and an interned state: it follows all edges, and then skips a query character. -/
def followAll (src : UniversalLevenshteinStateSource N U σ β κ) (r : UniversalRegistries N σ κ) (id depth s : Nat) (n : N)
    (registered : RegisteredUniversalState σ) : UniversalRegistries N σ κ × List UniversalTransition :=
  let edges := followEdges src r id depth s n registered
  let skip := src.skipQueryChar edges.1 id s registered
  (skip.1, edges.2 ++ skip.2)

theorem le_followAll : r ≤ (followAll src r id depth s n registered).1 := by
  have hedges : r ≤ (followEdges src r id depth s n registered).1 := le_followEdges
  exact hedges.trans le_skipQueryChar

theorem idsFit_followEdges (hr : IdsFit r) : IdsFit (followEdges src r id depth s n registered).1 :=
  Scan.inv_scan (fun r : UniversalRegistries N σ κ => IdsFit r) (fun _ edge _ => (followsPair src id depth s _ edge).idsFit) hr

theorem followAll_again (hr' : IdsFit r') (hle : (followAll src r id depth s n registered).1 ≤ r') :
    (followAll src r' id depth s n registered).2 = (followAll src r id depth s n registered).2 := by
  have hedges : (followEdges src r' id depth s n registered).2 = (followEdges src r id depth s n registered).2 :=
    Scan.scan_again (fun r : UniversalRegistries N σ κ => IdsFit r) (fun _ _ => le_followEdge)
      (fun _ edge _ => (followsPair src id depth s _ edge).idsFit) (fun edge _ {_ _} => (followsPair src id depth s _ edge).again) hr'
      (le_skipQueryChar.trans hle)
  have hgrows : r' ≤ (followEdges src r' id depth s n registered).1 := le_followEdges
  have hskip := skipQueryChar_again (idsFit_followEdges hr') (hle.trans hgrows)
  simp only [followAll, hedges, hskip]

/-- The expansion of a valid state follows the edges of its node, and skips a character. -/
theorem expandState_of_valid (hvalid : src.isValidProductState r state = true) (hstate : state ≤ u32Max) :
    ∃ id depth n registered, ∀ r', r ≤ r' → src.expandState r' state = ((followAll src r' id depth state n registered).1,
        some ⟨(followAll src r' id depth state n registered).2,
          src.registeredFinalWeight n registered.state registered.queryPos src.queryChars.length depth⟩) ∧
      src.finalWeightForState r' state =
        src.registeredFinalWeight n registered.state registered.queryPos src.queryChars.length depth := by
  obtain ⟨id, aid, hdecode, ⟨⟨n, depth⟩, hn⟩, registered, hregistered⟩ := isValidProductState_iff.mp hvalid
  refine ⟨id, depth, n, registered, fun r' hle => ?_⟩
  have hn' : r'.1.getNode id = some (n, depth) := Interner.le_value? hle.1 hn
  have hregistered' := Interner.le_value? hle.2 hregistered
  have hencode : src.encodeProductState id aid = some state := tryEncode_of_decode hdecode hstate
  refine ⟨?_, ?_⟩
  · simp only [expandState, hdecode, computeTransitions, hn', hregistered', hencode, followAll, followEdges]
  · simp only [finalWeightForState, hdecode, Option.bind_some, hn', hregistered']

theorem reexpands (src : UniversalLevenshteinStateSource N U σ β κ) : CharStateSource.Reexpands src.isValidProductState src.expandState
    src.finalWeightForState IdsFit where
  keeps {r state} hr hvalid hstate := by
    obtain ⟨id, depth, n, registered, hexpand⟩ := expandState_of_valid hvalid hstate
    rw [(hexpand r le_rfl).1]
    exact idsFit_skipQueryChar (idsFit_followEdges hr)
  le {r state} hvalid hstate := by
    obtain ⟨id, depth, n, registered, hexpand⟩ := expandState_of_valid hvalid hstate
    rw [(hexpand r le_rfl).1]
    exact le_followAll
  valid {r r' state} hle hvalid := by
    obtain ⟨id, aid, hdecode, hregistered⟩ := isValidProductState_iff.mp hvalid
    exact isValidProductState_iff.mpr ⟨id, aid, hdecode, hregistered.mono hle⟩
  final {r r' state} hle hvalid hstate := by
    obtain ⟨id, depth, n, registered, hexpand⟩ := expandState_of_valid hvalid hstate
    exact ⟨_, congrArg Prod.snd (hexpand r' hle).1, (hexpand r le_rfl).2⟩
  again {r r' state} hr' hvalid hstate hle := by
    obtain ⟨id, depth, n, registered, hexpand⟩ := expandState_of_valid hvalid hstate
    rw [(hexpand r le_rfl).1] at hle ⊢
    rw [(hexpand r' (le_followAll.trans hle)).1, followAll_again hr' hle]

end UniversalLevenshteinStateSource

/-! ### Phonetic -/

namespace PhoneticStateSource
open DictionaryNodeRegistry
variable {N U : Type} [CharUnit U] {src : PhoneticStateSource N U} {r r' : PhoneticRegistries N} {state id s : Nat} {n : N}
  {frontier : List ProductStateChar}

def charStateSource (src : PhoneticStateSource N U) : CharStateSource Unit (PhoneticRegistries N) ExpansionError ℚ :=
  .ofProduct src.isValidProductState src.expandState src.finalWeightForState .invalidState

omit [CharUnit U] in
theorem followsPair (src : PhoneticStateSource N U) (s : Nat) (edge : PendingProductEdge N) :
    FollowsPair (fun r => src.followEdge r s edge) edge.childKey edge.child edge.successorKey edge.successors src.maxProductStates
      fun target => ⟨s, some edge.dictChar, some edge.dictChar, target, src.phoneticWeight⟩ :=
  ⟨fun r => followEdge_cases src r s edge, followEdge_of_encode⟩

/-- The expansion of a valid state follows the edges of its node. -/
theorem expandState_of_valid (hvalid : src.isValidProductState r state = true) (hstate : state ≤ u32Max) :
    ∃ id n frontier, ∀ r', r ≤ r' → src.expandState r' state = ((followEdges src r' id state n frontier).1,
        some ⟨(followEdges src r' id state n frontier).2, src.productFinalWeight n frontier⟩) ∧
      src.finalWeightForState r' state = src.productFinalWeight n frontier := by
  obtain ⟨id, fid, hdecode, ⟨n, hn⟩, frontier, hfrontier⟩ := isValidProductState_iff.mp hvalid
  refine ⟨id, n, frontier, fun r' hle => ?_⟩
  have hn' : r'.1.getNode id = some n := Interner.le_value? hle.1 hn
  have hfrontier' : r'.2.getState fid = some frontier := Interner.le_value? hle.2 hfrontier
  refine ⟨expandState_eq hdecode hn' hfrontier' hstate, ?_⟩
  simp only [finalWeightForState, hdecode, Option.bind_some, hn', hfrontier']

theorem reexpands (src : PhoneticStateSource N U) : CharStateSource.Reexpands src.isValidProductState src.expandState
    src.finalWeightForState IdsFit where
  keeps {r state} hr hvalid hstate := by
    obtain ⟨id, n, frontier, hexpand⟩ := expandState_of_valid hvalid hstate
    rw [(hexpand r le_rfl).1]
    exact Scan.inv_scan (fun r : PhoneticRegistries N => IdsFit r) (fun _ edge _ => (followsPair src state edge).idsFit) hr
  le {r state} hvalid hstate := by
    obtain ⟨id, n, frontier, hexpand⟩ := expandState_of_valid hvalid hstate
    rw [(hexpand r le_rfl).1]
    exact le_followEdges
  valid {r r' state} hle hvalid := by
    obtain ⟨id, fid, hdecode, hregistered⟩ := isValidProductState_iff.mp hvalid
    exact isValidProductState_iff.mpr ⟨id, fid, hdecode, hregistered.mono hle⟩
  final {r r' state} hle hvalid hstate := by
    obtain ⟨id, n, frontier, hexpand⟩ := expandState_of_valid hvalid hstate
    exact ⟨_, congrArg Prod.snd (hexpand r' hle).1, (hexpand r le_rfl).2⟩
  again {r r' state} hr' hvalid hstate hle := by
    obtain ⟨id, n, frontier, hexpand⟩ := expandState_of_valid hvalid hstate
    rw [(hexpand r le_rfl).1] at hle ⊢
    rw [(hexpand r' (le_followEdges.trans hle)).1]
    have hagain : (followEdges src r' id state n frontier).2 = (followEdges src r id state n frontier).2 :=
      Scan.scan_again (fun r : PhoneticRegistries N => IdsFit r) (fun _ _ => le_followEdge)
        (fun _ edge _ => (followsPair src state edge).idsFit) (fun edge _ {_ _} => (followsPair src state edge).again) hr' hle
    rw [hagain]

end PhoneticStateSource

/-! ### WallBreaker -/

namespace WallBreakerWfst

/-- The forest is made whole before any state is expanded. -/
def charStateSource (src : WallBreakerWfst) : CharStateSource Unit Unit ExpansionError Nat :=
  .ofProduct (fun _ => src.isValidState) (fun r state => (r, src.expandState state)) (fun _ => src.finalWeightForState) .invalidState

theorem reexpands (src : WallBreakerWfst) : CharStateSource.Reexpands (fun _ : Unit => src.isValidState)
    (fun r state => (r, src.expandState state)) (fun _ => src.finalWeightForState) fun _ => True where
  keeps _ _ _ := trivial
  le _ _ := le_rfl
  valid _ hvalid := hvalid
  final {_ _ state} _ hvalid _ := by
    obtain ⟨key, hkey⟩ := Option.isSome_iff_exists.mp hvalid
    obtain ⟨e, he⟩ : ∃ e, src.expandState state = some e := ⟨_, by rw [expandState, hkey, Option.map_some]⟩
    refine ⟨e, he, ?_⟩
    rw [finalWeightForState_eq, he, Option.bind_some]
  again _ _ _ _ := rfl

end WallBreakerWfst
end Duallity
