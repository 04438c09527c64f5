import Duallity.NumStates
import Duallity.Phonetic.ProductRelation

/-! Valid states of the phonetic source, over histories of the turns that clones take at the two registries. -/

namespace Duallity.PhoneticStateSource
open DictionaryNodeRegistry StateEncoding ProductStateRegistry
variable {N U : Type} [CharUnit U]

section Source
variable (src : PhoneticStateSource N U) (r : PhoneticRegistries N)

def registeredStateIdSpan : Nat := registeredProductStateIdSpan r.1.size src.maxProductStates r.2.size

def numStatesHint (dictionaryLen : Option Nat) : Option Nat :=
  internedProductStatesHint dictionaryLen r.1.size src.maxProductStates r.2.size

def numStates (dictionaryLen : Option Nat) : Nat :=
  max ((src.numStatesHint r dictionaryLen).getD 0) (src.registeredStateIdSpan r)

/-- A turn of an expansion: under both locks it registers all edges of a node and a frontier that it has read before. -/
inductive Turn : PhoneticRegistries N → List (Arc Nat Char Char ℚ) → PhoneticRegistries N → Prop
  | edges {before r : PhoneticRegistries N} {state id fid : Nat} {n : N} {frontier : List ProductStateChar} :
      before ≤ r → decode state src.maxProductStates = some (id, fid) → before.1.getNode id = some n →
      before.2.getState fid = some frontier →
      Turn r (followEdges src r id state n frontier).2 (followEdges src r id state n frontier).1

end Source

variable {src : PhoneticStateSource N U} {r r' : PhoneticRegistries N} {state id fid : Nat}

theorem computeTransitions_runs (hdecode : decode state src.maxProductStates = some (id, fid)) (hstate : state ≤ u32Max) :
    Runs (Turn src) r (src.computeTransitions r id fid).2.arcs (src.computeTransitions r id fid).1 := by
  have hencode : src.encodeProductState id fid = some state := tryEncode_of_decode hdecode hstate
  cases hn : r.1.getNode id with
  | none =>
    simp only [computeTransitions, hn]
    exact .nil r
  | some n =>
    cases hfrontier : r.2.getState fid with
    | none =>
      simp only [computeTransitions, hn, hfrontier]
      exact .nil r
    | some frontier =>
      simp only [computeTransitions, hn, hfrontier, hencode]
      exact .single (.edges le_rfl hdecode hn hfrontier)

/-- An expansion is a run of turns that returns its arcs. -/
theorem expandState_runs {e : Expansion Nat Char Char ℚ} (hstate : state ≤ u32Max)
    (h : src.expandState r state = (r', some e)) : Runs (Turn src) r e.arcs r' := by
  unfold expandState at h
  cases hdecode : decode state src.maxProductStates with
  | none => simp [hdecode] at h
  | some ids =>
    obtain ⟨id, fid⟩ := ids
    have hruns : Runs (Turn src) r _ _ := computeTransitions_runs hdecode hstate
    simp only [hdecode, Prod.mk.injEq, Option.some.injEq] at h
    obtain ⟨rfl, rfl⟩ := h
    exact hruns

theorem Turn.le {out : List (Arc Nat Char Char ℚ)} (h : Turn src r out r') : r ≤ r' := by
  cases h with
  | edges => exact le_followEdges

omit [CharUnit U] in
/-- What a turn of the registration loop returns leads to a registered node and a registered frontier. -/
theorem target_of_followEdge {s : Nat} {edge : PendingProductEdge N} : ∀ arc ∈ (src.followEdge r s edge).2, ∃ i j,
    Registered (src.followEdge r s edge).1 i j ∧ src.encodeProductState i j = some arc.target := by
  intro arc harc
  rcases followEdge_cases src r s edge with h | ⟨i, j, target, hi, hj, ht, h⟩
  · rw [h] at harc
    cases harc
  · rw [h] at harc ⊢
    obtain rfl := List.mem_singleton.mp harc
    exact ⟨i, j, ⟨Interner.exists_value? (Interner.id?_lt (Interner.id?_register hi)),
      Interner.exists_value? (Interner.id?_lt (Interner.id?_register hj))⟩, ht⟩

theorem Turn.target {out : List (Arc Nat Char Char ℚ)} (h : Turn src r out r') : ∀ arc ∈ out, ∃ i j,
    Registered r' i j ∧ tryEncode i j src.maxProductStates = some arc.target := by
  intro arc harc
  cases h with
  | @edges _ _ _ id _ n frontier hle hdecode hn hfrontier =>
    have hinv : ∀ r₁ : PhoneticRegistries N, ∀ edge ∈ src.pendingEdges id n frontier, True → True := fun _ _ _ h => h
    obtain ⟨edge, -, r₁, -, -, hgrow, harc⟩ := Scan.mem_scan (fun _ _ => le_followEdge) hinv trivial harc
    obtain ⟨i, j, hregistered, ht⟩ := target_of_followEdge arc harc
    exact ⟨i, j, hregistered.mono hgrow, ht⟩

omit [CharUnit U] in
theorem isValidProductState_iff : src.isValidProductState r state = true ↔
    ∃ id fid, decode state src.maxProductStates = some (id, fid) ∧ Registered r id fid := by
  unfold isValidProductState
  split
  · rename_i h
    simp [h]
  · rename_i id fid h
    simp [h, Option.isSome_iff_exists, Registered, DictionaryNodeRegistry.getNode, ProductStateRegistry.getState]

theorem length_canonicalizeNfaStates_le (states : List NfaStateId) : (canonicalizeNfaStates states).length ≤ states.length := by
  unfold canonicalizeNfaStates
  split
  · exact le_rfl
  · refine (List.destutter_sublist _ _).length_le.trans ?_
    rw [List.length_insertionSort]

/-- The states of a canonical frontier come from canonical states. -/
theorem exists_of_mem_canonicalize {frontier : List ProductStateChar} {state : ProductStateChar}
    (h : state ∈ canonicalizeProductFrontier frontier) :
    ∃ state' ∈ frontier, state.nfaStates = canonicalizeNfaStates state'.nfaStates := by
  have hmem : state ∈ frontier.map fun state => { state with nfaStates := canonicalizeNfaStates state.nfaStates } := by
    unfold canonicalizeProductFrontier canonicalizeProductFrontierBy at h
    dsimp only at h
    split at h
    · exact (List.mem_insertionSort _).mp ((List.destutter_sublist _ _).subset h)
    · exact h
  obtain ⟨state', hstate', rfl⟩ := List.mem_map.mp hmem
  exact ⟨state', hstate', rfl⟩

/-- A frontier whose state sets have at most `u32Max` NFA states has a key. -/
theorem exists_prepareState {frontier : List ProductStateChar} (h : ∀ state ∈ frontier, state.nfaStates.length ≤ u32Max) :
    ∃ prepared key, prepareState frontier = some (prepared, key) := by
  have hcanonical : ∀ state ∈ canonicalizeProductFrontier frontier, state.nfaStates.length ≤ u32Max := by
    intro state hstate
    obtain ⟨state', hstate', heq⟩ := exists_of_mem_canonicalize hstate
    rw [heq]
    exact (length_canonicalizeNfaStates_le _).trans (h state' hstate')
  obtain ⟨key, hkey⟩ := exists_key_iff.mpr hcanonical
  exact ⟨canonicalizeProductFrontier frontier, key, Option.map_eq_some_iff.mpr ⟨key, hkey, rfl⟩⟩

theorem validityClosed (dictionary : Dictionary N U) (product : ProductAutomatonChar) (maxDistance : Nat)
    (phoneticWeight editWeight : ℚ) (hinitial : ∀ state ∈ product.initialFrontier, state.nfaStates.length ≤ u32Max) :
    let src := fromValidatedWeights dictionary product maxDistance phoneticWeight editWeight
    ValidityClosed src.source (Turn src) src.newRegistries start src.maxProductStates Registered
      (fun dictionaryLen r => src.numStates r dictionaryLen) := by
  intro src
  refine .of_registries expandState_runs Turn.le (and_congr_right fun _ => isValidProductState_iff) ?_ Turn.target
    (le_max_right _ _)
  have hpos : 0 < src.maxProductStates := Nat.lt_of_lt_of_le (by decide) (Nat.le_max_right _ 10000)
  have hdecode : decode start src.maxProductStates = some (0, 0) := by
    rw [decode, if_neg (Nat.pos_iff_ne_zero.mp hpos), start, Nat.zero_div, Nat.zero_mod]
  obtain ⟨prepared, key, hprepare⟩ := exists_prepareState hinitial
  have hfrontier : src.newRegistries.2.value? 0 = some prepared := by
    rcases ProductStateRegistry.new_cases product.initialFrontier with ⟨hnone, -⟩ | ⟨prepared', key', hprepare', h⟩
    · cases hnone.symm.trans hprepare
    · cases hprepare'.symm.trans hprepare
      show (ProductStateRegistry.new product.initialFrontier).value? 0 = _
      rw [h]
      exact Interner.value?_push_self
  refine ⟨Nat.zero_le _, isValidProductState_iff.mpr ⟨0, 0, hdecode, ⟨dictionary.root, ?_⟩, _, hfrontier⟩⟩
  exact getNode_new

end Duallity.PhoneticStateSource
