import Duallity.NumStates
import Duallity.Universal.Refinement

/-! Valid states of the Universal source, over histories of the turns that clones take at the two registries. -/

namespace Duallity.UniversalLevenshteinStateSource
open DictionaryNodeRegistry StateEncoding
variable {N U σ β κ : Type} [CharUnit U] [DecidableEq κ]

section Source
variable (src : UniversalLevenshteinStateSource N U σ β κ) (r : UniversalRegistries N σ κ)

def registeredStateIdSpan : Nat := registeredProductStateIdSpan r.1.size src.maxAutomatonStates r.2.size

def numStatesHint (dictionaryLen : Option Nat) : Option Nat :=
  internedProductStatesHint dictionaryLen r.1.size src.maxAutomatonStates r.2.size

def numStates (dictionaryLen : Option Nat) : Nat :=
  max ((src.numStatesHint r dictionaryLen).getD 0) (src.registeredStateIdSpan r)

/-- A turn of an expansion, of a node and a state that it has read before: it registers all edges under both locks, or the skip
    of a query character under the lock of the states. -/
inductive Turn : UniversalRegistries N σ κ → List UniversalTransition → UniversalRegistries N σ κ → Prop
  | edges {before r : UniversalRegistries N σ κ} {state id aid depth : Nat} {n : N} {registered : RegisteredUniversalState σ} :
      before ≤ r → decode state src.maxAutomatonStates = some (id, aid) → before.1.getNode id = some (n, depth) →
      before.2.value? aid = some registered →
      Turn r (followEdges src r id depth state n registered).2 (followEdges src r id depth state n registered).1
  | skip {before r : UniversalRegistries N σ κ} {state id aid depth : Nat} {n : N} {registered : RegisteredUniversalState σ} :
      before ≤ r → decode state src.maxAutomatonStates = some (id, aid) → before.1.getNode id = some (n, depth) →
      before.2.value? aid = some registered →
      Turn r (src.skipQueryChar r id state registered).2 (src.skipQueryChar r id state registered).1

end Source

variable {src : UniversalLevenshteinStateSource N U σ β κ} {r r' : UniversalRegistries N σ κ} {state id aid : Nat}

theorem computeTransitions_runs (hdecode : decode state src.maxAutomatonStates = some (id, aid)) (hstate : state ≤ u32Max) :
    Runs (Turn src) r (src.computeTransitions r id aid).2.arcs (src.computeTransitions r id aid).1 := by
  have hencode : src.encodeProductState id aid = some state := tryEncode_of_decode hdecode hstate
  cases hn : r.1.getNode id with
  | none =>
    simp only [computeTransitions, hn]
    exact .nil r
  | some node =>
    cases hv : r.2.value? aid with
    | none =>
      simp only [computeTransitions, hn, hv]
      exact .nil r
    | some registered =>
      simp only [computeTransitions, hn, hv, hencode]
      exact (Runs.single (.edges le_rfl hdecode hn hv)).step (.skip le_followEdges hdecode hn hv)

/-- An expansion is a run of turns that returns its arcs. -/
theorem expandState_runs {e : Expansion Nat Char Char Nat} (hstate : state ≤ u32Max)
    (h : src.expandState r state = (r', some e)) : Runs (Turn src) r e.arcs r' := by
  unfold expandState at h
  cases hdecode : decode state src.maxAutomatonStates with
  | none => simp [hdecode] at h
  | some ids =>
    obtain ⟨id, aid⟩ := ids
    have hruns : Runs (Turn src) r _ _ := computeTransitions_runs hdecode hstate
    simp only [hdecode, Prod.mk.injEq, Option.some.injEq] at h
    obtain ⟨rfl, rfl⟩ := h
    exact hruns

theorem Turn.le {out : List UniversalTransition} (h : Turn src r out r') : r ≤ r' := by
  cases h with
  | edges => exact le_followEdges
  | skip => exact le_skipQueryChar

omit [CharUnit U] in
/-- What a turn of the registration loop returns leads to a registered node and an interned state. -/
theorem target_of_followEdge {depth s : Nat} {label : Option Char} {edge : PendingEdge N σ} :
    ∀ arc ∈ (src.followEdge r id depth s label edge).2, ∃ i j, Registered (src.followEdge r id depth s label edge).1 i j ∧
      src.encodeProductState i j = some arc.target := by
  intro arc harc
  rcases followEdge_cases src r id depth s label edge with h | ⟨i, j, target, hi, hj, ht, h⟩
  · rw [h] at harc
    cases harc
  · rw [h] at harc ⊢
    obtain rfl := List.mem_singleton.mp harc
    exact ⟨i, j, ⟨Interner.exists_value? (Interner.id?_lt (Interner.id?_register hi)),
      Interner.exists_value? (Interner.id?_lt (Interner.id?_register hj))⟩, ht⟩

theorem Turn.target {out : List UniversalTransition} (h : Turn src r out r') : ∀ arc ∈ out, ∃ i j,
    Registered r' i j ∧ tryEncode i j src.maxAutomatonStates = some arc.target := by
  intro arc harc
  cases h with
  | @edges _ _ _ _ _ depth n registered hle hdecode hn hv =>
    have hinv : ∀ r₁ : UniversalRegistries N σ κ, ∀ edge ∈ src.pendingEdges n depth registered, True → True := fun _ _ _ h => h
    obtain ⟨edge, -, r₁, -, -, hgrow, harc⟩ := Scan.mem_scan (fun _ _ => le_followEdge) hinv trivial harc
    obtain ⟨i, j, hregistered, ht⟩ := target_of_followEdge arc harc
    exact ⟨i, j, hregistered.mono hgrow, ht⟩
  | @skip _ _ _ id _ _ _ registered hle hdecode hn hv =>
    rcases skipQueryChar_cases src r id _ registered with h | ⟨a, j, target, -, hj, ht, h⟩
    · rw [h] at harc
      cases harc
    · rw [h] at harc ⊢
      obtain rfl := List.mem_singleton.mp harc
      exact ⟨id, j, ⟨⟨_, Interner.le_value? hle.1 hn⟩, Interner.exists_value? (Interner.id?_lt (Interner.id?_register hj))⟩, ht⟩

omit [CharUnit U] in
theorem isValidProductState_iff : src.isValidProductState r state = true ↔
    ∃ id aid, decode state src.maxAutomatonStates = some (id, aid) ∧ Registered r id aid := by
  unfold isValidProductState
  split
  · rename_i h
    simp [h]
  · rename_i id aid h
    simp [h, Option.isSome_iff_exists, Registered, DictionaryNodeRegistry.getNode]

theorem validityClosed (automaton : UniversalAutomaton σ β κ) (dictionary : Dictionary N U) (query : List Char) (maxDistance : Nat) :
    let src := new automaton dictionary query maxDistance
    ValidityClosed src.source (Turn src) (src.newRegistries maxDistance) start src.maxAutomatonStates Registered
      (fun dictionaryLen r => src.numStates r dictionaryLen) := by
  intro src
  refine .of_registries expandState_runs Turn.le (and_congr_right fun _ => isValidProductState_iff) ?_ Turn.target
    (le_max_right _ _)
  have hpos : 0 < src.maxAutomatonStates := lt_of_lt_of_le Nat.one_pos (le_max_right _ _)
  have hdecode : decode start src.maxAutomatonStates = some (0, 0) := by
    rw [decode, if_neg (Nat.pos_iff_ne_zero.mp hpos), start, Nat.zero_div, Nat.zero_mod]
  have hstate : (src.newRegistries maxDistance).2.value? 0 = some ⟨automaton.initial maxDistance, 0⟩ := by
    rw [newRegistries_states]
    exact Interner.value?_push_self
  refine ⟨Nat.zero_le _, isValidProductState_iff.mpr ⟨0, 0, hdecode, ⟨(dictionary.root, 0), ?_⟩, _, hstate⟩⟩
  exact getNode_new

end Duallity.UniversalLevenshteinStateSource
