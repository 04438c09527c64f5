import Duallity.NodeHistory
import Duallity.Universal.StateSource

/-! The source over the registry that keeps the depths beside the nodes (`node_registry.rs`). Over the pairs of nodes and depths it
    gives the same ids and returns the same expansions. -/

namespace Duallity
namespace UniversalLevenshteinStateSource
open DictionaryNodeRegistry
variable {N U σ β κ : Type} [CharUnit U] [DecidableEq κ]

/-- The two registries as the source keeps them. -/
abbrev DepthRegistries (N σ κ : Type) [DecidableEq κ] := DepthDictionaryNodeRegistry N × UniversalStateRegistry σ κ

namespace WithDepths
variable (src : UniversalLevenshteinStateSource N U σ β κ) (r : DepthRegistries N σ κ)

def newRegistries (maxDistance : Nat) : DepthRegistries N σ κ :=
  let initial := src.automaton.initial maxDistance
  (.new src.dictionary.root, (Interner.register u32Count .empty (src.stateKey initial 0) ⟨initial, 0⟩).1)

def isValidProductState (state : Nat) : Bool :=
  match StateEncoding.decode state src.maxAutomatonStates with
  | none => false
  | some (dictNodeId, automatonStateId) => (r.1.getNode dictNodeId).isSome && (r.2.value? automatonStateId).isSome

def finalWeightForState (state : Nat) : Option Nat :=
  (StateEncoding.decode state src.maxAutomatonStates).bind fun (dictNodeId, automatonStateId) =>
    (r.1.getNode dictNodeId).bind fun dictNode =>
      (r.1.getDepth dictNodeId).bind fun dictDepth =>
        (r.2.value? automatonStateId).bind fun registered =>
          src.registeredFinalWeight dictNode registered.state registered.queryPos src.queryChars.length dictDepth

def followEdge (dictNodeId dictDepth fromState : Nat) (queryLabel : Option Char) (edge : PendingEdge N σ) :
    DepthRegistries N σ κ × List UniversalTransition :=
  let childKey := DictionaryNodeKey.child dictNodeId edge.dictChar
  let nextAutoKey := src.stateKey edge.nextAutoState edge.nextQueryPos
  match r.1.candidateId childKey, r.2.candidate u32Count nextAutoKey with
  | some candidateChildId, some candidateAutoId =>
    if (src.encodeProductState candidateChildId candidateAutoId).isNone then (r, [])
    else
      let nodes := r.1.registerNode edge.child childKey (dictDepth + 1)
      let states := Interner.register u32Count r.2 nextAutoKey ⟨edge.nextAutoState, edge.nextQueryPos⟩
      let target := nodes.2.bind fun childNodeId => states.2.bind (src.encodeProductState childNodeId)
      ((nodes.1, states.1), (target.map fun t => ⟨fromState, queryLabel, some edge.dictChar, t, 0⟩).toList)
  | _, _ => (r, [])

def skipQueryChar (dictNodeId fromState : Nat) (registered : RegisteredUniversalState σ) :
    DepthRegistries N σ κ × List UniversalTransition :=
  match src.queryChars[registered.queryPos]? with
  | none => (r, [])
  | some queryChar =>
    let nextQueryPos := registered.queryPos + 1
    let key := src.stateKey registered.state nextQueryPos
    match r.2.candidate u32Count key with
    | none => (r, [])
    | some candidateAutoId =>
      if (src.encodeProductState dictNodeId candidateAutoId).isSome then
        let states := Interner.register u32Count r.2 key ⟨registered.state, nextQueryPos⟩
        ((r.1, states.1), ((states.2.bind (src.encodeProductState dictNodeId)).map fun t =>
          ⟨fromState, some queryChar, none, t, 0⟩).toList)
      else (r, [])

def computeTransitions (dictNodeId automatonStateId : Nat) : DepthRegistries N σ κ × Expansion Nat Char Char Nat :=
  match r.1.getNode dictNodeId, r.1.getDepth dictNodeId, r.2.value? automatonStateId,
    src.encodeProductState dictNodeId automatonStateId with
  | some dictNode, some dictDepth, some registered, some fromState =>
    let queryLabel := src.queryChars[registered.queryPos]?
    let edges := scan (fun r edge => followEdge src r dictNodeId dictDepth fromState queryLabel edge) r
      (src.pendingEdges dictNode dictDepth registered)
    let skip := skipQueryChar src edges.1 dictNodeId fromState registered
    (skip.1, ⟨edges.2 ++ skip.2,
      src.registeredFinalWeight dictNode registered.state registered.queryPos src.queryChars.length dictDepth⟩)
  | _, _, _, _ => (r, ⟨[], none⟩)

def expandState (state : Nat) : DepthRegistries N σ κ × Option (Expansion Nat Char Char Nat) :=
  match StateEncoding.decode state src.maxAutomatonStates with
  | none => (r, none)
  | some (dictNodeId, automatonStateId) =>
    let (r', e) := computeTransitions src r dictNodeId automatonStateId
    (r', some e)

def source : LazySource (DepthRegistries N σ κ) Nat Char Char Nat where
  valid r state := state ≤ u32Max ∧ isValidProductState src r state = true
  expand r state := expandState src r state

end WithDepths

/-! ### The registry of pairs -/

/-- The registry of depths and the registry of pairs, beside the same states. -/
def SameIds (r : DepthRegistries N σ κ) (r' : UniversalRegistries N σ κ) : Prop := r.1.Pairs r'.1 ∧ r.2 = r'.2

variable (src : UniversalLevenshteinStateSource N U σ β κ) {r : DepthRegistries N σ κ} {r' : UniversalRegistries N σ κ}

omit [CharUnit U] in
theorem sameIds_new (maxDistance : Nat) :
    SameIds (WithDepths.newRegistries src maxDistance) (src.newRegistries maxDistance) :=
  ⟨.new src.dictionary.root, rfl⟩

omit [CharUnit U] in
theorem SameIds.isValidProductState (h : SameIds r r') (state : Nat) :
    WithDepths.isValidProductState src r state = src.isValidProductState r' state := by
  unfold WithDepths.isValidProductState UniversalLevenshteinStateSource.isValidProductState
  cases StateEncoding.decode state src.maxAutomatonStates with
  | none => rfl
  | some ids =>
    dsimp only
    rw [h.2, ← (h.1.getNode_eq ids.1).1, Option.isSome_map]

omit [CharUnit U] in
theorem SameIds.followEdge (h : SameIds r r') (id depth s : Nat) (label : Option Char) (edge : PendingEdge N σ) :
    SameIds (WithDepths.followEdge src r id depth s label edge).1 (src.followEdge r' id depth s label edge).1 ∧
      (WithDepths.followEdge src r id depth s label edge).2 = (src.followEdge r' id depth s label edge).2 := by
  unfold WithDepths.followEdge UniversalLevenshteinStateSource.followEdge
  dsimp only
  rw [h.1.candidateId_eq, h.2]
  cases r'.1.candidateId (.child id edge.dictChar) with
  | none => exact ⟨h, rfl⟩
  | some childId =>
    cases r'.2.candidate u32Count (src.stateKey edge.nextAutoState edge.nextQueryPos) with
    | none => exact ⟨h, rfl⟩
    | some autoId =>
      dsimp only
      by_cases hencode : (src.encodeProductState childId autoId).isNone = true
      · rw [if_pos hencode, if_pos hencode]
        exact ⟨h, rfl⟩
      · rw [if_neg hencode, if_neg hencode]
        obtain ⟨hpairs, hid⟩ := h.1.registerNode edge.child (.child id edge.dictChar) (depth + 1)
        exact ⟨⟨hpairs, rfl⟩, by rw [hid]⟩

omit [CharUnit U] in
theorem SameIds.skipQueryChar (h : SameIds r r') (id s : Nat) (registered : RegisteredUniversalState σ) :
    SameIds (WithDepths.skipQueryChar src r id s registered).1 (src.skipQueryChar r' id s registered).1 ∧
      (WithDepths.skipQueryChar src r id s registered).2 = (src.skipQueryChar r' id s registered).2 := by
  unfold WithDepths.skipQueryChar UniversalLevenshteinStateSource.skipQueryChar
  rw [h.2]
  cases src.queryChars[registered.queryPos]? with
  | none => exact ⟨h, rfl⟩
  | some queryChar =>
    dsimp only
    cases r'.2.candidate u32Count (src.stateKey registered.state (registered.queryPos + 1)) with
    | none => exact ⟨h, rfl⟩
    | some autoId =>
      dsimp only
      by_cases hencode : (src.encodeProductState id autoId).isSome = true
      · rw [if_pos hencode, if_pos hencode]
        exact ⟨⟨h.1, rfl⟩, rfl⟩
      · rw [if_neg hencode, if_neg hencode]
        exact ⟨h, rfl⟩

theorem SameIds.computeTransitions (h : SameIds r r') (id autoId : Nat) :
    SameIds (WithDepths.computeTransitions src r id autoId).1 (src.computeTransitions r' id autoId).1 ∧
      (WithDepths.computeTransitions src r id autoId).2 = (src.computeTransitions r' id autoId).2 := by
  obtain ⟨hnode, hdepth⟩ := h.1.getNode_eq id
  unfold WithDepths.computeTransitions UniversalLevenshteinStateSource.computeTransitions
  rw [← hnode, ← hdepth, h.2]
  cases r'.1.getNode id with
  | none => exact ⟨h, rfl⟩
  | some node =>
    rw [Option.map_some, Option.map_some]
    cases r'.2.value? autoId with
    | none => exact ⟨h, rfl⟩
    | some registered =>
      cases src.encodeProductState id autoId with
      | none => exact ⟨h, rfl⟩
      | some s =>
        obtain ⟨hedges, heq⟩ := Scan.scan_related SameIds
          (fun edge hr => hr.followEdge src id node.2 s src.queryChars[registered.queryPos]? edge)
          (src.pendingEdges node.1 node.2 registered) h
        obtain ⟨hskip, heq'⟩ := hedges.skipQueryChar src id s registered
        refine ⟨hskip, ?_⟩
        dsimp only
        rw [heq, heq']

theorem SameIds.expandState (h : SameIds r r') (state : Nat) :
    SameIds (WithDepths.expandState src r state).1 (src.expandState r' state).1 ∧
      (WithDepths.expandState src r state).2 = (src.expandState r' state).2 := by
  unfold WithDepths.expandState UniversalLevenshteinStateSource.expandState
  cases StateEncoding.decode state src.maxAutomatonStates with
  | none => exact ⟨h, rfl⟩
  | some ids =>
    obtain ⟨hids, heq⟩ := h.computeTransitions src ids.1 ids.2
    exact ⟨hids, congrArg some heq⟩

omit [CharUnit U] in
theorem SameIds.finalWeightForState (h : SameIds r r') (state : Nat) :
    WithDepths.finalWeightForState src r state = src.finalWeightForState r' state := by
  unfold WithDepths.finalWeightForState UniversalLevenshteinStateSource.finalWeightForState
  cases StateEncoding.decode state src.maxAutomatonStates with
  | none => rfl
  | some ids =>
    obtain ⟨hnode, hdepth⟩ := h.1.getNode_eq ids.1
    rw [Option.bind_some, Option.bind_some]
    dsimp only
    rw [← hnode, ← hdepth, h.2]
    cases r'.1.getNode ids.1 <;> rfl

/-- What is explored through the registry of depths is explored through the registry of pairs. What it answers of finality then is
    the same as well. -/
theorem exploresFrom_withDepths {maxDistance start : Nat} {log : List (Nat × Expansion Nat Char Char Nat)}
    (h : (WithDepths.source src).ExploresFrom start (WithDepths.newRegistries src maxDistance) log r) :
    ∃ r', src.source.ExploresFrom start (src.newRegistries maxDistance) log r' ∧ SameIds r r' ∧
      ∀ state, WithDepths.isValidProductState src r state = src.isValidProductState r' state ∧
        WithDepths.finalWeightForState src r state = src.finalWeightForState r' state := by
  have hvalid : ∀ {r : DepthRegistries N σ κ} {r'} s, SameIds r r' → (WithDepths.source src).valid r s → src.source.valid r' s :=
    fun s hr hvalid => ⟨hvalid.1, hr.isValidProductState src s ▸ hvalid.2⟩
  obtain ⟨r', hexplores, hr⟩ := h.related SameIds hvalid (fun s hr => hr.expandState src s) (sameIds_new src maxDistance)
  exact ⟨r', hexplores, hr, fun state => ⟨hr.isValidProductState src state, hr.finalWeightForState src state⟩⟩

end UniversalLevenshteinStateSource
end Duallity
