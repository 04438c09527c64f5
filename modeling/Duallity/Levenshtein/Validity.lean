import Duallity.Levenshtein.Registration
import Duallity.NumStates

/-! Valid states of the Levenshtein source, over histories of the turns that clones take at the node registry. -/

namespace Duallity.LevenshteinStateSource
open DictionaryNodeRegistry StateEncoding LevenshteinStateCodec
variable {N U : Type} [CharUnit U]

section Source
variable (src : LevenshteinStateSource N U) (r : DictionaryNodeRegistry N)

def registeredStateIdSpan : Nat :=
  registeredProductStateIdSpan r.size src.codec.maxAutomatonStates src.codec.maxAutomatonStates

def numStatesHint (dictionaryLen : Option Nat) : Option Nat :=
  registeredDictionaryProductStatesHint dictionaryLen r.size src.codec.maxAutomatonStates

def numStates (dictionaryLen : Option Nat) : Nat :=
  max ((src.numStatesHint r dictionaryLen).getD 0) (src.registeredStateIdSpan r)

/-- What an edge of a node adds under the lock. -/
def edgeTurn (a : AutomatonState) (dictNodeId fromState : Nat) (e : U × N) : DictionaryNodeRegistry N × List Transition :=
  src.followEdge r dictNodeId fromState (CharUnit.toChar e.1) e.2 (src.edgeTargets a (CharUnit.toChar e.1) e.2)

/-- A turn of an expansion: under the lock it follows an edge of a node that it has read before, or without the lock it returns
    the arcs that stay at the node. -/
inductive Turn : DictionaryNodeRegistry N → List Transition → DictionaryNodeRegistry N → Prop
  | edge {before r : DictionaryNodeRegistry N} {state id aid : Nat} {a : AutomatonState} {n : N} {e : U × N} :
      before ≤ r → src.codec.decodeProductState state = some (id, aid) → src.codec.decodeAutomatonState aid = some a →
      before.getNode id = some n → e ∈ src.dictionary.edges n →
      Turn r (src.edgeTurn r a id state e).2 (src.edgeTurn r a id state e).1
  | stay {before r : DictionaryNodeRegistry N} {state id aid : Nat} {a : AutomatonState} {n : N} :
      before ≤ r → src.codec.decodeProductState state = some (id, aid) → src.codec.decodeAutomatonState aid = some a →
      before.getNode id = some n → Turn r (src.stayTransitions a id state) r

end Source

variable {src : LevenshteinStateSource N U} {r r' : DictionaryNodeRegistry N} {state id aid : Nat} {a : AutomatonState} {n : N}

theorem computeTransitions_runs (hdecode : src.codec.decodeProductState state = some (id, aid)) (hstate : state ≤ u32Max) :
    Runs (Turn src) r (src.computeTransitions r id aid).2.arcs (src.computeTransitions r id aid).1 := by
  have hencode : src.codec.encodeProductState id aid = some state := tryEncode_of_decode hdecode hstate
  cases ha : src.codec.decodeAutomatonState aid with
  | none =>
    simp only [computeTransitions, ha]
    exact .nil r
  | some a =>
    cases hn : r.getNode id with
    | none =>
      simp only [computeTransitions, ha, hn]
      exact .nil r
    | some n =>
      rw [computeTransitions_eq ha hn hencode]
      refine Runs.trans (Runs.scan (fun _ _ => le_followEdge) ?_) (.single (.stay ?_ hdecode ha hn))
      · exact fun r' hle e he => .edge hle hdecode ha hn he
      · exact Scan.le_scan fun _ _ => le_followEdge

/-- An expansion is a run of turns that returns its arcs. -/
theorem expandState_runs {e : Expansion Nat Char Char Nat} (hstate : state ≤ u32Max)
    (h : src.expandState r state = (r', some e)) : Runs (Turn src) r e.arcs r' := by
  unfold expandState at h
  cases hdecode : src.codec.decodeProductState state with
  | none => simp [hdecode] at h
  | some ids =>
    obtain ⟨id, aid⟩ := ids
    have hruns : Runs (Turn src) r _ _ := computeTransitions_runs hdecode hstate
    simp only [hdecode, Prod.mk.injEq, Option.some.injEq] at h
    obtain ⟨rfl, rfl⟩ := h
    exact hruns

theorem Turn.le {out : List Transition} (h : Turn src r out r') : r ≤ r' := by
  cases h with
  | edge => exact le_followEdge
  | stay => exact le_rfl

/-! ### Targets decode -/

/-- The automaton state of a target on an edge decodes. -/
theorem decode_of_mem_edgeTargets {c : Char} {child : N} {t : EdgeTarget} (ha : src.codec.decodeAutomatonState aid = some a)
    (ht : t ∈ src.edgeTargets a c child) : ∃ a', src.codec.decodeAutomatonState t.automatonState = some a' := by
  have hd := cost_lt_of_decode ha
  have hk := (valid_of_decode ha).cost_le
  cases a with
  | normal i d =>
    rcases mem_edgeTargets_normal.mp ht with h | h | h | h | h
    · obtain ⟨b, x, -, hcost, hx, rfl⟩ := (matchOrSubstitute_eq_some hd).mp h
      exact ⟨_, decode_normal hx hcost⟩
    · obtain ⟨x, hcost, hx, rfl⟩ := (insertTarget_eq_some hd).mp h
      exact ⟨_, decode_normal hx hcost⟩
    · obtain ⟨b, x, hT, hcost, -, -, -, hx, -, rfl⟩ := (transposeTransition_eq_some hd).mp h
      exact ⟨_, decode_of_encodeState (a := .transposeSecond i (d + 1)) hx hcost (slot_transposeSecond.mpr hT)⟩
    · obtain ⟨b, x, hM, hcost, -, -, hx, rfl⟩ := (mergeTransition_eq_some hd).mp h
      exact ⟨_, decode_of_encodeState (a := .mergeSecond i (d + 1)) hx hcost (slot_mergeSecond.mpr hM)⟩
    · obtain ⟨b, x, hM, hcost, -, hx, -, rfl⟩ := (splitTransition_eq_some hd).mp h
      exact ⟨_, decode_of_encodeState (a := .splitSecond i (d + 1)) hx hcost (slot_splitSecond.mpr hM)⟩
  | transposeSecond i d =>
    simp only [edgeTargets] at ht
    split at ht
    · cases ht
    · rename_i b b' x hctx
      obtain ⟨-, -, hx⟩ := transposeSecondContext_eq_some.mp hctx
      split at ht
      · cases List.mem_singleton.mp ht
        exact ⟨_, decode_normal hx hk⟩
      · cases ht
  | mergeSecond i d => cases ht
  | splitSecond i d =>
    simp only [edgeTargets] at ht
    split at ht
    · cases ht
    · rename_i x hx
      obtain ⟨-, hx⟩ := splitSecondTarget_eq_some.mp hx
      cases List.mem_singleton.mp ht
      exact ⟨_, decode_normal hx hk⟩

omit [CharUnit U] in
/-- An arc that stays at the node leads to an automaton state that decodes. -/
theorem decode_of_mem_stayTransitions {arc : Transition} (ha : src.codec.decodeAutomatonState aid = some a)
    (harc : arc ∈ src.stayTransitions a id state) : ∃ x a', src.codec.decodeAutomatonState x = some a' ∧
      src.codec.encodeProductState id x = some arc.target := by
  have hd := cost_lt_of_decode ha
  have hk := (valid_of_decode ha).cost_le
  cases a with
  | normal i d =>
    rw [stayTransitions, Option.mem_toList] at harc
    obtain ⟨b, x, target, -, hcost, hx, htarget, rfl⟩ := (deleteTransition_eq_some hd).mp harc
    exact ⟨x, _, decode_normal hx hcost, htarget⟩
  | mergeSecond i d =>
    obtain ⟨b, x, target, -, hx, htarget, rfl⟩ := mem_stayTransitions_mergeSecond.mp harc
    exact ⟨x, _, decode_normal hx hk, htarget⟩
  | transposeSecond i d => cases harc
  | splitSecond i d => cases harc

/-- What a turn returns leads to a registered node and an automaton state. -/
theorem Turn.target {out : List Transition} (h : Turn src r out r') : ∀ arc ∈ out, ∃ id aid n a,
    r'.getNode id = some n ∧ src.codec.decodeAutomatonState aid = some a ∧
      src.codec.encodeProductState id aid = some arc.target := by
  cases h with
  | edge hle hdecode ha hn he =>
    intro arc harc
    obtain ⟨t, ht, i, hi, htarget, -⟩ := of_mem_followEdge harc
    obtain ⟨m, hm⟩ := Interner.exists_value? (Interner.id?_lt hi)
    obtain ⟨a', ha'⟩ := decode_of_mem_edgeTargets ha ht
    exact ⟨i, _, m, a', hm, ha', htarget⟩
  | stay hle hdecode ha hn =>
    intro arc harc
    obtain ⟨x, a', ha', htarget⟩ := decode_of_mem_stayTransitions ha harc
    exact ⟨_, x, _, a', Interner.le_value? hle hn, ha', htarget⟩

/-! ### Valid states -/

omit [CharUnit U] in
theorem isValidProductState_iff : src.isValidProductState r state = true ↔ ∃ id aid,
    src.codec.decodeProductState state = some (id, aid) ∧ (∃ a, src.codec.decodeAutomatonState aid = some a) ∧
      ∃ n, r.getNode id = some n := by
  unfold isValidProductState
  split
  · rename_i h
    simp [h]
  · rename_i id aid h
    simp [h, Option.isSome_iff_exists]

variable (src) in
/-- A node and an automaton state of the source. -/
def Registered (r : DictionaryNodeRegistry N) (id aid : Nat) : Prop :=
  (∃ n, r.getNode id = some n) ∧ ∃ a, src.codec.decodeAutomatonState aid = some a

theorem validityClosed (dictionary : Dictionary N U) (query : List Char) (maxDistance : Nat) (algorithm : Algorithm) :
    let src := withAlgorithm dictionary query maxDistance algorithm
    ValidityClosed src.source (Turn src) src.newRegistry start src.codec.maxAutomatonStates (Registered src)
      (fun dictionaryLen r => src.numStates r dictionaryLen) := by
  intro src
  refine .of_turns expandState_runs Turn.le ?_ ?_ ?_ ?_ ?_
  · rintro r r' s hle ⟨hu, hvalid⟩
    obtain ⟨id, aid, hdecode, ha, n, hn⟩ := isValidProductState_iff.mp hvalid
    exact ⟨hu, isValidProductState_iff.mpr ⟨id, aid, hdecode, ha, n, Interner.le_value? hle hn⟩⟩
  · rintro r r' id aid hle ⟨⟨n, hn⟩, ha⟩
    exact ⟨⟨n, Interner.le_value? hle hn⟩, ha⟩
  · refine ⟨Nat.zero_le _, isValidProductState_iff.mpr ⟨0, 0, decodeProductState_zero, ⟨_, decodeAutomatonState_zero⟩, ?_⟩⟩
    exact ⟨_, getNode_new⟩
  · intro r out r' hturn arc harc
    obtain ⟨id, aid, n, a, hn, ha, htarget⟩ := hturn.target arc harc
    obtain ⟨haid, heq, hle⟩ := tryEncode_eq_some.mp htarget
    have hvalid : src.isValidProductState r' arc.target = true :=
      isValidProductState_iff.mpr ⟨id, aid, decode_of_tryEncode htarget, ⟨a, ha⟩, n, hn⟩
    exact ⟨⟨heq ▸ hle, hvalid⟩, id, aid, ⟨⟨n, hn⟩, a, ha⟩, haid, heq⟩
  · rintro r s dictionaryLen ⟨hu, hvalid⟩
    obtain ⟨id, aid, hdecode, ⟨a, ha⟩, n, hn⟩ := isValidProductState_iff.mp hvalid
    exact lt_max_of_lt_right (lt_registeredProductStateIdSpan hdecode hu (Interner.lt_of_value? hn) (lt_max_of_decode ha))

end Duallity.LevenshteinStateSource
