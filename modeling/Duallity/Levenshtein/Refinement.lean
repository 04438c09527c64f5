import Duallity.Levenshtein.EditMachine
import Duallity.Levenshtein.StateSource
import Mathlib.Data.List.ReduceOption

/-! The Levenshtein source refines the edit machine: a product state stands for the label sequence of its
    node id and the automaton state of its automaton id. Expansions return steps of the machine only, and
    all of them when every id fits `u32`. -/

namespace Duallity
open DictionaryNodeRegistry StateEncoding

/-! ### Arithmetic of the source -/

theorem nextIndex_eq_some {i n j : Nat} : nextIndex i n = some j ↔ j = i + 1 ∧ i + 1 < n ∧ i + 1 ≤ usizeMax := by
  unfold nextIndex
  simp only [Option.filter_eq_some_iff, checkedAdd_eq_some, decide_eq_true_eq]
  constructor
  · rintro ⟨⟨rfl, hle⟩, hlt⟩
    exact ⟨rfl, hlt, hle⟩
  · rintro ⟨rfl, hlt, hle⟩
    exact ⟨⟨rfl, hle⟩, hlt⟩

theorem withinMaxDistance_iff {d m k : Nat} : withinMaxDistance d m k = true ↔ d + m ≤ usizeMax ∧ d + m ≤ k := by
  unfold withinMaxDistance
  rw [Option.any_eq_true]
  constructor
  · rintro ⟨_, h, hk⟩
    obtain ⟨rfl, hle⟩ := checkedAdd_eq_some.mp h
    exact ⟨hle, of_decide_eq_true hk⟩
  · rintro ⟨hle, hk⟩
    exact ⟨_, checkedAdd_eq_some.mpr ⟨rfl, hle⟩, decide_eq_true hk⟩

section NodeEdges
variable {N U : Type} [CharUnit U] {D : FiniteDictionary N U} {n : N}

theorem nodeHasCharEdge_iff {c : Char} : nodeHasCharEdge D.toDictionary n c = true ↔ ∃ m, D.step? n c = some m := by
  unfold nodeHasCharEdge
  split
  · rename_i u hu
    rw [D.hasEdge_iff]
    have hc := CharUnit.ofChar?_eq_some.mp hu
    constructor
    · rintro ⟨m, hm⟩
      exact ⟨m, FiniteDictionary.step?_eq_some.mpr ⟨u, hm, hc⟩⟩
    · rintro ⟨m, hm⟩
      obtain ⟨u', hm', hc'⟩ := FiniteDictionary.step?_eq_some.mp hm
      have := CharUnit.ofChar?_eq_some.mpr hc'
      rw [hu] at this
      cases this
      exact ⟨m, hm'⟩
  · rename_i hnone
    refine ⟨fun h => absurd h (by simp), ?_⟩
    rintro ⟨m, hm⟩
    obtain ⟨u, -, hc⟩ := FiniteDictionary.step?_eq_some.mp hm
    rw [CharUnit.ofChar?_eq_some.mpr hc] at hnone
    cases hnone

theorem nodeHasAnyEdge_iff : nodeHasAnyEdge D.toDictionary n = true ↔ ∃ c m, D.step? n c = some m := by
  have hedges : (∃ c m, D.step? n c = some m) ↔ D.edges n ≠ [] := by
    constructor
    · rintro ⟨c, m, hm⟩
      obtain ⟨u, hmem, -⟩ := FiniteDictionary.step?_eq_some.mp hm
      exact List.ne_nil_of_mem hmem
    · intro hne
      obtain ⟨⟨u, m⟩, hmem⟩ := List.exists_mem_of_ne_nil _ hne
      exact ⟨_, m, FiniteDictionary.step?_eq_some.mpr ⟨u, hmem, rfl⟩⟩
  rw [hedges]
  unfold nodeHasAnyEdge
  split
  · cases D.edges n <;> simp
  · rename_i count hcount
    rw [decide_eq_true_iff, D.edgeCount_eq n count hcount, List.length_pos_iff]

end NodeEdges

namespace LevenshteinStateSource

/-! ### Expansions in one form -/

section Uniform
variable {N U : Type} [CharUnit U] (src : LevenshteinStateSource N U)

/-- The targets of an automaton state on an edge to a child. -/
def edgeTargets (a : AutomatonState) (c : Char) (child : N) : List EdgeTarget :=
  match a with
  | .normal i d => if 0 < src.transitionsPerEdge i d then src.normalTargets i d c child else []
  | .transposeSecond i d =>
    match src.transposeSecondContext i d with
    | none => []
    | some (secondInput, requiredOutput, target) => if c = requiredOutput then [⟨some secondInput, 0, target⟩] else []
  | .mergeSecond _ _ => []
  | .splitSecond i d =>
    match src.splitSecondTarget i d with
    | none => []
    | some target => [⟨none, 0, target⟩]

/-- The arcs that stay at the dictionary node. -/
def stayTransitions (a : AutomatonState) (dictNodeId fromState : Nat) : List Transition :=
  match a with
  | .normal i d => (src.deleteTransition i d dictNodeId fromState).toList
  | .mergeSecond i d => (src.computeMergeSecondTransitions .empty i d dictNodeId fromState).2.arcs
  | _ => []

def finalWeight? (a : AutomatonState) (dictNode : N) : Option Nat :=
  match a with
  | .normal i d => src.normalFinalWeight dictNode i d
  | _ => none

/-- The edge loop of an automaton state. -/
def followEdges (r : DictionaryNodeRegistry N) (a : AutomatonState) (dictNodeId fromState : Nat) (dictNode : N) :
    DictionaryNodeRegistry N × List Transition :=
  scan (fun r (e : U × N) => src.followEdge r dictNodeId fromState (CharUnit.toChar e.1) e.2
    (src.edgeTargets a (CharUnit.toChar e.1) e.2)) r (src.dictionary.edges dictNode)

variable {src} {r : DictionaryNodeRegistry N} {id aid s : Nat} {a : AutomatonState} {n : N}

theorem followEdges_of_nil (h : ∀ c child, src.edgeTargets a c child = []) :
    src.followEdges r a id s n = (r, []) := by
  unfold followEdges
  generalize src.dictionary.edges n = es
  induction es with
  | nil => rfl
  | cons e es ih =>
    have he : src.followEdge r id s (CharUnit.toChar e.1) e.2 (src.edgeTargets a (CharUnit.toChar e.1) e.2) =
        (r, []) := by rw [h, followEdge, List.isEmpty_nil, if_pos rfl]
    rw [scan, he, ih]
    rfl

theorem computeTransitions_eq (ha : src.codec.decodeAutomatonState aid = some a) (hn : r.getNode id = some n)
    (hs : src.codec.encodeProductState id aid = some s) :
    src.computeTransitions r id aid = ((src.followEdges r a id s n).1,
      ⟨(src.followEdges r a id s n).2 ++ src.stayTransitions a id s, src.finalWeight? a n⟩) := by
  unfold computeTransitions
  rw [ha, hn, hs]
  cases a with
  | normal i d =>
    simp only [computeNormalTransitions, stayTransitions, finalWeight?]
    split
    · rename_i h
      simp only [followEdges, edgeTargets, if_pos h]
    · rename_i h
      rw [followEdges_of_nil fun c child => by rw [edgeTargets, if_neg h]]
  | transposeSecond i d =>
    simp only [computeTransposeSecondTransitions, stayTransitions, finalWeight?, List.append_nil]
    split
    · rename_i h
      rw [followEdges_of_nil fun c child => by simp only [edgeTargets, h]]
    · rename_i h
      simp only [followEdges, edgeTargets, h]
  | mergeSecond i d =>
    rw [followEdges_of_nil fun c child => rfl]
    rfl
  | splitSecond i d =>
    simp only [computeSplitSecondTransitions, stayTransitions, finalWeight?, List.append_nil]
    split
    · rename_i h
      rw [followEdges_of_nil fun c child => by simp only [edgeTargets, h]]
    · rename_i h
      simp only [followEdges, edgeTargets, h]

end Uniform

/-! ### What each operation offers -/

section Operations
variable {N U : Type} {src : LevenshteinStateSource N U} {i d x : Nat} {c : Char} {child : N} {t : EdgeTarget}

theorem canEdit_iff (hd : d < u32Max) : src.canEdit d = true ↔ d < src.codec.maxDistance := by
  simp only [canEdit, LevenshteinStateCodec.maxDistanceU32, saturatingU32, decide_eq_true_eq, lt_min_iff, hd, and_true]

theorem matchOrSubstitute_eq_some (hd : d < u32Max) : src.matchOrSubstitute i d c = some t ↔
    ∃ a x, src.queryChars[i]? = some a ∧ d + (if a = c then 0 else 1) ≤ src.codec.maxDistance ∧
      src.codec.encodeAutomatonState (i + 1) (d + if a = c then 0 else 1) = some x ∧
      t = ⟨some a, if a = c then 0 else 1, x⟩ := by
  unfold matchOrSubstitute
  rw [Option.bind_eq_some_iff]
  refine exists_congr fun a => ?_
  have hcost : d + (if a = c then 0 else 1) ≤ u32Max := by split <;> omega
  simp only [saturatingAdd_of_le hcost, LevenshteinStateCodec.checkedAdd_bind_encode, LevenshteinStateCodec.maxDistanceU32, saturatingU32,
    Option.ite_none_right_eq_some, Option.map_eq_some_iff, le_min_iff, hcost, and_true]
  constructor
  · rintro ⟨ha, hk, x, hx, rfl⟩
    exact ⟨x, ha, hk, hx, rfl⟩
  · rintro ⟨x, ha, hk, hx, rfl⟩
    exact ⟨ha, hk, x, hx, rfl⟩

theorem insertTarget_eq_some (hd : d < u32Max) : src.insertTarget i d = some t ↔
    ∃ x, d < src.codec.maxDistance ∧ src.codec.encodeAutomatonState i (d + 1) = some x ∧ t = ⟨none, 1, x⟩ := by
  unfold insertTarget
  simp only [saturatingAdd_one hd, Option.ite_none_right_eq_some, Option.map_eq_some_iff, canEdit_iff hd]
  constructor
  · rintro ⟨hk, x, hx, rfl⟩
    exact ⟨x, hk, hx, rfl⟩
  · rintro ⟨x, hk, hx, rfl⟩
    exact ⟨hk, x, hx, rfl⟩

theorem mergeTransition_eq_some (hd : d < u32Max) : src.mergeTransition i d = some t ↔
    ∃ a x, src.codec.algorithm.supportsMergeSplit = true ∧ d < src.codec.maxDistance ∧
      src.queryChars[i]? = some a ∧ (src.queryChars[i + 1]?).isSome ∧
      src.codec.encodeMergeSecondState i (d + 1) = some x ∧ t = ⟨some a, 1, x⟩ := by
  unfold mergeTransition
  simp only [saturatingAdd_one hd, Option.ite_none_right_eq_some, Option.bind_eq_some_iff, Bool.and_eq_true,
    Option.map_eq_some_iff, canEdit_iff hd, nextIndex_eq_some]
  constructor
  · rintro ⟨⟨hM, hk⟩, _, ⟨rfl, hlt, -⟩, a, ha, x, hx, rfl⟩
    exact ⟨a, x, hM, hk, ha, by simp [hlt], hx, rfl⟩
  · rintro ⟨a, x, hM, hk, ha, hb, hx, rfl⟩
    have hlt : i + 1 < src.queryChars.length := by simpa using hb
    obtain ⟨_, -, hcont⟩ := Option.bind_eq_some_iff.mp hx
    have hle := LevenshteinStateCodec.pos_lt_of_continuationState hcont
    exact ⟨⟨hM, hk⟩, _, ⟨rfl, hlt, hle⟩, a, ha, x, hx, rfl⟩

theorem transposeSecondContext_eq_some {b a : Char} : src.transposeSecondContext i d = some (b, a, x) ↔
    src.queryChars[i + 1]? = some b ∧ src.queryChars[i]? = some a ∧
      src.codec.encodeAutomatonState (i + 2) d = some x := by
  unfold transposeSecondContext
  simp only [Option.bind_eq_some_iff, nextIndex_eq_some, LevenshteinStateCodec.checkedAdd_bind_encode, Option.map_eq_some_iff, Prod.mk.injEq]
  constructor
  · rintro ⟨_, ⟨rfl, -, -⟩, _, hb, _, ha, _, hx, rfl, rfl, rfl⟩
    exact ⟨hb, ha, hx⟩
  · rintro ⟨hb, ha, hx⟩
    have hlen := EditMachine.length_le_of_getElem? hb
    have hle : i + 2 < usizeMax := LevenshteinStateCodec.pos_lt_of_encode hx
    exact ⟨_, ⟨rfl, hlen, by omega⟩, b, hb, a, ha, x, hx, rfl, rfl, rfl⟩

theorem splitSecondTarget_eq_some : src.splitSecondTarget i d = some x ↔
    (∃ a, src.queryChars[i]? = some a) ∧ src.codec.encodeAutomatonState (i + 1) d = some x := by
  unfold splitSecondTarget
  rw [LevenshteinStateCodec.checkedAdd_bind_encode, Option.ite_none_right_eq_some]
  refine and_congr_left fun _ => ?_
  rw [← Option.isSome_iff_exists]
  simp

theorem deleteTransition_eq_some {id s : Nat} {arc : Transition} (hd : d < u32Max) :
    src.deleteTransition i d id s = some arc ↔ ∃ b x target, src.queryChars[i]? = some b ∧ d < src.codec.maxDistance ∧
      src.codec.encodeAutomatonState (i + 1) (d + 1) = some x ∧ src.codec.encodeProductState id x = some target ∧
      arc = ⟨s, some b, none, target, 1⟩ := by
  unfold deleteTransition
  simp only [saturatingAdd_one hd, LevenshteinStateCodec.encodeTransitionTarget, Option.bind_eq_some_iff,
    Option.ite_none_right_eq_some, Option.map_eq_some_iff, LevenshteinStateCodec.checkedAdd_bind_encode,
    canEdit_iff hd]
  constructor
  · rintro ⟨b, hb, hk, target, ⟨x, hx, htarget⟩, rfl⟩
    exact ⟨b, x, target, hb, hk, hx, htarget, rfl⟩
  · rintro ⟨b, x, target, hb, hk, hx, htarget, rfl⟩
    exact ⟨b, hb, hk, target, ⟨x, hx, htarget⟩, rfl⟩

theorem splitTransition_eq_some (hd : d < u32Max) : src.splitTransition i d child = some t ↔
    ∃ a x, src.codec.algorithm.supportsMergeSplit = true ∧ d < src.codec.maxDistance ∧
      src.queryChars[i]? = some a ∧ src.codec.encodeSplitSecondState i (d + 1) = some x ∧
      nodeHasAnyEdge src.dictionary child = true ∧ t = ⟨some a, 1, x⟩ := by
  unfold splitTransition
  simp only [saturatingAdd_one hd, Option.ite_none_right_eq_some, Option.bind_eq_some_iff, Bool.and_eq_true,
    canEdit_iff hd, Option.some.injEq]
  constructor
  · rintro ⟨⟨hM, hk⟩, a, ha, x, hx, hedge, rfl⟩
    exact ⟨a, x, hM, hk, ha, hx, hedge, rfl⟩
  · rintro ⟨a, x, hM, hk, ha, hx, hedge, rfl⟩
    exact ⟨⟨hM, hk⟩, a, ha, x, hx, hedge, rfl⟩

theorem mem_stayTransitions_mergeSecond {id s : Nat} {arc : Transition} :
    arc ∈ src.stayTransitions (.mergeSecond i d) id s ↔ ∃ b x target, src.queryChars[i + 1]? = some b ∧
      src.codec.encodeAutomatonState (i + 2) d = some x ∧ src.codec.encodeProductState id x = some target ∧
      arc = ⟨s, some b, none, target, 0⟩ := by
  simp only [stayTransitions, computeMergeSecondTransitions, Option.mem_toList, Option.bind_eq_some_iff,
    Option.map_eq_some_iff, nextIndex_eq_some, LevenshteinStateCodec.encodeTransitionTarget,
    LevenshteinStateCodec.checkedAdd_bind_encode]
  constructor
  · rintro ⟨_, ⟨rfl, -, -⟩, target, ⟨x, hx, htarget⟩, b, hb, rfl⟩
    exact ⟨b, x, target, hb, hx, htarget, rfl⟩
  · rintro ⟨b, x, target, hb, hx, htarget, rfl⟩
    have hlen := EditMachine.length_le_of_getElem? hb
    have hlt : i + 2 < usizeMax := LevenshteinStateCodec.pos_lt_of_encode hx
    exact ⟨_, ⟨rfl, hlen, by omega⟩, target, ⟨x, hx, htarget⟩, b, hb, rfl⟩

variable [CharUnit U]

theorem transposeTransition_eq_some (hd : d < u32Max) : src.transposeTransition i d c child = some t ↔
    ∃ a x, src.codec.algorithm.supportsTransposition = true ∧ d < src.codec.maxDistance ∧
      src.queryChars[i]? = some a ∧ src.queryChars[i + 1]? = some c ∧ a ≠ c ∧
      src.codec.encodeTransposeSecondState i (d + 1) = some x ∧ nodeHasCharEdge src.dictionary child a = true ∧
      t = ⟨some a, 1, x⟩ := by
  unfold transposeTransition
  simp only [saturatingAdd_one hd, Option.ite_none_right_eq_some, Option.bind_eq_some_iff, Bool.and_eq_true,
    canEdit_iff hd, nextIndex_eq_some, Option.some.injEq]
  constructor
  · rintro ⟨⟨hT, hk⟩, _, ⟨rfl, -, -⟩, a, ha, b, hb, x, hx, ⟨rfl, hab, hedge⟩, rfl⟩
    exact ⟨a, x, hT, hk, ha, hb, hab, hx, hedge, rfl⟩
  · rintro ⟨a, x, hT, hk, ha, hb, hab, hx, hedge, rfl⟩
    have hlen := EditMachine.length_le_of_getElem? hb
    have hle := LevenshteinStateCodec.pos_lt_of_continuationState
      (LevenshteinStateCodec.encodeTransposeSecondState_eq ▸ hx)
    exact ⟨⟨hT, hk⟩, _, ⟨rfl, hlen, hle⟩, a, ha, c, hb, x, hx, ⟨rfl, hab, hedge⟩, rfl⟩

/-- The guard of the edge loop skips only edges that no operation uses. -/
theorem normalTargets_of_transitionsPerEdge (h : ¬0 < src.transitionsPerEdge i d) :
    src.normalTargets i d c child = [] := by
  have hedit : src.canEdit d = false := by
    by_contra hne
    rw [Bool.not_eq_false] at hne
    simp [transitionsPerEdge, hne] at h
  have hread : src.queryChars[i]? = none := by
    by_contra hne
    have : src.canReadQuery i = true := by simpa [canReadQuery] using hne
    simp [transitionsPerEdge, this] at h
  simp [normalTargets, matchOrSubstitute, insertTarget, transposeTransition, mergeTransition, splitTransition, hedit,
    hread, List.reduceOption]

theorem mem_edgeTargets_normal : t ∈ src.edgeTargets (.normal i d) c child ↔
    src.matchOrSubstitute i d c = some t ∨ src.insertTarget i d = some t ∨
      src.transposeTransition i d c child = some t ∨ src.mergeTransition i d = some t ∨
      src.splitTransition i d child = some t := by
  have hmem : t ∈ src.normalTargets i d c child ↔ _ := List.reduceOption_mem_iff
  simp only [List.mem_cons, List.not_mem_nil, or_false, eq_comm (a := some t)] at hmem
  rw [edgeTargets]
  split
  · exact hmem
  · rename_i h
    rw [normalTargets_of_transitionsPerEdge h] at hmem
    exact hmem

end Operations

/-! ### The targets are the moves of the machine -/

section Moves
variable {N U : Type} [CharUnit U] {D : FiniteDictionary N U} {q : List Char} {k : Nat} {algorithm : Algorithm}
  {a a' : AutomatonState} {aid : Nat} {p : List Char} {c : Char} {child : N} {t : EdgeTarget}

open LevenshteinStateCodec EditMachine

/-- The source of a query over a dictionary. -/
abbrev sourceOf (D : FiniteDictionary N U) (q : List Char) (k : Nat) (algorithm : Algorithm) :
    LevenshteinStateSource N U := withAlgorithm D.toDictionary q k algorithm

theorem decode_normal {codec : LevenshteinStateCodec} {i d x : Nat} (h : codec.encodeAutomatonState i d = some x)
    (hd : d ≤ codec.maxDistance) : codec.decodeAutomatonState x = some (.normal i d) :=
  decode_of_encodeState (a := .normal i d) h hd rfl

/-- Each target on an edge is a step of the machine along it. -/
theorem step_of_mem_edgeTargets
    (ha : (sourceOf D q k algorithm).codec.decodeAutomatonState aid = some a)
    (hchild : D.node? (p ++ [c]) = some child)
    (ht : t ∈ (sourceOf D q k algorithm).edgeTargets a c child) :
    ∃ a', (sourceOf D q k algorithm).codec.decodeAutomatonState t.automatonState = some a' ∧
      Step D.toDictionary q k algorithm ⟨p, a⟩ t.input (some c) t.weight ⟨p ++ [c], a'⟩ := by
  have hp : p ++ [c] ∈ D.prefixes := Dictionary.mem_prefixes.mpr ⟨child, hchild⟩
  have hd := cost_lt_of_decode ha
  have hk := (valid_of_decode ha).cost_le
  cases a with
  | normal i d =>
    rcases mem_edgeTargets_normal.mp ht with h | h | h | h | h
    · obtain ⟨a, x, hqa, hcost, hx, rfl⟩ := (matchOrSubstitute_eq_some hd).mp h
      exact ⟨_, decode_normal hx hcost, .matchOrSubstitute hqa hp hcost⟩
    · obtain ⟨x, hcost, hx, rfl⟩ := (insertTarget_eq_some hd).mp h
      exact ⟨_, decode_normal hx hcost, .insert hp hcost⟩
    · obtain ⟨a, x, hT, hcost, hqa, hqb, hab, hx, hedge, rfl⟩ := (transposeTransition_eq_some hd).mp h
      obtain ⟨m, hm⟩ := nodeHasCharEdge_iff.mp hedge
      have hp' : p ++ [c] ++ [a] ∈ D.prefixes :=
        Dictionary.mem_prefixes.mpr ⟨m, by rw [Dictionary.node?_snoc, hchild, Option.bind_some, hm]⟩
      exact ⟨_, decode_of_encodeState (a := .transposeSecond i (d + 1)) hx hcost (slot_transposeSecond.mpr hT),
        .transpose hT hqa hqb hab hp' hcost⟩
    · obtain ⟨a, x, hM, hcost, hqa, hqb, hx, rfl⟩ := (mergeTransition_eq_some hd).mp h
      obtain ⟨b, hqb⟩ := Option.isSome_iff_exists.mp hqb
      exact ⟨_, decode_of_encodeState (a := .mergeSecond i (d + 1)) hx hcost (slot_mergeSecond.mpr hM),
        .merge hM hqa hqb hp hcost⟩
    · obtain ⟨a, x, hM, hcost, hqa, hx, hedge, rfl⟩ := (splitTransition_eq_some hd).mp h
      obtain ⟨c', m, hm⟩ := nodeHasAnyEdge_iff.mp hedge
      have hp' : p ++ [c] ++ [c'] ∈ D.prefixes :=
        Dictionary.mem_prefixes.mpr ⟨m, by rw [Dictionary.node?_snoc, hchild, Option.bind_some, hm]⟩
      exact ⟨_, decode_of_encodeState (a := .splitSecond i (d + 1)) hx hcost (slot_splitSecond.mpr hM),
        .split hM hqa hp' hcost⟩
  | transposeSecond i d =>
    simp only [edgeTargets] at ht
    split at ht
    · cases ht
    · rename_i b a x hctx
      obtain ⟨hqb, hqa, hx⟩ := transposeSecondContext_eq_some.mp hctx
      split at ht
      · rename_i hc
        subst hc
        cases List.mem_singleton.mp ht
        exact ⟨_, decode_normal hx hk, .transposeSecond hqa hqb hp⟩
      · cases ht
  | mergeSecond i d => cases ht
  | splitSecond i d =>
    simp only [edgeTargets] at ht
    split at ht
    · cases ht
    · rename_i x hx
      obtain ⟨⟨a, hqa⟩, hx⟩ := splitSecondTarget_eq_some.mp hx
      cases List.mem_singleton.mp ht
      exact ⟨_, decode_normal hx hk, .splitSecond hqa hp⟩

/-- Each arc that stays at the node is a step of the machine that spells nothing. -/
theorem step_of_mem_stayTransitions {id s : Nat} {arc : Transition}
    (ha : (sourceOf D q k algorithm).codec.decodeAutomatonState aid = some a)
    (harc : arc ∈ (sourceOf D q k algorithm).stayTransitions a id s) :
    ∃ a' x, (sourceOf D q k algorithm).codec.decodeAutomatonState x = some a' ∧
      (sourceOf D q k algorithm).codec.encodeProductState id x = some arc.target ∧ arc.source = s ∧ arc.output = none ∧
      Step D.toDictionary q k algorithm ⟨p, a⟩ arc.input none arc.weight ⟨p, a'⟩ := by
  have hd := cost_lt_of_decode ha
  have hk := (valid_of_decode ha).cost_le
  cases a with
  | normal i d =>
    rw [stayTransitions, Option.mem_toList] at harc
    obtain ⟨b, x, target, hqb, hcost, hx, htarget, rfl⟩ := (deleteTransition_eq_some hd).mp harc
    exact ⟨_, x, decode_normal hx hcost, htarget, rfl, rfl, .delete hqb hcost⟩
  | mergeSecond i d =>
    obtain ⟨b, x, target, hqb, hx, htarget, rfl⟩ := mem_stayTransitions_mergeSecond.mp harc
    exact ⟨_, x, decode_normal hx hk, htarget, rfl, rfl, .mergeSecond hqb⟩
  | transposeSecond i d => cases harc
  | splitSecond i d => cases harc

/-- What a step of the machine leads to is valid. -/
theorem valid_of_step {s' : EditState} {i o : Option Char} {w : Nat}
    (ha : (sourceOf D q k algorithm).codec.Valid a) (h : Step D.toDictionary q k algorithm ⟨p, a⟩ i o w s') :
    (sourceOf D q k algorithm).codec.Valid s'.automaton := by
  have hpos : a.queryPos ≤ q.length := ha.pos_le
  have hcost : a.editCost ≤ k := ha.cost_le
  cases h with
  | matchOrSubstitute hqa _ hk => exact ⟨length_le_of_getElem? hqa, hk, rfl⟩
  | insert _ hk => exact ⟨hpos, hk, rfl⟩
  | delete hqa hk => exact ⟨length_le_of_getElem? hqa, hk, rfl⟩
  | transpose hT _ _ _ _ hk => exact ⟨hpos, hk, slot_transposeSecond.mpr hT⟩
  | transposeSecond _ hqb _ => exact ⟨length_le_of_getElem? hqb, hcost, rfl⟩
  | merge hM _ _ _ hk => exact ⟨hpos, hk, slot_mergeSecond.mpr hM⟩
  | mergeSecond hqb => exact ⟨length_le_of_getElem? hqb, hcost, rfl⟩
  | split hM _ _ hk => exact ⟨hpos, hk, slot_splitSecond.mpr hM⟩
  | splitSecond hqa _ => exact ⟨length_le_of_getElem? hqa, hcost, rfl⟩

/-- Each step of the machine along an edge is a target, when automaton states have ids. -/
theorem mem_edgeTargets_of_step {s' : EditState} {i : Option Char} {w : Nat}
    (hfits : (sourceOf D q k algorithm).codec.Fits)
    (ha : (sourceOf D q k algorithm).codec.decodeAutomatonState aid = some a)
    (hchild : D.node? (p ++ [c]) = some child) (h : Step D.toDictionary q k algorithm ⟨p, a⟩ i (some c) w s') :
    s'.spelled = p ++ [c] ∧ ∃ t ∈ (sourceOf D q k algorithm).edgeTargets a c child, t.input = i ∧ t.weight = w ∧
      (sourceOf D q k algorithm).codec.decodeAutomatonState t.automatonState = some s'.automaton := by
  have hd := cost_lt_of_decode ha
  have hvalid := valid_of_step (valid_of_decode ha) h
  obtain ⟨x, hx⟩ := exists_encodeState hfits hvalid
  have hdecode := decode_of_encodeState hx hvalid.cost_le hvalid.slot
  cases h with
  | matchOrSubstitute hqa _ hk =>
    exact ⟨rfl, _, mem_edgeTargets_normal.mpr (.inl ((matchOrSubstitute_eq_some hd).mpr ⟨_, x, hqa, hk, hx, rfl⟩)),
      rfl, rfl, hdecode⟩
  | insert _ hk =>
    exact ⟨rfl, _, mem_edgeTargets_normal.mpr (.inr (.inl ((insertTarget_eq_some hd).mpr ⟨x, hk, hx, rfl⟩))),
      rfl, rfl, hdecode⟩
  | transpose hT hqa hqb hab hp hk =>
    obtain ⟨m, hm⟩ := Dictionary.mem_prefixes.mp hp
    rw [Dictionary.node?_snoc, hchild, Option.bind_some] at hm
    have hedge : nodeHasCharEdge D.toDictionary child _ = true := nodeHasCharEdge_iff.mpr ⟨m, hm⟩
    exact ⟨rfl, _, mem_edgeTargets_normal.mpr (.inr (.inr (.inl ((transposeTransition_eq_some hd).mpr
      ⟨_, x, hT, hk, hqa, hqb, hab, hx, hedge, rfl⟩)))), rfl, rfl, hdecode⟩
  | merge hM hqa hqb _ hk =>
    exact ⟨rfl, _, mem_edgeTargets_normal.mpr (.inr (.inr (.inr (.inl ((mergeTransition_eq_some hd).mpr
      ⟨_, x, hM, hk, hqa, Option.isSome_iff_exists.mpr ⟨_, hqb⟩, hx, rfl⟩))))), rfl, rfl, hdecode⟩
  | split hM hqa hp hk =>
    obtain ⟨m, hm⟩ := Dictionary.mem_prefixes.mp hp
    rw [Dictionary.node?_snoc, hchild, Option.bind_some] at hm
    have hedge : nodeHasAnyEdge D.toDictionary child = true := nodeHasAnyEdge_iff.mpr ⟨_, m, hm⟩
    exact ⟨rfl, _, mem_edgeTargets_normal.mpr (.inr (.inr (.inr (.inr ((splitTransition_eq_some hd).mpr
      ⟨_, x, hM, hk, hqa, hx, hedge, rfl⟩))))), rfl, rfl, hdecode⟩
  | @transposeSecond _ _ _ _ b hqa hqb _ =>
    have hctx := transposeSecondContext_eq_some.mpr ⟨hqb, hqa, hx⟩
    refine ⟨rfl, ⟨some b, 0, x⟩, ?_, rfl, rfl, hdecode⟩
    simp only [edgeTargets, hctx, if_true]
    exact List.mem_singleton_self _
  | splitSecond hqa _ =>
    have htarget := splitSecondTarget_eq_some.mpr ⟨⟨_, hqa⟩, hx⟩
    refine ⟨rfl, ⟨none, 0, x⟩, ?_, rfl, rfl, hdecode⟩
    simp only [edgeTargets, htarget]
    exact List.mem_singleton_self _

/-- Each step of the machine that spells nothing is an arc that stays, when its target has an id. -/
theorem mem_stayTransitions_of_step {s' : EditState} {i : Option Char} {w id s : Nat}
    (hfits : (sourceOf D q k algorithm).codec.Fits)
    (ha : (sourceOf D q k algorithm).codec.decodeAutomatonState aid = some a)
    (hid : ∀ x a', (sourceOf D q k algorithm).codec.decodeAutomatonState x = some a' →
      ((sourceOf D q k algorithm).codec.encodeProductState id x).isSome)
    (h : Step D.toDictionary q k algorithm ⟨p, a⟩ i none w s') :
    s'.spelled = p ∧ ∃ arc ∈ (sourceOf D q k algorithm).stayTransitions a id s,
      arc.input = i ∧ arc.output = none ∧ arc.weight = w ∧
      ∃ x, (sourceOf D q k algorithm).codec.decodeAutomatonState x = some s'.automaton ∧
        (sourceOf D q k algorithm).codec.encodeProductState id x = some arc.target := by
  have hd := cost_lt_of_decode ha
  have hvalid := valid_of_step (valid_of_decode ha) h
  obtain ⟨x, hx⟩ := exists_encodeState hfits hvalid
  have hdecode := decode_of_encodeState hx hvalid.cost_le hvalid.slot
  obtain ⟨target, htarget⟩ := Option.isSome_iff_exists.mp (hid x _ hdecode)
  cases h with
  | @delete _ j d b hqb hk =>
    refine ⟨rfl, ⟨s, some b, none, target, 1⟩, ?_, rfl, rfl, rfl, x, hdecode, htarget⟩
    rw [stayTransitions, Option.mem_toList]
    exact (deleteTransition_eq_some hd).mpr ⟨b, x, target, hqb, hk, hx, htarget, rfl⟩
  | @mergeSecond _ j d b hqb =>
    exact ⟨rfl, ⟨s, some b, none, target, 0⟩,
      mem_stayTransitions_mergeSecond.mpr ⟨b, x, target, hqb, hx, htarget, rfl⟩, rfl, rfl, rfl, x, hdecode, htarget⟩

end Moves

end LevenshteinStateSource
end Duallity
