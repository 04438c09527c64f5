import Duallity.Bindings.Adapter
import Duallity.Levenshtein.Relation

/-! The Levenshtein adapter. Its expansions ask for the edges of a node, whether it is final, and about its children. -/

namespace Duallity.LevenshteinStateSource
open DictionaryNodeRegistry LazySource EditMachine EditDistance

section Questions
variable {N U : Type} [CharUnit U] (src : LevenshteinStateSource N U)

/-- The source with the replies in place of the dictionary. -/
def reading (replies : NodeReplies N U) : LevenshteinStateSource N U :=
  { src with dictionary := replies.dictionary src.dictionary.root }

/-- The label that a transposition asks a child for. -/
def askedLabel (queryPos editCost : Nat) (dictChar : Char) : Option Char :=
  if src.codec.algorithm.supportsTransposition && src.canEdit editCost then
    (nextIndex queryPos src.queryChars.length).bind fun nextPos =>
      (src.queryChars[queryPos]?).bind fun firstQueryChar =>
        (src.queryChars[nextPos]?).bind fun secondQueryChar =>
          (src.codec.encodeTransposeSecondState queryPos (saturatingAdd u32Max editCost 1)).bind fun _ =>
            if dictChar = secondQueryChar ∧ firstQueryChar ≠ secondQueryChar then some firstQueryChar else none
  else none

/-- Whether a split asks a child for any edge. -/
def asksAnyEdge (queryPos editCost : Nat) : Bool :=
  src.codec.algorithm.supportsMergeSplit && src.canEdit editCost && (src.queryChars[queryPos]?).isSome &&
    (src.codec.encodeSplitSecondState queryPos (saturatingAdd u32Max editCost 1)).isSome

/-- The statuses that `node_has_any_edge` records. -/
def anyEdgeFaults (replies : NodeReplies N U) (child : N) : List VtStatus :=
  (replies.edgeCount child).2.toList ++ if (replies.edgeCount child).1.isNone then (replies.firstEdgeFault child).toList else []

/-- The statuses that the questions about a child record. -/
def childFaults (replies : NodeReplies N U) (a : AutomatonState) (dictChar : Char) (child : N) : List VtStatus :=
  match a with
  | .normal queryPos editCost =>
    (((src.askedLabel queryPos editCost dictChar).bind CharUnit.ofChar?).bind fun unit : U => (replies.hasEdge child unit).2).toList ++
      if src.asksAnyEdge queryPos editCost then anyEdgeFaults replies child else []
  | _ => []

def asksEdgeCount (a : AutomatonState) : Bool :=
  match a with
  | .normal _ _ => true
  | .transposeSecond queryPos _ => (nextIndex queryPos src.queryChars.length).isSome
  | .mergeSecond _ _ => false
  | .splitSecond queryPos _ => queryPos < src.queryChars.length

def asksEdges (a : AutomatonState) : Bool :=
  match a with
  | .normal queryPos editCost => 0 < src.transitionsPerEdge queryPos editCost
  | .transposeSecond queryPos editCost => (src.transposeSecondContext queryPos editCost).isSome
  | .mergeSecond _ _ => false
  | .splitSecond queryPos editCost => (src.splitSecondTarget queryPos editCost).isSome

/-- The statuses that an expansion records. Its node is asked at first, each child when its edge is followed. -/
def faults (replies : Nat → NodeReplies N U) (a : AutomatonState) (n : N) : List VtStatus :=
  (if src.asksEdgeCount a then ((replies 0).edgeCount n).2.toList else []) ++
    (if src.asksEdges a then
      ((((replies 0).edges n).1.zipIdx.flatMap fun e => src.childFaults (replies (e.2 + 1)) a (CharUnit.toChar e.1.1) e.1.2) ++
        ((replies 0).edges n).2.toList)
    else []) ++
    match a with
    | .normal _ _ => ((replies 0).isFinal n).2.toList
    | _ => []

/-- The edge loop under replies. -/
def followReplies (replies : Nat → NodeReplies N U) (r : DictionaryNodeRegistry N) (a : AutomatonState) (dictNodeId fromState : Nat)
    (dictNode : N) : DictionaryNodeRegistry N × List Transition :=
  scan (fun r (e : (U × N) × Nat) => src.followEdge r dictNodeId fromState (CharUnit.toChar e.1.1) e.1.2
    ((src.reading (replies (e.2 + 1))).edgeTargets a (CharUnit.toChar e.1.1) e.1.2)) r ((replies 0).edges dictNode).1.zipIdx

/-- `expandState` under replies. -/
def expandReplies (replies : Nat → NodeReplies N U) (r : DictionaryNodeRegistry N) (state : Nat) :
    (DictionaryNodeRegistry N × Option (Expansion Nat Char Char Nat)) × List VtStatus :=
  match src.codec.decodeProductState state with
  | none => ((r, none), [])
  | some (dictNodeId, automatonStateId) =>
    match src.codec.decodeAutomatonState automatonStateId, r.getNode dictNodeId,
        src.codec.encodeProductState dictNodeId automatonStateId with
    | some a, some dictNode, some fromState =>
      let edges := src.followReplies replies r a dictNodeId fromState dictNode
      ((edges.1, some ⟨edges.2 ++ src.stayTransitions a dictNodeId fromState, (src.reading (replies 0)).finalWeight? a dictNode⟩),
        src.faults replies a dictNode)
    | _, _, _ => ((r, some ⟨[], none⟩), [])

end Questions

/-! ### Replies without faults -/

section Replies
variable {N U : Type} [CharUnit U] {src : LevenshteinStateSource N U} {replies : NodeReplies N U} {a : AutomatonState} {i d : Nat}
  {c : Char} {child : N}

theorem transposeTransition_reading (h : ∀ label, src.askedLabel i d c = some label →
      nodeHasCharEdge (src.reading replies).dictionary child label = nodeHasCharEdge src.dictionary child label) :
    (src.reading replies).transposeTransition i d c child = src.transposeTransition i d c child := by
  unfold transposeTransition
  refine ite_congr rfl (fun hguard => ?_) fun _ => rfl
  refine Option.bind_congr fun nextPos hnext => Option.bind_congr fun firstQueryChar hfirst => Option.bind_congr fun secondQueryChar hsecond =>
    Option.bind_congr fun state hstate => ?_
  by_cases hlabel : c = secondQueryChar ∧ firstQueryChar ≠ secondQueryChar
  · have hasked : src.askedLabel i d c = some firstQueryChar := by
      unfold askedLabel
      rw [if_pos hguard]
      exact (congrArg (Option.bind · _) hnext).trans <| (congrArg (Option.bind · _) hfirst).trans <|
        (congrArg (Option.bind · _) hsecond).trans <| (congrArg (Option.bind · _) hstate).trans (if_pos hlabel)
    rw [h _ hasked]
  · rw [if_neg fun h => hlabel ⟨h.1, h.2.1⟩, if_neg fun h => hlabel ⟨h.1, h.2.1⟩]

theorem nodeHasCharEdge_reading (hserve : replies.Serve src.dictionary) {label : Char}
    (hfault : (CharUnit.ofChar? (U := U) label).bind (fun unit => (replies.hasEdge child unit).2) = none) :
    nodeHasCharEdge (src.reading replies).dictionary child label = nodeHasCharEdge src.dictionary child label := by
  unfold nodeHasCharEdge
  cases hunit : CharUnit.ofChar? (U := U) label with
  | none => rfl
  | some unit =>
    rw [hunit] at hfault
    exact hserve.hasEdge child unit hfault

omit [CharUnit U] in
theorem nodeHasAnyEdge_reading (hserve : replies.Serve src.dictionary) (hfaults : anyEdgeFaults replies child = []) :
    nodeHasAnyEdge (src.reading replies).dictionary child = nodeHasAnyEdge src.dictionary child := by
  obtain ⟨hcount, hedges⟩ := List.append_eq_nil_iff.mp hfaults
  have hsame : (src.reading replies).dictionary.edgeCount child = src.dictionary.edgeCount child :=
    hserve.edgeCount child (Option.toList_eq_nil_iff.mp hcount)
  unfold nodeHasAnyEdge
  rw [hsame]
  cases hnone : src.dictionary.edgeCount child with
  | some count => rfl
  | none =>
    have hfirst : replies.firstEdgeFault child = none := by
      have hreply : (replies.edgeCount child).1 = none := hsame.trans hnone
      simpa [hreply] using hedges
    change ((replies.edges child).1.head?).isSome = _
    cases hitems : (replies.edges child).1 with
    | nil =>
      have hall := hserve.edges child (by simpa [NodeReplies.firstEdgeFault, hitems] using hfirst)
      rw [← hall, hitems]
    | cons e es =>
      obtain ⟨rest, hrest⟩ := hitems ▸ hserve.prefix_edges child
      rw [← hrest]
      rfl

omit [CharUnit U] in
theorem splitTransition_reading (h : src.asksAnyEdge i d = true →
      nodeHasAnyEdge (src.reading replies).dictionary child = nodeHasAnyEdge src.dictionary child) :
    (src.reading replies).splitTransition i d child = src.splitTransition i d child := by
  unfold splitTransition
  refine ite_congr rfl (fun hguard => ?_) fun _ => rfl
  refine Option.bind_congr fun queryChar hchar => Option.bind_congr fun state hstate => ?_
  have hasked : src.asksAnyEdge i d = true := by
    have hchar' : src.queryChars[i]? = some queryChar := hchar
    have hstate' : src.codec.encodeSplitSecondState i (saturatingAdd u32Max d 1) = some state := hstate
    have hguard' : (src.codec.algorithm.supportsMergeSplit && src.canEdit d) = true := hguard
    simp [asksAnyEdge, hguard', hchar', hstate']
  rw [h hasked]

/-- A child about which no failed callback has answered offers what it offers in the dictionary. -/
theorem edgeTargets_reading (hserve : replies.Serve src.dictionary) (hfaults : src.childFaults replies a c child = []) :
    (src.reading replies).edgeTargets a c child = src.edgeTargets a c child := by
  cases a with
  | normal i d =>
    obtain ⟨hlabel, hany⟩ := List.append_eq_nil_iff.mp hfaults
    have htranspose : (src.reading replies).transposeTransition i d c child = src.transposeTransition i d c child := by
      refine transposeTransition_reading fun label hasked => nodeHasCharEdge_reading hserve ?_
      rw [hasked, Option.bind_some] at hlabel
      exact Option.toList_eq_nil_iff.mp hlabel
    have hsplit : (src.reading replies).splitTransition i d child = src.splitTransition i d child := by
      refine splitTransition_reading fun hasked => nodeHasAnyEdge_reading hserve ?_
      rwa [if_pos hasked] at hany
    have hnormal : (src.reading replies).normalTargets i d c child = src.normalTargets i d c child := by
      unfold normalTargets
      rw [htranspose, hsplit]
      rfl
    exact ite_congr rfl (fun _ => hnormal) fun _ => rfl
  | transposeSecond i d => rfl
  | mergeSecond i d => rfl
  | splitSecond i d => rfl

theorem edgeTargets_of_asksEdges (h : src.asksEdges a = false) : src.edgeTargets a c child = [] := by
  cases a with
  | normal i d =>
    have hnone : ¬0 < src.transitionsPerEdge i d := by simpa [asksEdges] using h
    rw [edgeTargets, if_neg hnone]
  | transposeSecond i d =>
    have hnone : src.transposeSecondContext i d = none := by simpa [asksEdges] using h
    simp [edgeTargets, hnone]
  | mergeSecond i d => rfl
  | splitSecond i d =>
    have hnone : src.splitSecondTarget i d = none := by simpa [asksEdges] using h
    simp [edgeTargets, hnone]

end Replies

section Expansions
variable {N U : Type} [CharUnit U] {src : LevenshteinStateSource N U} {replies : Nat → NodeReplies N U} {a : AutomatonState}
  {r : DictionaryNodeRegistry N} {id s state : Nat} {n : N}

omit [CharUnit U] in
theorem followEdge_nil {c : Char} {child : N} : src.followEdge r id s c child [] = (r, []) := by
  simp [followEdge]

/-- Without faults, the edge loop is the one over the dictionary. -/
theorem followReplies_eq (hserve : ∀ i, (replies i).Serve src.dictionary) (hfaults : src.faults replies a n = []) :
    src.followReplies replies r a id s n = src.followEdges r a id s n := by
  obtain ⟨hedges, -⟩ := List.append_eq_nil_iff.mp hfaults
  obtain ⟨-, hedges⟩ := List.append_eq_nil_iff.mp hedges
  cases hasked : src.asksEdges a with
  | true =>
    rw [if_pos hasked] at hedges
    obtain ⟨hchildren, hown⟩ := List.append_eq_nil_iff.mp hedges
    have hall := (hserve 0).edges n (Option.toList_eq_nil_iff.mp hown)
    have hturn : ∀ e ∈ ((replies 0).edges n).1.zipIdx, ∀ r, src.followEdge r id s (CharUnit.toChar e.1.1) e.1.2
        ((src.reading (replies (e.2 + 1))).edgeTargets a (CharUnit.toChar e.1.1) e.1.2) =
          src.followEdge r id s (CharUnit.toChar e.1.1) e.1.2 (src.edgeTargets a (CharUnit.toChar e.1.1) e.1.2) := by
      intro e he r
      rw [edgeTargets_reading (hserve _) (List.flatMap_eq_nil_iff.mp hchildren e he)]
    unfold followReplies followEdges
    rw [Scan.scan_congr hturn, ← List.zipIdx_map_fst 0 (src.dictionary.edges n), Scan.scan_map, hall]
  | false =>
    rw [followEdges_of_nil fun c child => edgeTargets_of_asksEdges hasked]
    unfold followReplies
    rw [Scan.scan_congr (g := fun r _ => (r, [])) fun e _ r => ?_, Scan.scan_nothing]
    have hnone : (src.reading (replies (e.2 + 1))).edgeTargets a (CharUnit.toChar e.1.1) e.1.2 = [] := edgeTargets_of_asksEdges hasked
    rw [hnone, followEdge_nil]

theorem le_followReplies : r ≤ (src.followReplies replies r a id s n).1 := Scan.le_scan fun _ _ => le_followEdge

/-- Whatever edges the replies break off at, the nodes that are registered are those of the dictionary. -/
theorem wellFormed_followReplies (hserve : ∀ i, (replies i).Serve src.dictionary) (hdistinct : src.dictionary.DistinctLabels)
    (hr : WellFormed src.dictionary r) (hn : r.getNode id = some n) :
    WellFormed src.dictionary (src.followReplies replies r a id s n).1 := by
  refine (Scan.inv_scan (fun r => WellFormed src.dictionary r ∧ r.getNode id = some n) (fun r' e he h => ?_) ⟨hr, hn⟩).1
  have hmem : e.1 ∈ src.dictionary.edges n := ((hserve 0).prefix_edges n).subset (List.fst_mem_of_mem_zipIdx he)
  have hchild : src.dictionary.step? n (CharUnit.toChar e.1.1) = some e.1.2 := hdistinct.step?_eq_some.mpr ⟨e.1.1, hmem, rfl⟩
  exact ⟨wellFormed_followEdge h.1 h.2 hchild, Interner.le_value? le_followEdge h.2⟩

/-- An expansion changes the registry by an edge loop at most. -/
theorem expandReplies_fst (src : LevenshteinStateSource N U) (replies : Nat → NodeReplies N U) (r : DictionaryNodeRegistry N) (state : Nat) :
    (src.expandReplies replies r state).1.1 = r ∨ ∃ a id n s, r.getNode id = some n ∧
      (src.expandReplies replies r state).1.1 = (src.followReplies replies r a id s n).1 := by
  unfold expandReplies
  split
  · exact Or.inl rfl
  · split
    · rename_i a n s ha hn hs
      exact Or.inr ⟨a, _, n, s, hn, rfl⟩
    · exact Or.inl rfl

/-- Without faults, the expansion is that of the dictionary. -/
theorem expandReplies_eq (hserve : ∀ i, (replies i).Serve src.dictionary) (hfaults : (src.expandReplies replies r state).2 = []) :
    (src.expandReplies replies r state).1 = src.expandState r state := by
  unfold expandReplies expandState at *
  cases hdecode : src.codec.decodeProductState state with
  | none => rfl
  | some ids =>
    obtain ⟨id, aid⟩ := ids
    rw [hdecode] at hfaults
    dsimp only at hfaults ⊢
    cases ha : src.codec.decodeAutomatonState aid with
    | none => simp [computeTransitions, ha]
    | some a =>
      cases hn : r.getNode id with
      | none => simp [computeTransitions, ha, hn]
      | some n =>
        cases hs : src.codec.encodeProductState id aid with
        | none => simp [computeTransitions, ha, hn, hs]
        | some s =>
          rw [ha, hn, hs] at hfaults
          have hfollow : src.followReplies replies r a id s n = src.followEdges r a id s n := followReplies_eq hserve hfaults
          have hfinal : (src.reading (replies 0)).finalWeight? a n = src.finalWeight? a n := by
            cases a with
            | normal i d =>
              obtain ⟨-, hown⟩ := List.append_eq_nil_iff.mp hfaults
              have hsame : (src.reading (replies 0)).dictionary.isFinal n = src.dictionary.isFinal n :=
                (hserve 0).isFinal n (Option.toList_eq_nil_iff.mp hown)
              simp only [finalWeight?, normalFinalWeight, hsame]
              rfl
            | transposeSecond i d => rfl
            | mergeSecond i d => rfl
            | splitSecond i d => rfl
          simp only [computeTransitions_eq ha hn hs, hfollow, hfinal]

/-- When no callback fails, an expansion records nothing. -/
theorem expandReplies_answer (h : ∀ i, (replies i).Answer) : (src.expandReplies replies r state).2 = [] := by
  have hchildren : ∀ i a c child, src.childFaults (replies i) a c child = [] := by
    intro i a c child
    have hedge : ∀ o : Option U, (o.bind fun unit => ((replies i).hasEdge child unit).2) = none := by
      intro o
      cases o <;> simp [(h i).hasEdge]
    have hany : anyEdgeFaults (replies i) child = [] := by
      simp [anyEdgeFaults, NodeReplies.firstEdgeFault, (h i).edgeCount, (h i).edges]
    cases a <;> simp [childFaults, hedge, hany]
  have hfaults : ∀ a n, src.faults replies a n = [] := by
    intro a n
    cases a <;> simp [faults, hchildren, (h 0).edgeCount, (h 0).edges, (h 0).isFinal]
  unfold expandReplies
  split
  · rfl
  · split
    · exact hfaults _ _
    · rfl

end Expansions

/-! ### The exported adapter -/

section Exported
variable {D : FiniteDictionary Nat Char} {q : List Char} {k : Nat} {algorithm : Algorithm} {frames : FaultFrames} {provider len : Nat}
  {answers : Nat → Nat → ProviderAnswers} {c : AdapterStore (DictionaryNodeRegistry Nat)}
  {earlier : List (Nat × Expansion Nat Char Char Nat)}

def foreignSource (src : LevenshteinStateSource Nat Char) : ForeignSource (DictionaryNodeRegistry Nat) Nat where
  isValidState := src.isValidProductState
  expandState := src.expandReplies

theorem wraps : (sourceOf D q k algorithm).foreignSource.Wraps (sourceOf D q k algorithm).source D.toDictionary
    (WellFormed D.toDictionary) (Denotes D q k algorithm) where
  valid := Iff.rfl
  expand {replies r state r' o} _ hserve _ he := by
    have hfaults : ((sourceOf D q k algorithm).expandReplies replies r state).2 = [] := congrArg Prod.snd he
    exact (expandReplies_eq hserve hfaults).symm.trans (congrArg Prod.fst he)
  keeps {replies r state r' o faults} hr hserve he := by
    have hr' : ((sourceOf D q k algorithm).expandReplies replies r state).1.1 = r' := congrArg (fun p => p.1.1) he
    rcases expandReplies_fst (sourceOf D q k algorithm) replies r state with hsame | ⟨a, id, n, s, hn, hfollow⟩
    · obtain rfl : r = r' := hsame.symm.trans hr'
      exact ⟨hr, id⟩
    · obtain rfl := hfollow.symm.trans hr'
      have hdistinct : (sourceOf D q k algorithm).dictionary.DistinctLabels := D.labels_nodup
      exact ⟨wellFormed_followReplies hserve hdistinct hr hn, fun hden => hden.mono le_followReplies⟩
  source {r state r' e} hr hv he := by
    obtain ⟨s, hs⟩ := denotes_of_valid hr hv
    obtain ⟨id, aid, n, -, -, hn, ha, hexpand⟩ := hs.expandState hr
    cases hexpand.symm.trans he
    intro arc harc
    rcases List.mem_append.mp harc with harc | harc
    · obtain ⟨c, child, -, t, -, i, -, -, heq⟩ := of_mem_followEdges hr hn harc
      rw [heq]
    · obtain ⟨a', x, -, -, hsource, -⟩ := step_of_mem_stayTransitions (p := s.spelled) ha harc
      exact hsource
  answer h := expandReplies_answer h

/-- The adapter as its clients see it, over a provider whose pages have `len` entries. -/
def client (D : FiniteDictionary Nat Char) (q : List Char) (k : Nat) (algorithm : Algorithm) (provider len : Nat)
    (answers : Nat → Nat → ProviderAnswers) : LazySource (AdapterStore (DictionaryNodeRegistry Nat)) Nat Char Char Nat :=
  (sourceOf D q k algorithm).foreignSource.client provider fun call i => (answers call i).replies len

/-- Callbacks may fail at any time, and leave an expansion half done. What a client has read when everything reachable is expanded
    is the relation of the dictionary all the same; a call in which callbacks fail reports the first failure; and when they fail no
    more, exploring ends. Of the library, `has_edge` is its default, which asks for a transition. -/
theorem relation_amid_faults (hfits : Fits D q k algorithm) (hserve : ∀ call i, (answers call i).Serve D.toDictionary)
    (hdefault : ∀ call i, (answers call i).HasEdgeDefault len) (hframes : frames.WellFormed)
    (hearlier : (client D q k algorithm provider len answers).Explores ⟨frames, initial D, 0⟩ earlier c) :
    (∀ log c', (client D q k algorithm provider len answers).Explores c log c' → Complete log start → ∀ x w v,
      (graph log).Accepts start x w v ↔
        w ∈ D.words ∧ ∃ c, x <+: q ∧ Alignment.Align (Op algorithm) x w c ∧ v = c + (q.length - x.length) ∧ v ≤ k) ∧
    (∀ state fault, (((sourceOf D q k algorithm).foreignSource.compute (fun i => (answers c.calls i).replies len) c.registries
        state).2.head? = some fault →
      ((sourceOf D q k algorithm).foreignSource.scalarState provider (fun i => (answers c.calls i).replies len) c.frames c.registries
        state).2 = .error fault)) ∧
    ((∀ call i, c.calls ≤ call → ((answers call i).replies len).Answer) →
      ∃ log c', (client D q k algorithm provider len answers).ExploresFrom start c log c' ∧ Complete log start) := by
  have hreplies : ∀ call i, ((answers call i).replies len).Serve D.toDictionary :=
    fun call i => (hserve call i).replies (hdefault call i) D.hasEdge_iff
  have hinterrupts : Interrupts (client D q k algorithm provider len answers) _ AdapterStore.registries _ _ _ :=
    wraps.interrupts hreplies 0
  have hexact := (exact hfits).interrupted hinterrupts
  have hc : ForeignSource.Inv (WellFormed D.toDictionary) 0 c :=
    hexact.inv_explores hearlier ⟨hframes, wellFormed_initial, le_rfl⟩
  refine ⟨fun log c' hE hcomplete x w v => ?_, fun state fault hfault => ?_, fun hanswer => ?_⟩
  · exact (hexact.accepts_iff hE hc hcomplete denotes_start).trans EditMachine.accepts_iff
  · rw [ForeignSource.scalarState_snd hc.1, hfault]
    rfl
  · exact wraps.exists_complete sound valid_of_denotes (fun _ _ => exists_expandState _ _) hreplies
      hanswer ⟨hc.1, hc.2.1, le_rfl⟩ denotes_start

end Exported

/-- The word `a`. -/
def wordA : Dictionary Nat Char where
  root := 0
  isFinal n := n == 1
  edges n := if n = 0 then [('a', 1)] else []
  hasEdge n c := n == 0 && c == 'a'
  edgeCount _ := none

theorem wordA_node {p : List Char} {n : Nat} (h : wordA.node? p = some n) : p = [] ∧ n = 0 ∨ p = ['a'] ∧ n = 1 := by
  induction p using List.reverseRecOn generalizing n with
  | nil =>
    rw [Dictionary.node?_nil] at h
    exact Or.inl ⟨rfl, (Option.some.inj h).symm⟩
  | append_singleton p c ih =>
    rw [Dictionary.node?_snoc] at h
    obtain ⟨m, hm, hstep⟩ := Option.bind_eq_some_iff.mp h
    rcases ih hm with ⟨rfl, rfl⟩ | ⟨rfl, rfl⟩
    · have hedge : c = 'a' ∧ n = 1 := by
        by_cases hc : c = 'a'
        · subst hc
          exact ⟨rfl, (Option.some.inj hstep).symm⟩
        · simp [Dictionary.step?, wordA, CharUnit.toChar, Ne.symm hc] at hstep
      exact Or.inr ⟨by rw [hedge.1]; rfl, hedge.2⟩
    · simp [Dictionary.step?, wordA] at hstep

theorem wordA_prefixes : wordA.prefixes ⊆ ({[], ['a']} : Finset (List Char)) := by
  intro p hp
  obtain ⟨n, hn⟩ := Dictionary.mem_prefixes.mp hp
  rcases wordA_node hn with ⟨rfl, -⟩ | ⟨rfl, -⟩ <;> simp

def finiteWordA : FiniteDictionary Nat Char where
  toDictionary := wordA
  labels_nodup n := by
    by_cases hn : n = 0 <;> simp [wordA, hn]
  hasEdge_iff n u := by
    by_cases hn : n = 0 <;> simp [wordA, hn]
  edgeCount_eq n c h := by cases h
  finite := (Finset.finite_toSet _).subset wordA_prefixes

/-- A provider of the word `a`, whose finality callback fails during the first call. -/
def failingOnce (call : Nat) : ProviderAnswers where
  nodeIsFinal n := if call = 0 then ⟨some .ioError, 0⟩ else ⟨some .ok, (n == 1).toNat⟩
  nodeTransition := some fun n c => ⟨some .ok, 1, (n == 0 && c == 'a').toNat⟩
  nodeEdges n i := ⟨some .ok, if n = 0 ∧ i = 0 then 1 else 0, if n = 0 then 1 else 0, fun _ => ⟨97, 1⟩⟩
  hasEdge n c := (wordA.hasEdge n c, none)
  edgeCount n := (wordA.edgeCount n, none)

theorem failingOnce_serve (call : Nat) : (failingOnce call).Serve wordA where
  nodeIsFinal n hok _ := by
    by_cases hcall : call = 0 <;> simp_all [failingOnce, wordA]
  nodeEdges n calls _ := by
    by_cases hn : n = 0
    · subst hn
      refine ⟨?_, fun _ _ => rfl⟩
      cases calls with
      | zero => exact ⟨[], List.nil_prefix, .nil⟩
      | succ calls =>
        have hpages : ResourceEdges.pages ((failingOnce call).nodeEdges 0) (calls + 1) = [⟨97, 1⟩] := by
          unfold ResourceEdges.pages
          rw [List.range_succ_eq_map, List.flatMap_cons]
          simp [failingOnce, ResourceEdges.responsePage, List.flatMap_map]
        exact ⟨[('a', 1)], List.prefix_refl _, hpages ▸ .cons ⟨by decide, rfl⟩ .nil⟩
    · refine ⟨⟨[], List.nil_prefix, ?_⟩, ?_⟩ <;> simp [failingOnce, hn, wordA, ResourceEdges.pages, ResourceEdges.responsePage]
  nodeTransition callback hcallback n c _ := by
    cases hcallback
    by_cases hn : n = 0 <;> by_cases hc : c = 'a' <;> simp [wordA, hn, hc]
  edgeCount _ _ := rfl

theorem failingOnce_hasEdge (call : Nat) : (failingOnce call).HasEdgeDefault 8 := by
  intro n c
  by_cases hedge : (n == 0 && c == 'a') = true <;>
    simp [failingOnce, wordA, ProviderAnswers.transition, ResourceNode.transition, hedge]

theorem fits_wordA : Fits finiteWordA ['b'] 1 .standard := by
  refine ⟨by decide, ?_⟩
  have hcard := Set.ncard_le_ncard wordA_prefixes (Finset.finite_toSet _)
  rw [Set.ncard_coe_finset] at hcard
  exact (Nat.mul_le_mul_right _ hcard).trans (by decide)

def onceClient : LazySource (AdapterStore (DictionaryNodeRegistry Nat)) Nat Char Char Nat :=
  client finiteWordA ['b'] 1 .standard 7 8 fun call _ => failingOnce call

theorem failingOnce_answer {call : Nat} (h : 1 ≤ call) : ((failingOnce call).replies 8).Answer where
  edges n := by
    by_cases hn : n = 0
    · subst hn
      rfl
    · have hempty : (failingOnce call).nodeEdges n = fun _ => ⟨some .ok, 0, 0, fun _ => ⟨97, 1⟩⟩ := by
        funext i
        simp [failingOnce, hn]
      simp only [ProviderAnswers.replies, hempty]
      rfl
  isFinal n := by
    have hcall : call ≠ 0 := Nat.one_le_iff_ne_zero.mp h
    cases hn : n == 1 <;> simp [ProviderAnswers.replies, ResourceNode.isFinal, failingOnce, hcall, hn]
  hasEdge _ _ := rfl
  edgeCount _ := rfl

/-- The provider fails after the first expansion has registered the node of `a`. The client reads the relation all the same. -/
theorem relation_amid_faults_once : ∃ c, onceClient.Explores ⟨.new, initial finiteWordA, 0⟩ [] c ∧ c.registries.getNode 1 = some 1 ∧
      ((sourceOf finiteWordA ['b'] 1 .standard).foreignSource.scalarState 7 (fun _ => (failingOnce 0).replies 8) .new (initial finiteWordA)
        start).2 = .error .ioError ∧
      ∃ log c', onceClient.ExploresFrom start c log c' ∧ Complete log start ∧ (graph log).Accepts start ['b'] ['a'] 1 := by
  have hserve : ∀ call i, ((fun call _ => failingOnce call : Nat → Nat → ProviderAnswers) call i).Serve finiteWordA.toDictionary :=
    fun call _ => failingOnce_serve call
  have hdefault : ∀ call i, ((fun call _ => failingOnce call : Nat → Nat → ProviderAnswers) call i).HasEdgeDefault 8 :=
    fun call _ => failingOnce_hasEdge call
  have hnil : onceClient.Explores ⟨.new, initial finiteWordA, 0⟩ [] ⟨.new, initial finiteWordA, 0⟩ := .nil _
  have hnone : (onceClient.expand ⟨.new, initial finiteWordA, 0⟩ start).2 = none := by decide +kernel
  have hfailed := hnil.failed (Prod.ext rfl hnone)
  have hfault := (relation_amid_faults fits_wordA hserve hdefault FaultFrames.wellFormed_new hnil).2.1 start .ioError (by decide +kernel)
  obtain ⟨hrelation, -, hends⟩ := relation_amid_faults fits_wordA hserve hdefault FaultFrames.wellFormed_new hfailed
  obtain ⟨log, c', hE, hcomplete⟩ := hends fun call _ hcall => failingOnce_answer hcall
  have halign : Alignment.Align (Op .standard) ['b'] ['a'] 1 := .single (.replace (by decide))
  exact ⟨_, hfailed, by decide +kernel, hfault, log, c', hE, hcomplete,
    (hrelation log c' hE.explores hcomplete _ _ _).mpr ⟨⟨1, rfl, rfl⟩, 1, List.prefix_refl _, halign, rfl, le_rfl⟩⟩

end Duallity.LevenshteinStateSource
