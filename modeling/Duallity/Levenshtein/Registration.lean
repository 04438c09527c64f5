import Duallity.Levenshtein.Refinement

/-! How an edge loop of the Levenshtein source uses the node registry: it only adds children of the
    expanded node, and an arc's target is the product of a child's id and a target's automaton state. -/

namespace Duallity.LevenshteinStateSource
open DictionaryNodeRegistry StateEncoding
variable {N U : Type}

section Edge
variable {src : LevenshteinStateSource N U} {r : DictionaryNodeRegistry N} {id s i : Nat} {c : Char} {child n : N}
  {targets : List EdgeTarget} {t : EdgeTarget} {arc : Transition}

/-- Either the edge leads nowhere and nothing changes, or the child is registered and the targets that encode at
    its id become arcs. -/
theorem followEdge_cases (src : LevenshteinStateSource N U) (r : DictionaryNodeRegistry N) (id s : Nat) (c : Char)
    (child : N) (targets : List EdgeTarget) :
    (src.followEdge r id s c child targets = (r, []) ∧ ∀ i, r.candidateId (.child id c) = some i →
      ∀ t ∈ targets, src.codec.encodeProductState i t.automatonState = none) ∨
    ∃ i, r.candidateId (.child id c) = some i ∧
      src.followEdge r id s c child targets = ((r.registerNode child (.child id c)).1,
        targets.filterMap fun t => (src.codec.encodeProductState i t.automatonState).map fun target =>
          ⟨s, t.input, some c, target, t.weight⟩) := by
  unfold followEdge
  split
  · rename_i hempty
    refine Or.inl ⟨rfl, fun i _ t ht => ?_⟩
    rw [List.isEmpty_iff.mp hempty] at ht
    cases ht
  · simp only [registerDictionaryNodeForTargets]
    cases hi : r.candidateId (.child id c) with
    | none => exact Or.inl ⟨rfl, fun i h => by cases h⟩
    | some i =>
      by_cases hany : (targets.map (·.automatonState)).any fun a => (src.codec.encodeProductState i a).isSome
      · refine Or.inr ⟨i, rfl, ?_⟩
        have hsnd : (r.registerNode child (.child id c)).2 = some i := Interner.register_snd.trans hi
        simp only [hany, if_true]
        rw [show r.registerNode child (.child id c) = ((r.registerNode child (.child id c)).1, some i) from
          Prod.ext rfl hsnd]
        rfl
      · refine Or.inl ⟨by simp only [hany, if_false, Bool.false_eq_true], ?_⟩
        rintro _ ⟨⟩ t ht
        simp only [List.any_map, List.any_eq_true, Function.comp_apply, not_exists, not_and, Bool.not_eq_true,
          Option.isSome_eq_false_iff, Option.isNone_iff_eq_none] at hany
        exact hany t ht

theorem le_followEdge : r ≤ (src.followEdge r id s c child targets).1 := by
  rcases followEdge_cases src r id s c child targets with ⟨h, -⟩ | ⟨i, -, h⟩ <;> rw [h]
  exact Interner.le_register

theorem wellFormed_followEdge [CharUnit U] {D : Dictionary N U} (hr : WellFormed D r) (hn : r.getNode id = some n)
    (hchild : D.step? n c = some child) : WellFormed D (src.followEdge r id s c child targets).1 := by
  rcases followEdge_cases src r id s c child targets with ⟨h, -⟩ | ⟨i, -, h⟩ <;> rw [h]
  · exact hr
  · exact hr.registerNode hn hchild

/-- Where an arc of an edge comes from. -/
theorem of_mem_followEdge (h : arc ∈ (src.followEdge r id s c child targets).2) :
    ∃ t ∈ targets, ∃ i, (src.followEdge r id s c child targets).1.id? (.child id c) = some i ∧
      src.codec.encodeProductState i t.automatonState = some arc.target ∧
      arc = ⟨s, t.input, some c, arc.target, t.weight⟩ := by
  rcases followEdge_cases src r id s c child targets with ⟨heq, -⟩ | ⟨i, hi, heq⟩ <;> rw [heq] at h ⊢
  · cases h
  · obtain ⟨t, ht, hmap⟩ := List.mem_filterMap.mp h
    obtain ⟨target, htarget, rfl⟩ := Option.map_eq_some_iff.mp hmap
    exact ⟨t, ht, i, Interner.id?_register hi, htarget, rfl⟩

/-- A target that encodes at the child's id is an arc. -/
theorem mem_followEdge {target : Nat} (ht : t ∈ targets) (hi : r.candidateId (.child id c) = some i)
    (htarget : src.codec.encodeProductState i t.automatonState = some target) :
    ⟨s, t.input, some c, target, t.weight⟩ ∈ (src.followEdge r id s c child targets).2 ∧
      (src.followEdge r id s c child targets).1.id? (.child id c) = some i := by
  rcases followEdge_cases src r id s c child targets with ⟨-, hnone⟩ | ⟨i', hi', heq⟩
  · rw [hnone i hi t ht] at htarget
    cases htarget
  · rw [hi] at hi'
    cases hi'
    rw [heq]
    exact ⟨List.mem_filterMap.mpr ⟨t, ht, by rw [htarget]; rfl⟩, Interner.id?_register hi⟩

end Edge

section Edges
variable [CharUnit U] {D : FiniteDictionary N U} {q : List Char} {k : Nat} {algorithm : Algorithm}
  {r : DictionaryNodeRegistry N} {id s : Nat} {n : N} {a : AutomatonState} {arc : Transition}

theorem le_followEdges : r ≤ ((sourceOf D q k algorithm).followEdges r a id s n).1 :=
  Scan.le_scan fun _ _ => le_followEdge

/-- What every turn of the edge loop keeps. -/
theorem inv_followEdge : ∀ r', ∀ e ∈ D.edges n, (WellFormed D.toDictionary r' ∧ r'.getNode id = some n) →
    let r'' := ((sourceOf D q k algorithm).followEdge r' id s (CharUnit.toChar e.1) e.2
      ((sourceOf D q k algorithm).edgeTargets a (CharUnit.toChar e.1) e.2)).1
    WellFormed D.toDictionary r'' ∧ r''.getNode id = some n := by
  rintro r' ⟨u, child⟩ he ⟨hr, hn⟩
  have hchild : D.step? n (CharUnit.toChar u) = some child := FiniteDictionary.step?_eq_some.mpr ⟨u, he, rfl⟩
  exact ⟨wellFormed_followEdge hr hn hchild, Interner.le_value? le_followEdge hn⟩

theorem wellFormed_followEdges (hr : WellFormed D.toDictionary r) (hn : r.getNode id = some n) :
    WellFormed D.toDictionary ((sourceOf D q k algorithm).followEdges r a id s n).1 :=
  (Scan.inv_scan _ inv_followEdge ⟨hr, hn⟩).1

/-- Each arc of the loop comes from a target on an edge, at the id of the child. -/
theorem of_mem_followEdges (hr : WellFormed D.toDictionary r) (hn : r.getNode id = some n)
    (h : arc ∈ ((sourceOf D q k algorithm).followEdges r a id s n).2) :
    ∃ c child, D.step? n c = some child ∧ ∃ t ∈ (sourceOf D q k algorithm).edgeTargets a c child, ∃ i,
      ((sourceOf D q k algorithm).followEdges r a id s n).1.id? (.child id c) = some i ∧
      (sourceOf D q k algorithm).codec.encodeProductState i t.automatonState = some arc.target ∧
      arc = ⟨s, t.input, some c, arc.target, t.weight⟩ := by
  obtain ⟨⟨u, child⟩, he, r', -, -, hle, harc⟩ := Scan.mem_scan (fun _ _ => le_followEdge) inv_followEdge ⟨hr, hn⟩ h
  obtain ⟨t, ht, i, hi, htarget, heq⟩ := of_mem_followEdge harc
  exact ⟨_, child, FiniteDictionary.step?_eq_some.mpr ⟨u, he, rfl⟩, t, ht, i, Interner.le_id? hle hi, htarget, heq⟩

/-- Each target on an edge is an arc, when its product id fits at every id the child may get. -/
theorem mem_followEdges {c : Char} {child : N} {t : EdgeTarget} (hr : WellFormed D.toDictionary r)
    (hn : r.getNode id = some n) (hchild : D.step? n c = some child)
    (ht : t ∈ (sourceOf D q k algorithm).edgeTargets a c child)
    (hfits : ∀ r', r ≤ r' → WellFormed D.toDictionary r' → ∃ i target, r'.candidateId (.child id c) = some i ∧
      (sourceOf D q k algorithm).codec.encodeProductState i t.automatonState = some target) :
    ∃ i target, ((sourceOf D q k algorithm).followEdges r a id s n).1.id? (.child id c) = some i ∧
      (sourceOf D q k algorithm).codec.encodeProductState i t.automatonState = some target ∧
      ⟨s, t.input, some c, target, t.weight⟩ ∈ ((sourceOf D q k algorithm).followEdges r a id s n).2 := by
  obtain ⟨u, he, rfl⟩ := FiniteDictionary.step?_eq_some.mp hchild
  obtain ⟨r', hrr', ⟨hr', -⟩, hle, hmem⟩ :=
    Scan.exists_of_mem (f := fun r (e : U × N) => (sourceOf D q k algorithm).followEdge r id s (CharUnit.toChar e.1) e.2
      ((sourceOf D q k algorithm).edgeTargets a (CharUnit.toChar e.1) e.2)) (fun _ _ => le_followEdge)
      inv_followEdge ⟨hr, hn⟩ he
  obtain ⟨i, target, hi, htarget⟩ := hfits r' hrr' hr'
  obtain ⟨harc, hid⟩ := mem_followEdge (s := s) ht hi htarget
  exact ⟨i, target, Interner.le_id? hle hid, htarget, hmem _ harc⟩

end Edges

/-! ### The source and the machine -/

section Refinement
variable [CharUnit U] (D : FiniteDictionary N U) (q : List Char) (k : Nat) (algorithm : Algorithm)

/-- A product state stands for the label sequence of its node and its automaton state. -/
def Denotes (r : DictionaryNodeRegistry N) (state : Nat) (s : EditState) : Prop :=
  state ≤ u32Max ∧ ∃ id aid, (sourceOf D q k algorithm).codec.decodeProductState state = some (id, aid) ∧
    Spells r id s.spelled ∧ (sourceOf D q k algorithm).codec.decodeAutomatonState aid = some s.automaton

/-- Every automaton state, and every product of one with a node, has an id in `u32`. -/
def Fits : Prop :=
  (sourceOf D q k algorithm).codec.Fits ∧
    D.prefixes.ncard * (sourceOf D q k algorithm).codec.maxAutomatonStates ≤ u32Count

variable {D q k algorithm} {r r' : DictionaryNodeRegistry N} {state id aid : Nat} {s : EditState}

theorem Denotes.mono (h : Denotes D q k algorithm r state s) (hle : r ≤ r') : Denotes D q k algorithm r' state s := by
  obtain ⟨hu, id, aid, hdecode, hspells, ha⟩ := h
  exact ⟨hu, id, aid, hdecode, hspells.mono hle, ha⟩

theorem Denotes.of_encode (hid : Spells r id s.spelled)
    (ha : (sourceOf D q k algorithm).codec.decodeAutomatonState aid = some s.automaton)
    (hstate : (sourceOf D q k algorithm).codec.encodeProductState id aid = some state) :
    Denotes D q k algorithm r state s := by
  obtain ⟨-, heq, hle⟩ := tryEncode_eq_some.mp hstate
  exact ⟨heq ▸ hle, id, aid, decode_of_tryEncode hstate, hid, ha⟩

theorem denotes_start : Denotes D q k algorithm r start EditMachine.start :=
  ⟨Nat.zero_le _, 0, 0, LevenshteinStateCodec.decodeProductState_zero, .root, LevenshteinStateCodec.decodeAutomatonState_zero⟩

/-- An expansion changes the registry by an edge loop at most. -/
theorem expandState_fst (D : FiniteDictionary N U) (q : List Char) (k : Nat) (algorithm : Algorithm)
    (r : DictionaryNodeRegistry N) (state : Nat) : ((sourceOf D q k algorithm).expandState r state).1 = r ∨
    ∃ a id n s, r.getNode id = some n ∧
      ((sourceOf D q k algorithm).expandState r state).1 = ((sourceOf D q k algorithm).followEdges r a id s n).1 := by
  unfold LevenshteinStateSource.expandState
  split
  · exact Or.inl rfl
  · rename_i id aid _
    cases ha : (sourceOf D q k algorithm).codec.decodeAutomatonState aid with
    | none => exact Or.inl (by simp only [computeTransitions, ha])
    | some a =>
      cases hn : r.getNode id with
      | none => exact Or.inl (by simp only [computeTransitions, ha, hn])
      | some n =>
        cases hs : (sourceOf D q k algorithm).codec.encodeProductState id aid with
        | none => exact Or.inl (by simp only [computeTransitions, ha, hn, hs])
        | some s => exact Or.inr ⟨a, id, n, s, hn, by simp only [computeTransitions_eq ha hn hs]⟩

theorem wellFormed_expandState (q : List Char) (k : Nat) (algorithm : Algorithm) (state : Nat) (hr : WellFormed D.toDictionary r) :
    WellFormed D.toDictionary ((sourceOf D q k algorithm).expandState r state).1 := by
  rcases expandState_fst D q k algorithm r state with
    h | ⟨a, id, n, s, hn, h⟩ <;> rw [h]
  · exact hr
  · exact wellFormed_followEdges hr hn

theorem le_expandState (D : FiniteDictionary N U) (q : List Char) (k : Nat) (algorithm : Algorithm)
    (r : DictionaryNodeRegistry N) (state : Nat) : r ≤ ((sourceOf D q k algorithm).expandState r state).1 := by
  rcases expandState_fst D q k algorithm r state with
    h | ⟨a, id, n, s, -, h⟩ <;> rw [h]
  exact le_followEdges

/-- What the expansion of a state returns. -/
theorem Denotes.expandState (h : Denotes D q k algorithm r state s) (hr : WellFormed D.toDictionary r) :
    ∃ id aid n, Spells r id s.spelled ∧ D.node? s.spelled = some n ∧ r.getNode id = some n ∧
      (sourceOf D q k algorithm).codec.decodeAutomatonState aid = some s.automaton ∧
      (sourceOf D q k algorithm).expandState r state =
        (((sourceOf D q k algorithm).followEdges r s.automaton id state n).1,
          some ⟨((sourceOf D q k algorithm).followEdges r s.automaton id state n).2 ++
            (sourceOf D q k algorithm).stayTransitions s.automaton id state,
            (sourceOf D q k algorithm).finalWeight? s.automaton n⟩) := by
  obtain ⟨hu, id, aid, hdecode, hspells, ha⟩ := h
  obtain ⟨n, hnode, hn⟩ := hr.node hspells
  have hencode : (sourceOf D q k algorithm).codec.encodeProductState id aid = some state :=
    tryEncode_of_decode hdecode hu
  refine ⟨id, aid, n, hspells, hnode, hn, ha, ?_⟩
  simp only [LevenshteinStateSource.expandState, hdecode, computeTransitions_eq ha hn hencode]

theorem denotes_of_valid (hr : WellFormed D.toDictionary r) (h : (sourceOf D q k algorithm).source.valid r state) :
    ∃ s, Denotes D q k algorithm r state s := by
  obtain ⟨hu, hvalid⟩ := h
  unfold isValidProductState at hvalid
  split at hvalid
  · cases hvalid
  · rename_i id aid hdecode
    rw [Bool.and_eq_true] at hvalid
    obtain ⟨a, ha⟩ := Option.isSome_iff_exists.mp hvalid.1
    obtain ⟨n, hn⟩ := Option.isSome_iff_exists.mp hvalid.2
    obtain ⟨p, hp, -⟩ := hr.path_of_getNode hn
    exact ⟨⟨p, a⟩, hu, id, aid, hdecode, hp, ha⟩

/-- A child's id and a target's automaton state stand for the end of the machine's step. -/
theorem denotes_child {c : Char} {child n : N} {t : EdgeTarget} {i target : Nat} (hid : Spells r id s.spelled)
    (hnode : D.node? s.spelled = some n) (hchild : D.step? n c = some child)
    (ha : (sourceOf D q k algorithm).codec.decodeAutomatonState aid = some s.automaton)
    (ht : t ∈ (sourceOf D q k algorithm).edgeTargets s.automaton c child) (hi : r.id? (.child id c) = some i)
    (htarget : (sourceOf D q k algorithm).codec.encodeProductState i t.automatonState = some target) :
    ∃ s', Denotes D q k algorithm r target s' ∧
      EditMachine.Step D.toDictionary q k algorithm s t.input (some c) t.weight s' := by
  have hnode' : D.node? (s.spelled ++ [c]) = some child := by
    rw [Dictionary.node?_snoc, hnode, Option.bind_some, hchild]
  obtain ⟨a', ha', hstep⟩ := step_of_mem_edgeTargets ha hnode' ht
  exact ⟨_, .of_encode (.child hid hi) ha' htarget, hstep⟩

theorem normalFinalWeight_eq_some {n : N} {i d f : Nat} : (sourceOf D q k algorithm).normalFinalWeight n i d = some f ↔
    D.isFinal n = true ∧ i ≤ q.length ∧ f = q.length - i ∧ d + f ≤ k ∧ d + f ≤ usizeMax ∧ f ≤ 9007199254740992 := by
  unfold normalFinalWeight
  simp only [Option.ite_none_right_eq_some, Option.bind_eq_some_iff, remainingQueryChars, boundedCountToF64,
    withinMaxDistance_iff, Option.some.injEq]
  constructor
  · rintro ⟨hfinal, _, ⟨hi, rfl⟩, ⟨hu, hk⟩, hf, rfl⟩
    exact ⟨hfinal, hi, rfl, hk, hu, hf⟩
  · rintro ⟨hfinal, hi, rfl, hk, hu, hf⟩
    exact ⟨hfinal, _, ⟨hi, rfl⟩, ⟨hu, hk⟩, hf, rfl⟩

/-- Expansions return steps and final weights of the edit machine only. -/
theorem sound : LazySource.Sound (sourceOf D q k algorithm).source (EditMachine.machine D.toDictionary q k algorithm)
    (WellFormed D.toDictionary) (Denotes D q k algorithm) where
  inv_expand {r state r' o} hr he := by
    have := wellFormed_expandState q k algorithm state hr
    rwa [show (sourceOf D q k algorithm).expandState r state = (r', o) from he] at this
  den_expand {r _ state _ r' o} _ he hs := by
    have := le_expandState D q k algorithm r state
    rw [show (sourceOf D q k algorithm).expandState r state = (r', o) from he] at this
    exact hs.mono this
  den_unique := by
    rintro r state ⟨p, a⟩ ⟨p', a'⟩ hr ⟨-, id, aid, hdecode, hspells, ha⟩ ⟨-, id', aid', hdecode', hspells', ha'⟩
    cases hdecode.symm.trans hdecode'
    obtain rfl : p = p' := hr.path_unique hspells hspells'
    obtain rfl : a = a' := Option.some.inj (ha.symm.trans ha')
    rfl
  den_of_valid := denotes_of_valid
  arcs {r state s r' e} hr hs he arc harc := by
    obtain ⟨id, aid, n, hspells, hnode, hn, ha, heq⟩ := hs.expandState hr
    cases heq.symm.trans he
    rcases List.mem_append.mp harc with harc | harc
    · obtain ⟨c, child, hchild, t, ht, i, hi, htarget, harc⟩ := of_mem_followEdges hr hn harc
      obtain ⟨s', hs', hstep⟩ := denotes_child (hspells.mono le_followEdges) hnode hchild ha ht hi htarget
      rw [harc]
      exact ⟨s', hs', hstep⟩
    · obtain ⟨a', x, ha', htarget, -, hout, hstep⟩ := step_of_mem_stayTransitions (p := s.spelled) ha harc
      refine ⟨⟨s.spelled, a'⟩, .of_encode (hspells.mono le_followEdges) ha' htarget, ?_⟩
      rw [hout]
      exact hstep
  final {r state s r' e f} hr hs he hf := by
    obtain ⟨id, aid, n, hspells, hnode, hn, ha, heq⟩ := hs.expandState hr
    cases heq.symm.trans he
    obtain ⟨p, a⟩ := s
    cases a with
    | normal i d =>
      obtain ⟨hfinal, hi, rfl, hk, -⟩ := normalFinalWeight_eq_some.mp hf
      exact .normal ⟨n, hnode, hfinal⟩ hi hk
    | transposeSecond i d => cases hf
    | mergeSecond i d => cases hf
    | splitSecond i d => cases hf

theorem Fits.ncard_le (hfits : Fits D q k algorithm) : D.prefixes.ncard ≤ u32Count :=
  (Nat.le_mul_of_pos_right _ LevenshteinStateCodec.maxAutomatonStates_pos).trans hfits.2

theorem Fits.bounds (hfits : Fits D q k algorithm) : q.length < u32Max ∧ k < u32Max := by
  have h : (q.length + 1) * (k + 1) * (1 + continuationStateKinds algorithm) ≤ u32Max := hfits.1
  have h1 : (q.length + 1) * (k + 1) ≤ u32Max := (Nat.le_mul_of_pos_right _ (by omega)).trans h
  have h2 : q.length + 1 ≤ (q.length + 1) * (k + 1) := Nat.le_mul_of_pos_right _ (Nat.succ_pos _)
  have h3 : k + 1 ≤ (q.length + 1) * (k + 1) := Nat.le_mul_of_pos_left _ (Nat.succ_pos _)
  omega

/-- Under a node id of the dictionary every automaton state has a product id. -/
theorem exists_encodeProductState (hfits : Fits D q k algorithm) {x : Nat} {a : AutomatonState}
    (hid : id < D.prefixes.ncard) (hx : (sourceOf D q k algorithm).codec.decodeAutomatonState x = some a) :
    ∃ target, (sourceOf D q k algorithm).codec.encodeProductState id x = some target := by
  have hlt := LevenshteinStateCodec.lt_max_of_decode hx
  have hmul := Nat.mul_le_mul_right (sourceOf D q k algorithm).codec.maxAutomatonStates (Nat.succ_le_of_lt hid)
  rw [Nat.succ_mul] at hmul
  have hcount := hfits.2
  simp only [u32Count] at hcount
  refine ⟨_, tryEncode_eq_some.mpr ⟨hlt, rfl, ?_⟩⟩
  simp only [u32Max]
  omega

/-- When all ids fit, expansions return every step and final weight of the edit machine. -/
theorem exact (hfits : Fits D q k algorithm) : LazySource.Exact (sourceOf D q k algorithm).source
    (EditMachine.machine D.toDictionary q k algorithm) (WellFormed D.toDictionary) (Denotes D q k algorithm) where
  toSound := sound
  steps {r state s r' e} hr hs _ he i o w s' hstep := by
    obtain ⟨id, aid, n, hspells, hnode, hn, ha, heq⟩ := hs.expandState hr
    cases heq.symm.trans he
    have hid : id < D.prefixes.ncard := (hr.lt_size hspells).trans_le (hr.size_le_ncard D.finite)
    have hle : r ≤ ((sourceOf D q k algorithm).followEdges r s.automaton id state n).1 := le_followEdges
    have hspells' := hspells.mono hle
    cases o with
    | none =>
      have hproduct : ∀ x a', (sourceOf D q k algorithm).codec.decodeAutomatonState x = some a' →
          ((sourceOf D q k algorithm).codec.encodeProductState id x).isSome := fun x a' hx =>
        Option.isSome_iff_exists.mpr (exists_encodeProductState hfits hid hx)
      obtain ⟨hp, arc, harc, hi, ho, hw, x, hx, htarget⟩ :=
        mem_stayTransitions_of_step (s := state) hfits.1 ha hproduct hstep
      exact ⟨arc, List.mem_append_right _ harc, hi, ho, hw, .of_encode (hp ▸ hspells') hx htarget⟩
    | some c =>
      obtain ⟨child, hnode'⟩ := Dictionary.mem_prefixes.mp (EditMachine.mem_prefixes_of_step hstep)
      have hchild : D.step? n c = some child := by rwa [Dictionary.node?_snoc, hnode, Option.bind_some] at hnode'
      obtain ⟨hp, t, ht, rfl, rfl, hx⟩ := mem_edgeTargets_of_step hfits.1 ha hnode' hstep
      obtain ⟨j, target, hj, htarget, harc⟩ := mem_followEdges (s := state) hr hn hchild ht fun r' hle hr' => by
        have hspells := hspells.mono hle
        have hn := Interner.le_value? hle hn
        obtain ⟨j, hj⟩ := hr'.exists_candidate D.finite hfits.ncard_le hspells hn hchild
        obtain ⟨target, htarget⟩ := exists_encodeProductState hfits (hr'.candidate_lt D.finite hspells hn hchild hj) hx
        exact ⟨j, target, hj, htarget⟩
      exact ⟨_, List.mem_append_left _ harc, rfl, rfl, rfl, .of_encode (hp ▸ .child hspells' hj) hx htarget⟩
  finals {r state s r' e f} hr hs _ he hf := by
    obtain ⟨id, aid, n, -, hnode, -, ha, heq⟩ := hs.expandState hr
    cases heq.symm.trans he
    cases hf with
    | @normal w i d hw hi hk =>
      obtain ⟨m, hm, hfinal⟩ := hw
      cases hm.symm.trans hnode
      obtain ⟨hq, hk'⟩ := hfits.bounds
      simp only [u32Max] at hq hk'
      exact normalFinalWeight_eq_some.mpr ⟨hfinal, hi, rfl, hk, by simp only [usizeMax]; omega, by omega⟩

end Refinement

end Duallity.LevenshteinStateSource
