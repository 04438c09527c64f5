import Duallity.Phonetic.ProductSource
import Duallity.TrieDictionary

/-! The graph of the phonetic state source. A product state stands for the labels that lead to its node, and its frontier has the
    buckets of the one after these labels. -/

namespace Duallity.PhoneticStateSource
open DictionaryNodeRegistry StateEncoding LazySource
variable {N U : Type} [CharUnit U] {src : PhoneticStateSource N U} {r r' : PhoneticRegistries N} {state id fid s : Nat} {n : N}
  {p : List Char} {c : Char} {frontier : List ProductStateChar} {edge : PendingProductEdge N}

/-- The frontier after a label sequence. -/
def run (A : ProductAutomatonChar) (w : List Char) : List ProductStateChar := w.foldl A.transitionFrontier A.initialFrontier

theorem run_snoc {A : ProductAutomatonChar} : run A (p ++ [c]) = A.transitionFrontier (run A p) c := by
  rw [run, List.foldl_append]
  rfl

/-- The transducer over label sequences that leave states. -/
def machine (src : PhoneticStateSource N U) : Transducer (List Char) Char Char ℚ where
  step p a b w p' := ∃ c, a = some c ∧ b = some c ∧ w = src.phoneticWeight ∧ p' = p ++ [c] ∧ p' ∈ src.dictionary.prefixes ∧
    run src.product p' ≠ []
  final p f := p ∈ src.dictionary.words ∧ ∃ d : Nat, src.product.minAcceptingDistance (run src.product p) = some d ∧ f = d * src.editWeight

/-! ### Turns of the registration loop -/

section Turns
omit [CharUnit U]

/-- An edge whose ids encode is registered with its successors. -/
theorem followEdge_of_encode {i j target : Nat} (hi : r.1.candidateId edge.childKey = some i)
    (hj : r.2.candidateStateIdForKey edge.successorKey = some j) (ht : src.encodeProductState i j = some target) :
    src.followEdge r s edge = (((r.1.registerNode edge.child edge.childKey).1,
      (r.2.registerPreparedStateWithKey edge.successors edge.successorKey).1),
      [⟨s, some edge.dictChar, some edge.dictChar, target, src.phoneticWeight⟩]) := by
  have hnode : (r.1.registerNode edge.child edge.childKey).2 = some i := Interner.register_snd.trans hi
  have hstate : (r.2.registerPreparedStateWithKey edge.successors edge.successorKey).2 = some j := Interner.register_snd.trans hj
  simp only [followEdge, hi, hj, ht, hnode, hstate, Option.isNone_some, Bool.false_eq_true, if_false, Option.bind_some,
    Option.map_some, Option.toList_some]

/-- Any other edge changes nothing. -/
theorem followEdge_cases (src : PhoneticStateSource N U) (r : PhoneticRegistries N) (s : Nat) (edge : PendingProductEdge N) :
    src.followEdge r s edge = (r, []) ∨
    ∃ i j target, r.1.candidateId edge.childKey = some i ∧ r.2.candidateStateIdForKey edge.successorKey = some j ∧
      src.encodeProductState i j = some target ∧
      src.followEdge r s edge = (((r.1.registerNode edge.child edge.childKey).1,
        (r.2.registerPreparedStateWithKey edge.successors edge.successorKey).1),
        [⟨s, some edge.dictChar, some edge.dictChar, target, src.phoneticWeight⟩]) := by
  cases hi : r.1.candidateId edge.childKey with
  | none => exact Or.inl (by simp only [followEdge, hi])
  | some i =>
    cases hj : r.2.candidateStateIdForKey edge.successorKey with
    | none => exact Or.inl (by simp only [followEdge, hi, hj])
    | some j =>
      cases ht : src.encodeProductState i j with
      | none => exact Or.inl (by simp only [followEdge, hi, hj, ht, Option.isNone_none, if_true])
      | some target => exact Or.inr ⟨i, j, target, rfl, rfl, ht, followEdge_of_encode hi hj ht⟩

theorem le_followEdge : r ≤ (src.followEdge r s edge).1 := by
  rcases followEdge_cases src r s edge with h | ⟨i, j, target, -, -, -, h⟩
  · rw [h]
  · rw [h]
    exact ⟨Interner.le_register, Interner.le_register⟩

theorem length_followEdge : (src.followEdge r s edge).2.length ≤ 1 := by
  rcases followEdge_cases src r s edge with h | ⟨i, j, target, -, -, -, h⟩
  · rw [h]
    exact Nat.zero_le _
  · rw [h]
    exact Nat.le_refl _

end Turns

/-! ### The invariant -/

/-- Node ids stand for label sequences, and each frontier is stored under its own key. -/
structure WellFormed (src : PhoneticStateSource N U) (r : PhoneticRegistries N) : Prop where
  nodes : DictionaryNodeRegistry.WellFormed src.dictionary r.1
  frontiers : ∀ {key i}, r.2.id? key = some i → ∃ frontier, r.2.getState i = some frontier ∧
    canonicalProductFrontierToKey frontier = some key
  size_le : r.2.size ≤ u32Count

/-- A pending edge leads to a child, and its successors have the buckets of the transition. -/
theorem mem_pendingEdges (hD : src.dictionary.DistinctLabels) : edge ∈ src.pendingEdges id n frontier ↔
    src.dictionary.step? n edge.dictChar = some edge.child ∧ edge.childKey = .child id edge.dictChar ∧
      src.product.transitionFrontier frontier edge.dictChar ≠ [] ∧
      ProductStateRegistry.prepareState (src.product.transitionFrontier frontier edge.dictChar) =
        some (edge.successors, edge.successorKey) := by
  unfold pendingEdges
  rw [List.mem_filterMap]
  constructor
  · rintro ⟨⟨u, child⟩, hmem, h⟩
    obtain ⟨hne, h⟩ := Option.ite_none_left_eq_some.mp h
    obtain ⟨⟨successors, key⟩, hprepare, rfl⟩ := Option.map_eq_some_iff.mp h
    exact ⟨hD.step?_eq_some.mpr ⟨u, hmem, rfl⟩, rfl, fun hnil => hne (List.isEmpty_iff.mpr hnil), hprepare⟩
  · rintro ⟨hstep, hkey, hne, hprepare⟩
    obtain ⟨u, hmem, hu⟩ := hD.step?_eq_some.mp hstep
    refine ⟨(u, edge.child), hmem, ?_⟩
    dsimp only
    rw [hu, if_neg fun hempty => hne (List.isEmpty_iff.mp hempty), hprepare, Option.map_some, ← hkey]

theorem WellFormed.followEdge (hD : src.dictionary.DistinctLabels) (hr : WellFormed src r) (hn : r.1.getNode id = some n)
    (hedge : edge ∈ src.pendingEdges id n frontier) : WellFormed src (src.followEdge r s edge).1 := by
  obtain ⟨hstep, hkey, -, hprepare⟩ := (mem_pendingEdges hD).mp hedge
  rcases followEdge_cases src r s edge with h | ⟨i, j, target, -, -, -, h⟩
  · rw [h]
    exact hr
  · rw [h, hkey]
    have hnodes := hr.nodes.registerNode hn hstep
    unfold ProductStateRegistry.registerPreparedStateWithKey
    rcases Interner.register_cases u32Count r.2 edge.successorKey edge.successors with heq | ⟨hk, hlt, heq⟩
    · rw [heq]
      exact ⟨hnodes, hr.frontiers, hr.size_le⟩
    · rw [heq]
      refine ⟨hnodes, ?_, ?_⟩
      · intro key i hi
        dsimp only at hi ⊢
        rw [Interner.id?_push] at hi
        split at hi
        · rename_i heq
          cases hi
          exact ⟨edge.successors, Interner.value?_push_self, heq ▸ (buckets_of_prepareState hprepare).2⟩
        · obtain ⟨frontier, hfrontier, hkey⟩ := hr.frontiers hi
          exact ⟨frontier, Interner.value?_push_of_some hfrontier, hkey⟩
      · dsimp only
        rw [Interner.size_push]
        exact hlt

/-- The frontier under the id of a key has the buckets of any frontier with that key. -/
theorem WellFormed.buckets_of_id (hr : WellFormed src r) {key : List Nat} {prepared : List ProductStateChar}
    (hprepare : ProductStateRegistry.prepareState frontier = some (prepared, key)) (hid : r.2.id? key = some fid) :
    ∃ stored, r.2.getState fid = some stored ∧ buckets stored = buckets frontier := by
  obtain ⟨stored, hstored, hkey⟩ := hr.frontiers hid
  obtain ⟨hbuckets, hkey'⟩ := buckets_of_prepareState hprepare
  exact ⟨stored, hstored, (buckets_of_key hkey hkey').trans hbuckets⟩

/-! ### Denotations -/

/-- The labels that lead to the node of a state, when its frontier has their buckets. -/
def Denotes (src : PhoneticStateSource N U) (r : PhoneticRegistries N) (state : Nat) (p : List Char) : Prop :=
  state ≤ u32Max ∧ ∃ id fid frontier, decode state src.maxProductStates = some (id, fid) ∧ Spells r.1 id p ∧
    r.2.getState fid = some frontier ∧ buckets frontier = buckets (run src.product p)

omit [CharUnit U] in
theorem Denotes.mono (h : Denotes src r state p) (hle : r ≤ r') : Denotes src r' state p := by
  obtain ⟨hu, id, fid, frontier, hdecode, hspells, hfrontier, hbuckets⟩ := h
  exact ⟨hu, id, fid, frontier, hdecode, hspells.mono hle.1, Interner.le_value? hle.2 hfrontier, hbuckets⟩

/-- The registration loop of an expansion. -/
def followEdges (src : PhoneticStateSource N U) (r : PhoneticRegistries N) (id s : Nat) (n : N) (frontier : List ProductStateChar) :
    PhoneticRegistries N × List (Arc Nat Char Char ℚ) :=
  scan (fun r edge => src.followEdge r s edge) r (src.pendingEdges id n frontier)

theorem le_followEdges : r ≤ (followEdges src r id s n frontier).1 := Scan.le_scan fun _ _ => le_followEdge

/-- What every turn of the registration loop keeps. -/
theorem inv_followEdge (hD : src.dictionary.DistinctLabels) : ∀ r' : PhoneticRegistries N, ∀ edge ∈ src.pendingEdges id n frontier,
    (WellFormed src r' ∧ r'.1.getNode id = some n) →
    WellFormed src (src.followEdge r' s edge).1 ∧ (src.followEdge r' s edge).1.1.getNode id = some n := by
  rintro r' edge hedge ⟨hr', hn⟩
  exact ⟨hr'.followEdge hD hn hedge, Interner.le_value? le_followEdge.1 hn⟩

theorem WellFormed.followEdges (hD : src.dictionary.DistinctLabels) (hr : WellFormed src r) (hn : r.1.getNode id = some n) :
    WellFormed src (followEdges src r id s n frontier).1 := (Scan.inv_scan _ (inv_followEdge hD) ⟨hr, hn⟩).1

/-- What an expansion of a state with registered components returns. -/
theorem expandState_eq (hdecode : decode state src.maxProductStates = some (id, fid)) (hn : r.1.getNode id = some n)
    (hfrontier : r.2.getState fid = some frontier) (hu : state ≤ u32Max) : src.expandState r state =
      ((followEdges src r id state n frontier).1,
        some ⟨(followEdges src r id state n frontier).2, src.productFinalWeight n frontier⟩) := by
  have hencode : src.encodeProductState id fid = some state := tryEncode_of_decode hdecode hu
  simp only [expandState, hdecode, computeTransitions, hn, hfrontier, hencode, followEdges]

theorem expandState_fst (src : PhoneticStateSource N U) (r : PhoneticRegistries N) (state : Nat) :
    (src.expandState r state).1 = r ∨ ∃ id s n frontier, r.1.getNode id = some n ∧
      (src.expandState r state).1 = (followEdges src r id s n frontier).1 := by
  simp only [expandState]
  split
  · exact Or.inl rfl
  · rename_i id fid _
    cases hn : r.1.getNode id with
    | none => exact Or.inl (by simp only [computeTransitions, hn])
    | some n =>
      cases hfrontier : r.2.getState fid with
      | none => exact Or.inl (by simp only [computeTransitions, hn, hfrontier])
      | some frontier =>
        cases hs : src.encodeProductState id fid with
        | none => exact Or.inl (by simp only [computeTransitions, hn, hfrontier, hs])
        | some s => exact Or.inr ⟨id, s, n, frontier, hn, by simp only [computeTransitions, hn, hfrontier, hs, followEdges]⟩

theorem WellFormed.expandState (hD : src.dictionary.DistinctLabels) (hr : WellFormed src r) :
    WellFormed src (src.expandState r state).1 := by
  rcases expandState_fst src r state with h | ⟨id, s, n, frontier, hn, h⟩
  · rw [h]
    exact hr
  · rw [h]
    exact hr.followEdges hD hn

theorem le_expandState : r ≤ (src.expandState r state).1 := by
  rcases expandState_fst src r state with h | ⟨id, s, n, frontier, -, h⟩
  · rw [h]
  · rw [h]
    exact le_followEdges

/-- A state with a denotation has the components that it denotes. -/
theorem Denotes.components (h : Denotes src r state p) (hr : WellFormed src r) : ∃ id fid n frontier,
    decode state src.maxProductStates = some (id, fid) ∧ Spells r.1 id p ∧ src.dictionary.node? p = some n ∧
      r.1.getNode id = some n ∧ r.2.getState fid = some frontier ∧ buckets frontier = buckets (run src.product p) ∧
      src.expandState r state = ((PhoneticStateSource.followEdges src r id state n frontier).1,
        some ⟨(PhoneticStateSource.followEdges src r id state n frontier).2, src.productFinalWeight n frontier⟩) := by
  obtain ⟨hu, id, fid, frontier, hdecode, hspells, hfrontier, hbuckets⟩ := h
  obtain ⟨n, hnode, hn⟩ := hr.nodes.node hspells
  exact ⟨id, fid, n, frontier, hdecode, hspells, hnode, hn, hfrontier, hbuckets, expandState_eq hdecode hn hfrontier hu⟩

section Expansions
variable (hD : src.dictionary.DistinctLabels) (hA : src.product.Canonical)
include hD hA

/-- The registered child and successors of an edge stand for one more label. -/
theorem denotes_edge {i j target : Nat} (hr' : WellFormed src r') (hspells : Spells r'.1 id p)
    (hbuckets : buckets frontier = buckets (run src.product p)) (hedge : edge ∈ src.pendingEdges id n frontier)
    (hi : r'.1.id? edge.childKey = some i) (hj : r'.2.id? edge.successorKey = some j)
    (ht : src.encodeProductState i j = some target) : Denotes src r' target (p ++ [edge.dictChar]) := by
  obtain ⟨hstep, hkey, -, hprepare⟩ := (mem_pendingEdges hD).mp hedge
  obtain ⟨stored, hstored, hstoredBuckets⟩ := hr'.buckets_of_id hprepare hj
  obtain ⟨-, heq, hle⟩ := tryEncode_eq_some.mp ht
  refine ⟨heq ▸ hle, i, j, stored, decode_of_tryEncode ht, .child hspells (hkey ▸ hi), hstored, ?_⟩
  rw [hstoredBuckets, run_snoc]
  exact hA.transition _ hbuckets

theorem arc_of_mem {arc : Arc Nat Char Char ℚ} (hr : WellFormed src r) (hn : r.1.getNode id = some n)
    (hspells : Spells r.1 id p) (hbuckets : buckets frontier = buckets (run src.product p))
    (harc : arc ∈ (followEdges src r id s n frontier).2) : ∃ edge ∈ src.pendingEdges id n frontier,
      arc = ⟨s, some edge.dictChar, some edge.dictChar, arc.target, src.phoneticWeight⟩ ∧
      Denotes src (followEdges src r id s n frontier).1 arc.target (p ++ [edge.dictChar]) := by
  obtain ⟨edge, hedge, r₁, -, -, hle, harc⟩ := Scan.mem_scan (fun _ _ => le_followEdge) (inv_followEdge hD) ⟨hr, hn⟩ harc
  rcases followEdge_cases src r₁ s edge with h | ⟨i, j, target, hi, hj, ht, h⟩
  · rw [h] at harc
    cases harc
  · rw [h] at harc hle
    cases List.mem_singleton.mp harc
    refine ⟨edge, hedge, rfl, denotes_edge hD hA (hr.followEdges hD hn) (hspells.mono le_followEdges.1) hbuckets hedge ?_ ?_ ht⟩
    · exact Interner.le_id? hle.1 (Interner.id?_register hi)
    · exact Interner.le_id? hle.2 (Interner.id?_register hj)

/-- When the loop returns as many arcs as there are pending edges, it returns an arc for each pending edge. -/
theorem exists_arc (hr : WellFormed src r) (hn : r.1.getNode id = some n) (hspells : Spells r.1 id p)
    (hbuckets : buckets frontier = buckets (run src.product p))
    (hcount : (src.pendingEdges id n frontier).length ≤ (followEdges src r id s n frontier).2.length)
    (hedge : edge ∈ src.pendingEdges id n frontier) : ∃ arc ∈ (followEdges src r id s n frontier).2,
      arc.input = some edge.dictChar ∧ arc.output = some edge.dictChar ∧ arc.weight = src.phoneticWeight ∧
      Denotes src (followEdges src r id s n frontier).1 arc.target (p ++ [edge.dictChar]) := by
  obtain ⟨r₁, -, -, hle, arc, harc, hmem⟩ := Scan.exists_of_length (fun _ _ => le_followEdge) (inv_followEdge hD)
    (fun _ _ => length_followEdge) hcount ⟨hr, hn⟩ hedge
  rcases followEdge_cases src r₁ s edge with h | ⟨i, j, target, hi, hj, ht, h⟩
  · rw [h] at harc
    cases harc
  · rw [h] at harc hle
    cases List.mem_singleton.mp harc
    refine ⟨_, hmem, rfl, rfl, rfl,
      denotes_edge hD hA (hr.followEdges hD hn) (hspells.mono le_followEdges.1) hbuckets hedge ?_ ?_ ht⟩
    · exact Interner.le_id? hle.1 (Interner.id?_register hi)
    · exact Interner.le_id? hle.2 (Interner.id?_register hj)

omit hD in
theorem productFinalWeight_eq_some (hbuckets : buckets frontier = buckets (run src.product p))
    (hnode : src.dictionary.node? p = some n) {f : ℚ} : src.productFinalWeight n frontier = some f ↔ (machine src).final p f := by
  rw [productFinalWeight, Option.ite_none_left_eq_some, Option.map_eq_some_iff, hA.distance hbuckets]
  constructor
  · rintro ⟨hfinal, d, hd, rfl⟩
    exact ⟨⟨n, hnode, Bool.not_eq_false _ ▸ hfinal⟩, d, hd, rfl⟩
  · rintro ⟨⟨n', hnode', hfinal⟩, d, hd, rfl⟩
    cases hnode.symm.trans hnode'
    exact ⟨ne_of_eq_of_ne hfinal (by decide), d, hd, rfl⟩

/-- Expansions return steps and final weights of the machine only. -/
theorem sound {valid : PhoneticRegistries N → Nat → Prop} (hvalid : ∀ {r state}, valid r state → ∃ p, Denotes src r state p) :
    Sound ⟨valid, src.expandState⟩ (machine src) (WellFormed src) (Denotes src) where
  inv_expand := by
    intro r s r' o hr h
    have hfst : (src.expandState r s).1 = r' := congrArg Prod.fst h
    exact hfst ▸ hr.expandState hD
  den_expand := by
    intro r s s' p r' o _ h hp
    have hfst : (src.expandState r s').1 = r' := congrArg Prod.fst h
    exact hp.mono (hfst ▸ le_expandState)
  den_unique := by
    rintro r s p p' hr ⟨-, id, fid, -, hdecode, hspells, -⟩ ⟨-, id', fid', -, hdecode', hspells', -⟩
    cases hdecode.symm.trans hdecode'
    exact hr.nodes.path_unique hspells hspells'
  den_of_valid := fun _ hv => hvalid hv
  arcs := by
    intro r s p r' e hr hp he arc harc
    obtain ⟨id, fid, n, frontier, -, hspells, hnode, hn, -, hbuckets, heq⟩ := hp.components hr
    cases heq.symm.trans he
    obtain ⟨edge, hedge, harceq, hden⟩ := arc_of_mem hD hA hr hn hspells hbuckets harc
    obtain ⟨hstep, -, hne, -⟩ := (mem_pendingEdges hD).mp hedge
    refine ⟨_, hden, edge.dictChar, ?_, ?_, ?_, rfl, ?_, ?_⟩
    · rw [harceq]
    · rw [harceq]
    · rw [harceq]
    · exact Dictionary.mem_prefixes.mpr ⟨_, by rw [Dictionary.node?_snoc, hnode, Option.bind_some, hstep]⟩
    · intro hnil
      rw [run_snoc] at hnil
      have hempty := hA.transition edge.dictChar hbuckets
      rw [hnil, buckets_eq_empty.mpr rfl, buckets_eq_empty] at hempty
      exact hne hempty
  final := by
    intro r s p r' e f hr hp he hf
    obtain ⟨id, fid, n, frontier, -, -, hnode, -, -, hbuckets, heq⟩ := hp.components hr
    cases heq.symm.trans he
    exact (productFinalWeight_eq_some hA hbuckets hnode).mp hf

omit hD hA in
theorem exists_ids (hfit : src.idsFit r state = true) (hdecode : decode state src.maxProductStates = some (id, fid))
    (hn : r.1.getNode id = some n) (hfrontier : r.2.getState fid = some frontier) {u : U} {m : N} (hu : (u, m) ∈ src.dictionary.edges n)
    (hne : src.product.transitionFrontier frontier (CharUnit.toChar u) ≠ []) : ∃ successors key i j,
      ProductStateRegistry.prepareState (src.product.transitionFrontier frontier (CharUnit.toChar u)) = some (successors, key) ∧
      (src.expandState r state).1.1.candidateId (.child id (CharUnit.toChar u)) = some i ∧
      (src.expandState r state).1.2.candidateStateIdForKey key = some j ∧ (src.encodeProductState i j).isSome := by
  simp only [idsFit, hdecode, hn, hfrontier] at hfit
  have hedge := List.all_eq_true.mp hfit _ hu
  simp only [Bool.or_eq_true, List.isEmpty_iff, hne, false_or, Option.any_eq_true] at hedge
  obtain ⟨⟨successors, key⟩, hprepare, i, hi, j, hj, hencode⟩ := hedge
  exact ⟨successors, key, i, j, hprepare, hi, hj, hencode⟩

omit hA in
/-- When all ids fit, the loop returns an arc for each edge. -/
theorem length_followEdges (hr : WellFormed src r) (hdecode : decode state src.maxProductStates = some (id, fid))
    (hn : r.1.getNode id = some n) (hfrontier : r.2.getState fid = some frontier) (hu : state ≤ u32Max) (hfit : src.idsFit r state = true) :
    (followEdges src r id state n frontier).2.length = (src.pendingEdges id n frontier).length := by
  have hr' : WellFormed src (followEdges src r id state n frontier).1 := hr.followEdges hD hn
  refine Scan.length_scan (fun _ _ => le_followEdge) (inv_followEdge hD) ?_ ⟨hr, hn⟩
  intro edge hedge r₁ _ _ hle
  obtain ⟨hstep, hkey, hne, hprepare⟩ := (mem_pendingEdges hD).mp hedge
  obtain ⟨u, hu', hchar⟩ := hD.step?_eq_some.mp hstep
  obtain ⟨successors, key, i, j, hprepare', hi, hj, hencode⟩ := exists_ids hfit hdecode hn hfrontier hu' (hchar.symm ▸ hne)
  rw [hchar, ← hkey] at hi
  rw [hchar, hprepare] at hprepare'
  cases hprepare'
  rw [expandState_eq hdecode hn hfrontier hu] at hi hj
  -- The ids that are predicted in the turn are no larger than those of afterwards.
  have hle' := le_followEdge.trans hle
  obtain ⟨i', hi', hcandidate⟩ := Interner.exists_candidate_le hle'.1 hr'.nodes.size_le hi
  obtain ⟨j', hj', hcandidate'⟩ := Interner.exists_candidate_le hle'.2 hr'.size_le hj
  obtain ⟨target, htarget⟩ := Option.isSome_iff_exists.mp (tryEncode_isSome_mono hencode hi' hj')
  rw [followEdge_of_encode hcandidate hcandidate' htarget]
  rfl

/-- Expansions whose ids fit return every step and final weight of the machine. -/
theorem exact {valid : PhoneticRegistries N → Nat → Prop} (hvalid : ∀ {r state}, valid r state → ∃ p, Denotes src r state p)
    (hfit : ∀ {r state}, valid r state → src.idsFit r state = true) :
    Exact ⟨valid, src.expandState⟩ (machine src) (WellFormed src) (Denotes src) where
  toSound := sound hD hA hvalid
  steps := by
    rintro r s p r' e hr hp hv he i o w p' ⟨c, rfl, rfl, rfl, rfl, hmem, hne⟩
    obtain ⟨id, fid, n, frontier, hdecode, hspells, hnode, hn, hfrontier, hbuckets, heq⟩ := hp.components hr
    have hcount := length_followEdges hD hr hdecode hn hfrontier hp.1 (hfit hv)
    obtain ⟨m, hm⟩ := Dictionary.mem_prefixes.mp hmem
    rw [Dictionary.node?_snoc, hnode, Option.bind_some] at hm
    obtain ⟨u, hu, rfl⟩ := hD.step?_eq_some.mp hm
    have hsuccessors : src.product.transitionFrontier frontier (CharUnit.toChar u) ≠ [] := by
      intro hnil
      have hempty := hA.transition (CharUnit.toChar u) hbuckets
      rw [hnil, buckets_eq_empty.mpr rfl, ← run_snoc, eq_comm, buckets_eq_empty] at hempty
      exact hne hempty
    obtain ⟨successors, key, -, -, hprepare, -⟩ := exists_ids (hfit hv) hdecode hn hfrontier hu hsuccessors
    have hedge : ⟨CharUnit.toChar u, m, .child id (CharUnit.toChar u), successors, key⟩ ∈ src.pendingEdges id n frontier :=
      (mem_pendingEdges hD).mpr ⟨hm, rfl, hsuccessors, hprepare⟩
    cases heq.symm.trans he
    exact exists_arc hD hA hr hn hspells hbuckets hcount.ge hedge
  finals := by
    intro r s p r' e f hr hp hv he hf
    obtain ⟨id, fid, n, frontier, -, -, hnode, -, -, hbuckets, heq⟩ := hp.components hr
    cases heq.symm.trans he
    exact (productFinalWeight_eq_some hA hbuckets hnode).mpr hf

end Expansions

/-! ### Acceptance -/

section Acceptance
variable (hA : src.product.Canonical)
include hA

omit [CharUnit U] in
theorem run_ne_nil_of_snoc (h : run src.product (p ++ [c]) ≠ []) : run src.product p ≠ [] := by
  intro hnil
  rw [run_snoc, hnil, hA.transition_nil] at h
  exact h rfl

theorem path_run (hp : p ∈ src.dictionary.prefixes) (hne : run src.product p ≠ []) :
    (machine src).Path [] p p (p.length * src.phoneticWeight) p := by
  induction p using List.reverseRecOn with
  | nil => simpa using Transducer.Path.nil ([] : List Char)
  | append_singleton p c ih =>
    have hstep : (machine src).step p (some c) (some c) src.phoneticWeight (p ++ [c]) := ⟨c, rfl, rfl, rfl, rfl, hp, hne⟩
    have hpath := (ih (Dictionary.mem_prefixes_of_append hp) (run_ne_nil_of_snoc hA hne)).snoc hstep
    rw [List.length_append, List.length_singleton, Nat.cast_succ, add_mul, one_mul]
    exact hpath

omit hA in
theorem of_path {x y : List Char} {v : ℚ} {p' : List Char} (h : (machine src).Path p x y v p') :
    y = x ∧ p' = p ++ x ∧ v = x.length * src.phoneticWeight := by
  induction h with
  | nil => simp
  | cons hstep _ ih =>
    obtain ⟨c, rfl, rfl, rfl, rfl, -, -⟩ := hstep
    obtain ⟨rfl, rfl, rfl⟩ := ih
    refine ⟨rfl, ?_, ?_⟩
    · simp
    · simp only [Option.toList_some, List.singleton_append, List.length_cons]
      rw [Nat.cast_succ, add_mul, one_mul, add_comm]

/-- The machine accepts the words whose frontier accepts, each written as it is read. -/
theorem machine_accepts_iff {x w : List Char} {v : ℚ} : (machine src).Accepts [] x w v ↔ x = w ∧ w ∈ src.dictionary.words ∧
    ∃ d : Nat, src.product.minAcceptingDistance (run src.product w) = some d ∧
      v = w.length * src.phoneticWeight + d * src.editWeight := by
  constructor
  · rintro ⟨p, u, f, hpath, ⟨hp, d, hd, rfl⟩, rfl⟩
    obtain ⟨rfl, rfl, rfl⟩ := of_path hpath
    exact ⟨rfl, hp, d, hd, rfl⟩
  · rintro ⟨rfl, hw, d, hd, rfl⟩
    have hne : run src.product x ≠ [] := by
      intro hnil
      rw [hnil, hA.distance_nil] at hd
      cases hd
    exact ⟨x, _, _, path_run hA (Dictionary.words_subset_prefixes hw) hne, ⟨hw, d, hd, rfl⟩, rfl⟩

end Acceptance

/-! ### Explorations -/

/-- The source of a product over a dictionary. -/
abbrev sourceOf (D : FiniteDictionary N U) (A : ProductAutomatonChar) (k : Nat) (phoneticWeight editWeight : ℚ) :
    PhoneticStateSource N U := fromValidatedWeights D.toDictionary A k phoneticWeight editWeight

/-- An exploration from the start whose ids fit. -/
abbrev Explored (D : FiniteDictionary N U) (A : ProductAutomatonChar) (k : Nat) (phoneticWeight editWeight : ℚ)
    (log : List (Nat × Expansion Nat Char Char ℚ)) (r : PhoneticRegistries N) : Prop :=
  ((sourceOf D A k phoneticWeight editWeight).source.restrict fun r state =>
    (sourceOf D A k phoneticWeight editWeight).idsFit r state = true).ExploresFrom start
    (newRegistries (sourceOf D A k phoneticWeight editWeight)) log r

section Explorations
variable {D : FiniteDictionary N U} {A : ProductAutomatonChar} {k : Nat} {phoneticWeight editWeight : ℚ}
  {log : List (Nat × Expansion Nat Char Char ℚ)}

theorem maxProductStates_pos : 0 < (sourceOf D A k phoneticWeight editWeight).maxProductStates :=
  Nat.lt_of_lt_of_le (by decide) (Nat.le_max_right _ 10000)

theorem wellFormed_new : WellFormed (sourceOf D A k phoneticWeight editWeight) (newRegistries (sourceOf D A k phoneticWeight editWeight)) := by
  suffices hnew : (∀ {key i}, (ProductStateRegistry.new A.initialFrontier).id? key = some i → ∃ frontier,
      (ProductStateRegistry.new A.initialFrontier).getState i = some frontier ∧ canonicalProductFrontierToKey frontier = some key) ∧
      (ProductStateRegistry.new A.initialFrontier).size ≤ u32Count from
    ⟨DictionaryNodeRegistry.wellFormed_new, hnew.1, hnew.2⟩
  rcases ProductStateRegistry.new_cases A.initialFrontier with ⟨-, h⟩ | ⟨prepared, key', hprepare, h⟩
  · rw [h]
    exact ⟨nofun, Nat.zero_le _⟩
  · rw [h]
    refine ⟨?_, by rw [Interner.size_push, Interner.size_empty]; decide⟩
    intro key i hi
    rw [Interner.id?_push] at hi
    split at hi
    · rename_i heq
      cases hi
      exact ⟨prepared, Interner.value?_push_self, heq ▸ (buckets_of_prepareState hprepare).2⟩
    · cases hi

/-- A new source is at the empty sequence when its start is valid. -/
theorem denotes_start (h : (sourceOf D A k phoneticWeight editWeight).isValidProductState
    (newRegistries (sourceOf D A k phoneticWeight editWeight)) start = true) :
    Denotes (sourceOf D A k phoneticWeight editWeight) (newRegistries (sourceOf D A k phoneticWeight editWeight)) start [] := by
  have hdecode : decode start (sourceOf D A k phoneticWeight editWeight).maxProductStates = some (0, 0) := by
    rw [decode, if_neg (Nat.pos_iff_ne_zero.mp maxProductStates_pos)]
    simp [start]
  rw [isValidProductState, hdecode] at h
  obtain ⟨-, h⟩ := Bool.and_eq_true_iff.mp h
  obtain ⟨frontier, hfrontier⟩ := Option.isSome_iff_exists.mp h
  refine ⟨Nat.zero_le _, 0, 0, frontier, hdecode, .root, hfrontier, ?_⟩
  change (ProductStateRegistry.new A.initialFrontier).getState 0 = some frontier at hfrontier
  rcases ProductStateRegistry.new_cases A.initialFrontier with ⟨-, h⟩ | ⟨prepared, key, hprepare, h⟩
  · rw [h] at hfrontier
    cases hfrontier
  · rw [h] at hfrontier
    have hself := @Interner.value?_push_self _ _ _ Interner.empty key prepared Interner.id?_empty
    cases hself.symm.trans hfrontier
    exact (buckets_of_prepareState hprepare).1

/-- What is expanded first is valid in a new source. -/
theorem valid_start (hE : Explored D A k phoneticWeight editWeight log r) :
    log = [] ∧ r = newRegistries (sourceOf D A k phoneticWeight editWeight) ∨
    (sourceOf D A k phoneticWeight editWeight).isValidProductState
      (newRegistries (sourceOf D A k phoneticWeight editWeight)) start = true := by
  induction hE with
  | nil => exact .inl ⟨rfl, rfl⟩
  | expanded _ hreached hv _ ih =>
    rcases ih with ⟨rfl, rfl⟩ | ih
    · rcases hreached with rfl | ⟨_, hmem, -⟩
      · exact .inr hv.1.2
      · cases hmem
    · exact .inr ih

/-- As long as the ids fit, the graph accepts the words whose frontiers accept, each written as it is read, and the finality
    that is asked for without an expansion is that of the expansion. -/
theorem accepts_folded (hA : A.Canonical) (hE : Explored D A k phoneticWeight editWeight log r) (hc : Complete log start) :
    (∀ x w v, (graph log).Accepts start x w v ↔ x = w ∧ w ∈ D.words ∧ ∃ d : Nat, A.minAcceptingDistance (run A w) = some d ∧
      v = w.length * phoneticWeight + d * editWeight) ∧
    ∀ state e, (state, e) ∈ log → (sourceOf D A k phoneticWeight editWeight).finalWeightForState r state = e.final? := by
  have hD : (sourceOf D A k phoneticWeight editWeight).dictionary.DistinctLabels := D.labels_nodup
  have hstart := denotes_start ((valid_start hE).resolve_left fun ⟨hlog, _⟩ => by
    obtain ⟨e, he⟩ := hc _ _ _ _ (.nil start)
    rw [hlog] at he
    cases he)
  have hexact : Exact (((sourceOf D A k phoneticWeight editWeight).source.restrict
      fun r state => (sourceOf D A k phoneticWeight editWeight).idsFit r state = true).restrict
        fun r s => ∃ p, Denotes (sourceOf D A k phoneticWeight editWeight) r s p)
      (machine (sourceOf D A k phoneticWeight editWeight)) (WellFormed (sourceOf D A k phoneticWeight editWeight))
      (Denotes (sourceOf D A k phoneticWeight editWeight)) := exact hD hA And.right fun h => h.1.2
  have hE' := (hexact.exploresFrom_restrict hE wellFormed_new hstart).explores
  refine ⟨?_, ?_⟩
  · intro x w v
    exact (hexact.accepts_iff hE' wellFormed_new hc hstart).trans (machine_accepts_iff hA)
  · intro state e he
    obtain ⟨log₁, r₁, r₂, log₂, hE₁, ⟨-, p, hp⟩, hexpand, hE₂⟩ := hE'.of_mem he
    have hr₁ := hexact.inv_explores hE₁ wellFormed_new
    have hp' := hexact.den_explores hE₂ (hexact.inv_expand hr₁ hexpand) (hexact.den_expand hr₁ hexpand hp)
    obtain ⟨id, fid, n, frontier, -, -, hnode, -, -, hbuckets, heq⟩ := hp.components hr₁
    obtain ⟨id', fid', n', frontier', hdecode, -, hnode', hn', hfrontier', hbuckets', -⟩ :=
      hp'.components (hexact.inv_explores hE' wellFormed_new)
    cases heq.symm.trans hexpand
    cases hnode.symm.trans hnode'
    -- The frontier that is stored now has the buckets of the one that was expanded.
    have hdistance := hA.distance (hbuckets'.trans hbuckets.symm)
    simp only [finalWeightForState, hdecode, hn', hfrontier', Option.bind_some, productFinalWeight]
    exact if_congr Iff.rfl rfl (congrArg _ hdistance)

/-! ### A literal -/

/-- The product of the NFA that reads `a` from its state 0 to its final state 1, without edits. -/
def literalProduct : ProductAutomatonChar where
  initialFrontier := [⟨[0], 0⟩]
  transitionFrontier frontier c :=
    if c = 'a' ∧ (frontier.any fun state => decide (0 ∈ state.nfaStates)) then [⟨[1], 0⟩] else []
  minAcceptingDistance frontier := if frontier.any fun state => decide (1 ∈ state.nfaStates) then some 0 else none

theorem any_mem_of_buckets {frontier frontier' : List ProductStateChar} (h : buckets frontier = buckets frontier') (q : NfaStateId) :
    (frontier.any fun state => decide (q ∈ state.nfaStates)) = frontier'.any fun state => decide (q ∈ state.nfaStates) := by
  have hmem : ∀ frontier : List ProductStateChar, (frontier.any fun state => decide (q ∈ state.nfaStates)) = true ↔
      ∃ b ∈ buckets frontier, q ∈ b.1 := by
    intro frontier
    simp [buckets, bucketsBy]
  rw [Bool.eq_iff_iff, hmem, hmem, h]

theorem literalProduct_canonical : literalProduct.Canonical where
  transition c h := by
    simp only [literalProduct, any_mem_of_buckets h]
  distance h := by
    simp only [literalProduct, any_mem_of_buckets h]
  transition_nil c := by simp [literalProduct]
  distance_nil := rfl

/-- The source of this product over the dictionary that it reads. -/
def literalSource : PhoneticStateSource (List Char) Char := sourceOf (trie [['a']]) literalProduct 0 0 1

def literalRegistries : PhoneticRegistries (List Char) := (literalSource.expandState literalSource.newRegistries 0).1

theorem accepts_folded_literal : ∃ log r, Explored (trie [['a']]) literalProduct 0 0 1 log r ∧ Complete log start ∧
    (graph log).Accepts start ['a'] ['a'] 0 := by
  have hfirst : (literalSource.expandState literalSource.newRegistries 0).2 = some ⟨[⟨0, some 'a', some 'a', 10001, 0⟩], none⟩ := by
    decide +kernel
  have hsecond : (literalSource.expandState literalRegistries 10001).2 = some ⟨[], some 0⟩ := by decide +kernel
  have hvalid : literalSource.isValidProductState literalSource.newRegistries 0 = true ∧
      literalSource.isValidProductState literalRegistries 10001 = true := by decide +kernel
  have hfit : literalSource.idsFit literalSource.newRegistries 0 = true ∧
      literalSource.idsFit literalRegistries 10001 = true := by decide +kernel
  have hexpand : literalSource.expandState literalSource.newRegistries 0 =
      (literalRegistries, some ⟨[⟨0, some 'a', some 'a', 10001, 0⟩], none⟩) := Prod.ext rfl hfirst
  have hexpand' : literalSource.expandState literalRegistries 10001 =
      ((literalSource.expandState literalRegistries 10001).1, some ⟨[], some 0⟩) := Prod.ext rfl hsecond
  have hone : Explored (trie [['a']]) literalProduct 0 0 1 [(0, ⟨[⟨0, some 'a', some 'a', 10001, 0⟩], none⟩)] literalRegistries :=
    .expanded (.nil _) (.inl rfl) ⟨⟨by decide, hvalid.1⟩, hfit.1⟩ hexpand
  have htwo : Explored (trie [['a']]) literalProduct 0 0 1 [(10001, ⟨[], some 0⟩), (0, ⟨[⟨0, some 'a', some 'a', 10001, 0⟩], none⟩)]
      (literalSource.expandState literalRegistries 10001).1 :=
    .expanded hone (.inr ⟨_, List.mem_cons_self, _, List.mem_cons_self, rfl⟩) ⟨⟨by decide, hvalid.2⟩, hfit.2⟩ hexpand'
  have hcomplete : Complete [(10001, ⟨[], some 0⟩), (0, (⟨[⟨0, some 'a', some 'a', 10001, 0⟩], none⟩ : Expansion Nat Char Char ℚ))] start := by
    intro x y w s hpath
    rcases Sound.reached_of_path hpath with rfl | ⟨l, hl, arc, harc, rfl⟩
    · exact ⟨_, List.mem_cons_of_mem _ List.mem_cons_self⟩
    · rcases List.mem_pair.mp hl with rfl | rfl
      · cases harc
      · cases List.mem_singleton.mp harc
        exact ⟨_, List.mem_cons_self⟩
  refine ⟨_, _, htwo, hcomplete, ((accepts_folded literalProduct_canonical htwo hcomplete).1 _ _ _).mpr ⟨rfl, ?_, 0, ?_, ?_⟩⟩
  · rw [show (trie [['a']]).words = _ from TrieDictionary.words_eq]
    exact List.mem_cons_self
  · decide
  · norm_num

end Explorations

end Duallity.PhoneticStateSource
