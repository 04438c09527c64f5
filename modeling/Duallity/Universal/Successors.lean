import Duallity.Universal.Expansion

/-! Which successors an expansion of the Universal source keeps. A successor is dropped when its node, its
    interned state or their product has no id; states run out of ids once as many are interned as the source
    planned for. -/

namespace Duallity.UniversalLevenshteinStateSource
open DictionaryNodeRegistry StateEncoding UniversalProduct LazySource
variable {N U σ β κ : Type} [CharUnit U] [DecidableEq κ] {A : UniversalAutomaton σ β κ} {D : FiniteDictionary N U}
  {q : List Char} {k : Nat} {r r' : UniversalRegistries N σ κ} {id depth s state : Nat} {n : N} {u : σ} {t : SpelledState}

/-- The registered node and interned state of a product state. -/
def components? (src : UniversalLevenshteinStateSource N U σ β κ) (r : UniversalRegistries N σ κ) (state : Nat) :
    Option (N × Nat × RegisteredUniversalState σ) :=
  (decode state src.maxAutomatonStates).bind fun (id, aid) =>
    (r.1.getNode id).bind fun (n, depth) => (r.2.value? aid).map fun registered => (n, depth, registered)

/-- The keys of the states that an expansion interns, one for each arc it returns when nothing is dropped. -/
def successorKeys (src : UniversalLevenshteinStateSource N U σ β κ) (r : UniversalRegistries N σ κ) (state : Nat) :
    List (UniversalStateKey κ) :=
  ((src.components? r state).map fun (n, depth, registered) =>
    (src.pendingEdges n depth registered).map (fun edge => src.stateKey edge.nextAutoState edge.nextQueryPos) ++
      ((src.queryChars[registered.queryPos]?).map fun _ =>
        src.stateKey registered.state (registered.queryPos + 1)).toList).getD []

/-- The expansion of a state returns an arc for each of its successors. -/
def DropsNothing (src : UniversalLevenshteinStateSource N U σ β κ) (r : UniversalRegistries N σ κ) (state : Nat) : Prop :=
  ∀ e, (src.expandState r state).2 = some e → e.arcs.length = (src.successorKeys r state).length

omit [CharUnit U] in
theorem length_skipQueryChar {src : UniversalLevenshteinStateSource N U σ β κ} {registered : RegisteredUniversalState σ} :
    (src.skipQueryChar r id s registered).2.length ≤ (src.queryChars[registered.queryPos]?).toList.length := by
  rcases skipQueryChar_cases src r id s registered with h | ⟨a, j, target, ha, -, -, h⟩ <;> rw [h]
  · exact Nat.zero_le _
  · rw [ha]
    exact Nat.le_refl _

/-- A state with a denotation has the components that it denotes. -/
theorem Denotes.successorKeys (h : Denotes A D q k r state t) (hr : WellFormed (sourceOf A D q k) r) :
    ∃ id aid u n, Spells r.1 id t.spelled ∧ D.node? t.spelled = some n ∧ r.1.getNode id = some (n, t.spelled.length) ∧
      run A q k t.spelled = some u ∧ r.2.value? aid = some ⟨u, t.cursor⟩ ∧
      (sourceOf A D q k).successorKeys r state =
        ((sourceOf A D q k).pendingEdges n t.spelled.length ⟨u, t.cursor⟩).map
          (fun edge => (sourceOf A D q k).stateKey edge.nextAutoState edge.nextQueryPos) ++
        ((q[t.cursor]?).map fun _ => (sourceOf A D q k).stateKey u (t.cursor + 1)).toList ∧
      (sourceOf A D q k).expandState r state =
        let edges := followEdges (sourceOf A D q k) r id t.spelled.length state n ⟨u, t.cursor⟩
        let skip := (sourceOf A D q k).skipQueryChar edges.1 id state ⟨u, t.cursor⟩
        (skip.1, some ⟨edges.2 ++ skip.2,
          (sourceOf A D q k).registeredFinalWeight n u t.cursor q.length t.spelled.length⟩) := by
  obtain ⟨id, aid, u, n, hspells, hnode, hn, hrun, hdecode, hv, heq⟩ := h.expandState hr
  refine ⟨id, aid, u, n, hspells, hnode, hn, hrun, hv, ?_, heq⟩
  simp only [UniversalLevenshteinStateSource.successorKeys, components?, hdecode, hn, hv, Option.bind_some, Option.map_some,
    Option.getD_some]
  rfl

/-- When the loop drops nothing, it returns an arc for each pending edge. -/
theorem exists_arc_of_pending (hkey : Function.Injective A.key) (ht : Denotes A D q k r state t)
    (hr : WellFormed (sourceOf A D q k) r) (hspells : Spells r.1 id t.spelled)
    (hn : r.1.getNode id = some (n, t.spelled.length)) (hrun : run A q k t.spelled = some u)
    (hcount : ((sourceOf A D q k).pendingEdges n t.spelled.length ⟨u, t.cursor⟩).length ≤
      (followEdges (sourceOf A D q k) r id t.spelled.length s n ⟨u, t.cursor⟩).2.length)
    {edge : PendingEdge N σ} (hedge : edge ∈ (sourceOf A D q k).pendingEdges n t.spelled.length ⟨u, t.cursor⟩) :
    ∃ arc ∈ (followEdges (sourceOf A D q k) r id t.spelled.length s n ⟨u, t.cursor⟩).2,
      arc.input = q[t.cursor]? ∧ arc.output = some edge.dictChar ∧ arc.weight = 0 ∧
      Denotes A D q k (followEdges (sourceOf A D q k) r id t.spelled.length s n ⟨u, t.cursor⟩).1 arc.target
        ⟨t.spelled ++ [edge.dictChar], t.cursor + (q[t.cursor]?).isSome.toNat⟩ := by
  obtain ⟨-, hc, hl, -⟩ := ht
  obtain ⟨-, hread, hpos⟩ := (mem_pendingEdges (hr.depth_lt hspells) hc).mp hedge
  have hr' := wellFormed_followEdges s ⟨u, t.cursor⟩ hr hn
  obtain ⟨r₁, -, -, hle, arc, harc, hmem⟩ := Scan.exists_of_length (fun _ _ => le_followEdge) inv_followEdge
    (fun _ _ => length_followEdge) hcount ⟨hr, hn⟩ hedge
  rcases followEdge_cases (sourceOf A D q k) r₁ id t.spelled.length s
    ((sourceOf A D q k).queryChars[t.cursor]?) edge with h | ⟨i, j, target, hi, hj, htarget, h⟩ <;> rw [h] at harc hle
  · cases harc
  · cases List.mem_singleton.mp harc
    refine ⟨_, hmem, rfl, rfl, rfl, ?_⟩
    exact denotes_edge hkey hr' (hspells.mono le_followEdges.1) hc hl hrun hread hpos
      (Interner.le_id? hle.1 (Interner.id?_register hi)) (Interner.le_id? hle.2 (Interner.id?_register hj)) htarget

/-- Expansions that drop nothing return every step and final weight of the product machine. -/
theorem exact (hkey : Function.Injective A.key) {valid : UniversalRegistries N σ κ → Nat → Prop}
    (hvalid : ∀ {r state}, valid r state → ∃ t, Denotes A D q k r state t)
    (hdrops : ∀ {r state}, valid r state → DropsNothing (sourceOf A D q k) r state) :
    Exact ⟨valid, (sourceOf A D q k).expandState⟩ (machine A D.toDictionary q k) (WellFormed (sourceOf A D q k))
      (Denotes A D q k) where
  toSound := sound hkey hvalid
  steps {r state t r' e} hr ht hv he i o w b hstep := by
    obtain ⟨id, aid, u, n, hspells, hnode, hn, hrun, -, hkeys, heq⟩ := ht.successorKeys hr
    have ⟨_, hc, hl, _⟩ := ht
    have hd := hr.depth_lt hspells
    have hcount := hdrops hv e (congrArg Prod.snd he)
    cases heq.symm.trans he
    have hr₁ := wellFormed_followEdges state ⟨u, t.cursor⟩ hr hn
    -- Neither part can return more than one arc for each successor, so both return all of theirs.
    have hedges : (followEdges (sourceOf A D q k) r id t.spelled.length state n ⟨u, t.cursor⟩).2.length ≤
        ((sourceOf A D q k).pendingEdges n t.spelled.length ⟨u, t.cursor⟩).length :=
      Scan.length_scan_le fun _ _ => length_followEdge
    have hskip : ((sourceOf A D q k).skipQueryChar (followEdges (sourceOf A D q k) r id t.spelled.length state n
        ⟨u, t.cursor⟩).1 id state ⟨u, t.cursor⟩).2.length ≤ (q[t.cursor]?).toList.length := length_skipQueryChar
    have hone : ((q[t.cursor]?).map fun _ => (sourceOf A D q k).stateKey u (t.cursor + 1)).toList.length =
        (q[t.cursor]?).toList.length := by
      cases q[t.cursor]? <;> rfl
    rw [hkeys, List.length_append, List.length_append, List.length_map, hone] at hcount
    have hall := Nat.le_antisymm hedges (by omega)
    have hskipped := Nat.le_antisymm hskip (by omega)
    cases hstep with
    | @edge p i c hmem hrun' =>
      obtain ⟨m, hm⟩ := Dictionary.mem_prefixes.mp hmem
      rw [Dictionary.node?_snoc, hnode, Option.bind_some] at hm
      obtain ⟨u', hu'⟩ := Option.isSome_iff_exists.mp hrun'
      rw [run_snoc, hrun, Option.bind_some] at hu'
      have hedge : ⟨c, m, u', i + (q[i]?).isSome.toNat⟩ ∈ (sourceOf A D q k).pendingEdges n p.length ⟨u, i⟩ :=
        (mem_pendingEdges hd hc).mpr ⟨hm, hu', rfl⟩
      obtain ⟨arc, harc, h1, h2, h3, hden⟩ := exists_arc_of_pending hkey ht hr hspells hn hrun hall.ge hedge
      exact ⟨arc, List.mem_append_left _ harc, h1, h2, h3, hden.mono le_skipQueryChar⟩
    | @skip p i a ha =>
      rcases skipQueryChar_cases (sourceOf A D q k) (followEdges (sourceOf A D q k) r id p.length state n ⟨u, i⟩).1 id
        state ⟨u, i⟩ with h | ⟨a', j, target, ha', hj, htarget, h⟩
      · rw [h, ha] at hskipped
        cases hskipped
      · cases ha.symm.trans ha'
        refine ⟨⟨state, some a, none, target, 0⟩, List.mem_append_right _ (by rw [h]; exact List.mem_singleton_self _),
          rfl, rfl, rfl, ?_⟩
        exact denotes_skip hkey hr₁.skipQueryChar ((hspells.mono le_followEdges.1).mono le_skipQueryChar.1) ha hl hrun
          (by rw [h]; exact Interner.id?_register hj) htarget
  finals {r state t r' e f} hr ht hv he hf := by
    obtain ⟨id, aid, u, n, hspells, hnode, hn, hrun, -, -, heq⟩ := ht.expandState hr
    cases heq.symm.trans he
    cases hf with
    | @accept p u' f hw hrun' hacc hle =>
      obtain ⟨n', hn', hfinal⟩ := hw
      cases hnode.symm.trans hn'
      cases hrun.symm.trans hrun'
      exact registeredFinalWeight_eq_some.mpr ⟨rfl, hfinal, hacc, hle⟩

/-! ### Interned keys -/

variable (A D q k) in
/-- The keys of the states after the dictionary's label sequences, with the cursors that can go with them. -/
def reachableKeys : Set (UniversalStateKey κ) :=
  {key | ∃ p ∈ D.prefixes, ∃ u, run A q k p = some u ∧ min p.length q.length ≤ key.queryPos ∧ key.queryPos ≤ q.length ∧
    key.state = A.key u}

omit [DecidableEq κ] in
theorem reachableKeys_finite : (reachableKeys A D q k).Finite := by
  have hsub : reachableKeys A D q k ⊆ Set.image2 (fun p c => ⟨c, ((run A q k p).map A.key).getD (A.key (A.initial k))⟩)
      D.prefixes {c | c ≤ q.length} := by
    intro key hmem
    rcases hmem with ⟨p, hp, u, hrun, -, hc, hkey⟩
    refine ⟨p, hp, key.queryPos, hc, ?_⟩
    simp only [hrun, Option.map_some, Option.getD_some, ← hkey]
  exact (D.finite.image2 _ (Set.finite_le_nat _)).subset hsub

omit [DecidableEq κ] in
theorem mem_reachableKeys (hp : t.spelled ∈ D.prefixes) (hrun : run A q k t.spelled = some u)
    (hl : min t.spelled.length q.length ≤ t.cursor) (hc : t.cursor ≤ q.length) :
    (sourceOf A D q k).stateKey u t.cursor ∈ reachableKeys A D q k := ⟨t.spelled, hp, u, hrun, hl, hc, rfl⟩

omit [DecidableEq κ] in
theorem reachable_edge {edge : PendingEdge N σ} (hnode : D.node? t.spelled = some n) (hd : t.spelled.length < usizeMax)
    (hrun : run A q k t.spelled = some u) (hl : min t.spelled.length q.length ≤ t.cursor) (hc : t.cursor ≤ q.length)
    (hedge : edge ∈ (sourceOf A D q k).pendingEdges n t.spelled.length ⟨u, t.cursor⟩) :
    (sourceOf A D q k).stateKey edge.nextAutoState edge.nextQueryPos ∈ reachableKeys A D q k := by
  rcases (mem_pendingEdges hd hc).mp hedge with ⟨hchild, hread, hpos⟩
  have hadvance := cursor_advance hc
  have hmem : t.spelled ++ [edge.dictChar] ∈ D.prefixes :=
    Dictionary.mem_prefixes.mpr ⟨_, by rw [Dictionary.node?_snoc, hnode, Option.bind_some, hchild]⟩
  rw [hpos, hadvance]
  refine mem_reachableKeys (t := ⟨t.spelled ++ [edge.dictChar], min (t.cursor + 1) q.length⟩) hmem
    (run_of_pending hrun hread) ?_ (Nat.min_le_right _ _)
  simp only [List.length_append, List.length_singleton]
  omega

omit [DecidableEq κ] in
theorem reachable_skip {a : Char} (hp : t.spelled ∈ D.prefixes) (hrun : run A q k t.spelled = some u)
    (hl : min t.spelled.length q.length ≤ t.cursor) (ha : q[t.cursor]? = some a) :
    (sourceOf A D q k).stateKey u (t.cursor + 1) ∈ reachableKeys A D q k := by
  have hlt : t.cursor < q.length := (List.getElem?_eq_some_iff.mp ha).1
  exact mem_reachableKeys (t := ⟨t.spelled, t.cursor + 1⟩) hp hrun (hl.trans (Nat.le_succ _)) hlt

/-- Each successor key of a state with a denotation is reachable. -/
theorem reachable_of_mem_successorKeys (ht : Denotes A D q k r state t) (hr : WellFormed (sourceOf A D q k) r)
    {key : UniversalStateKey κ} (hkey : key ∈ (sourceOf A D q k).successorKeys r state) : key ∈ reachableKeys A D q k := by
  rcases ht.successorKeys hr with ⟨id, aid, u, n, hspells, hnode, hn, hrun, -, hkeys, -⟩
  have ⟨_, hc, hl, _⟩ := ht
  rw [hkeys] at hkey
  rcases List.mem_append.mp hkey with hkey | hkey
  · rcases List.mem_map.mp hkey with ⟨edge, hedge, rfl⟩
    exact reachable_edge hnode (hr.depth_lt hspells) hrun hl hc hedge
  · rcases Option.map_eq_some_iff.mp (Option.mem_toList.mp hkey) with ⟨a, ha, rfl⟩
    exact reachable_skip (Dictionary.mem_prefixes.mpr ⟨n, hnode⟩) hrun hl ha

theorem keys_register_subset {states : UniversalStateRegistry σ κ} {key : UniversalStateKey κ}
    {v : RegisteredUniversalState σ} {S : Set (UniversalStateKey κ)} (h : states.keys ⊆ S) (hkey : key ∈ S) :
    (Interner.register u32Count states key v).1.keys ⊆ S := by
  rintro key' ⟨i, hi⟩
  rcases Interner.id?_of_register hi with hi | rfl
  · exact h ⟨i, hi⟩
  · exact hkey

/-- The expansion of a state with a denotation interns reachable keys only. -/
theorem keys_expandState (ht : Denotes A D q k r state t) (hr : WellFormed (sourceOf A D q k) r)
    (h : r.2.keys ⊆ reachableKeys A D q k) :
    ((sourceOf A D q k).expandState r state).1.2.keys ⊆ reachableKeys A D q k := by
  rcases ht.successorKeys hr with ⟨id, aid, u, n, hspells, hnode, hn, hrun, -, hkeys, heq⟩
  have ⟨_, hc, hl, _⟩ := ht
  simp only [heq]
  have hedges : (followEdges (sourceOf A D q k) r id t.spelled.length state n ⟨u, t.cursor⟩).1.2.keys ⊆
      reachableKeys A D q k := by
    refine Scan.inv_scan (fun r : UniversalRegistries N σ κ => r.2.keys ⊆ reachableKeys A D q k) ?_ h
    intro r₁ edge hedge h₁
    rcases followEdge_cases (sourceOf A D q k) r₁ id t.spelled.length state
      ((sourceOf A D q k).queryChars[t.cursor]?) edge with h | ⟨i, j, target, -, -, -, h⟩ <;> rw [h]
    · exact h₁
    · exact keys_register_subset h₁ (reachable_edge hnode (hr.depth_lt hspells) hrun hl hc hedge)
  rcases skipQueryChar_cases (sourceOf A D q k) (followEdges (sourceOf A D q k) r id t.spelled.length state n
    ⟨u, t.cursor⟩).1 id state ⟨u, t.cursor⟩ with h | ⟨a, j, target, ha, -, -, h⟩ <;> rw [h]
  · exact hedges
  · exact keys_register_subset hedges (reachable_skip (Dictionary.mem_prefixes.mpr ⟨n, hnode⟩) hrun hl ha)

/-! ### When nothing is dropped -/

omit [DecidableEq κ] in
theorem encode_of_lt {i j : Nat} (hi : i < D.prefixes.ncard) (hj : j < (sourceOf A D q k).maxAutomatonStates)
    (hfits : D.prefixes.ncard * (sourceOf A D q k).maxAutomatonStates ≤ u32Count) :
    ((sourceOf A D q k).encodeProductState i j).isSome := by
  refine tryEncode_isSome.mpr ⟨hj, ?_⟩
  have := Nat.mul_le_mul_right (sourceOf A D q k).maxAutomatonStates hi
  rw [Nat.succ_mul] at this
  simp only [u32Count, u32Max] at hfits ⊢
  omega

theorem WellFormed.id_lt (hr : WellFormed (sourceOf A D q k) r) {p : List Char} (h : Spells r.1 id p) :
    id < D.prefixes.ncard := by
  have hfinite : D.withDepth.prefixes.Finite := D.toDictionary.withDepth_prefixes ▸ D.finite
  have := (hr.nodes.lt_size h).trans_le (hr.nodes.size_le_ncard hfinite)
  rwa [show (sourceOf A D q k).dictionary = D.toDictionary from rfl, Dictionary.withDepth_prefixes] at this

theorem WellFormed.states_size_le (hr : WellFormed (sourceOf A D q k) r) : r.2.size ≤ u32Count := by
  have hM : (sourceOf A D q k).maxAutomatonStates ≤ u32Max := max_le saturatingMul_le (by decide)
  have := hr.size_le
  simp only [u32Max, u32Count] at hM ⊢
  omega

/-- A turn of the loop returns an arc when its key is offered an id and every product of a node and such an id
    fits `u32`. -/
theorem followEdge_of_candidate {label : Option Char} {edge : PendingEdge N σ} {p : List Char} {j : Nat}
    (hr : WellFormed (sourceOf A D q k) r) (hspells : Spells r.1 id p) (hn : r.1.getNode id = some (n, depth))
    (hchild : D.step? n edge.dictChar = some edge.child)
    (hfits : D.prefixes.ncard * (sourceOf A D q k).maxAutomatonStates ≤ u32Count)
    (hj : r.2.candidate u32Count ((sourceOf A D q k).stateKey edge.nextAutoState edge.nextQueryPos) = some j)
    (hlt : j < (sourceOf A D q k).maxAutomatonStates) :
    ((sourceOf A D q k).followEdge r id depth s label edge).2.length = 1 := by
  have hfinite : D.withDepth.prefixes.Finite := D.toDictionary.withDepth_prefixes ▸ D.finite
  have hcard : D.withDepth.prefixes.ncard = D.prefixes.ncard := by rw [Dictionary.withDepth_prefixes]
  have hstep : D.withDepth.step? (n, depth) edge.dictChar = some (edge.child, depth + 1) := by
    rw [Dictionary.withDepth_step?, hchild]
    rfl
  have hnodes : D.prefixes.ncard ≤ u32Count := (Nat.le_mul_of_pos_right _ maxAutomatonStates_pos).trans hfits
  rcases hr.nodes.exists_candidate hfinite (hcard.trans_le hnodes) hspells hn hstep with ⟨i, hi⟩
  have hilt := hr.nodes.candidate_lt hfinite hspells hn hstep hi
  rw [show (sourceOf A D q k).dictionary = D.toDictionary from rfl, hcard] at hilt
  rcases Option.isSome_iff_exists.mp (encode_of_lt hilt hlt hfits) with ⟨target, htarget⟩
  rw [followEdge_of_encode hi hj htarget]
  rfl

/-- The same for the skip of a query character. -/
theorem skipQueryChar_of_candidate {registered : RegisteredUniversalState σ} {a : Char} {p : List Char} {j : Nat}
    (hr : WellFormed (sourceOf A D q k) r) (hspells : Spells r.1 id p)
    (hfits : D.prefixes.ncard * (sourceOf A D q k).maxAutomatonStates ≤ u32Count)
    (ha : q[registered.queryPos]? = some a)
    (hj : r.2.candidate u32Count ((sourceOf A D q k).stateKey registered.state (registered.queryPos + 1)) = some j)
    (hlt : j < (sourceOf A D q k).maxAutomatonStates) :
    ((sourceOf A D q k).skipQueryChar r id s registered).2.length = 1 := by
  rcases Option.isSome_iff_exists.mp (encode_of_lt (hr.id_lt hspells) hlt hfits) with ⟨target, htarget⟩
  rw [skipQueryChar_of_encode ha hj htarget]
  rfl

/-- After the expansion of a state, every successor's key is offered one of the ids that are planned for a node. -/
def OffersIds (src : UniversalLevenshteinStateSource N U σ β κ) (r : UniversalRegistries N σ κ) (state : Nat) : Prop :=
  ∀ key ∈ src.successorKeys r state, ∃ i < src.maxAutomatonStates, (src.expandState r state).1.2.candidate u32Count key = some i

/-- An expansion that offers ids drops nothing while all products fit `u32`. -/
theorem dropsNothing_of_candidates (ht : Denotes A D q k r state t) (hr : WellFormed (sourceOf A D q k) r)
    (hfits : D.prefixes.ncard * (sourceOf A D q k).maxAutomatonStates ≤ u32Count)
    (h : OffersIds (sourceOf A D q k) r state) : DropsNothing (sourceOf A D q k) r state := by
  rcases ht.successorKeys hr with ⟨id, aid, u, n, hspells, hnode, hn, hrun, -, hkeys, heq⟩
  have hsize := (wellFormed_expandState state hr).states_size_le
  intro e he
  unfold OffersIds at h
  rw [hkeys] at h ⊢
  simp only [heq, Option.some.injEq] at he h hsize
  subst he
  rw [List.length_append, List.length_append, List.length_map]
  have hedges : (followEdges (sourceOf A D q k) r id t.spelled.length state n ⟨u, t.cursor⟩).2.length =
      ((sourceOf A D q k).pendingEdges n t.spelled.length ⟨u, t.cursor⟩).length := by
    refine Scan.length_scan (fun _ _ => le_followEdge) inv_followEdge ?_ ⟨hr, hn⟩
    intro edge hedge r₁ hle hinv hle'
    rcases h _ (List.mem_append_left _ (List.mem_map_of_mem hedge)) with ⟨i, hi, hcandidate⟩
    rcases Interner.exists_candidate_le ((le_followEdge.trans hle').trans le_skipQueryChar).2 hsize hcandidate with
      ⟨j, hj, hcandidate'⟩
    exact followEdge_of_candidate hinv.1 (hspells.mono hle.1) hinv.2 (step_of_mem_pendingEdges hedge) hfits hcandidate'
      (Nat.lt_of_le_of_lt hj hi)
  rw [hedges, Nat.add_left_cancel_iff]
  cases ha : q[t.cursor]? with
  | none =>
    rcases skipQueryChar_cases (sourceOf A D q k) (followEdges (sourceOf A D q k) r id t.spelled.length state n
      ⟨u, t.cursor⟩).1 id state ⟨u, t.cursor⟩ with h | ⟨a, j, target, ha', -, -, -⟩
    · rw [h]
      rfl
    · cases ha.symm.trans ha'
  | some a =>
    have hmem := h ((sourceOf A D q k).stateKey u (t.cursor + 1)) (List.mem_append_right _ (by simp [ha]))
    rcases hmem with ⟨i, hi, hcandidate⟩
    rcases Interner.exists_candidate_le le_skipQueryChar.2 hsize hcandidate with ⟨j, hj, hcandidate'⟩
    exact skipQueryChar_of_candidate (wellFormed_followEdges state ⟨u, t.cursor⟩ hr hn) (hspells.mono le_followEdges.1)
      hfits ha hcandidate' (Nat.lt_of_le_of_lt hj hi)

end Duallity.UniversalLevenshteinStateSource
