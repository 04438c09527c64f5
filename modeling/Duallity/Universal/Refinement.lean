import Duallity.Universal.ProductMachine

/-! The Universal source refines the product machine: a product state stands for the label sequence of its
    node id and the cursor of its interned state, whose automaton state is the one after that sequence. -/

namespace Duallity.UniversalLevenshteinStateSource
open DictionaryNodeRegistry StateEncoding UniversalProduct
variable {N U σ β κ : Type} [CharUnit U] [DecidableEq κ]

/-- The source of a query over a dictionary. -/
abbrev sourceOf (A : UniversalAutomaton σ β κ) (D : FiniteDictionary N U) (q : List Char) (k : Nat) :
    UniversalLevenshteinStateSource N U σ β κ := new A D.toDictionary q k

/-! ### Windows -/

omit [DecidableEq κ] in
/-- Beyond the precomputed depths the window is empty. -/
theorem relevantSubwordForDepth_eq {A : UniversalAutomaton σ β κ} {D : FiniteDictionary N U} {q : List Char} {k d : Nat}
    (hd : d < usizeMax) : (sourceOf A D q k).relevantSubwordForDepth d =
      ((relevantWindowAt q k (d + 1)).falsePrefix, (relevantWindowAt q k (d + 1)).units) := by
  simp only [relevantSubwordForDepth, new, precomputeRelevantSubwords]
  by_cases h : d < saturatingAdd usizeMax q.length k
  · rw [List.getElem?_map, List.getElem?_range h]
    rfl
  · have hbeyond : q.length + k ≤ d := by
      simp only [saturatingAdd] at h
      omega
    have hnone : (List.range (saturatingAdd usizeMax q.length k))[d]? = none :=
      List.getElem?_eq_none (by rw [List.length_range]; omega)
    rw [List.getElem?_map, hnone, Option.map_none, Option.map_none, Option.getD_none]
    simp only [relevantWindowAt]
    rw [if_neg (by omega)]
    simp only [saturatingAdd, Prod.mk.injEq, and_true]
    omega

/-! ### Turns of the registration loop -/

section Turns
variable {src : UniversalLevenshteinStateSource N U σ β κ} {r : UniversalRegistries N σ κ}
  {id depth s : Nat} {label : Option Char} {edge : PendingEdge N σ} {registered : RegisteredUniversalState σ}

omit [CharUnit U] in
/-- An edge whose ids encode: its child and its state are registered and their product is the target of an arc. -/
theorem followEdge_of_encode {i j target : Nat} (hi : r.1.candidateId (.child id edge.dictChar) = some i)
    (hj : r.2.candidate u32Count (src.stateKey edge.nextAutoState edge.nextQueryPos) = some j)
    (ht : src.encodeProductState i j = some target) :
    src.followEdge r id depth s label edge =
      (((r.1.registerNode (edge.child, depth + 1) (.child id edge.dictChar)).1,
        (Interner.register u32Count r.2 (src.stateKey edge.nextAutoState edge.nextQueryPos)
          ⟨edge.nextAutoState, edge.nextQueryPos⟩).1),
        [⟨s, label, some edge.dictChar, target, 0⟩]) := by
  have hnode : (r.1.registerNode (edge.child, depth + 1) (.child id edge.dictChar)).2 = some i :=
    Interner.register_snd.trans hi
  have hstate : (Interner.register u32Count r.2 (src.stateKey edge.nextAutoState edge.nextQueryPos)
      ⟨edge.nextAutoState, edge.nextQueryPos⟩).2 = some j := Interner.register_snd.trans hj
  simp only [followEdge, hi, hj, ht, hnode, hstate, Option.isNone_some, Bool.false_eq_true, if_false, Option.bind_some,
    Option.map_some, Option.toList_some]

omit [CharUnit U] in
/-- Otherwise the edge is skipped and nothing changes. -/
theorem followEdge_cases (src : UniversalLevenshteinStateSource N U σ β κ) (r : UniversalRegistries N σ κ)
    (id depth s : Nat) (label : Option Char) (edge : PendingEdge N σ) :
    src.followEdge r id depth s label edge = (r, []) ∨
    ∃ i j target, r.1.candidateId (.child id edge.dictChar) = some i ∧
      r.2.candidate u32Count (src.stateKey edge.nextAutoState edge.nextQueryPos) = some j ∧
      src.encodeProductState i j = some target ∧
      src.followEdge r id depth s label edge =
        (((r.1.registerNode (edge.child, depth + 1) (.child id edge.dictChar)).1,
          (Interner.register u32Count r.2 (src.stateKey edge.nextAutoState edge.nextQueryPos)
            ⟨edge.nextAutoState, edge.nextQueryPos⟩).1),
          [⟨s, label, some edge.dictChar, target, 0⟩]) := by
  cases hi : r.1.candidateId (.child id edge.dictChar) with
  | none => exact Or.inl (by simp only [followEdge, hi])
  | some i =>
    cases hj : r.2.candidate u32Count (src.stateKey edge.nextAutoState edge.nextQueryPos) with
    | none => exact Or.inl (by simp only [followEdge, hi, hj])
    | some j =>
      cases ht : src.encodeProductState i j with
      | none => exact Or.inl (by simp only [followEdge, hi, hj, ht, Option.isNone_none, if_true])
      | some target => exact Or.inr ⟨i, j, target, rfl, rfl, ht, followEdge_of_encode hi hj ht⟩

omit [CharUnit U] in
/-- The skip of a query character whose ids encode. -/
theorem skipQueryChar_of_encode {a : Char} {j target : Nat} (ha : src.queryChars[registered.queryPos]? = some a)
    (hj : r.2.candidate u32Count (src.stateKey registered.state (registered.queryPos + 1)) = some j)
    (ht : src.encodeProductState id j = some target) :
    src.skipQueryChar r id s registered =
      ((r.1, (Interner.register u32Count r.2 (src.stateKey registered.state (registered.queryPos + 1))
        ⟨registered.state, registered.queryPos + 1⟩).1), [⟨s, some a, none, target, 0⟩]) := by
  have hstate : (Interner.register u32Count r.2 (src.stateKey registered.state (registered.queryPos + 1))
      ⟨registered.state, registered.queryPos + 1⟩).2 = some j := Interner.register_snd.trans hj
  simp only [skipQueryChar, ha, hj, ht, hstate, Option.isSome_some, if_true, Option.bind_some, Option.map_some,
    Option.toList_some]

omit [CharUnit U] in
theorem skipQueryChar_cases (src : UniversalLevenshteinStateSource N U σ β κ) (r : UniversalRegistries N σ κ)
    (id s : Nat) (registered : RegisteredUniversalState σ) :
    src.skipQueryChar r id s registered = (r, []) ∨
    ∃ a j target, src.queryChars[registered.queryPos]? = some a ∧
      r.2.candidate u32Count (src.stateKey registered.state (registered.queryPos + 1)) = some j ∧
      src.encodeProductState id j = some target ∧
      src.skipQueryChar r id s registered =
        ((r.1, (Interner.register u32Count r.2 (src.stateKey registered.state (registered.queryPos + 1))
          ⟨registered.state, registered.queryPos + 1⟩).1), [⟨s, some a, none, target, 0⟩]) := by
  cases ha : src.queryChars[registered.queryPos]? with
  | none => exact Or.inl (by simp only [skipQueryChar, ha])
  | some a =>
    cases hj : r.2.candidate u32Count (src.stateKey registered.state (registered.queryPos + 1)) with
    | none => exact Or.inl (by simp only [skipQueryChar, ha, hj])
    | some j =>
      cases ht : src.encodeProductState id j with
      | none => exact Or.inl (by simp only [skipQueryChar, ha, hj, ht, Option.isSome_none, Bool.false_eq_true, if_false])
      | some target => exact Or.inr ⟨a, j, target, rfl, rfl, ht, skipQueryChar_of_encode ha hj ht⟩

omit [CharUnit U] in
theorem le_followEdge : r ≤ (src.followEdge r id depth s label edge).1 := by
  rcases followEdge_cases src r id depth s label edge with h | ⟨i, j, target, -, -, -, h⟩ <;> rw [h]
  exact ⟨Interner.le_register, Interner.le_register⟩

omit [CharUnit U] in
theorem le_skipQueryChar : r ≤ (src.skipQueryChar r id s registered).1 := by
  rcases skipQueryChar_cases src r id s registered with h | ⟨a, j, target, -, -, -, h⟩ <;> rw [h]
  exact ⟨le_rfl, Interner.le_register⟩

omit [CharUnit U] in
theorem length_followEdge : (src.followEdge r id depth s label edge).2.length ≤ 1 := by
  rcases followEdge_cases src r id depth s label edge with h | ⟨i, j, target, -, -, -, h⟩ <;> rw [h]
  · exact Nat.zero_le _
  · exact Nat.le_refl _

end Turns

/-! ### The invariant -/

/-- Node ids stand for label sequences, and each interned state is stored under its own key and below the
    number of automaton states. -/
structure WellFormed (src : UniversalLevenshteinStateSource N U σ β κ) (r : UniversalRegistries N σ κ) : Prop where
  nodes : DictionaryNodeRegistry.WellFormed src.dictionary.withDepth r.1
  states : ∀ {key i}, r.2.id? key = some i → ∃ v, r.2.value? i = some v ∧ key = src.stateKey v.state v.queryPos
  size_le : r.2.size ≤ src.maxAutomatonStates

section Invariant
variable {A : UniversalAutomaton σ β κ} {D : FiniteDictionary N U} {q : List Char} {k : Nat}
  {r r' : UniversalRegistries N σ κ} {id depth s i : Nat} {n : N} {u : σ} {c : Nat}

omit [CharUnit U] in
/-- Registering a state under its key keeps the stored states under their keys. -/
theorem states_register {src : UniversalLevenshteinStateSource N U σ β κ} {states : UniversalStateRegistry σ κ}
    (h : ∀ {key i}, states.id? key = some i → ∃ v, states.value? i = some v ∧ key = src.stateKey v.state v.queryPos)
    {key : UniversalStateKey κ} (hi : (Interner.register u32Count states (src.stateKey u c) ⟨u, c⟩).1.id? key = some i) :
    ∃ v, (Interner.register u32Count states (src.stateKey u c) ⟨u, c⟩).1.value? i = some v ∧
      key = src.stateKey v.state v.queryPos := by
  rcases Interner.register_cases u32Count states (src.stateKey u c) ⟨u, c⟩ with heq | ⟨hk, -, heq⟩ <;> rw [heq] at hi ⊢
  · exact h hi
  · rw [Interner.id?_push] at hi
    split at hi
    · rename_i hkey
      cases hi
      exact ⟨⟨u, c⟩, Interner.value?_push_self, hkey⟩
    · obtain ⟨v, hv, hkey⟩ := h hi
      exact ⟨v, Interner.value?_push_of_some hv, hkey⟩

omit [CharUnit U] in
/-- A registration at a candidate id below a bound keeps the size within the bound. -/
theorem size_register_le {states : UniversalStateRegistry σ κ} {key : UniversalStateKey κ}
    {v : RegisteredUniversalState σ} {M : Nat} (h : states.size ≤ M)
    (hi : states.candidate u32Count key = some i) (hlt : i < M) :
    (Interner.register u32Count states key v).1.size ≤ M := by
  rcases Interner.register_cases u32Count states key v with heq | ⟨hk, hsize, heq⟩ <;> rw [heq]
  · exact h
  · rw [Interner.candidate_of_none hk, Interner.nextId, if_pos hsize] at hi
    cases hi
    rw [Interner.size_push]
    exact hlt

theorem WellFormed.followEdge {label : Option Char} {edge : PendingEdge N σ} (hr : WellFormed (sourceOf A D q k) r)
    (hn : r.1.getNode id = some (n, depth)) (hchild : D.step? n edge.dictChar = some edge.child) :
    WellFormed (sourceOf A D q k) ((sourceOf A D q k).followEdge r id depth s label edge).1 := by
  rcases followEdge_cases (sourceOf A D q k) r id depth s label edge with h | ⟨i, j, target, -, hj, ht, h⟩ <;> rw [h]
  · exact hr
  · have hstep : D.withDepth.step? (n, depth) edge.dictChar = some (edge.child, depth + 1) := by
      rw [Dictionary.withDepth_step?, hchild]
      rfl
    exact ⟨hr.nodes.registerNode hn hstep, states_register hr.states,
      size_register_le hr.size_le hj (tryEncode_eq_some.mp ht).1⟩

theorem WellFormed.skipQueryChar {registered : RegisteredUniversalState σ} (hr : WellFormed (sourceOf A D q k) r) :
    WellFormed (sourceOf A D q k) ((sourceOf A D q k).skipQueryChar r id s registered).1 := by
  rcases skipQueryChar_cases (sourceOf A D q k) r id s registered with h | ⟨a, j, target, -, hj, ht, h⟩ <;> rw [h]
  · exact hr
  · exact ⟨hr.nodes, states_register hr.states, size_register_le hr.size_le hj (tryEncode_eq_some.mp ht).1⟩

omit [DecidableEq κ] in
theorem maxAutomatonStates_pos : 0 < (sourceOf A D q k).maxAutomatonStates := lt_of_lt_of_le Nat.one_pos (le_max_right _ _)

/-- The registries that a new source starts from. -/
def initial (A : UniversalAutomaton σ β κ) (D : FiniteDictionary N U) (q : List Char) (k : Nat) :
    UniversalRegistries N σ κ := (sourceOf A D q k).newRegistries k

omit [CharUnit U] in
theorem newRegistries_states (src : UniversalLevenshteinStateSource N U σ β κ) (k : Nat) : (src.newRegistries k).2 =
    Interner.push .empty (src.stateKey (src.automaton.initial k) 0) ⟨src.automaton.initial k, 0⟩ Interner.id?_empty := by
  have hlt : (Interner.empty : UniversalStateRegistry σ κ).size < u32Count := by
    rw [Interner.size_empty, u32Count]
    omega
  simp only [newRegistries]
  rw [Interner.register_of_none Interner.id?_empty, if_pos hlt]

theorem initial_states : (initial A D q k).2 =
    Interner.push .empty ((sourceOf A D q k).stateKey (A.initial k) 0) ⟨A.initial k, 0⟩ Interner.id?_empty :=
  newRegistries_states _ k

theorem wellFormed_initial : WellFormed (sourceOf A D q k) (initial A D q k) := by
  refine ⟨wellFormed_new, ?_, ?_⟩ <;> rw [initial_states]
  · intro key i hi
    rw [Interner.id?_push] at hi
    split at hi
    · rename_i hkey
      cases hi
      exact ⟨_, Interner.value?_push_self, hkey⟩
    · rw [Interner.id?_empty] at hi
      cases hi
  · rw [Interner.size_push, Interner.size_empty]
    exact maxAutomatonStates_pos

/-! ### Meaning of a product state -/

/-- The node's label sequence and the cursor of a state; the cursor has kept up with the sequence. -/
def Denotes (A : UniversalAutomaton σ β κ) (D : FiniteDictionary N U) (q : List Char) (k : Nat)
    (r : UniversalRegistries N σ κ) (state : Nat) (t : SpelledState) : Prop :=
  state ≤ u32Max ∧ t.cursor ≤ q.length ∧ min t.spelled.length q.length ≤ t.cursor ∧
    ∃ id aid u, decode state (sourceOf A D q k).maxAutomatonStates = some (id, aid) ∧ Spells r.1 id t.spelled ∧
      run A q k t.spelled = some u ∧ r.2.value? aid = some ⟨u, t.cursor⟩

variable {state aid : Nat} {t : SpelledState}

theorem Denotes.mono (h : Denotes A D q k r state t) (hle : r ≤ r') : Denotes A D q k r' state t := by
  obtain ⟨hu, hc, hl, id, aid, u, hdecode, hspells, hrun, hv⟩ := h
  exact ⟨hu, hc, hl, id, aid, u, hdecode, hspells.mono hle.1, hrun, Interner.le_value? hle.2 hv⟩

theorem Denotes.of_encode (hc : t.cursor ≤ q.length) (hl : min t.spelled.length q.length ≤ t.cursor)
    (hid : Spells r.1 id t.spelled) (hrun : run A q k t.spelled = some u) (hv : r.2.value? aid = some ⟨u, t.cursor⟩)
    (hstate : (sourceOf A D q k).encodeProductState id aid = some state) : Denotes A D q k r state t := by
  obtain ⟨-, heq, hle⟩ := tryEncode_eq_some.mp hstate
  exact ⟨heq ▸ hle, hc, hl, id, aid, u, decode_of_tryEncode hstate, hid, hrun, hv⟩

theorem denotes_start : Denotes A D q k (initial A D q k) start UniversalProduct.start := by
  refine ⟨Nat.zero_le _, Nat.zero_le _, Nat.min_le_left _ _, 0, 0, A.initial k, ?_, .root, rfl, ?_⟩
  · rw [decode, if_neg (Nat.pos_iff_ne_zero.mp maxAutomatonStates_pos)]
    simp [start]
  · rw [initial_states]
    exact Interner.value?_push_self

/-- The stored state under the id of a key. -/
theorem WellFormed.value_of_id (hkey : Function.Injective A.key) (hr : WellFormed (sourceOf A D q k) r)
    (h : r.2.id? ((sourceOf A D q k).stateKey u c) = some i) : r.2.value? i = some ⟨u, c⟩ := by
  obtain ⟨⟨u', c'⟩, hv, heq⟩ := hr.states h
  simp only [stateKey, UniversalStateKey.mk.injEq] at heq
  obtain ⟨rfl, hu⟩ := heq
  rw [hv, hkey hu]

theorem WellFormed.depth_lt (hr : WellFormed (sourceOf A D q k) r) {p : List Char} (h : Spells r.1 id p) :
    p.length < usizeMax := by
  have h1 := hr.nodes.length_le h
  have h2 := hr.nodes.lt_size h
  have h3 := hr.nodes.size_le
  unfold u32Count at h3
  unfold usizeMax
  omega

theorem WellFormed.node (hr : WellFormed (sourceOf A D q k) r) {p : List Char} (h : Spells r.1 id p) :
    ∃ n, D.node? p = some n ∧ r.1.getNode id = some (n, p.length) := by
  obtain ⟨m, hm, hid⟩ := hr.nodes.node h
  rw [show (sourceOf A D q k).dictionary = D.toDictionary from rfl, Dictionary.withDepth_node?,
    Option.map_eq_some_iff] at hm
  obtain ⟨n, hn, rfl⟩ := hm
  exact ⟨n, hn, hid⟩

omit [DecidableEq κ] in
/-- The pending edges are the child edges that the automaton can read. -/
theorem mem_pendingEdges {registered : RegisteredUniversalState σ} {edge : PendingEdge N σ} (hd : depth < usizeMax)
    (hpos : registered.queryPos ≤ q.length) :
    edge ∈ (sourceOf A D q k).pendingEdges n depth registered ↔ D.step? n edge.dictChar = some edge.child ∧
      read A q k registered.state depth edge.dictChar = some edge.nextAutoState ∧
      edge.nextQueryPos = registered.queryPos + (q[registered.queryPos]?).isSome.toNat := by
  have hsucc : saturatingAdd usizeMax depth 1 = depth + 1 := saturatingAdd_one hd
  have hwindow := relevantSubwordForDepth_eq (A := A) (D := D) (q := q) (k := k) hd
  have hpos' : registered.queryPos ≤ (sourceOf A D q k).queryChars.length := hpos
  simp only [pendingEdges, hwindow, hsucc]
  rw [if_pos hpos', List.mem_filterMap]
  constructor
  · rintro ⟨⟨l, child⟩, hmem, hmap⟩
    obtain ⟨next, hnext, rfl⟩ := Option.map_eq_some_iff.mp hmap
    exact ⟨FiniteDictionary.step?_eq_some.mpr ⟨l, hmem, rfl⟩, hnext, rfl⟩
  · rintro ⟨hstep, hread, hcursor⟩
    obtain ⟨l, hmem, hl⟩ := FiniteDictionary.step?_eq_some.mp hstep
    refine ⟨(l, edge.child), hmem, ?_⟩
    simp only [hl]
    obtain ⟨dictChar, child, next, nextQueryPos⟩ := edge
    obtain rfl : nextQueryPos = _ := hcursor
    exact Option.map_eq_some_iff.mpr ⟨_, hread, rfl⟩

/-- The registration loop of an expansion. -/
def followEdges (src : UniversalLevenshteinStateSource N U σ β κ) (r : UniversalRegistries N σ κ) (id depth s : Nat)
    (n : N) (registered : RegisteredUniversalState σ) : UniversalRegistries N σ κ × List UniversalTransition :=
  scan (fun r edge => src.followEdge r id depth s (src.queryChars[registered.queryPos]?) edge) r
    (src.pendingEdges n depth registered)

theorem le_followEdges {src : UniversalLevenshteinStateSource N U σ β κ} {registered : RegisteredUniversalState σ} :
    r ≤ (followEdges src r id depth s n registered).1 := Scan.le_scan fun _ _ => le_followEdge

/-- What an expansion of a product of a registered node and state returns. -/
theorem expandState_eq {src : UniversalLevenshteinStateSource N U σ β κ} {registered : RegisteredUniversalState σ}
    (hdecode : decode state src.maxAutomatonStates = some (id, aid)) (hn : r.1.getNode id = some (n, depth))
    (hv : r.2.value? aid = some registered) (hu : state ≤ u32Max) :
    src.expandState r state =
      let edges := followEdges src r id depth state n registered
      let skip := src.skipQueryChar edges.1 id state registered
      (skip.1, some ⟨edges.2 ++ skip.2,
        src.registeredFinalWeight n registered.state registered.queryPos src.queryChars.length depth⟩) := by
  have hencode : src.encodeProductState id aid = some state := tryEncode_of_decode hdecode hu
  simp only [expandState, hdecode, computeTransitions, hn, hv, hencode, followEdges]

theorem Denotes.expandState (h : Denotes A D q k r state t) (hr : WellFormed (sourceOf A D q k) r) :
    ∃ id aid u n, Spells r.1 id t.spelled ∧ D.node? t.spelled = some n ∧
      r.1.getNode id = some (n, t.spelled.length) ∧ run A q k t.spelled = some u ∧
      decode state (sourceOf A D q k).maxAutomatonStates = some (id, aid) ∧ r.2.value? aid = some ⟨u, t.cursor⟩ ∧
      (sourceOf A D q k).expandState r state =
        let edges := followEdges (sourceOf A D q k) r id t.spelled.length state n ⟨u, t.cursor⟩
        let skip := (sourceOf A D q k).skipQueryChar edges.1 id state ⟨u, t.cursor⟩
        (skip.1, some ⟨edges.2 ++ skip.2,
          (sourceOf A D q k).registeredFinalWeight n u t.cursor q.length t.spelled.length⟩) := by
  obtain ⟨hu, hc, hl, id, aid, u, hdecode, hspells, hrun, hv⟩ := h
  obtain ⟨n, hnode, hn⟩ := hr.node hspells
  exact ⟨id, aid, u, n, hspells, hnode, hn, hrun, hdecode, hv, expandState_eq hdecode hn hv hu⟩

omit [DecidableEq κ] in
theorem step_of_mem_pendingEdges {registered : RegisteredUniversalState σ} {edge : PendingEdge N σ}
    (h : edge ∈ (sourceOf A D q k).pendingEdges n depth registered) : D.step? n edge.dictChar = some edge.child := by
  simp only [pendingEdges] at h
  split at h
  · obtain ⟨⟨l, child⟩, hmem, hmap⟩ := List.mem_filterMap.mp h
    obtain ⟨next, -, rfl⟩ := Option.map_eq_some_iff.mp hmap
    exact FiniteDictionary.step?_eq_some.mpr ⟨l, hmem, rfl⟩
  · cases h

/-- What every turn of the registration loop keeps. -/
theorem inv_followEdge {registered : RegisteredUniversalState σ} : ∀ r' : UniversalRegistries N σ κ,
    ∀ edge ∈ (sourceOf A D q k).pendingEdges n depth registered,
      (WellFormed (sourceOf A D q k) r' ∧ r'.1.getNode id = some (n, depth)) →
      let r'' := ((sourceOf A D q k).followEdge r' id depth s ((sourceOf A D q k).queryChars[registered.queryPos]?) edge).1
      WellFormed (sourceOf A D q k) r'' ∧ r''.1.getNode id = some (n, depth) := by
  rintro r' edge hedge ⟨hr', hn⟩
  exact ⟨hr'.followEdge hn (step_of_mem_pendingEdges hedge), Interner.le_value? le_followEdge.1 hn⟩

omit [DecidableEq κ] in
/-- The state read on an edge is the one after the extended sequence. -/
theorem run_of_pending {edge : PendingEdge N σ} {u : σ} (hrun : run A q k t.spelled = some u)
    (h : read A q k u t.spelled.length edge.dictChar = some edge.nextAutoState) :
    run A q k (t.spelled ++ [edge.dictChar]) = some edge.nextAutoState := by
  rw [run_snoc, hrun]
  exact h

end Invariant

end Duallity.UniversalLevenshteinStateSource
