import Duallity.NodeRegistry
import Duallity.TrieDictionary

/-! Histories of node registrations (`node_key.rs`, `node_registry.rs`). Whoever shares a registry, a node enters it under the
    edge that leads to it from a node that is there. So an id has one label path, the node under it is one that this path
    leads to, and the depth recorded beside it is the length of the path. -/

namespace Duallity

/-- The labels lead from the root to the node, along some edges. -/
inductive Dictionary.Leads {N U : Type} [CharUnit U] (D : Dictionary N U) : List Char → N → Prop
  | root : Leads D [] D.root
  | snoc {p : List Char} {n m : N} {u : U} : Leads D p n → (u, m) ∈ D.edges n → Leads D (p ++ [CharUnit.toChar u]) m

theorem Dictionary.DistinctLabels.node?_of_leads {N U : Type} [CharUnit U] {D : Dictionary N U} (hD : D.DistinctLabels)
    {p : List Char} {n : N} (h : D.Leads p n) : D.node? p = some n := by
  induction h with
  | root => rfl
  | snoc _ hedge ih =>
    rw [node?_snoc, ih, Option.bind_some]
    exact hD.step?_eq_some.mpr ⟨_, hedge, rfl⟩

/-! ### The registry of depths -/

structure DepthDictionaryNodeRegistry (N : Type) where
  nodes : DictionaryNodeRegistry N
  idToDepth : List Nat

namespace DepthDictionaryNodeRegistry
variable {N : Type}
open DictionaryNodeKey

def new (root : N) : DepthDictionaryNodeRegistry N := ⟨.new root, [0]⟩

variable (r : DepthDictionaryNodeRegistry N)

def registerNode (node : N) (key : DictionaryNodeKey) (depth : Nat) : DepthDictionaryNodeRegistry N × Option Nat :=
  match r.nodes.id? key with
  | some id => (r, some id)
  | none =>
    match r.nodes.registerNode node key with
    | (nodes, some id) => (⟨nodes, r.idToDepth ++ [depth]⟩, some id)
    | (nodes, none) => (⟨nodes, r.idToDepth⟩, none)

def candidateId (key : DictionaryNodeKey) : Option Nat := r.nodes.candidateId key

def getNode (id : Nat) : Option N := r.nodes.getNode id

def getDepth (id : Nat) : Option Nat := r.idToDepth[id]?

variable {r} {node : N} {key : DictionaryNodeKey} {depth : Nat}

/-- A registration stores nothing, or the node and the depth, each behind the others. -/
theorem registerNode_cases (r : DepthDictionaryNodeRegistry N) (node : N) (key : DictionaryNodeKey) (depth : Nat) :
    (r.registerNode node key depth).2 = r.candidateId key ∧ ((r.registerNode node key depth).1 = r ∨
      ∃ hk : r.nodes.id? key = none, r.nodes.size < u32Count ∧
        (r.registerNode node key depth).1 = ⟨r.nodes.push key node hk, r.idToDepth ++ [depth]⟩) := by
  unfold registerNode candidateId DictionaryNodeRegistry.registerNode DictionaryNodeRegistry.candidateId
  split
  · rename_i id hid
    exact ⟨(Interner.candidate_of_some hid).symm, Or.inl rfl⟩
  · rename_i hnone
    rw [Interner.register_of_none hnone, Interner.candidate_of_none hnone, Interner.nextId]
    by_cases hlt : r.nodes.size < u32Count
    · rw [if_pos hlt, if_pos hlt]
      exact ⟨rfl, Or.inr ⟨hnone, hlt, rfl⟩⟩
    · rw [if_neg hlt, if_neg hlt]
      exact ⟨rfl, Or.inl rfl⟩

theorem nodes_registerNode : (r.registerNode node key depth).1.nodes = (r.nodes.registerNode node key).1 := by
  unfold registerNode
  split
  · rename_i id hid
    rw [DictionaryNodeRegistry.registerNode, Interner.register_of_some hid]
  · split
    · rename_i nodes id h
      rw [h]
    · rename_i nodes h
      rw [h]

/-- The registry of the nodes with their depths, which the state source keeps, is the two of them side by side. -/
structure Pairs (r : DepthDictionaryNodeRegistry N) (r' : DictionaryNodeRegistry (N × Nat)) : Prop where
  nodes : r'.mapValues Prod.fst = r.nodes
  depths : r'.entries.map Prod.snd = r.idToDepth

theorem Pairs.new (root : N) : Pairs (new root) (.new (root, 0)) := ⟨rfl, rfl⟩

theorem Pairs.id?_eq {r' : DictionaryNodeRegistry (N × Nat)} (h : Pairs r r') : r'.id? key = r.nodes.id? key := by
  rw [← h.nodes, Interner.id?_mapValues]

theorem Pairs.candidateId_eq {r' : DictionaryNodeRegistry (N × Nat)} (h : Pairs r r') (key : DictionaryNodeKey) :
    r.candidateId key = r'.candidateId key := by
  unfold candidateId DictionaryNodeRegistry.candidateId Interner.candidate
  rw [← h.nodes, Interner.id?_mapValues, Interner.nextId, Interner.nextId, Interner.size_mapValues]

theorem Pairs.getNode_eq {r' : DictionaryNodeRegistry (N × Nat)} (h : Pairs r r') (id : Nat) :
    (r'.getNode id).map Prod.fst = r.getNode id ∧ (r'.getNode id).map Prod.snd = r.getDepth id := by
  refine ⟨?_, ?_⟩
  · rw [getNode, DictionaryNodeRegistry.getNode, DictionaryNodeRegistry.getNode, ← h.nodes, Interner.value?_mapValues]
  · rw [getDepth, ← h.depths, List.getElem?_map]
    rfl

theorem Pairs.registerNode {r' : DictionaryNodeRegistry (N × Nat)} (h : Pairs r r') (node : N) (key : DictionaryNodeKey) (depth : Nat) :
    Pairs (r.registerNode node key depth).1 (r'.registerNode (node, depth) key).1 ∧
      (r.registerNode node key depth).2 = (r'.registerNode (node, depth) key).2 := by
  have hsize : r'.size = r.nodes.size := by rw [← h.nodes, Interner.size_mapValues]
  unfold DepthDictionaryNodeRegistry.registerNode DictionaryNodeRegistry.registerNode
  cases hid : r.nodes.id? key with
  | some id =>
    rw [Interner.register_of_some (h.id?_eq.trans hid)]
    exact ⟨h, rfl⟩
  | none =>
    have hid' : r'.id? key = none := h.id?_eq.trans hid
    rw [Interner.register_of_none hid, Interner.register_of_none hid', hsize]
    by_cases hlt : r.nodes.size < u32Count
    · rw [if_pos hlt, if_pos hlt]
      refine ⟨⟨?_, ?_⟩, rfl⟩
      · rw [Interner.mapValues_push]
        simp only [h.nodes]
      · show (r'.entries ++ [(node, depth)]).map Prod.snd = _
        rw [List.map_append, h.depths, List.map_singleton]
    · rw [if_neg hlt, if_neg hlt]
      exact ⟨h, rfl⟩

end DepthDictionaryNodeRegistry

/-! ### Histories -/

namespace DictionaryNodeRegistry
variable {N U : Type} [CharUnit U] {D : Dictionary N U} {r : DictionaryNodeRegistry N} {p d i : Nat} {c : Char} {n m : N} {u : U}
open DictionaryNodeKey

/-- The registrations of the state sources. The turns of `commit_prepared` come after a check that the key is new and that an id
    is left. -/
inductive History (D : Dictionary N U) : DictionaryNodeRegistry N → Prop
  | new : History D (new D.root)
  | root {r : DictionaryNodeRegistry N} : History D r → History D (r.registerNode D.root ROOT).1
  | child {r : DictionaryNodeRegistry N} {p : Nat} {n m : N} {u : U} : History D r → r.getNode p = some n → (u, m) ∈ D.edges n →
      History D (r.registerNode m (child p (CharUnit.toChar u))).1
  | committed {r : DictionaryNodeRegistry N} {p : Nat} {n m : N} {u : U} (hk : r.id? (DictionaryNodeKey.child p (CharUnit.toChar u)) = none) :
      History D r → r.getNode p = some n → (u, m) ∈ D.edges n → r.size < u32Count →
      History D (r.push (DictionaryNodeKey.child p (CharUnit.toChar u)) m hk)

/-- Every id but the root's was given to a child of an earlier one. -/
structure Traced (D : Dictionary N U) (r : DictionaryNodeRegistry N) : Prop where
  root : r.id? ROOT = some 0
  rootNode : r.getNode 0 = some D.root
  edge : ∀ {k d}, r.id? k = some d → k = ROOT ∨
    ∃ p u n m, k = child p (CharUnit.toChar u) ∧ p < d ∧ r.getNode p = some n ∧ (u, m) ∈ D.edges n ∧ r.getNode d = some m
  size_le : r.size ≤ u32Count

theorem traced_new : Traced D (new D.root) := by
  rw [new_eq]
  refine ⟨Interner.id?_push_self _, Interner.value?_push_self, ?_, ?_⟩
  · intro k d hk
    rw [Interner.id?_push] at hk
    split at hk
    · exact Or.inl ‹_›
    · rw [Interner.id?_empty] at hk
      cases hk
  · rw [Interner.size_push, Interner.size_empty, u32Count]
    omega

theorem Traced.push (h : Traced D r) (hn : r.getNode p = some n) (hedge : (u, m) ∈ D.edges n)
    (hk : r.id? (child p (CharUnit.toChar u)) = none) (hlt : r.size < u32Count) :
    Traced D (r.push (child p (CharUnit.toChar u)) m hk) := by
  refine ⟨Interner.id?_push_of_some h.root, Interner.value?_push_of_some h.rootNode, ?_, by rw [Interner.size_push]; exact hlt⟩
  intro k d hkd
  rw [Interner.id?_push] at hkd
  split at hkd
  · rename_i heq
    cases hkd
    exact Or.inr ⟨p, u, n, m, heq, Interner.lt_of_value? hn, Interner.value?_push_of_some hn, hedge, Interner.value?_push_self⟩
  · rcases h.edge hkd with hroot | ⟨q, u', n', m', h1, h2, h3, h4, h5⟩
    · exact Or.inl hroot
    · exact Or.inr ⟨q, u', n', m', h1, h2, Interner.value?_push_of_some h3, h4, Interner.value?_push_of_some h5⟩

theorem History.traced (h : History D r) : Traced D r := by
  induction h with
  | new => exact traced_new
  | root _ ih =>
    rw [DictionaryNodeRegistry.registerNode, Interner.register_of_some ih.root]
    exact ih
  | @child r p n m u _ hn hedge ih =>
    unfold DictionaryNodeRegistry.registerNode
    rcases Interner.register_cases u32Count r (DictionaryNodeKey.child p (CharUnit.toChar u)) m with heq | ⟨hk, hlt, heq⟩
    · rw [heq]
      exact ih
    · rw [heq]
      exact ih.push hn hedge hk hlt
  | committed hk _ hn hedge hlt ih => exact ih.push hn hedge hk hlt

theorem Traced.lt_child (h : Traced D r) (hid : r.id? (child p c) = some d) : p < d := by
  rcases h.edge hid with hroot | ⟨q, u, n, m, hk, hlt, -⟩
  · exact absurd hroot (child_ne_root _ _)
  · obtain ⟨rfl, -⟩ := child_injective hk
    exact hlt

/-- An id has one label path. -/
theorem Traced.existsUnique_path (h : Traced D r) (hi : i < r.size) : ∃! path, Spells r i path := by
  induction i using Nat.strong_induction_on with
  | _ i ih =>
    obtain ⟨k, hk⟩ := Interner.exists_id? hi
    rcases h.edge hk with rfl | ⟨p, u, n, m, rfl, hlt, -⟩
    · cases h.root.symm.trans hk
      refine ⟨[], .root, ?_⟩
      intro path hpath
      cases hpath with
      | root => rfl
      | child _ hid => exact absurd (h.lt_child hid) (Nat.not_lt_zero _)
    · obtain ⟨path, hpath, hunique⟩ := ih p hlt (hlt.trans hi)
      refine ⟨path ++ [CharUnit.toChar u], .child hpath hk, ?_⟩
      intro path' hpath'
      cases hpath' with
      | root => exact absurd hlt (Nat.not_lt_zero _)
      | child hq hid =>
        obtain ⟨rfl, rfl⟩ := child_injective (Interner.id?_injective hid hk)
        rw [hunique _ hq]

/-- The node under an id is one that its path leads to. -/
theorem Traced.leads (h : Traced D r) {path : List Char} (hpath : Spells r i path) :
    ∃ n, r.getNode i = some n ∧ D.Leads path n := by
  induction hpath with
  | root => exact ⟨D.root, h.rootNode, .root⟩
  | child _ hid ih =>
    obtain ⟨n, hn, hleads⟩ := ih
    rcases h.edge hid with hroot | ⟨q, u, n', m, hk, -, hn', hedge, hm⟩
    · exact absurd hroot (child_ne_root _ _)
    · obtain ⟨rfl, rfl⟩ := child_injective hk
      cases hn.symm.trans hn'
      exact ⟨m, hm, .snoc hleads hedge⟩

/-- What an old id spells, it spelled before. -/
theorem Traced.spells_of_push {k : DictionaryNodeKey} {v : N} {hk : r.id? k = none} (h : Traced D (r.push k v hk))
    {path : List Char} (hpath : Spells (r.push k v hk) i path) (hi : i < r.size) : Spells r i path := by
  induction hpath with
  | root => exact .root
  | child hq hid ih =>
    have hlt := h.lt_child hid
    rw [Interner.id?_push] at hid
    split at hid
    · cases hid
      exact absurd hi (Nat.lt_irrefl _)
    · exact .child (ih (hlt.trans hi)) hid

/-- The packed key of a child of an id fits `u64` below the root's key. -/
theorem child_packed_lt (hp : p < u32Count) : (child p c).packed < 2 ^ 53 ∧ 2 ^ 53 < ROOT.packed := by
  have := toNat_lt c
  unfold u32Count at hp
  rw [child_packed]
  exact ⟨by omega, by decide⟩

/-- What an id means. -/
structure Identifies (D : Dictionary N U) (r : DictionaryNodeRegistry N) : Prop where
  injective : ∀ {p p' c c' i}, r.id? (child p c) = some i → r.id? (child p' c') = some i → p = p' ∧ c = c'
  root : r.id? ROOT = some 0 ∧ ∀ p c, child p c ≠ ROOT ∧ r.id? (child p c) ≠ some 0
  packed : ∀ {p c}, p < r.size → (child p c).packed < 2 ^ 53 ∧ 2 ^ 53 < ROOT.packed
  dense : r.size ≤ u32Count ∧ ∀ i, (i < r.size ↔ ∃ k, r.id? k = some i) ∧ (i < r.size ↔ ∃ n, r.getNode i = some n)
  path : ∀ {i}, i < r.size → ∃! path, Spells r i path
  node : ∀ {i path}, Spells r i path → ∃ n, r.getNode i = some n ∧ D.Leads path n ∧ (D.DistinctLabels → D.node? path = some n)

theorem Traced.identifies (h : Traced D r) : Identifies D r where
  injective hid hid' := child_injective (Interner.id?_injective hid hid')
  root := ⟨h.root, fun p c => ⟨child_ne_root p c, fun hid => absurd (h.lt_child hid) (Nat.not_lt_zero _)⟩⟩
  packed hp := child_packed_lt (hp.trans_le h.size_le)
  dense := by
    refine ⟨h.size_le, ?_⟩
    intro i
    refine ⟨⟨Interner.exists_id?, ?_⟩, ⟨Interner.exists_value?, ?_⟩⟩
    · intro ⟨k, hk⟩
      exact Interner.id?_lt hk
    · intro ⟨n, hn⟩
      exact Interner.lt_of_value? hn
  path hi := h.existsUnique_path hi
  node hpath := by
    obtain ⟨n, hn, hleads⟩ := h.leads hpath
    exact ⟨n, hn, hleads, fun hD => hD.node?_of_leads hleads⟩

end DictionaryNodeRegistry

namespace DepthDictionaryNodeRegistry
variable {N U : Type} [CharUnit U] {D : Dictionary N U} {r : DepthDictionaryNodeRegistry N}
open DictionaryNodeKey DictionaryNodeRegistry

/-- A child is registered with the depth behind its parent's. -/
inductive History (D : Dictionary N U) : DepthDictionaryNodeRegistry N → Prop
  | new : History D (new D.root)
  | root {r : DepthDictionaryNodeRegistry N} (depth : Nat) : History D r → History D (r.registerNode D.root ROOT depth).1
  | child {r : DepthDictionaryNodeRegistry N} {p depth : Nat} {n m : N} {u : U} : History D r → r.getNode p = some n →
      r.getDepth p = some depth → (u, m) ∈ D.edges n →
      History D (r.registerNode m (DictionaryNodeKey.child p (CharUnit.toChar u)) (depth + 1)).1

theorem History.nodes (h : History D r) : DictionaryNodeRegistry.History D r.nodes := by
  induction h with
  | new => exact .new
  | root depth _ ih =>
    rw [nodes_registerNode]
    exact ih.root
  | child _ hn _ hedge ih =>
    rw [nodes_registerNode]
    exact ih.child hn hedge

/-- The depth beside an id is the length of its path. -/
structure Measured (r : DepthDictionaryNodeRegistry N) : Prop where
  length_eq : r.idToDepth.length = r.nodes.size
  depth : ∀ {i path}, Spells r.nodes i path → r.getDepth i = some path.length

theorem Measured.push {p depth : Nat} {n m : N} {u : U} (h : Measured r) (hn : r.getNode p = some n) (hdepth : r.getDepth p = some depth)
    {hk : r.nodes.id? (DictionaryNodeKey.child p (CharUnit.toChar u)) = none}
    (htraced : Traced D (r.nodes.push (DictionaryNodeKey.child p (CharUnit.toChar u)) m hk)) :
    Measured ⟨r.nodes.push (DictionaryNodeKey.child p (CharUnit.toChar u)) m hk, r.idToDepth ++ [depth + 1]⟩ := by
  refine ⟨?_, ?_⟩
  · rw [List.length_append, List.length_singleton, h.length_eq, Interner.size_push]
  · intro i path hpath
    by_cases hi : i < r.nodes.size
    · have hold := h.depth (htraced.spells_of_push hpath hi)
      rw [getDepth, List.getElem?_append_left (h.length_eq ▸ hi)]
      exact hold
    · -- Only the new id is behind the others, so the path ends in its key.
      cases hpath with
      | root => exact absurd (Nat.zero_lt_of_lt (Interner.lt_of_value? hn)) hi
      | child hq hid =>
        have hlt := htraced.lt_child hid
        rw [Interner.id?_push] at hid
        split at hid
        · rename_i heq
          cases hid
          obtain ⟨rfl, -⟩ := child_injective heq
          cases hdepth.symm.trans (h.depth (htraced.spells_of_push hq hlt))
          rw [getDepth, ← h.length_eq, List.getElem?_append_right le_rfl, Nat.sub_self, List.length_append]
          rfl
        · exact absurd (Interner.id?_lt hid) hi

theorem History.measured (h : History D r) : Measured r := by
  induction h with
  | new =>
    refine ⟨size_new.symm, ?_⟩
    intro i path hpath
    cases hpath with
    | root => rfl
    | child hq hid =>
      have hlt := Interner.id?_lt hid
      have := traced_new.lt_child hid
      rw [show (DepthDictionaryNodeRegistry.new D.root).nodes = .new D.root from rfl, size_new] at hlt
      omega
  | root depth hr ih =>
    rcases (registerNode_cases _ D.root ROOT depth).2 with heq | ⟨hk, -, -⟩
    · rw [heq]
      exact ih
    · cases hr.nodes.traced.root.symm.trans hk
  | @child r p depth n m u hr hn hdepth hedge ih =>
    rcases (registerNode_cases r m (DictionaryNodeKey.child p (CharUnit.toChar u)) (depth + 1)).2 with heq | ⟨hk, hlt, heq⟩
    · rw [heq]
      exact ih
    · rw [heq]
      exact ih.push hn hdepth (hr.nodes.traced.push hn hedge hk hlt)

/-- Nodes and their depths have the meaning of their ids, and a candidate is the id that registering would return, whatever
    was registered before. -/
theorem registries_identify (D : Dictionary N U) :
    (∀ r : DictionaryNodeRegistry N, DictionaryNodeRegistry.History D r →
      Identifies D r ∧ ∀ node key, (r.registerNode node key).2 = r.candidateId key) ∧
    ∀ r : DepthDictionaryNodeRegistry N, History D r →
      Identifies D r.nodes ∧ (∀ i path, Spells r.nodes i path → r.getDepth i = some path.length) ∧
        (∀ i, i < r.nodes.size ↔ ∃ depth, r.getDepth i = some depth) ∧
        ∀ node key depth, (r.registerNode node key depth).2 = r.candidateId key := by
  refine ⟨?_, ?_⟩
  · intro r hr
    exact ⟨hr.traced.identifies, fun node key => Interner.register_snd⟩
  · intro r hr
    refine ⟨hr.nodes.traced.identifies, fun i path => hr.measured.depth, ?_, fun node key depth => (registerNode_cases r node key depth).1⟩
    intro i
    rw [← hr.measured.length_eq, getDepth]
    refine ⟨fun hi => ⟨_, List.getElem?_eq_getElem hi⟩, ?_⟩
    intro ⟨depth, hdepth⟩
    exact (List.getElem?_eq_some_iff.mp hdepth).1

theorem registries_identify_a : ((new ([] : List Char)).registerNode ['a'] (.child 0 'a') 1).1.getDepth 1 = some 1 := by
  have hhistory : History (trie [['a', 'b']]).toDictionary ((new ([] : List Char)).registerNode ['a'] (.child 0 'a') 1).1 :=
    .child (D := (trie [['a', 'b']]).toDictionary) (n := []) .new (by decide) (by decide) (by decide)
  have hspells : Spells ((new ([] : List Char)).registerNode ['a'] (.child 0 'a') 1).1.nodes 1 ['a'] := .child .root (by decide)
  exact ((registries_identify _).2 _ hhistory).2.1 1 ['a'] hspells

end DepthDictionaryNodeRegistry
end Duallity
