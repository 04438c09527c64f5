import Duallity.Lib.Interner
import Duallity.Dictionary
import Duallity.StateEncoding
import Mathlib.Tactic.NormNum

/-! Node ids (`node_key.rs`, `node_registry.rs`). Dictionary nodes have no identity of their own: a node
    gets an id under the path step that discovered it, its parent's id and the label of the edge.
    So an id stands for a label sequence from the root. -/

namespace Duallity

/-- A path step packed into a `u64`; `u64::MAX` is the root. -/
structure DictionaryNodeKey where
  packed : Nat
deriving DecidableEq, Repr

namespace DictionaryNodeKey

def charBits : Nat := 21

def ROOT : DictionaryNodeKey := ⟨18446744073709551615⟩

def child (parentId : Nat) (edgeLabel : Char) : DictionaryNodeKey :=
  ⟨(parentId <<< charBits) ||| edgeLabel.toNat⟩

theorem toNat_lt (c : Char) : c.toNat < 1114112 := by
  rcases c.valid with h | ⟨-, h⟩
  · exact Nat.lt_trans h (by decide)
  · exact h

theorem child_packed (p : Nat) (c : Char) : (child p c).packed = 2097152 * p + c.toNat := by
  have h : c.toNat < 2 ^ charBits := (toNat_lt c).trans (by decide)
  show (p <<< charBits) ||| c.toNat = _
  rw [← Nat.shiftLeft_add_eq_or_of_lt h, Nat.shiftLeft_eq, Nat.mul_comm]
  rfl

theorem child_injective {p p' : Nat} {c c' : Char} (h : child p c = child p' c') : p = p' ∧ c = c' := by
  have h' := congrArg packed h
  have := toNat_lt c
  have := toNat_lt c'
  simp only [child_packed] at h'
  have hc : c.toNat = c'.toNat := by omega
  exact ⟨by omega, Char.toNat_inj.mp hc⟩

/-- No child key is the root's: its label bits are above every scalar value. -/
theorem child_ne_root (p : Nat) (c : Char) : child p c ≠ ROOT := by
  intro h
  have h' := congrArg packed h
  have := toNat_lt c
  simp only [child_packed, ROOT] at h'
  omega

end DictionaryNodeKey

/-- The ids of discovered nodes and the nodes under them. -/
abbrev DictionaryNodeRegistry (N : Type) := Interner DictionaryNodeKey N

namespace DictionaryNodeRegistry
variable {N U : Type} [CharUnit U]
open DictionaryNodeKey

def registerNode (r : DictionaryNodeRegistry N) (node : N) (key : DictionaryNodeKey) :
    DictionaryNodeRegistry N × Option Nat := r.register u32Count key node

def candidateId (r : DictionaryNodeRegistry N) (key : DictionaryNodeKey) : Option Nat := r.candidate u32Count key

def getNode (r : DictionaryNodeRegistry N) (id : Nat) : Option N := r.value? id

def new (root : N) : DictionaryNodeRegistry N := (registerNode .empty root ROOT).1

/-- `id` has been registered for the label sequence `p`. -/
inductive Spells (r : DictionaryNodeRegistry N) : Nat → List Char → Prop
  | root : Spells r 0 []
  | child {p d : Nat} {path : List Char} {c : Char} :
      Spells r p path → r.id? (child p c) = some d → Spells r d (path ++ [c])

/-- Every id is the root's, or it was registered through an edge below an earlier id. -/
structure WellFormed (D : Dictionary N U) (r : DictionaryNodeRegistry N) : Prop where
  root : r.id? ROOT = some 0
  rootNode : r.getNode 0 = some D.root
  edge : ∀ {k d}, r.id? k = some d → k = ROOT ∨
    ∃ p c n m, k = child p c ∧ p < d ∧ r.getNode p = some n ∧ D.step? n c = some m ∧ r.getNode d = some m
  size_le : r.size ≤ u32Count

section Spells
variable {D : Dictionary N U} {r r' : DictionaryNodeRegistry N} {id id' : Nat} {p p' : List Char}

theorem Spells.mono (h : r ≤ r') (hs : Spells r id p) : Spells r' id p := by
  induction hs with
  | root => exact .root
  | child _ hid ih => exact .child ih (Interner.le_id? h hid)

theorem Spells.id_unique (h : Spells r id p) (h' : Spells r id' p) : id = id' := by
  induction h generalizing id' with
  | root =>
    generalize hp : ([] : List Char) = p' at h'
    cases h' with
    | root => rfl
    | child _ _ => exact absurd hp.symm (by simp)
  | @child q d path c hq hid ih =>
    generalize hp : path ++ [c] = p' at h'
    cases h' with
    | root => exact absurd hp (by simp)
    | child hq' hid' =>
      obtain ⟨rfl, heq⟩ := List.append_inj' hp rfl
      cases heq
      cases ih hq'
      rw [hid] at hid'
      exact Option.some.inj hid'

/-- The id of an extended sequence is the one under its last path step. -/
theorem Spells.child_id {q d : Nat} {path : List Char} {c : Char} (h : Spells r d (path ++ [c]))
    (hq : Spells r q path) : r.id? (DictionaryNodeKey.child q c) = some d := by
  generalize hp : path ++ [c] = p at h
  cases h with
  | root => exact absurd hp (by simp)
  | child hq' hid =>
    obtain ⟨rfl, heq⟩ := List.append_inj' hp rfl
    cases heq
    rw [hq.id_unique hq']
    exact hid

/-- The edge under which a child id was registered. -/
theorem WellFormed.child_edge (hr : WellFormed D r) {q d : Nat} {c : Char} (h : r.id? (child q c) = some d) :
    ∃ n m, q < d ∧ r.getNode q = some n ∧ D.step? n c = some m ∧ r.getNode d = some m := by
  rcases hr.edge h with h | ⟨q', c', n, m, hk, hlt, hn, hm, hd⟩
  · exact absurd h (child_ne_root _ _)
  · obtain ⟨rfl, rfl⟩ := child_injective hk
    exact ⟨n, m, hlt, hn, hm, hd⟩

theorem WellFormed.path_unique (hr : WellFormed D r) (h : Spells r id p) (h' : Spells r id p') : p = p' := by
  induction h generalizing p' with
  | root =>
    cases h' with
    | root => rfl
    | child _ hid' =>
      obtain ⟨_, _, hlt, _⟩ := hr.child_edge hid'
      omega
  | child _ hid ih =>
    cases h' with
    | root =>
      obtain ⟨_, _, hlt, _⟩ := hr.child_edge hid
      omega
    | child hq' hid' =>
      obtain ⟨rfl, rfl⟩ := child_injective (Interner.id?_injective hid hid')
      rw [ih hq']

/-- The node under an id is the one its label sequence leads to. -/
theorem WellFormed.node (hr : WellFormed D r) (h : Spells r id p) :
    ∃ n, D.node? p = some n ∧ r.getNode id = some n := by
  induction h with
  | root => exact ⟨D.root, rfl, hr.rootNode⟩
  | child _ hid ih =>
    obtain ⟨n, m, -, hn, hm, hd⟩ := hr.child_edge hid
    obtain ⟨n', hn', hq'⟩ := ih
    cases hn.symm.trans hq'
    exact ⟨m, by rw [Dictionary.node?_snoc, hn', Option.bind_some, hm], hd⟩

theorem WellFormed.exists_path (hr : WellFormed D r) (h : id < r.size) : ∃ p, Spells r id p := by
  induction id using Nat.strong_induction_on with
  | _ id ih =>
    obtain ⟨k, hk⟩ := Interner.exists_id? h
    rcases hr.edge hk with rfl | ⟨q, c, n, m, rfl, hlt, -⟩
    · rw [hr.root] at hk
      cases hk
      exact ⟨[], .root⟩
    · obtain ⟨path, hpath⟩ := ih q hlt (hlt.trans h)
      exact ⟨path ++ [c], .child hpath hk⟩

theorem WellFormed.lt_size (hr : WellFormed D r) (h : Spells r id p) : id < r.size := by
  obtain ⟨_, _, hn⟩ := hr.node h
  exact Interner.lt_of_value? hn

/-- Ids grow along a path, so a path is no longer than its id. -/
theorem WellFormed.length_le (hr : WellFormed D r) (h : Spells r id p) : p.length ≤ id := by
  induction h with
  | root => exact Nat.le_refl _
  | child _ hid ih =>
    obtain ⟨_, _, hlt, _⟩ := hr.child_edge hid
    rw [List.length_append, List.length_singleton]
    omega

theorem WellFormed.path_of_getNode {n : N} (hr : WellFormed D r) (h : r.getNode id = some n) :
    ∃ p, Spells r id p ∧ D.node? p = some n := by
  obtain ⟨p, hp⟩ := hr.exists_path (Interner.lt_of_value? h)
  obtain ⟨n', hn', hid⟩ := hr.node hp
  cases h.symm.trans hid
  exact ⟨p, hp, hn'⟩

/-- The label sequences that have an id. -/
def spelled (r : DictionaryNodeRegistry N) : Set (List Char) := {p | ∃ i, Spells r i p}

theorem WellFormed.ncard_spelled (hr : WellFormed D r) : (spelled r).ncard = r.size := by
  have hex : ∀ i : Fin r.size, ∃ p, Spells r i p := fun i => hr.exists_path i.isLt
  choose path hpath using hex
  have hinj : Function.Injective path := by
    intro i j hij
    exact Fin.ext ((hpath i).id_unique (hij ▸ hpath j))
  have hrange : spelled r = path '' Set.univ := by
    ext p
    constructor
    · rintro ⟨i, hi⟩
      exact ⟨⟨i, hr.lt_size hi⟩, trivial, hr.path_unique (hpath _) hi⟩
    · rintro ⟨i, -, rfl⟩
      exact ⟨i, hpath i⟩
  rw [hrange, Set.ncard_image_of_injective _ hinj, Set.ncard_univ, Nat.card_eq_fintype_card, Fintype.card_fin]

theorem WellFormed.spelled_subset (hr : WellFormed D r) : spelled r ⊆ D.prefixes := by
  rintro p ⟨i, hi⟩
  obtain ⟨n, hn, -⟩ := hr.node hi
  exact Dictionary.mem_prefixes.mpr ⟨n, hn⟩

/-- There are at most as many ids as label sequences. -/
theorem WellFormed.size_le_ncard (hr : WellFormed D r) (hD : D.prefixes.Finite) : r.size ≤ D.prefixes.ncard :=
  hr.ncard_spelled ▸ Set.ncard_le_ncard hr.spelled_subset hD

/-- A registry with as many ids as there are label sequences has an id for each of them. -/
theorem WellFormed.exists_id (hr : WellFormed D r) (hD : D.prefixes.Finite) (h : D.prefixes.ncard ≤ r.size)
    (hp : p ∈ D.prefixes) : ∃ i, Spells r i p := by
  have heq : spelled r = D.prefixes := Set.eq_of_subset_of_ncard_le hr.spelled_subset (hr.ncard_spelled ▸ h) hD
  rw [← heq] at hp
  exact hp

end Spells

/-! ### Registration -/

section Registration
variable {D : Dictionary N U} {r : DictionaryNodeRegistry N} {q : Nat} {c : Char} {n m : N}

theorem new_eq (root : N) : new root = Interner.push .empty ROOT root Interner.id?_empty := by
  rw [new, DictionaryNodeRegistry.registerNode, Interner.register_of_none Interner.id?_empty,
    if_pos (by rw [Interner.size_empty, u32Count]; omega)]

theorem size_new {root : N} : (new root).size = 1 := by
  rw [new_eq, Interner.size_push, Interner.size_empty]

theorem getNode_new {root : N} : (new root).getNode 0 = some root := by
  rw [new_eq]
  exact Interner.value?_push_self

theorem wellFormed_new : WellFormed D (new D.root) := by
  rw [new_eq]
  refine ⟨Interner.id?_push_self _, Interner.value?_push_self, ?_, ?_⟩
  · intro k d hk
    rw [Interner.id?_push] at hk
    split at hk
    · exact Or.inl ‹_›
    · rw [Interner.id?_empty] at hk
      cases hk
  · rw [Interner.size_push, Interner.size_empty, u32Count]
    omega

theorem WellFormed.push (hr : WellFormed D r) (hq : r.getNode q = some n) (hm : D.step? n c = some m)
    (hk : r.id? (child q c) = none) (hlt : r.size < u32Count) : WellFormed D (Interner.push r (child q c) m hk) := by
  refine ⟨Interner.id?_push_of_some hr.root, Interner.value?_push_of_some hr.rootNode, ?_, ?_⟩
  · intro k d hkd
    rw [Interner.id?_push] at hkd
    split at hkd
    · rename_i heq
      cases hkd
      exact Or.inr ⟨q, c, n, m, heq, Interner.lt_of_value? hq, Interner.value?_push_of_some hq, hm,
        Interner.value?_push_self⟩
    · rcases hr.edge hkd with h | ⟨p, c', n', m', h1, h2, h3, h4, h5⟩
      · exact Or.inl h
      · exact Or.inr ⟨p, c', n', m', h1, h2, Interner.value?_push_of_some h3, h4, Interner.value?_push_of_some h5⟩
  · rw [Interner.size_push]
    exact hlt

theorem WellFormed.registerNode (hr : WellFormed D r) (hq : r.getNode q = some n) (hm : D.step? n c = some m) :
    WellFormed D (r.registerNode m (child q c)).1 := by
  unfold DictionaryNodeRegistry.registerNode
  rcases Interner.register_cases u32Count r (child q c) m with h | ⟨hk, hlt, h⟩
  · rw [h]
    exact hr
  · rw [h]
    exact hr.push hq hm hk hlt

theorem Spells.registerNode {path : List Char} {i : Nat} (h : Spells r q path)
    (hi : r.candidateId (DictionaryNodeKey.child q c) = some i) :
    Spells (DictionaryNodeRegistry.registerNode r m (DictionaryNodeKey.child q c)).1 i (path ++ [c]) :=
  .child (h.mono Interner.le_register) (Interner.id?_register hi)

/-- A node of an unfolded dictionary gets a new id, unless all of them have one. -/
theorem WellFormed.candidate_lt (hr : WellFormed D r) (hD : D.prefixes.Finite) {path : List Char} {i : Nat}
    (h : Spells r q path) (hq : r.getNode q = some n) (hm : D.step? n c = some m)
    (hi : r.candidateId (child q c) = some i) : i < D.prefixes.ncard := by
  have hr' := hr.registerNode hq hm
  exact (hr'.lt_size (h.registerNode hi)).trans_le (hr'.size_le_ncard hD)

theorem WellFormed.exists_candidate (hr : WellFormed D r) (hD : D.prefixes.Finite)
    (hcard : D.prefixes.ncard ≤ u32Count) {path : List Char} (h : Spells r q path) (hq : r.getNode q = some n)
    (hm : D.step? n c = some m) : ∃ i, r.candidateId (child q c) = some i := by
  cases hk : r.id? (child q c) with
  | some i => exact ⟨i, Interner.candidate_of_some hk⟩
  | none =>
    rw [candidateId, Interner.candidate_of_none hk, Interner.nextId]
    by_cases hlt : r.size < u32Count
    · exact ⟨r.size, if_pos hlt⟩
    · -- A full registry has an id for each label sequence, so also for this one.
      exfalso
      obtain ⟨n', hnode, hq'⟩ := hr.node h
      cases hq.symm.trans hq'
      have hmem : path ++ [c] ∈ D.prefixes :=
        Dictionary.mem_prefixes.mpr ⟨m, by rw [Dictionary.node?_snoc, hnode, Option.bind_some, hm]⟩
      obtain ⟨i, hi⟩ := hr.exists_id hD (by omega) hmem
      rw [(hi.child_id h)] at hk
      cases hk

end Registration

end DictionaryNodeRegistry
end Duallity
