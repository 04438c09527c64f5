import Mathlib.Data.Set.Card
import Mathlib.Data.List.Induction
import Mathlib.Data.List.Nodup

/-! Dictionaries as the crate reads them: nodes with labelled edges, of which some are final. -/

namespace Duallity

/-- The conversions `Into<char>` and `TryFrom<char>` of a dictionary's edge unit. -/
class CharUnit (U : Type) where
  toChar : U → Char
  ofChar? : Char → Option U
  ofChar?_eq_some : ∀ {c u}, ofChar? c = some u ↔ toChar u = c

instance : CharUnit Char where
  toChar c := c
  ofChar? c := some c
  ofChar?_eq_some := by simp [eq_comm]

/-- What the crate calls on a `libdictenstein` dictionary and its nodes. -/
structure Dictionary (N U : Type) where
  root : N
  isFinal : N → Bool
  edges : N → List (U × N)
  hasEdge : N → U → Bool
  edgeCount : N → Option Nat

namespace Dictionary
variable {N U : Type} [CharUnit U] (D : Dictionary N U)

/-- The child under the first edge that reads as `c`. -/
def step? (n : N) (c : Char) : Option N := ((D.edges n).find? fun e => CharUnit.toChar e.1 == c).map Prod.snd

/-- The node that the labels `p` lead to from `n`. -/
def walk? (n : N) : List Char → Option N
  | [] => some n
  | c :: p => (D.step? n c).bind fun m => walk? m p

/-- The node that the labels `p` lead to from the root. -/
def node? (p : List Char) : Option N := D.walk? D.root p

/-- The label sequences of paths from the root. -/
def prefixes : Set (List Char) := {p | (D.node? p).isSome}

/-- The label sequences of paths from the root to final nodes. -/
def words : Set (List Char) := {p | ∃ n, D.node? p = some n ∧ D.isFinal n = true}

/-- The labelled paths of a length, in the order of a depth-first walk along the edges. -/
def labelledPaths (n : N) : Nat → List (List Char)
  | 0 => [[]]
  | width + 1 => (D.edges n).flatMap fun e => (labelledPaths e.2 width).map (CharUnit.toChar e.1 :: ·)

/-- No node has two edges with one label. -/
def DistinctLabels : Prop := ∀ n, ((D.edges n).map fun e => CharUnit.toChar e.1).Nodup

variable {D}

theorem walk?_append {n : N} {p p' : List Char} : D.walk? n (p ++ p') = (D.walk? n p).bind fun m => D.walk? m p' := by
  induction p generalizing n with
  | nil => rfl
  | cons c p ih =>
    simp only [List.cons_append, walk?, Option.bind_assoc]
    congr 1
    funext m
    exact ih

@[simp] theorem node?_nil : D.node? [] = some D.root := rfl

theorem node?_append {p p' : List Char} : D.node? (p ++ p') = (D.node? p).bind fun m => D.walk? m p' := walk?_append

theorem node?_snoc {p : List Char} {c : Char} : D.node? (p ++ [c]) = (D.node? p).bind fun m => D.step? m c := by
  rw [node?_append]
  congr 1
  funext m
  cases h : D.step? m c <;> simp [walk?, h]

theorem mem_prefixes {p : List Char} : p ∈ D.prefixes ↔ ∃ n, D.node? p = some n := Option.isSome_iff_exists

theorem nil_mem_prefixes : [] ∈ D.prefixes := mem_prefixes.mpr ⟨D.root, rfl⟩

theorem mem_prefixes_of_append {p p' : List Char} (h : p ++ p' ∈ D.prefixes) : p ∈ D.prefixes := by
  obtain ⟨n, hn⟩ := mem_prefixes.mp h
  rw [node?_append] at hn
  obtain ⟨m, hm, -⟩ := Option.bind_eq_some_iff.mp hn
  exact mem_prefixes.mpr ⟨m, hm⟩

theorem words_subset_prefixes : D.words ⊆ D.prefixes := fun _ ⟨n, hn, _⟩ => mem_prefixes.mpr ⟨n, hn⟩

/-! ### Distinct labels -/

theorem DistinctLabels.step?_eq_some (h : D.DistinctLabels) {n m : N} {c : Char} :
    D.step? n c = some m ↔ ∃ u, (u, m) ∈ D.edges n ∧ CharUnit.toChar u = c := by
  unfold step?
  rw [Option.map_eq_some_iff]
  constructor
  · rintro ⟨⟨u, m'⟩, h, rfl⟩
    exact ⟨u, List.mem_of_find?_eq_some h, by simpa using List.find?_some h⟩
  · rintro ⟨u, hmem, rfl⟩
    cases hfind : (D.edges n).find? fun e => CharUnit.toChar e.1 == CharUnit.toChar u with
    | none => exact absurd (List.find?_eq_none.mp hfind _ hmem) (by simp)
    | some e =>
      -- Labels are distinct, so the first edge with the label is the only one.
      have hlabel : CharUnit.toChar e.1 = CharUnit.toChar u := by simpa using List.find?_some hfind
      have heq := List.inj_on_of_nodup_map (h n) (List.mem_of_find?_eq_some hfind) hmem hlabel
      exact ⟨e, rfl, by rw [heq]⟩

theorem DistinctLabels.mem_labelledPaths (h : D.DistinctLabels) {n : N} {p : List Char} {width : Nat} :
    p ∈ D.labelledPaths n width ↔ p.length = width ∧ ∃ m, D.walk? n p = some m := by
  induction width generalizing n p with
  | zero =>
    rw [labelledPaths, List.mem_singleton, List.length_eq_zero_iff]
    refine ⟨?_, And.left⟩
    rintro rfl
    exact ⟨rfl, n, rfl⟩
  | succ width ih =>
    simp only [labelledPaths, List.mem_flatMap, List.mem_map]
    refine ⟨?_, ?_⟩
    · rintro ⟨e, he, p, hp, rfl⟩
      rcases ih.mp hp with ⟨hlength, m, hm⟩
      refine ⟨by rw [List.length_cons, hlength], m, ?_⟩
      rw [walk?, h.step?_eq_some.mpr ⟨e.1, he, rfl⟩, Option.bind_some, hm]
    · rintro ⟨hlength, m, hm⟩
      cases p with
      | nil => cases hlength
      | cons c p =>
        rcases Option.bind_eq_some_iff.mp hm with ⟨child, hchild, hwalk⟩
        rcases h.step?_eq_some.mp hchild with ⟨u, hu, rfl⟩
        exact ⟨(u, child), hu, p, ih.mpr ⟨Nat.succ.inj hlength, m, hwalk⟩, rfl⟩

theorem DistinctLabels.nodup_labelledPaths (h : D.DistinctLabels) (n : N) (width : Nat) : (D.labelledPaths n width).Nodup := by
  induction width generalizing n with
  | zero => simp [labelledPaths]
  | succ width ih =>
    rw [labelledPaths, List.nodup_flatMap]
    refine ⟨fun e _ => (ih e.2).map fun p p' heq => (List.cons.inj heq).2, ?_⟩
    refine (List.pairwise_map.mp (h n)).imp fun {e e'} hne => ?_
    -- Paths below two edges differ in their first label.
    intro p hp hp'
    obtain ⟨_, -, rfl⟩ := List.mem_map.mp hp
    obtain ⟨_, -, heq⟩ := List.mem_map.mp hp'
    exact hne (List.cons.inj heq).1.symm

/-! ### Depth -/

/-- The dictionary whose nodes know how many labels lead to them. -/
def withDepth (D : Dictionary N U) : Dictionary (N × Nat) U where
  root := (D.root, 0)
  isFinal n := D.isFinal n.1
  edges n := (D.edges n.1).map fun e => (e.1, e.2, n.2 + 1)
  hasEdge n u := D.hasEdge n.1 u
  edgeCount n := D.edgeCount n.1

theorem withDepth_step? {n : N × Nat} {c : Char} : D.withDepth.step? n c = (D.step? n.1 c).map fun m => (m, n.2 + 1) := by
  simp only [step?, withDepth, List.find?_map, Option.map_map, Function.comp_def]

theorem withDepth_node? {p : List Char} : D.withDepth.node? p = (D.node? p).map fun n => (n, p.length) := by
  induction p using List.reverseRecOn with
  | nil => rfl
  | append_singleton p c ih =>
    rw [node?_snoc, node?_snoc, ih]
    cases h : D.node? p with
    | none => rfl
    | some n => simp [withDepth_step?]

theorem withDepth_prefixes : D.withDepth.prefixes = D.prefixes := by
  ext p
  simp [prefixes, withDepth_node?]

end Dictionary

/-- A dictionary whose graph below the root is finite and acyclic (it has finitely many label
    sequences), with at most one edge per label at a node, and with node methods that agree with
    the edges. -/
structure FiniteDictionary (N U : Type) [CharUnit U] extends Dictionary N U where
  labels_nodup : ∀ n, ((edges n).map fun e => CharUnit.toChar e.1).Nodup
  hasEdge_iff : ∀ n u, hasEdge n u = true ↔ ∃ m, (u, m) ∈ edges n
  edgeCount_eq : ∀ n c, edgeCount n = some c → c = (edges n).length
  finite : toDictionary.prefixes.Finite

namespace FiniteDictionary
variable {N U : Type} [CharUnit U] {D : FiniteDictionary N U}

theorem step?_eq_some {n m : N} {c : Char} :
    D.step? n c = some m ↔ ∃ u, (u, m) ∈ D.edges n ∧ CharUnit.toChar u = c :=
  Dictionary.DistinctLabels.step?_eq_some D.labels_nodup

end FiniteDictionary
end Duallity
