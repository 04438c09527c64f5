import Mathlib.Data.List.Infix
import Mathlib.Data.Set.Card
import Duallity.Lib.TopK

/-! Search of a tree of label sequences for the greatest `k` elements of a set. The subtrees still to be searched are given by
    their roots; a subtree may be left out when each of its elements is below `k` of those found. -/

namespace PrefixSearch
variable {κ α : Type*} [LinearOrder α]

/-- Neither root is in the subtree of the other. -/
def Apart (a b : List κ) : Prop := ¬a <+: b ∧ ¬b <+: a

/-- Each element of the set is found, or still to be found, or below `k` of those found. -/
structure Covers (term : α → List κ) (C : Set α) (k : Nat) (roots : List (List κ)) (seen : List α) : Prop where
  apart : roots.Pairwise Apart
  fresh : ∀ x ∈ seen, ∀ a ∈ roots, ¬a <+: term x
  nodup : seen.Nodup
  sound : ∀ x ∈ seen, x ∈ C
  complete : ∀ x ∈ C, x ∈ seen ∨ (∃ a ∈ roots, a <+: term x) ∨ k ≤ seen.countP (x < ·)

variable {term : α → List κ} {C : Set α} {k : Nat} {roots : List (List κ)} {seen found heap all : List α} {a : List κ}

theorem covers_start : Covers term C k [[]] [] where
  apart := List.pairwise_singleton _ _
  fresh := nofun
  nodup := .nil
  sound := nofun
  complete _ _ := .inr (.inl ⟨[], List.mem_cons_self, List.nil_prefix⟩)

theorem apart_child {b : List κ} (h : Apart a b) (c : κ) : Apart (a ++ [c]) b := by
  refine ⟨fun hpre => h.1 ((List.prefix_append a [c]).trans hpre), ?_⟩
  intro hpre
  rcases List.prefix_concat_iff.mp hpre with rfl | hpre
  · exact h.1 (List.prefix_append a [c])
  · exact h.2 hpre

theorem apart_siblings {c d : κ} (h : c ≠ d) : Apart (a ++ [c]) (a ++ [d]) := by
  constructor
  · intro hpre
    have heq := hpre.eq_of_length (by rw [List.length_append, List.length_append]; rfl)
    exact h (List.singleton_inj.mp (List.append_cancel_left heq))
  · intro hpre
    have heq := hpre.eq_of_length (by rw [List.length_append, List.length_append]; rfl)
    exact h (List.singleton_inj.mp (List.append_cancel_left heq)).symm

/-- The root of a subtree is searched; the subtrees of its children are left. -/
theorem Covers.visit (h : Covers term C k (a :: roots) seen) {labels : List κ} (hlabels : labels.Nodup)
    (hchild : ∀ x ∈ C, a <+: term x → term x = a ∨ ∃ c ∈ labels, a ++ [c] <+: term x)
    (hfound : ∀ x, x ∈ found ↔ x ∈ C ∧ term x = a) (hnodup : found.Nodup) :
    Covers term C k (labels.map (fun c => a ++ [c]) ++ roots) (seen ++ found) where
  apart := by
    obtain ⟨ha, hroots⟩ := List.pairwise_cons.mp h.apart
    refine List.pairwise_append.mpr ⟨?_, hroots, ?_⟩
    · rw [List.pairwise_map]
      exact hlabels.imp apart_siblings
    · intro b hb b' hb'
      obtain ⟨c, -, rfl⟩ := List.mem_map.mp hb
      exact apart_child (ha b' hb') c
  fresh := by
    intro x hx b hb hpre
    rcases List.mem_append.mp hx with hx | hx
    · rcases List.mem_append.mp hb with hb | hb
      · obtain ⟨c, -, rfl⟩ := List.mem_map.mp hb
        exact h.fresh x hx a List.mem_cons_self ((List.prefix_append a [c]).trans hpre)
      · exact h.fresh x hx b (List.mem_cons_of_mem _ hb) hpre
    · rw [((hfound x).mp hx).2] at hpre
      rcases List.mem_append.mp hb with hb | hb
      · obtain ⟨c, -, rfl⟩ := List.mem_map.mp hb
        have hlen := hpre.length_le
        rw [List.length_append] at hlen
        exact Nat.not_succ_le_self _ hlen
      · exact ((List.pairwise_cons.mp h.apart).1 b hb).2 hpre
  nodup := by
    refine List.nodup_append.mpr ⟨h.nodup, hnodup, ?_⟩
    rintro x hx _ hx' rfl
    exact h.fresh x hx a List.mem_cons_self (((hfound x).mp hx').2 ▸ List.prefix_refl _)
  sound := by
    intro x hx
    rcases List.mem_append.mp hx with hx | hx
    · exact h.sound x hx
    · exact ((hfound x).mp hx).1
  complete := by
    intro x hx
    rcases h.complete x hx with hseen | ⟨b, hb, hpre⟩ | hbeaten
    · exact .inl (List.mem_append_left _ hseen)
    · rcases List.mem_cons.mp hb with rfl | hb
      · rcases hchild x hx hpre with heq | ⟨c, hc, hpre⟩
        · exact .inl (List.mem_append_right _ ((hfound x).mpr ⟨hx, heq⟩))
        · exact .inr (.inl ⟨_, List.mem_append_left _ (List.mem_map_of_mem hc), hpre⟩)
      · exact .inr (.inl ⟨b, List.mem_append_right _ hb, hpre⟩)
    · refine .inr (.inr (hbeaten.trans ?_))
      rw [List.countP_append]
      exact Nat.le_add_right _ _

/-- A subtree whose elements are below `k` others is left out. -/
theorem Covers.prune (h : Covers term C k (a :: roots) seen)
    (hbeaten : ∀ x ∈ C, a <+: term x → k ≤ seen.countP (x < ·)) : Covers term C k roots seen where
  apart := (List.pairwise_cons.mp h.apart).2
  fresh x hx b hb := h.fresh x hx b (List.mem_cons_of_mem _ hb)
  nodup := h.nodup
  sound := h.sound
  complete := by
    intro x hx
    rcases h.complete x hx with hseen | ⟨b, hb, hpre⟩ | hbelow
    · exact .inl hseen
    · rcases List.mem_cons.mp hb with rfl | hb
      · exact .inr (.inr (hbeaten x hx hpre))
      · exact .inr (.inl ⟨b, hb, hpre⟩)
    · exact .inr (.inr hbelow)

/-- When no subtree is left, the heap has the greatest `k` elements of the set. -/
theorem Covers.eq_take (h : Covers term C k [] seen) (hheap : TopK.Keeps k seen heap) (hall : all.Pairwise (· > ·))
    (hmem : ∀ x, x ∈ all ↔ x ∈ C) : heap.insertionSort (· ≥ ·) = all.take k := by
  have hnodup : all.Nodup := hall.imp fun h => ne_of_gt h
  have hkeeps := hheap.beaten_all (all.filter (· ∉ seen)) (by
    intro x hx
    obtain ⟨hx, hnew⟩ := List.mem_filter.mp hx
    rcases h.complete x ((hmem x).mp hx) with hseen | ⟨b, hb, -⟩ | hbelow
    · exact absurd hseen (of_decide_eq_true hnew)
    · cases hb
    · exact hbelow)
  have hperm : (seen ++ all.filter (· ∉ seen)).Perm all := by
    refine (List.perm_ext_iff_of_nodup ?_ hnodup).mpr ?_
    · refine List.nodup_append.mpr ⟨h.nodup, hnodup.filter _, ?_⟩
      rintro x hx _ hx' rfl
      exact of_decide_eq_true (List.mem_filter.mp hx').2 hx
    · intro x
      rw [List.mem_append, List.mem_filter, decide_eq_true_iff]
      constructor
      · rintro (hx | hx)
        · exact (hmem x).mpr (h.sound x hx)
        · exact hx.1
      · intro hx
        by_cases hseen : x ∈ seen
        · exact .inl hseen
        · exact .inr ⟨hx, hseen⟩
  exact hkeeps.eq_take (hall.imp fun h => le_of_lt h) hperm.symm (List.pairwise_insertionSort _ _) (List.perm_insertionSort _ _)

/-! ### Work -/

section Work
variable {P : Set (List κ)} {work : Nat} {labels : List κ}

/-- How many label sequences of a set are in a subtree. -/
noncomputable def size (P : Set (List κ)) (a : List κ) : Nat := {p ∈ P | a <+: p}.ncard

/-- Each label is charged for once, when its parent is searched: what was charged and the subtrees that are left fit in the tree. -/
structure Affords (P : Set (List κ)) (work : Nat) (roots : List (List κ)) : Prop where
  mem : ∀ a ∈ roots, a ∈ P
  charged : work + 1 + (roots.map (size P)).sum ≤ P.ncard + roots.length

theorem affords_start (h : [] ∈ P) : Affords P 0 [[]] where
  mem := by simpa using h
  charged := by simp [size, Nat.add_comm]

theorem size_pos (hfinite : P.Finite) (ha : a ∈ P) : 0 < size P a :=
  (Set.ncard_pos (hfinite.subset (Set.sep_subset _ _))).mpr ⟨a, ha, List.prefix_refl a⟩

theorem length_le_sum_size (hfinite : P.Finite) (hmem : ∀ a ∈ roots, a ∈ P) : roots.length ≤ (roots.map (size P)).sum := by
  induction roots with
  | nil => exact Nat.zero_le _
  | cons a roots ih =>
    have ha := size_pos hfinite (hmem a List.mem_cons_self)
    have hroots := ih fun b hb => hmem b (List.mem_cons_of_mem _ hb)
    simp only [List.map_cons, List.sum_cons, List.length_cons]
    omega

theorem Affords.work_lt (h : Affords P work roots) (hfinite : P.Finite) : work < P.ncard := by
  have hle := length_le_sum_size hfinite h.mem
  have hcharged := h.charged
  omega

theorem Affords.prune (h : Affords P work (a :: roots)) (hfinite : P.Finite) : Affords P work roots where
  mem b hb := h.mem b (List.mem_cons_of_mem _ hb)
  charged := by
    have hpos := size_pos hfinite (h.mem a List.mem_cons_self)
    have hcharged := h.charged
    simp only [List.map_cons, List.sum_cons, List.length_cons] at hcharged
    omega

/-- The subtrees of siblings are disjoint. -/
theorem sum_size_siblings (hfinite : P.Finite) (hlabels : labels.Nodup) :
    (labels.map fun c => size P (a ++ [c])).sum = {p ∈ P | ∃ c ∈ labels, a ++ [c] <+: p}.ncard := by
  induction labels with
  | nil => simp
  | cons c labels ih =>
    obtain ⟨hc, hlabels⟩ := List.nodup_cons.mp hlabels
    have hunion : {p ∈ P | ∃ d ∈ c :: labels, a ++ [d] <+: p} =
        {p ∈ P | a ++ [c] <+: p} ∪ {p ∈ P | ∃ d ∈ labels, a ++ [d] <+: p} := by
      ext p
      simp only [Set.mem_ofPred_eq, Set.mem_union, List.exists_mem_cons_iff, and_or_left]
    have hdisjoint : Disjoint {p ∈ P | a ++ [c] <+: p} {p ∈ P | ∃ d ∈ labels, a ++ [d] <+: p} := by
      rw [Set.disjoint_left]
      rintro p ⟨-, hp⟩ ⟨-, d, hd, hp'⟩
      have hlen : (a ++ [c]).length ≤ (a ++ [d]).length := by simp
      have hne : c ≠ d := fun heq => hc (heq ▸ hd)
      exact (apart_siblings hne).1 (List.prefix_of_prefix_length_le hp hp' hlen)
    rw [List.map_cons, List.sum_cons, ih hlabels, hunion,
      Set.ncard_union_eq hdisjoint (hfinite.subset (Set.sep_subset _ _)) (hfinite.subset (Set.sep_subset _ _))]
    rfl

theorem sum_size_lt (hfinite : P.Finite) (ha : a ∈ P) (hlabels : labels.Nodup) :
    (labels.map fun c => size P (a ++ [c])).sum < size P a := by
  rw [sum_size_siblings hfinite hlabels]
  refine Set.ncard_lt_ncard ?_ (hfinite.subset (Set.sep_subset _ _))
  refine ⟨?_, fun hsubset => ?_⟩
  · rintro p ⟨hp, c, -, hpre⟩
    exact ⟨hp, (List.prefix_append a [c]).trans hpre⟩
  · -- The root itself is below no child.
    obtain ⟨-, c, -, hpre⟩ := hsubset (⟨ha, List.prefix_refl a⟩ : a ∈ {p ∈ P | a <+: p})
    have hlen := hpre.length_le
    simp at hlen

/-- Searching a root charges for its labels. -/
theorem Affords.visit (h : Affords P work (a :: roots)) (hfinite : P.Finite) (hlabels : labels.Nodup)
    (hmem : ∀ c ∈ labels, a ++ [c] ∈ P) : Affords P (work + labels.length) (labels.map (fun c => a ++ [c]) ++ roots) where
  mem := by
    intro b hb
    rcases List.mem_append.mp hb with hb | hb
    · obtain ⟨c, hc, rfl⟩ := List.mem_map.mp hb
      exact hmem c hc
    · exact h.mem b (List.mem_cons_of_mem _ hb)
  charged := by
    have hlt := sum_size_lt hfinite (h.mem a List.mem_cons_self) hlabels
    have hcharged := h.charged
    simp only [List.map_cons, List.sum_cons, List.length_cons] at hcharged
    simp only [List.map_append, List.map_map, List.sum_append, List.length_append, List.length_map, Function.comp_def]
    omega

end Work

end PrefixSearch
