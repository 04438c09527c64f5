import Mathlib.Data.List.Induction
import Mathlib.Data.List.Sort

/-! The greatest `k` of the elements seen so far, kept in a bounded heap whose least element comes first. -/

namespace TopK
variable {α : Type*} [LinearOrder α] {k : Nat} {seen heap : List α} {x : α}

/-- Add an element to a heap. -/
def push (x : α) (heap : List α) : List α := heap.orderedInsert (· ≤ ·) x

/-- Add an element while there is room; then it takes the place of the least one, when that is less. -/
def keep (k : Nat) (heap : List α) (x : α) : List α :=
  if heap.length < k then push x heap
  else
    match heap with
    | least :: rest => if least < x then push x rest else heap
    | [] => heap

/-- The heap has the greatest `k` of the elements seen, the least of them first. -/
structure Keeps (k : Nat) (seen heap : List α) : Prop where
  sorted : heap.Pairwise (· ≤ ·)
  split : ∃ rest, (heap ++ rest).Perm seen ∧ ∀ h ∈ heap, ∀ x ∈ rest, x ≤ h
  length : heap.length = min k seen.length

theorem keeps_nil : Keeps k ([] : List α) [] := ⟨.nil, ⟨[], .nil, nofun⟩, (Nat.min_zero k).symm⟩

theorem push_perm : (push x heap).Perm (x :: heap) := List.perm_orderedInsert _ _ _

theorem length_push : (push x heap).length = heap.length + 1 := List.orderedInsert_length _ _ _

theorem Keeps.step (h : Keeps k seen heap) (hk : 0 < k) (x : α) : Keeps k (seen ++ [x]) (keep k heap x) := by
  obtain ⟨rest, hperm, hle⟩ := h.split
  have hlen := hperm.length_eq
  have hlength := h.length
  rw [List.length_append] at hlen
  unfold keep
  by_cases hroom : heap.length < k
  · -- Nothing has been left out yet.
    have hrest : rest = [] := List.eq_nil_of_length_eq_zero (by omega)
    subst hrest
    rw [List.append_nil] at hperm
    rw [if_pos hroom]
    refine ⟨h.sorted.orderedInsert _ _, ⟨[], ?_, nofun⟩, ?_⟩
    · rw [List.append_nil]
      exact push_perm.trans ((List.perm_append_singleton x heap).symm.trans (hperm.append_right [x]))
    · rw [length_push, List.length_append, List.length_singleton]
      omega
  · rw [if_neg hroom]
    cases heap with
    | nil => exact absurd hk (by rw [List.length_nil] at hroom; exact hroom)
    | cons least heap =>
      obtain ⟨hleast, hsorted⟩ := List.pairwise_cons.mp h.sorted
      rw [List.length_cons] at hlength hroom
      dsimp only
      by_cases hlt : least < x
      · rw [if_pos hlt]
        refine ⟨hsorted.orderedInsert _ _, ⟨least :: rest, ?_, ?_⟩, ?_⟩
        · calc (push x heap ++ least :: rest).Perm (x :: heap ++ least :: rest) := push_perm.append_right _
            _ |>.Perm (x :: (least :: heap ++ rest)) := (List.perm_middle).cons x
            _ |>.Perm (seen ++ [x]) := (hperm.cons x).trans (List.perm_append_singleton x seen).symm
        · intro g hg y hy
          have hg' : least ≤ g := by
            rcases List.mem_cons.mp (push_perm.mem_iff.mp hg) with rfl | hg
            · exact hlt.le
            · exact hleast g hg
          rcases List.mem_cons.mp hy with rfl | hy
          · exact hg'
          · exact (hle least List.mem_cons_self y hy).trans hg'
        · rw [length_push, List.length_append, List.length_singleton]
          omega
      · rw [if_neg hlt]
        refine ⟨h.sorted, ⟨rest ++ [x], ?_, ?_⟩, ?_⟩
        · rw [← List.append_assoc]
          exact hperm.append_right [x]
        · intro g hg y hy
          rcases List.mem_append.mp hy with hy | hy
          · exact hle g hg y hy
          · rw [List.mem_singleton.mp hy]
            rcases List.mem_cons.mp hg with rfl | hg
            · exact not_lt.mp hlt
            · exact (not_lt.mp hlt).trans (hleast g hg)
        · rw [List.length_cons, List.length_append, List.length_singleton]
          omega

/-- An element below `k` others changes nothing. -/
theorem Keeps.beaten (h : Keeps k seen heap) (hx : k ≤ seen.countP (x < ·)) : Keeps k (seen ++ [x]) heap := by
  obtain ⟨rest, hperm, hle⟩ := h.split
  have hlength := h.length
  have hcount := seen.countP_le_length (p := (x < ·))
  have hlen : heap.length = k := by omega
  refine ⟨h.sorted, ⟨rest ++ [x], ?_, ?_⟩, ?_⟩
  · rw [← List.append_assoc]
    exact hperm.append_right [x]
  · intro g hg y hy
    rcases List.mem_append.mp hy with hy | hy
    · exact hle g hg y hy
    · rw [List.mem_singleton.mp hy]
      -- Otherwise the elements above `x` are in the heap, and `g` is not among them.
      by_contra hlt
      have hgx : g ≤ x := (not_le.mp hlt).le
      have hrest : rest.countP (x < ·) = 0 := by
        refine List.countP_eq_zero.mpr ?_
        intro z hz
        exact fun hxz => absurd ((hle g hg z hz).trans hgx) (not_le.mpr (of_decide_eq_true hxz))
      have hheap : heap.countP (x < ·) < heap.length := by
        refine lt_of_le_of_ne (List.countP_le_length) ?_
        intro heq
        exact absurd (of_decide_eq_true (List.countP_eq_length.mp heq g hg)) (not_lt.mpr hgx)
      rw [← hperm.countP_eq, List.countP_append, hrest] at hx
      omega
  · rw [List.length_append, List.length_singleton]
    omega

/-- Of what was seen, `k` elements are above one that is below the least of a full heap. -/
theorem Keeps.le_countP (h : Keeps k seen heap) (hfull : heap.length = k) {least : α} (hleast : heap.head? = some least)
    (hx : x < least) : k ≤ seen.countP (x < ·) := by
  obtain ⟨rest, hperm, -⟩ := h.split
  have hall : heap.countP (x < ·) = heap.length := by
    refine List.countP_eq_length.mpr ?_
    intro y hy
    cases heap with
    | nil => cases hy
    | cons z heap =>
      cases hleast
      rcases List.mem_cons.mp hy with rfl | hy
      · exact decide_eq_true hx
      · exact decide_eq_true (hx.trans_le ((List.pairwise_cons.mp h.sorted).1 y hy))
  rw [← hperm.countP_eq, List.countP_append, hall, hfull]
  exact Nat.le_add_right _ _

/-- The heap of all elements is that of those that are not below `k` others. -/
theorem Keeps.beaten_all (h : Keeps k seen heap) (lost : List α) (hlost : ∀ x ∈ lost, k ≤ seen.countP (x < ·)) :
    Keeps k (seen ++ lost) heap := by
  induction lost using List.reverseRecOn with
  | nil =>
    rw [List.append_nil]
    exact h
  | append_singleton lost x ih =>
    rw [← List.append_assoc]
    refine (ih fun y hy => hlost y (List.mem_append_left _ hy)).beaten ?_
    refine (hlost x (List.mem_append_right _ List.mem_cons_self)).trans ?_
    rw [List.countP_append]
    exact Nat.le_add_right _ _

/-- From the greatest on, the heap is the beginning of the sorted list of all elements. -/
theorem Keeps.eq_take (h : Keeps k seen heap) {sorted : List α} (hsorted : sorted.Pairwise (· ≥ ·)) (hperm : sorted.Perm seen)
    {hits : List α} (hhits : hits.Pairwise (· ≥ ·)) (hheap : hits.Perm heap) : hits = sorted.take k := by
  obtain ⟨rest, hsplit, hle⟩ := h.split
  have hrest := List.pairwise_insertionSort (· ≥ ·) rest
  have hrestPerm := List.perm_insertionSort (· ≥ ·) rest
  generalize rest.insertionSort (· ≥ ·) = rest' at hrest hrestPerm
  have hall : (hits ++ rest').Pairwise (· ≥ ·) := by
    refine List.pairwise_append.mpr ⟨hhits, hrest, ?_⟩
    intro g hg y hy
    exact hle g (hheap.mem_iff.mp hg) y (hrestPerm.mem_iff.mp hy)
  have heq : hits ++ rest' = sorted :=
    List.Perm.eq_of_pairwise' hall hsorted (((hheap.append hrestPerm).trans hsplit).trans hperm.symm)
  have hlength := h.length
  have hlen := hsplit.length_eq
  rw [List.length_append] at hlen
  rw [← heq, List.take_append]
  by_cases hk : k ≤ hits.length
  · have : hits.length = k := by
      have := hheap.length_eq
      omega
    rw [← this, List.take_length, Nat.sub_self, List.take_zero, List.append_nil]
  · have hnil : rest' = [] := List.eq_nil_of_length_eq_zero (by
      have := hheap.length_eq
      have := hrestPerm.length_eq
      omega)
    rw [hnil, List.take_nil, List.append_nil, List.take_of_length_le (Nat.le_of_not_le hk)]

theorem countP_lt {before after : List α} (h : (before ++ x :: after).Pairwise (· > ·)) :
    (before ++ x :: after).countP (x < ·) = before.length := by
  obtain ⟨-, hafter, hbefore⟩ := List.pairwise_append.mp h
  have hall : before.countP (x < ·) = before.length :=
    List.countP_eq_length.mpr fun y hy => decide_eq_true (hbefore y hy x List.mem_cons_self)
  have hnone : (x :: after).countP (x < ·) = 0 := by
    refine List.countP_eq_zero.mpr ?_
    intro y hy hxy
    rcases List.mem_cons.mp hy with rfl | hy
    · exact lt_irrefl y (of_decide_eq_true hxy)
    · exact lt_asymm (of_decide_eq_true hxy) ((List.pairwise_cons.mp hafter).1 y hy)
  rw [List.countP_append, hall, hnone, Nat.add_zero]

/-- The first elements of a descending list are those below fewer than `k` others. -/
theorem mem_take_iff {all : List α} (h : all.Pairwise (· > ·)) : x ∈ all.take k ↔ x ∈ all ∧ all.countP (x < ·) < k := by
  constructor
  · intro hx
    have hmem := List.mem_of_mem_take hx
    refine ⟨hmem, ?_⟩
    obtain ⟨before, after, rfl⟩ := List.append_of_mem hmem
    rw [countP_lt h]
    by_contra hk
    rw [List.take_append_of_le_length (not_lt.mp hk)] at hx
    exact lt_irrefl x ((List.pairwise_append.mp h).2.2 x (List.mem_of_mem_take hx) x List.mem_cons_self)
  · rintro ⟨hmem, hk⟩
    obtain ⟨before, after, rfl⟩ := List.append_of_mem hmem
    rw [countP_lt h] at hk
    obtain ⟨n, hn⟩ := Nat.exists_eq_add_of_lt hk
    rw [hn, Nat.add_assoc, List.take_length_add_append, List.take_succ_cons]
    exact List.mem_append_right _ List.mem_cons_self

end TopK
