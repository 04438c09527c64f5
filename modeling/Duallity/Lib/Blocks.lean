import Mathlib.Algebra.BigOperators.Group.List.Basic
import Mathlib.Algebra.GroupWithZero.Nat
import Mathlib.Data.List.Basic
import Mathlib.Algebra.Order.Monoid.Unbundled.Basic
import Mathlib.Data.Nat.Basic

/-! Blocks of cells behind each other, addressed by prefix sums: cell `pos` of block `i` stands at the sum of the lengths of
    the blocks before `i`, plus `pos`. -/

namespace Blocks
variable {lens : List Nat} {i pos n id : Nat}

/-- Where a block starts. -/
def start (lens : List Nat) (i : Nat) : Nat := (lens.take i).sum

/-- The cells of all blocks, each with its block and its position. -/
def cells (lens : List Nat) : List (Nat × Nat) :=
  (List.range lens.length).flatMap fun i => (List.range ((lens[i]?).getD 0)).map fun pos => (i, pos)

theorem start_succ (hn : lens[i]? = some n) : start lens (i + 1) = start lens i + n := by
  rw [start, List.take_add_one, hn, List.sum_append, start]
  simp

theorem start_length : start lens lens.length = lens.sum := by rw [start, List.take_length]

theorem start_mono {j : Nat} (h : i ≤ j) : start lens i ≤ start lens j := by
  have htake : lens.take j = lens.take i ++ (lens.take j).drop i := by
    conv_lhs => rw [← List.take_append_drop i (lens.take j), List.take_take, Nat.min_eq_left h]
  rw [start, start, htake, List.sum_append]
  exact Nat.le_add_right _ _

theorem start_add_le (hn : lens[i]? = some n) : start lens i + n ≤ lens.sum := by
  rw [← start_succ hn, ← start_length]
  exact start_mono (List.getElem?_eq_some_iff.mp hn).1

/-- The cells of the first `k` blocks. -/
theorem getElem?_prefix {k : Nat} (hk : k ≤ lens.length) {c : Nat × Nat} :
    ((List.range k).flatMap fun i => (List.range ((lens[i]?).getD 0)).map fun pos => (i, pos))[id]? = some c ↔
      ∃ n, c.1 < k ∧ lens[c.1]? = some n ∧ c.2 < n ∧ id = start lens c.1 + c.2 := by
  suffices h : ((List.range k).flatMap fun i => (List.range ((lens[i]?).getD 0)).map fun pos => (i, pos)).length = start lens k ∧
      (((List.range k).flatMap fun i => (List.range ((lens[i]?).getD 0)).map fun pos => (i, pos))[id]? = some c ↔
        ∃ n, c.1 < k ∧ lens[c.1]? = some n ∧ c.2 < n ∧ id = start lens c.1 + c.2) from h.2
  induction k with
  | zero => simp [start]
  | succ k ih =>
    obtain ⟨hlen, hget⟩ := ih (Nat.le_of_succ_le hk)
    have hn : lens[k]? = some lens[k] := List.getElem?_eq_getElem hk
    rw [List.range_succ, List.flatMap_append, List.flatMap_singleton, hn, Option.getD_some]
    refine ⟨?_, ?_⟩
    · rw [List.length_append, hlen, List.length_map, List.length_range, start_succ hn]
    · rw [List.getElem?_append, hlen]
      by_cases hlt : id < start lens k
      · rw [if_pos hlt, hget]
        refine ⟨?_, ?_⟩
        · intro ⟨n, hi, h⟩
          exact ⟨n, Nat.lt_succ_of_lt hi, h⟩
        · intro ⟨n, hi, hn', hpos, hid⟩
          rcases Nat.lt_succ_iff_lt_or_eq.mp hi with hi | hi
          · exact ⟨n, hi, hn', hpos, hid⟩
          · rw [hi] at hid
            exact absurd hlt (Nat.not_lt_of_le (hid ▸ Nat.le_add_right _ _))
      · rw [if_neg hlt, List.getElem?_map]
        refine ⟨?_, ?_⟩
        · intro h
          obtain ⟨pos, hpos, rfl⟩ := Option.map_eq_some_iff.mp h
          obtain ⟨hlt', rfl⟩ := List.getElem?_eq_some_iff.mp hpos
          rw [List.length_range] at hlt'
          rw [List.getElem_range]
          exact ⟨_, Nat.lt_succ_self k, hn, hlt', (Nat.add_sub_cancel' (Nat.le_of_not_lt hlt)).symm⟩
        · intro ⟨n, hi, hn', hpos, hid⟩
          rcases Nat.lt_succ_iff_lt_or_eq.mp hi with hi | hi
          · have hmono : start lens (c.1 + 1) ≤ start lens k := start_mono hi
            rw [start_succ hn'] at hmono
            omega
          · obtain ⟨i, pos⟩ := c
            subst hi
            cases hn.symm.trans hn'
            rw [hid, Nat.add_sub_cancel_left, List.getElem?_range hpos]
            rfl

theorem getElem?_cells {c : Nat × Nat} :
    (cells lens)[id]? = some c ↔ ∃ n, lens[c.1]? = some n ∧ c.2 < n ∧ id = start lens c.1 + c.2 := by
  rw [cells, getElem?_prefix (Nat.le_refl _)]
  refine ⟨?_, ?_⟩
  · intro ⟨n, _, h⟩
    exact ⟨n, h⟩
  · intro ⟨n, hn, h⟩
    exact ⟨n, (List.getElem?_eq_some_iff.mp hn).1, hn, h⟩

theorem length_cells : (cells lens).length = lens.sum := by
  simp only [cells, List.length_flatMap, List.length_map, List.length_range]
  congr 1
  refine List.ext_getElem? ?_
  intro i
  by_cases hi : i < lens.length
  · rw [List.getElem?_map, List.getElem?_range hi, Option.map_some, List.getElem?_eq_getElem hi]
    rfl
  · rw [List.getElem?_map, List.getElem?_eq_none (by rw [List.length_range]; exact Nat.le_of_not_lt hi),
      List.getElem?_eq_none (Nat.le_of_not_lt hi), Option.map_none]

/-- The cells of one more block stand behind the others. -/
theorem cells_snoc : cells (lens ++ [n]) = cells lens ++ (List.range n).map fun pos => (lens.length, pos) := by
  rw [cells, List.length_append, List.length_singleton, List.range_succ, List.flatMap_append, List.flatMap_singleton]
  congr 1
  · rw [cells]
    refine List.flatMap_congr ?_
    intro i hi
    rw [List.getElem?_append_left (List.mem_range.mp hi)]
  · simp

end Blocks
