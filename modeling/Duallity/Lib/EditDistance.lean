import Duallity.Lib.Alignment
import Mathlib.Order.Lattice.Nat

/-! Edit distance with the operations of Levenshtein, and optionally transpositions of two adjacent
    symbols, merges of two symbols into one and splits of one symbol into two. Every operation but the
    match costs 1. -/

namespace EditDistance
open Alignment
variable {α : Type*}

inductive EditOp (transposition mergeSplit : Prop) : List α → List α → Nat → Prop
  | keep (a : α) : EditOp transposition mergeSplit [a] [a] 0
  | replace {a b : α} : a ≠ b → EditOp transposition mergeSplit [a] [b] 1
  | insert (b : α) : EditOp transposition mergeSplit [] [b] 1
  | delete (a : α) : EditOp transposition mergeSplit [a] [] 1
  | swap {a b : α} : transposition → a ≠ b → EditOp transposition mergeSplit [a, b] [b, a] 1
  | merge (a b c : α) : mergeSplit → EditOp transposition mergeSplit [a, b] [c] 1
  | split (a b c : α) : mergeSplit → EditOp transposition mergeSplit [a] [b, c] 1

/-- The least total cost of operations that turn `x` into `y`. -/
noncomputable def editCost (transposition mergeSplit : Prop) (x y : List α) : Nat :=
  sInf {c | Align (EditOp transposition mergeSplit) x y c}

section EditCost
variable {transposition mergeSplit : Prop} {x y : List α} {c : Nat}

theorem align_delete (x : List α) : Align (EditOp transposition mergeSplit) x [] x.length := by
  induction x with
  | nil => exact .nil
  | cons a x ih =>
    rw [List.length_cons, Nat.add_comm]
    exact .cons (.delete a) ih

theorem align_insert (y : List α) : Align (EditOp transposition mergeSplit) [] y y.length := by
  induction y with
  | nil => exact .nil
  | cons b y ih =>
    rw [List.length_cons, Nat.add_comm]
    exact .cons (.insert b) ih

theorem isLeast_editCost : LeastCost (EditOp transposition mergeSplit) x y (editCost transposition mergeSplit x y) := by
  have hne : {c | Align (EditOp transposition mergeSplit) x y c}.Nonempty :=
    ⟨x.length + y.length, by simpa using (align_delete x).append (align_insert y)⟩
  exact ⟨Nat.sInf_mem hne, fun c hc => Nat.sInf_le hc⟩

theorem align_editCost : Align (EditOp transposition mergeSplit) x y (editCost transposition mergeSplit x y) :=
  isLeast_editCost.1

theorem editCost_le (h : Align (EditOp transposition mergeSplit) x y c) : editCost transposition mergeSplit x y ≤ c :=
  isLeast_editCost.2 h

/-- Only equal sequences align at no cost. -/
theorem eq_of_align_zero (h : Align (EditOp transposition mergeSplit) x y c) (hc : c = 0) : x = y := by
  induction h with
  | nil => rfl
  | cons hop _ ih =>
    rw [ih (Nat.eq_zero_of_add_eq_zero_left hc)]
    cases hop with
    | keep a => rfl
    | _ => exact absurd (Nat.eq_zero_of_add_eq_zero_right hc) Nat.one_ne_zero

end EditCost

/-! ### The Levenshtein distance -/

variable [DecidableEq α]

/-- The Levenshtein distance by its recurrence. -/
def levenshtein : List α → List α → Nat
  | [], y => y.length
  | x, [] => x.length
  | a :: x, b :: y =>
    min (levenshtein x (b :: y) + 1) (min (levenshtein (a :: x) y + 1) (levenshtein x y + if a = b then 0 else 1))
termination_by x y => x.length + y.length

theorem levenshtein_nil_left (y : List α) : levenshtein [] y = y.length := by simp [levenshtein]

theorem levenshtein_nil_right (x : List α) : levenshtein x [] = x.length := by
  cases x <;> simp [levenshtein]

theorem levenshtein_cons_cons (a b : α) (x y : List α) : levenshtein (a :: x) (b :: y) =
    min (levenshtein x (b :: y) + 1) (min (levenshtein (a :: x) y + 1) (levenshtein x y + if a = b then 0 else 1)) := by
  rw [levenshtein]

theorem levenshtein_cons_left_le (a : α) (x y : List α) : levenshtein (a :: x) y ≤ levenshtein x y + 1 := by
  cases y with
  | nil => simp [levenshtein_nil_right]
  | cons b y =>
    rw [levenshtein_cons_cons]
    exact min_le_left _ _

theorem levenshtein_cons_right_le (b : α) (x y : List α) : levenshtein x (b :: y) ≤ levenshtein x y + 1 := by
  cases x with
  | nil => simp [levenshtein_nil_left]
  | cons a x =>
    rw [levenshtein_cons_cons]
    exact (min_le_right _ _).trans (min_le_left _ _)

/-- The recurrence finds an alignment of its cost. -/
theorem align_levenshtein (x y : List α) : Align (EditOp False False) x y (levenshtein x y) := by
  induction x, y using levenshtein.induct with
  | case1 y =>
    rw [levenshtein_nil_left]
    exact align_insert y
  | case2 x =>
    rw [levenshtein_nil_right]
    exact align_delete x
  | case3 a x b y ihDelete ihInsert ihReplace =>
    rw [levenshtein_cons_cons]
    rcases min_choice (levenshtein x (b :: y) + 1)
      (min (levenshtein (a :: x) y + 1) (levenshtein x y + if a = b then 0 else 1)) with h | h
    · rw [h, Nat.add_comm]
      exact .cons (.delete a) ihDelete
    · rw [h]
      rcases min_choice (levenshtein (a :: x) y + 1) (levenshtein x y + if a = b then 0 else 1) with h | h
      · rw [h, Nat.add_comm]
        exact .cons (.insert b) ihInsert
      · rw [h, Nat.add_comm]
        split
        · rename_i hab
          subst hab
          exact .cons (.keep a) ihReplace
        · rename_i hab
          exact .cons (.replace hab) ihReplace

/-- No alignment is cheaper than the recurrence. -/
theorem levenshtein_le {x y : List α} {c : Nat} (h : Align (EditOp False False) x y c) : levenshtein x y ≤ c := by
  induction h with
  | nil => simp [levenshtein_nil_left]
  | @cons u x v y c d hop _ ih =>
    cases hop with
    | keep a =>
      have := levenshtein_cons_cons a a x y
      simp only [if_true] at this
      simp only [List.singleton_append]
      omega
    | @replace a b hab =>
      have := levenshtein_cons_cons a b x y
      rw [if_neg hab] at this
      simp only [List.singleton_append]
      omega
    | insert b =>
      have := levenshtein_cons_right_le b x y
      simp only [List.singleton_append, List.nil_append]
      omega
    | delete a =>
      have := levenshtein_cons_left_le a x y
      simp only [List.singleton_append, List.nil_append]
      omega
    | swap h => exact h.elim
    | merge _ _ _ h => exact h.elim
    | split _ _ _ h => exact h.elim

/-- Without the extra operations the edit cost is the Levenshtein distance. -/
theorem editCost_eq_levenshtein (x y : List α) : editCost False False x y = levenshtein x y :=
  le_antisymm (editCost_le (align_levenshtein x y)) (levenshtein_le align_editCost)

end EditDistance
