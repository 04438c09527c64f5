import Mathlib.Algebra.Group.Basic
import Mathlib.Data.Finite.Prod
import Mathlib.Data.Set.Finite.Lemmas
import Mathlib.Order.Bounds.Defs

/-! Alignments: two sequences are cut into the same number of consecutive segments, each pair of
    segments is consumed by one operation, and the costs of the operations add up. -/

namespace Alignment
variable {α β ω : Type*} [AddMonoid ω]

/-- `Align op x y c`: `x` and `y` align by operations of total cost `c`; `op u v d` says that one operation
    consumes the segments `u` and `v` at cost `d`. -/
inductive Align (op : List α → List β → ω → Prop) : List α → List β → ω → Prop
  | nil : Align op [] [] 0
  | cons {u x : List α} {v y : List β} {c d : ω} :
      op u v c → Align op x y d → Align op (u ++ x) (v ++ y) (c + d)

/-- `c` is the least cost of an alignment of `x` and `y`. -/
def LeastCost [LE ω] (op : List α → List β → ω → Prop) (x : List α) (y : List β) (c : ω) : Prop :=
  IsLeast {d | Align op x y d} c

namespace Align
variable {op : List α → List β → ω → Prop} {x x' u : List α} {y y' v : List β} {c d : ω}

theorem single (h : op u v c) : Align op u v c := by simpa using Align.cons h .nil

theorem append (h : Align op x y c) (h' : Align op x' y' d) : Align op (x ++ x') (y ++ y') (c + d) := by
  induction h with
  | nil => simpa using h'
  | cons ho _ ih =>
    rw [List.append_assoc, List.append_assoc, add_assoc]
    exact .cons ho ih

theorem snoc (h : Align op x y c) (ho : op u v d) : Align op (x ++ u) (y ++ v) (c + d) := h.append (.single ho)

end Align

section Finite
variable {op : List α → List β → ω → Prop} {costs : Set ω}

/-- When every operation consumes something, sequences of bounded length have finitely many costs. -/
theorem finite_costs (hcosts : costs.Finite) (hop : ∀ {u v c}, op u v c → c ∈ costs ∧ 0 < u.length + v.length) (n : Nat) :
    {c | ∃ x y, x.length + y.length ≤ n ∧ Align op x y c}.Finite := by
  induction n with
  | zero =>
    refine (Set.finite_singleton 0).subset ?_
    intro c ⟨x, y, hlen, h⟩
    cases h with
    | nil => rfl
    | cons ho _ =>
      have hpos := (hop ho).2
      rw [List.length_append, List.length_append] at hlen
      omega
  | succ n ih =>
    refine ((Set.finite_singleton 0).union (hcosts.image2 (· + ·) ih)).subset ?_
    intro c ⟨x, y, hlen, h⟩
    cases h with
    | nil => exact Or.inl rfl
    | cons ho h =>
      obtain ⟨hc, hpos⟩ := hop ho
      rw [List.length_append, List.length_append] at hlen
      exact Or.inr ⟨_, hc, _, ⟨_, _, by omega, h⟩, rfl⟩

theorem exists_leastCost [LinearOrder ω] (hcosts : costs.Finite)
    (hop : ∀ {u v c}, op u v c → c ∈ costs ∧ 0 < u.length + v.length) {x : List α} {y : List β}
    (h : ∃ c, Align op x y c) : ∃ c, LeastCost op x y c := by
  have hfinite : {c | Align op x y c}.Finite := by
    refine (finite_costs hcosts hop (x.length + y.length)).subset ?_
    intro c hc
    exact ⟨x, y, le_rfl, hc⟩
  obtain ⟨c, hc, hle⟩ := Set.exists_min_image _ id hfinite h
  exact ⟨c, hc, hle⟩

end Finite
end Alignment
