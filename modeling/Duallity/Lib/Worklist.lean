import Mathlib.Logic.Relation
import Mathlib.Data.List.Nodup
import Mathlib.Data.Nat.Basic

/-! What a relation reaches, by a depth-first worklist: the targets of each element are added once, and each element added is
    looked at later. -/

namespace Worklist
variable {α : Type*} [DecidableEq α]

/-- Add those targets that are new, and put them on the stack. -/
def visit : List α → List α × List α → List α × List α
  | [], s => s
  | x :: targets, (seen, stack) => visit targets (if x ∈ seen then (seen, stack) else (seen ++ [x], x :: stack))

/-- The loop; it ends when the stack does, or the fuel. -/
def run (next : α → List α) : Nat → List α × List α → List α
  | 0, (seen, _) => seen
  | _ + 1, (seen, []) => seen
  | fuel + 1, (seen, x :: stack) => run next fuel (visit (next x) (seen, stack))

/-- The closure of a list, where at most `bound` elements can be added. -/
def closure (next : α → List α) (bound : Nat) (start : List α) : List α :=
  run next (start.length + bound) (start, start.reverse)

/-- Each element that was seen comes from the start, and its targets were seen, unless it is still on the stack. -/
structure Inv (next : α → List α) (start seen stack : List α) : Prop where
  starts : start ⊆ seen
  pending : stack ⊆ seen
  sound : ∀ x ∈ seen, ∃ a ∈ start, Relation.ReflTransGen (fun x y => y ∈ next x) a x
  closed : ∀ x ∈ seen, x ∈ stack ∨ next x ⊆ seen

variable {next : α → List α} {start seen stack targets : List α} {x : α}

omit [DecidableEq α] in
theorem inv_start : Inv next start start start.reverse where
  starts := List.Subset.refl _
  pending _ := List.mem_reverse.mp
  sound x hx := ⟨x, hx, .refl⟩
  closed _ hx := .inl (List.mem_reverse.mpr hx)

theorem visit_spec (targets : List α) (s : List α × List α) :
    s.1 ⊆ (visit targets s).1 ∧ s.2 ⊆ (visit targets s).2 ∧ targets ⊆ (visit targets s).1 ∧
      (∀ x ∈ (visit targets s).1, x ∈ s.1 ∨ x ∈ targets ∧ x ∈ (visit targets s).2) ∧
      ∀ x ∈ (visit targets s).2, x ∈ s.2 ∨ x ∈ (visit targets s).1 := by
  induction targets generalizing s with
  | nil => exact ⟨List.Subset.refl _, List.Subset.refl _, List.nil_subset _, fun x hx => .inl hx, fun x hx => .inl hx⟩
  | cons y targets ih =>
    obtain ⟨seen, stack⟩ := s
    rw [visit]
    split
    · rename_i hy
      obtain ⟨h1, h2, h3, h4, h5⟩ := ih (seen, stack)
      refine ⟨h1, h2, List.cons_subset.mpr ⟨h1 hy, h3⟩, ?_, h5⟩
      intro x hx
      exact (h4 x hx).imp_right fun h => ⟨List.mem_cons_of_mem _ h.1, h.2⟩
    · obtain ⟨h1, h2, h3, h4, h5⟩ := ih (seen ++ [y], y :: stack)
      have hy : y ∈ (visit targets (seen ++ [y], y :: stack)).1 := h1 (List.mem_append_right _ List.mem_cons_self)
      refine ⟨fun x hx => h1 (List.mem_append_left _ hx), fun x hx => h2 (List.mem_cons_of_mem _ hx),
        List.cons_subset.mpr ⟨hy, h3⟩, ?_, ?_⟩
      · intro x hx
        rcases h4 x hx with hx | ⟨hx, hstack⟩
        · rcases List.mem_append.mp hx with hx | hx
          · exact .inl hx
          · cases List.mem_singleton.mp hx
            exact .inr ⟨List.mem_cons_self, h2 List.mem_cons_self⟩
        · exact .inr ⟨List.mem_cons_of_mem _ hx, hstack⟩
      · intro x hx
        rcases h5 x hx with hx | hx
        · rcases List.mem_cons.mp hx with rfl | hx
          · exact .inr hy
          · exact .inl hx
        · exact .inr hx

theorem Inv.step (h : Inv next start seen (x :: stack)) :
    Inv next start (visit (next x) (seen, stack)).1 (visit (next x) (seen, stack)).2 := by
  obtain ⟨hseen, hstack, htargets, hnew, hpushed⟩ := visit_spec (next x) (seen, stack)
  have hx : x ∈ seen := h.pending List.mem_cons_self
  refine ⟨fun y hy => hseen (h.starts hy), ?_, ?_, ?_⟩
  · intro y hy
    rcases hpushed y hy with hy | hy
    · exact hseen (h.pending (List.mem_cons_of_mem _ hy))
    · exact hy
  · intro y hy
    rcases hnew y hy with hy | ⟨hy, -⟩
    · exact h.sound y hy
    · obtain ⟨a, ha, hreach⟩ := h.sound x hx
      exact ⟨a, ha, hreach.tail hy⟩
  · intro y hy
    rcases hnew y hy with hy | ⟨-, hy⟩
    · rcases h.closed y hy with hy | hy
      · rcases List.mem_cons.mp hy with rfl | hy
        · exact .inr htargets
        · exact .inl (hstack hy)
      · exact .inr fun z hz => hseen (hy hz)
    · exact .inl hy

omit [DecidableEq α] in
/-- With an empty stack, what was seen is what the start reaches. -/
theorem Inv.mem_iff (h : Inv next start seen []) :
    x ∈ seen ↔ ∃ a ∈ start, Relation.ReflTransGen (fun x y => y ∈ next x) a x := by
  refine ⟨h.sound x, ?_⟩
  rintro ⟨a, ha, hreach⟩
  induction hreach with
  | refl => exact h.starts ha
  | tail _ hstep ih =>
    rcases h.closed _ ih with hmem | hsub
    · cases hmem
    · exact hsub hstep

/-! ### Distinct elements -/

theorem nodup_visit (targets : List α) (s : List α × List α) (h : s.1.Nodup) : (visit targets s).1.Nodup := by
  induction targets generalizing s with
  | nil => exact h
  | cons x targets ih =>
    obtain ⟨seen, stack⟩ := s
    rw [visit]
    split
    · exact ih _ h
    · rename_i hx
      refine ih _ (List.nodup_append.mpr ⟨h, List.nodup_singleton x, ?_⟩)
      intro y hy z hz heq
      rw [heq, List.mem_singleton.mp hz] at hy
      exact hx hy

theorem nodup_run (fuel : Nat) (s : List α × List α) (h : s.1.Nodup) : (run next fuel s).Nodup := by
  induction fuel generalizing s with
  | zero => exact h
  | succ fuel ih =>
    obtain ⟨seen, stack⟩ := s
    cases stack with
    | nil => exact h
    | cons x stack => exact ih _ (nodup_visit _ _ h)

theorem nodup_closure {bound : Nat} (h : start.Nodup) : (closure next bound start).Nodup := nodup_run _ _ h

/-! ### Fuel -/

section Fuel
variable (all : List α)

/-- The elements that have not been seen yet. -/
def fresh (seen : List α) : List α := all.filter fun x => x ∉ seen

theorem length_fresh_lt (hx : x ∈ all) (hnew : x ∉ seen) : (fresh all (seen ++ [x])).length < (fresh all seen).length := by
  have hfilter : fresh all (seen ++ [x]) = (fresh all seen).filter fun y => y ≠ x := by
    unfold fresh
    rw [List.filter_filter]
    refine List.filter_congr fun y _ => ?_
    simp [not_or, and_comm]
  rw [hfilter, List.length_filter_lt_length_iff_exists]
  exact ⟨x, List.mem_filter.mpr ⟨hx, by simp [hnew]⟩, by simp⟩

theorem visit_fuel (htargets : targets ⊆ all) (s : List α × List α) :
    (visit targets s).2.length + (fresh all (visit targets s).1).length ≤ s.2.length + (fresh all s.1).length := by
  induction targets generalizing s with
  | nil => exact le_rfl
  | cons y targets ih =>
    obtain ⟨seen, stack⟩ := s
    obtain ⟨hy, htargets⟩ := List.cons_subset.mp htargets
    rw [visit]
    split
    · exact ih htargets _
    · rename_i hnew
      have hlt := length_fresh_lt all hy hnew
      have hle := ih htargets (seen ++ [y], y :: stack)
      dsimp only [List.length_cons] at hle ⊢
      omega

theorem run_spec (hnext : ∀ x, next x ⊆ all) (fuel : Nat) (h : Inv next start seen stack)
    (hfuel : stack.length + (fresh all seen).length ≤ fuel) :
    x ∈ run next fuel (seen, stack) ↔ ∃ a ∈ start, Relation.ReflTransGen (fun x y => y ∈ next x) a x := by
  induction fuel generalizing seen stack with
  | zero =>
    cases List.eq_nil_of_length_eq_zero (by omega : stack.length = 0)
    exact h.mem_iff
  | succ fuel ih =>
    cases stack with
    | nil => exact h.mem_iff
    | cons y stack =>
      rw [List.length_cons] at hfuel
      have hle := visit_fuel all (hnext y) (seen, stack)
      exact ih h.step (by dsimp only at hle; omega)

end Fuel

/-- The closure is what the start reaches. -/
theorem mem_closure (all : List α) (hnext : ∀ x, next x ⊆ all) :
    x ∈ closure next all.length start ↔ ∃ a ∈ start, Relation.ReflTransGen (fun x y => y ∈ next x) a x := by
  refine run_spec all hnext _ inv_start ?_
  rw [List.length_reverse]
  exact Nat.add_le_add_left (List.length_filter_le _ _) _

end Worklist
