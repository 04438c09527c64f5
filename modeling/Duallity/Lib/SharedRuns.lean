import Duallity.Lib.Scan
import Mathlib.Order.ConditionallyCompleteLattice.Basic
import Mathlib.Order.Lattice.Nat

/-! Runs over a store that several parties share. A party takes the store for one turn at a time, and others may take theirs in
    between; each turn may return results. -/

/-- Turns lead from a store to a store, and have returned `out`, the earliest first. -/
inductive Runs {ρ γ : Type*} (turn : ρ → List γ → ρ → Prop) : ρ → List γ → ρ → Prop
  | nil (r : ρ) : Runs turn r [] r
  | step {r r' r'' : ρ} {out new : List γ} : Runs turn r out r' → turn r' new r'' → Runs turn r (out ++ new) r''

namespace Runs
variable {ρ γ : Type*} {turn turn' : ρ → List γ → ρ → Prop} {r r' r'' : ρ} {out out' : List γ}

theorem single (h : turn r out r') : Runs turn r out r' := .step (.nil r) h

theorem trans (h : Runs turn r out r') (h' : Runs turn r' out' r'') : Runs turn r (out ++ out') r'' := by
  induction h' with
  | nil => rwa [List.append_nil]
  | step _ hturn ih =>
    rw [← List.append_assoc]
    exact ih.step hturn

theorem mono (himp : ∀ {r out r'}, turn r out r' → turn' r out r') (h : Runs turn r out r') : Runs turn' r out r' := by
  induction h with
  | nil => exact .nil _
  | step _ hturn ih => exact ih.step (himp hturn)

/-- A run whose turns are runs. -/
theorem bind (h : Runs turn r out r') (hturn : ∀ {r out r'}, turn r out r' → Runs turn' r out r') : Runs turn' r out r' := by
  induction h with
  | nil => exact .nil _
  | step _ hstep ih => exact ih.trans (hturn hstep)

/-- What every turn keeps, runs keep. -/
theorem keeps {P : ρ → Prop} (hturn : ∀ {r out r'}, turn r out r' → P r → P r') (h : Runs turn r out r') (hr : P r) : P r' := by
  induction h with
  | nil => exact hr
  | step _ hstep ih => exact hturn hstep ih

section Growth
variable [Preorder ρ]

theorem le (hle : ∀ {r out r'}, turn r out r' → r ≤ r') (h : Runs turn r out r') : r ≤ r' := by
  induction h with
  | nil => exact le_rfl
  | step _ hturn ih => exact ih.trans (hle hturn)

/-- What a turn establishes of its results, and no growth of the store loses, holds of all results of a run. -/
theorem forall_mem {P : ρ → γ → Prop} (hle : ∀ {r out r'}, turn r out r' → r ≤ r')
    (hmono : ∀ {r r' x}, r ≤ r' → P r x → P r' x) (hnew : ∀ {r out r'}, turn r out r' → ∀ x ∈ out, P r' x)
    (h : Runs turn r out r') : ∀ x ∈ out, P r' x := by
  induction h with
  | nil => exact nofun
  | step _ hturn ih =>
    refine List.forall_mem_append.mpr ⟨fun x hx => hmono (hle hturn) (ih x hx), hnew hturn⟩

/-- A scan whose elements take a turn each is a run. -/
theorem scan {ε : Type*} {f : ρ → ε → ρ × List γ} {es : List ε} (hf : ∀ r e, r ≤ (f r e).1)
    (hturn : ∀ r', r ≤ r' → ∀ e ∈ es, turn r' (f r' e).2 (f r' e).1) : Runs turn r (scan f r es).2 (scan f r es).1 := by
  induction es generalizing r with
  | nil => exact .nil r
  | cons e es ih =>
    refine (single (hturn r le_rfl e List.mem_cons_self)).trans (ih fun r' hle e' he => ?_)
    exact hturn r' ((hf r e).trans hle) e' (List.mem_cons_of_mem e he)

end Growth
end Runs
