import Duallity.Fzf.Score
import Mathlib.Order.Bounds.Basic
import Mathlib.Tactic.Linarith

/-! The upper bound of a column. One more character never adds to what a column can come to, so the bound of a prefix is at
    least the score of each candidate that starts with it. -/

namespace Duallity.FzfCore
variable {core : FzfCore} {p : List Char} {c : Char} {i remaining : Nat} {cell : Cell} {v : Int}

/-! ### Maxima -/

/-- The greatest value with a property, if there is a value. -/
structure Tops (bound : Option Int) (P : Int → Prop) : Prop where
  of_none : bound = none → ∀ v, ¬P v
  attained : ∀ b, bound = some b → P b
  le : ∀ b, bound = some b → ∀ v, P v → v ≤ b

theorem tops_eq_some (bound : Option Int) : Tops bound fun v => bound = some v := by
  refine ⟨?_, fun _ h => h, ?_⟩
  · rintro rfl v hv
    cases hv
  · rintro b rfl v hv
    exact (Option.some.inj hv).ge

theorem Tops.raise {bound : Option Int} {P : Int → Prop} (h : Tops bound P) (v : Int) :
    Tops (raiseBound bound v) fun u => P u ∨ u = v := by
  cases bound with
  | none =>
    refine ⟨nofun, ?_, ?_⟩
    · intro b hb
      exact Or.inr (Option.some.inj hb).symm
    · rintro b hb u (hu | rfl)
      · exact absurd hu (h.of_none rfl u)
      · exact (Option.some.inj hb).le
  | some w =>
    refine ⟨nofun, ?_, ?_⟩
    · intro b hb
      have hb : max w v = b := Option.some.inj hb
      rcases max_choice w v with heq | heq
      · exact Or.inl (hb ▸ heq.symm ▸ h.attained w rfl)
      · exact Or.inr (hb ▸ heq)
    · intro b hb u hu
      rw [← Option.some.inj hb]
      rcases hu with hu | rfl
      · exact (h.le w rfl u hu).trans (le_max_left _ _)
      · exact le_max_right _ _

theorem Tops.congr {bound : Option Int} {P Q : Int → Prop} (h : Tops bound P) (heq : ∀ v, P v ↔ Q v) : Tops bound Q := by
  rw [← funext fun v => propext (heq v)]
  exact h

theorem Tops.foldl {γ : Type} {p : γ → Prop} [DecidablePred p] {f : γ → Int} (xs : List γ) {bound : Option Int} {P : Int → Prop}
    (h : Tops bound P) : Tops (xs.foldl (fun bound x => if p x then raiseBound bound (f x) else bound) bound)
      fun u => P u ∨ ∃ x ∈ xs, p x ∧ f x = u := by
  induction xs generalizing bound P with
  | nil => exact h.congr fun v => by simp
  | cons x xs ih =>
    rw [List.foldl_cons]
    by_cases hx : p x
    · rw [if_pos hx]
      refine (ih (h.raise (f x))).congr ?_
      intro v
      simp only [List.mem_cons, exists_eq_or_imp, or_assoc, and_iff_right hx, eq_comm (a := v)]
    · rw [if_neg hx]
      refine (ih h).congr ?_
      intro v
      simp only [List.mem_cons, exists_eq_or_imp, hx, false_and, false_or]

/-! ### Potentials -/

/-- The characters that still fit behind a prefix. -/
def available (core : FzfCore) (column : FzfColumn) : Nat := core.config.maxCandidateChars - column.depth

/-- What a candidate can come to behind a column: the best score so far, a cell that still has room, or a new start. -/
inductive Potential (core : FzfCore) (column : FzfColumn) : Int → Prop
  | best {v : Int} : column.bestFullScore = some v → Potential core column v
  | cell {i : Nat} : i < column.cells.length → (column.cell i).reachable = true →
      core.query.length - (i + 1) ≤ core.available column →
      Potential core column (core.optimistic (column.cell i) (core.query.length - (i + 1)))
  | unstarted : core.query.length ≤ core.available column → Potential core column core.maximumScore

theorem tops_upperBound (column : FzfColumn) : Tops (core.upperBound column) (core.Potential column) := by
  have hfold := Tops.foldl (p := fun e : Cell × Nat => e.1.reachable ∧ core.query.length - (e.2 + 1) ≤ core.available column)
    (f := fun e => core.optimistic e.1 (core.query.length - (e.2 + 1))) column.cells.zipIdx (tops_eq_some column.bestFullScore)
  have hcell : ∀ v, (∃ e ∈ column.cells.zipIdx, ((e.1.reachable = true ∧ core.query.length - (e.2 + 1) ≤ core.available column) ∧
      core.optimistic e.1 (core.query.length - (e.2 + 1)) = v)) ↔ ∃ i < column.cells.length, (column.cell i).reachable = true ∧
        core.query.length - (i + 1) ≤ core.available column ∧
        core.optimistic (column.cell i) (core.query.length - (i + 1)) = v := by
    intro v
    refine ⟨?_, ?_⟩
    · rintro ⟨⟨cell, i⟩, hmem, ⟨hreachable, hroom⟩, hv⟩
      have hget := List.mk_mem_zipIdx_iff_getElem?.mp hmem
      have hcell : column.cell i = cell := by rw [FzfColumn.cell, hget]; rfl
      exact ⟨i, (List.getElem?_eq_some_iff.mp hget).1, hcell.symm ▸ hreachable, hroom, hcell.symm ▸ hv⟩
    · rintro ⟨i, hi, hreachable, hroom, hv⟩
      have hget : column.cells[i]? = some (column.cell i) := by
        rw [FzfColumn.cell, List.getElem?_eq_getElem hi]
        rfl
      exact ⟨(column.cell i, i), List.mk_mem_zipIdx_iff_getElem?.mpr hget, ⟨hreachable, hroom⟩, hv⟩
  unfold upperBound
  dsimp only
  split
  · rename_i hroom
    refine (hfold.raise core.maximumScore).congr ?_
    intro v
    rw [hcell]
    refine ⟨?_, ?_⟩
    · rintro ((hv | ⟨i, hi, hreachable, hroom, rfl⟩) | rfl)
      · exact .best hv
      · exact .cell hi hreachable hroom
      · exact .unstarted hroom
    · intro hv
      cases hv with
      | best hv => exact Or.inl (Or.inl hv)
      | cell hi hreachable hroom => exact Or.inl (Or.inr ⟨_, hi, hreachable, hroom, rfl⟩)
      | unstarted => exact Or.inr rfl
  · rename_i hroom
    refine hfold.congr ?_
    intro v
    rw [hcell]
    refine ⟨?_, ?_⟩
    · rintro (hv | ⟨i, hi, hreachable, hroom, rfl⟩)
      · exact .best hv
      · exact .cell hi hreachable hroom
    · intro hv
      cases hv with
      | best hv => exact Or.inl hv
      | cell hi hreachable hroom => exact Or.inr ⟨_, hi, hreachable, hroom, rfl⟩
      | unstarted hroom' => exact absurd hroom' hroom

/-! ### Optimistic scores -/

theorem WellFormed.saturating_mul (h : core.WellFormed) (remaining : Nat) :
    saturatingI32 (min (remaining : Int) i32Max * saturatingI32 (scoreMatch + core.maxBonus)) =
      min (remaining * (16 + core.maxBonus)) i32Max := by
  obtain ⟨hge, hle⟩ := h.maxBonus_bounds
  have hmatch : saturatingI32 (scoreMatch + core.maxBonus) = 16 + core.maxBonus := by
    unfold saturatingI32 i32Min i32Max scoreMatch
    omega
  have hnonneg : 0 ≤ min (remaining : Int) i32Max := le_min (Int.natCast_nonneg _) (by decide)
  rw [hmatch, saturatingI32_of_nonneg (Int.mul_nonneg hnonneg (by omega))]
  by_cases hsmall : (remaining : Int) ≤ i32Max
  · rw [min_eq_left hsmall]
  · -- Both products are beyond the type.
    have hbig := le_of_lt (not_le.mp hsmall)
    have hscale : ∀ n : Int, i32Max ≤ n → i32Max ≤ n * (16 + core.maxBonus) := by
      intro n hn
      have h0 : (0 : Int) ≤ i32Max := by decide
      nlinarith
    rw [min_eq_right hbig, min_eq_right (hscale _ le_rfl), min_eq_right (hscale _ hbig)]

theorem WellFormed.optimistic_eq (h : core.WellFormed) (hcell : core.CellBounds cell) (remaining : Nat) :
    core.optimistic cell remaining = min (cell.score + remaining * (16 + core.maxBonus)) i32Max := by
  obtain ⟨hge, hle⟩ := h.maxBonus_bounds
  have hscore := hcell.score_nonneg
  have hrest : 0 ≤ (remaining : Int) * (16 + core.maxBonus) := Int.mul_nonneg (Int.natCast_nonneg _) (by omega)
  rw [optimistic, h.saturating_mul]
  unfold saturatingI32 i32Min i32Max
  omega

theorem WellFormed.maximumScore_eq (h : core.WellFormed) (hquery : core.query.length = remaining + 1) :
    core.maximumScore = min (16 + 2 * core.maxBonus + remaining * (16 + core.maxBonus)) i32Max := by
  obtain ⟨hge, hle⟩ := h.maxBonus_bounds
  have hrest : 0 ≤ (remaining : Int) * (16 + core.maxBonus) := Int.mul_nonneg (Int.natCast_nonneg _) (by omega)
  have hmul := h.saturating_mul remaining
  unfold maximumScore
  rw [hquery]
  dsimp only
  rw [hmul]
  unfold saturatingI32 i32Min i32Max scoreMatch bonusFirstCharMultiplier
  omega

theorem gapScore_le_score (hcell : 0 ≤ cell.score) (h : gapScore cell = some v) : v ≤ cell.score := by
  obtain ⟨-, h⟩ := Option.ite_none_right_eq_some.mp h
  rw [← Option.some.inj h]
  unfold saturatingI32 i32Min i32Max scoreGapExtension scoreGapStart
  split
  · omega
  · omega

/-- A match adds at most the score of a match and the bonus of the scheme. -/
theorem matchedCell_score_le (h : core.WellFormed) {bonus : Int} (hbonus : 0 ≤ bonus ∧ bonus ≤ core.maxBonus)
    (hcell : core.CellBounds cell) : (matchedCell bonus cell).2.2 ≤ cell.score + (16 + core.maxBonus) := by
  have happlied : ∀ applied : Int, 0 ≤ applied → applied ≤ core.maxBonus →
      saturatingI32 (saturatingI32 (cell.score + scoreMatch) + applied) ≤ cell.score + (16 + core.maxBonus) := by
    intro applied hnonneg hle
    have hscore := hcell.score_nonneg
    unfold saturatingI32 i32Min i32Max scoreMatch
    omega
  unfold matchedCell
  dsimp only
  split
  · split
    · exact happlied bonus hbonus.1 hbonus.2
    · refine happlied _ (le_max_of_le_left (le_max_of_le_left hbonus.1)) (max_le (max_le hbonus.2 ?_) hcell.firstBonus_le)
      exact (h.of_le_eight (by decide)).2
  · exact happlied bonus hbonus.1 hbonus.2

/-- The score of a joined cell is that of the match or of the gap, or 0. -/
theorem joinCell_score_le {gap : Option Int} {matched : Option (Nat × Int × Int)} (h : (joinCell gap matched).reachable = true) :
    (∃ score, gap = some score ∧ (joinCell gap matched).score ≤ max score 0) ∨
      ∃ m, matched = some m ∧ (joinCell gap matched).score ≤ max m.2.2 0 := by
  have hmin : i32Min / 4 ≤ 0 := by decide
  cases gap with
  | none =>
    cases matched with
    | none => cases h
    | some m => exact Or.inr ⟨m, rfl, max_le (max_le (le_max_left _ _) (hmin.trans (le_max_right _ _))) (le_max_right _ _)⟩
  | some score =>
    cases matched with
    | none => exact Or.inl ⟨score, rfl, max_le (max_le (hmin.trans (le_max_right _ _)) (le_max_left _ _)) (le_max_right _ _)⟩
    | some m =>
      rcases le_total m.2.2 score with hle | hle
      · exact Or.inl ⟨score, rfl, max_le_max (max_le hle le_rfl) le_rfl⟩
      · exact Or.inr ⟨m, rfl, max_le_max (max_le le_rfl hle) le_rfl⟩

/-! ### One more character -/

theorem WellFormed.le_optimistic (h : core.WellFormed) (hcell : core.CellBounds cell) (hv : v ≤ i32Max) {rest : Int}
    (hle : v ≤ cell.score + rest) (hrest : rest ≤ remaining * (16 + core.maxBonus)) : v ≤ core.optimistic cell remaining := by
  rw [h.optimistic_eq hcell]
  exact le_min (hle.trans (add_le_add le_rfl hrest)) hv

/-- A lower score, or a match less, does not come to more. -/
theorem WellFormed.optimistic_le_optimistic (h : core.WellFormed) {cell' : Cell} {remaining' : Nat}
    (hcell : core.CellBounds cell) (hcell' : core.CellBounds cell')
    (hle : cell.score + remaining * (16 + core.maxBonus) ≤ cell'.score + remaining' * (16 + core.maxBonus)) :
    core.optimistic cell remaining ≤ core.optimistic cell' remaining' := by
  rw [h.optimistic_eq hcell, h.optimistic_eq hcell']
  exact min_le_min_right _ hle

theorem available_snoc (hlen : p.length < core.config.maxCandidateChars) :
    core.available (core.column p) = core.available (core.column (p ++ [c])) + 1 := by
  rw [available, available, depth_column, depth_column, List.length_append, List.length_singleton]
  omega

/-- The cell of the first query character starts anew, or is as before. -/
theorem potential_first (h : core.WellFormed) (hlen : p.length < core.config.maxCandidateChars) (hi : 0 < core.query.length)
    (hreachable : ((core.column (p ++ [c])).cell 0).reachable = true)
    (hroom : core.query.length - 1 ≤ core.available (core.column (p ++ [c]))) :
    ∃ u, core.Potential (core.column p) u ∧ core.optimistic ((core.column (p ++ [c])).cell 0) (core.query.length - 1) ≤ u := by
  have hbounds := h.cellBounds (p ++ [c]) 0
  have hprevious := h.cellBounds p 0
  have havailable := available_snoc (c := c) hlen
  have hbonus := h.bonusFor_bounds (core.column p).previousClass (core.classify c)
  rw [cell_snoc hi, nextCell, if_pos rfl] at hreachable hbounds ⊢
  unfold firstCell at hreachable hbounds ⊢
  split at hreachable
  · rename_i hmatched
    rw [if_pos hmatched] at hbounds ⊢
    refine ⟨core.maximumScore, .unstarted (by omega), ?_⟩
    rw [h.optimistic_eq hbounds, h.maximumScore_eq (Nat.sub_add_cancel hi).symm]
    refine min_le_min_right _ (add_le_add ?_ le_rfl)
    show saturatingI32 (16 + saturatingI32 (_ * 2)) ≤ _
    unfold saturatingI32 i32Min i32Max
    omega
  · rename_i hmatched
    rw [if_neg hmatched] at hbounds ⊢
    split at hreachable
    · rename_i score hscore
      rw [hscore] at hbounds
      have hprevReachable : ((core.column p).cell 0).reachable = true := by rw [← gapScore_isSome, hscore]; rfl
      refine ⟨_, .cell (by rw [length_cells]; exact hi) hprevReachable (by omega), ?_⟩
      refine h.optimistic_le_optimistic hbounds hprevious (add_le_add ?_ le_rfl)
      exact max_le (gapScore_le_score hprevious.score_nonneg hscore) hprevious.score_nonneg
    · cases hreachable

/-- A later cell goes on from its own cell before, or from that of the character before it. -/
theorem potential_later (h : core.WellFormed) (hlen : p.length < core.config.maxCandidateChars) (hi : i + 1 < core.query.length)
    (hreachable : ((core.column (p ++ [c])).cell (i + 1)).reachable = true)
    (hroom : core.query.length - (i + 1 + 1) ≤ core.available (core.column (p ++ [c]))) :
    ∃ u, core.Potential (core.column p) u ∧
      core.optimistic ((core.column (p ++ [c])).cell (i + 1)) (core.query.length - (i + 1 + 1)) ≤ u := by
  have hbounds := h.cellBounds (p ++ [c]) (i + 1)
  have hleft := h.cellBounds p (i + 1)
  have hdiagonal := h.cellBounds p i
  have havailable := available_snoc (c := c) hlen
  have hbonus := h.bonusFor_bounds (core.column p).previousClass (core.classify c)
  have hmax := h.maxBonus_bounds
  rw [cell_snoc hi, nextCell, if_neg (Nat.succ_ne_zero i), Nat.add_sub_cancel] at hreachable hbounds ⊢
  unfold laterCell at hreachable hbounds ⊢
  rcases joinCell_score_le hreachable with ⟨score, hscore, hle⟩ | ⟨m, hm, hle⟩
  · have hleftReachable : ((core.column p).cell (i + 1)).reachable = true := by rw [← gapScore_isSome, hscore]; rfl
    refine ⟨_, .cell (by rw [length_cells]; exact hi) hleftReachable (by omega), ?_⟩
    refine h.optimistic_le_optimistic hbounds hleft (add_le_add (hle.trans ?_) le_rfl)
    exact max_le (gapScore_le_score hleft.score_nonneg hscore) hleft.score_nonneg
  · obtain ⟨hmatched, hm⟩ := Option.ite_none_right_eq_some.mp hm
    obtain ⟨-, hdiagonalReachable⟩ := Bool.and_eq_true_iff.mp hmatched
    refine ⟨_, .cell (by rw [length_cells]; exact Nat.lt_of_succ_lt hi) hdiagonalReachable (by omega), ?_⟩
    refine h.optimistic_le_optimistic hbounds hdiagonal ?_
    -- One match less is left.
    have hremaining : core.query.length - (i + 1) = core.query.length - (i + 1 + 1) + 1 := by omega
    have hmatch := matchedCell_score_le h hbonus hdiagonal
    rw [Option.some.inj hm] at hmatch
    have hscore := hle.trans (max_le hmatch (add_nonneg hdiagonal.score_nonneg (by omega)))
    rw [hremaining, Nat.cast_add, Nat.cast_one, add_mul, one_mul]
    linarith

theorem potential_advance (h : core.WellFormed) (hlen : p.length < core.config.maxCandidateChars)
    (hv : core.Potential (core.column (p ++ [c])) v) : ∃ u, core.Potential (core.column p) u ∧ v ≤ u := by
  have hcell : ∀ i, i < core.query.length → ((core.column (p ++ [c])).cell i).reachable = true →
      core.query.length - (i + 1) ≤ core.available (core.column (p ++ [c])) → ∃ u, core.Potential (core.column p) u ∧
        core.optimistic ((core.column (p ++ [c])).cell i) (core.query.length - (i + 1)) ≤ u := by
    intro i hi hreachable hroom
    cases i with
    | zero => exact potential_first h hlen hi hreachable hroom
    | succ i => exact potential_later h hlen hi hreachable hroom
  cases hv with
  | best hv =>
    rw [best_snoc, currentFullScore_eq] at hv
    -- A new best score is that of the last cell.
    have hlast : core.query ≠ [] → ((core.column (p ++ [c])).cell (core.query.length - 1)).reachable = true →
        ∃ u, core.Potential (core.column p) u ∧ ((core.column (p ++ [c])).cell (core.query.length - 1)).score ≤ u := by
      intro hquery hreachable
      have hpos := List.length_pos_of_ne_nil hquery
      have hbounds := h.cellBounds (p ++ [c]) (core.query.length - 1)
      obtain ⟨u, hu, hle⟩ := hcell _ (Nat.sub_lt hpos Nat.one_pos) hreachable (by omega)
      refine ⟨u, hu, le_trans (h.le_optimistic hbounds hbounds.score_le (add_zero _).ge ?_) hle⟩
      exact Int.mul_nonneg (Int.natCast_nonneg _) (by have := h.maxBonus_bounds; omega)
    cases hbest : (core.column p).bestFullScore with
    | none =>
      rw [hbest] at hv
      split at hv
      · cases hv
      · rename_i hquery
        split at hv
        · rename_i hreachable
          cases hv
          exact hlast hquery hreachable
        · cases hv
    | some w =>
      rw [hbest] at hv
      split at hv
      · cases hv
        exact ⟨_, .best hbest, le_rfl⟩
      · rename_i hquery
        split at hv
        · rename_i hreachable
          cases hv
          rcases max_choice w ((core.column (p ++ [c])).cell (core.query.length - 1)).score with heq | heq
          · exact ⟨w, .best hbest, heq.le⟩
          · obtain ⟨u, hu, hle⟩ := hlast hquery hreachable
            exact ⟨u, hu, heq.le.trans hle⟩
        · cases hv
          exact ⟨_, .best hbest, le_rfl⟩
  | cell hi hreachable hroom =>
    rw [length_cells] at hi
    exact hcell _ hi hreachable hroom
  | unstarted hroom =>
    have := available_snoc (c := c) hlen
    exact ⟨_, .unstarted (by omega), le_rfl⟩

/-- What a candidate comes to, its prefix can come to. -/
theorem potential_prefix (h : core.WellFormed) (suffix : List Char) (hlen : p.length + suffix.length ≤ core.config.maxCandidateChars)
    (hv : core.Potential (core.column (p ++ suffix)) v) : ∃ u, core.Potential (core.column p) u ∧ v ≤ u := by
  induction suffix using List.reverseRecOn generalizing v with
  | nil => exact ⟨v, by rwa [List.append_nil] at hv, le_rfl⟩
  | append_singleton suffix c ih =>
    rw [List.length_append, List.length_singleton] at hlen
    rw [← List.append_assoc] at hv
    obtain ⟨u, hu, hle⟩ := potential_advance h (by rw [List.length_append]; omega) hv
    obtain ⟨w, hw, hle'⟩ := ih (by omega) hu
    exact ⟨w, hw, hle.trans hle'⟩

/-- The bound of a prefix is at least the score of a candidate that starts with it. -/
theorem upperBound_admissible (h : core.WellFormed) {suffix : List Char}
    (hlen : (p ++ suffix).length ≤ core.config.maxCandidateChars) (hv : (core.column (p ++ suffix)).bestFullScore = some v) :
    ∃ b, core.upperBound (core.column p) = some b ∧ v ≤ b := by
  rw [List.length_append] at hlen
  obtain ⟨u, hu, hle⟩ := potential_prefix h suffix hlen (.best hv)
  have htops : Tops _ (core.Potential (core.column p)) := tops_upperBound (core.column p)
  cases hbound : core.upperBound (core.column p) with
  | none => exact absurd hu (htops.of_none hbound u)
  | some b => exact ⟨b, rfl, hle.trans (htops.le b hbound u hu)⟩

end Duallity.FzfCore
