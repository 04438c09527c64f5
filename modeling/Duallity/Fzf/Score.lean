import Duallity.Fzf.Column
import Mathlib.Data.List.Basic
import Mathlib.Data.List.Induction

/-! The columns of candidates. A cell is reached when the query up to it is a subsequence of the candidate; its score and
    its bonus are within bounds that keep the `i32` arithmetic exact from below. -/

namespace Duallity.FzfCore
variable {core : FzfCore} {p : List Char} {c : Char} {i : Nat}

/-! ### Bonuses -/

variable (core) in
/-- The core has the bonus bound of its scheme. -/
def WellFormed : Prop := core.maxBonus = core.config.scheme.maxBonus

theorem wellFormed_of_new {tables : UnicodeTables} {query : List Char} {config : FzfConfig}
    (h : new tables query config = .ok core) : core.WellFormed := by
  unfold new at h
  dsimp only at h
  split at h
  · cases h
  · cases h
    rfl

theorem config_of_new {tables : UnicodeTables} {query : List Char} {config : FzfConfig}
    (h : new tables query config = .ok core) : core.config = config := by
  unfold new at h
  dsimp only at h
  split at h
  · cases h
  · cases h
    rfl

theorem WellFormed.maxBonus_bounds (h : core.WellFormed) : 8 ≤ core.maxBonus ∧ core.maxBonus ≤ 10 := by
  rw [h]
  cases core.config.scheme
  · exact ⟨by decide, by decide⟩
  · exact ⟨by decide, by decide⟩
  · exact ⟨by decide, by decide⟩

theorem WellFormed.of_le_eight (h : core.WellFormed) {bonus : Int} (hbonus : 0 ≤ bonus ∧ bonus ≤ 8) :
    0 ≤ bonus ∧ bonus ≤ core.maxBonus := ⟨hbonus.1, hbonus.2.trans h.maxBonus_bounds.1⟩

theorem WellFormed.whiteBonus_bounds (h : core.WellFormed) : 0 ≤ core.whiteBonus ∧ core.whiteBonus ≤ core.maxBonus := by
  rw [h, whiteBonus]
  cases core.config.scheme
  · exact ⟨by decide, by decide⟩
  · exact ⟨by decide, by decide⟩
  · exact ⟨by decide, by decide⟩

theorem WellFormed.delimiterBonus_bounds (h : core.WellFormed) :
    0 ≤ core.delimiterBonus ∧ core.delimiterBonus ≤ core.maxBonus := by
  rw [h, delimiterBonus]
  cases core.config.scheme
  · exact ⟨by decide, by decide⟩
  · exact ⟨by decide, by decide⟩
  · exact ⟨by decide, by decide⟩

theorem WellFormed.innerBonus_bounds (h : core.WellFormed) (previous current : CharClass) :
    0 ≤ core.innerBonus previous current ∧ core.innerBonus previous current ≤ core.maxBonus := by
  have hnone := h.of_le_eight (show (0 : Int) ≤ 0 ∧ (0 : Int) ≤ 8 by decide)
  have hnonWord := h.of_le_eight (show 0 ≤ bonusNonWord ∧ bonusNonWord ≤ 8 by decide)
  unfold innerBonus
  split
  · exact h.of_le_eight (by decide)
  · cases current with
    | nonWord => exact hnonWord
    | delimiter => exact hnonWord
    | white => exact h.whiteBonus_bounds
    | lower => exact hnone
    | upper => exact hnone
    | letter => exact hnone
    | number => exact hnone

/-- The bonus of a position is at most that of the scheme. -/
theorem WellFormed.bonusFor_bounds (h : core.WellFormed) (previous current : CharClass) :
    0 ≤ core.bonusFor previous current ∧ core.bonusFor previous current ≤ core.maxBonus := by
  unfold bonusFor
  split
  · cases previous with
    | white => exact h.whiteBonus_bounds
    | delimiter => exact h.delimiterBonus_bounds
    | nonWord => exact h.of_le_eight (show 0 ≤ bonusBoundary ∧ bonusBoundary ≤ 8 by decide)
    | lower => exact h.innerBonus_bounds _ _
    | upper => exact h.innerBonus_bounds _ _
    | letter => exact h.innerBonus_bounds _ _
    | number => exact h.innerBonus_bounds _ _
  · exact h.innerBonus_bounds _ _

/-! ### Cells -/

/-- What holds of every cell. -/
structure CellBounds (core : FzfCore) (cell : Cell) : Prop where
  score_nonneg : 0 ≤ cell.score
  score_le : cell.score ≤ i32Max
  firstBonus_nonneg : 0 ≤ cell.firstBonus
  firstBonus_le : cell.firstBonus ≤ core.maxBonus

theorem saturatingI32_of_nonneg {value : Int} (h : 0 ≤ value) : saturatingI32 value = min value i32Max := by
  unfold saturatingI32 i32Max i32Min
  omega

theorem saturatingI32_le (value : Int) : saturatingI32 value ≤ i32Max := by
  unfold saturatingI32 i32Max i32Min
  omega

theorem cellBounds_default (h : core.WellFormed) : core.CellBounds default :=
  ⟨le_rfl, by decide, le_rfl, le_trans (by decide) h.maxBonus_bounds.1⟩

theorem gapScore_le {cell : Cell} {score : Int} (h : gapScore cell = some score) : score ≤ i32Max := by
  obtain ⟨-, h⟩ := Option.ite_none_right_eq_some.mp h
  exact Option.some.inj h ▸ saturatingI32_le _

theorem CellBounds.first (h : core.WellFormed) {bonus : Int} (hbonus : 0 ≤ bonus ∧ bonus ≤ core.maxBonus) (matched : Bool)
    (previous : Cell) : core.CellBounds (firstCell bonus matched previous) := by
  have hzero := h.of_le_eight (show (0 : Int) ≤ 0 ∧ (0 : Int) ≤ 8 by decide)
  unfold firstCell
  split
  · refine ⟨?_, saturatingI32_le _, hbonus.1, hbonus.2⟩
    show 0 ≤ saturatingI32 (16 + saturatingI32 (bonus * 2))
    have hbonus := hbonus.1
    unfold saturatingI32 i32Min i32Max
    omega
  · split
    · rename_i score hscore
      exact ⟨le_max_right _ _, max_le (gapScore_le hscore) (by decide), hzero.1, hzero.2⟩
    · exact cellBounds_default h

theorem CellBounds.matched {bonus : Int} (hbonus : 0 ≤ bonus ∧ bonus ≤ core.maxBonus) {diagonal : Cell}
    (hdiagonal : core.CellBounds diagonal) : 0 ≤ (matchedCell bonus diagonal).2.1 ∧
      (matchedCell bonus diagonal).2.1 ≤ core.maxBonus ∧ (matchedCell bonus diagonal).2.2 ≤ i32Max := by
  have hfirst : 0 ≤ (if diagonal.consecutive = 0 then bonus else diagonal.firstBonus) ∧
      (if diagonal.consecutive = 0 then bonus else diagonal.firstBonus) ≤ core.maxBonus := by
    split
    · exact hbonus
    · exact ⟨hdiagonal.firstBonus_nonneg, hdiagonal.firstBonus_le⟩
  unfold matchedCell
  dsimp only
  split
  · split
    · exact ⟨hbonus.1, hbonus.2, saturatingI32_le _⟩
    · exact ⟨hfirst.1, hfirst.2, saturatingI32_le _⟩
  · exact ⟨hfirst.1, hfirst.2, saturatingI32_le _⟩

/-- The joined cell has the bounds of the gap and of the match. -/
theorem CellBounds.join (h : core.WellFormed) {gap : Option Int} {matched : Option (Nat × Int × Int)}
    (hgap : ∀ score, gap = some score → score ≤ i32Max)
    (hmatched : ∀ m, matched = some m → 0 ≤ m.2.1 ∧ m.2.1 ≤ core.maxBonus ∧ m.2.2 ≤ i32Max) :
    core.CellBounds (joinCell gap matched) := by
  have hzero := h.of_le_eight (show (0 : Int) ≤ 0 ∧ (0 : Int) ≤ 8 by decide)
  have hmin : i32Min / 4 ≤ i32Max := by decide
  have hgapValue : gap.getD (i32Min / 4) ≤ i32Max := by
    cases gap with
    | none => exact hmin
    | some score => exact hgap score rfl
  have hmatchValue : (matched.elim (i32Min / 4) fun m => m.2.2) ≤ i32Max := by
    cases matched with
    | none => exact hmin
    | some m => exact (hmatched m rfl).2.2
  have hbonus : 0 ≤ (matched.elim 0 fun m => m.2.1) ∧ (matched.elim 0 fun m => m.2.1) ≤ core.maxBonus := by
    cases matched with
    | none => exact hzero
    | some m => exact ⟨(hmatched m rfl).1, (hmatched m rfl).2.1⟩
  unfold joinCell
  dsimp only
  split
  · exact cellBounds_default h
  · refine ⟨le_max_right _ _, max_le (max_le hmatchValue hgapValue) (by decide), ?_, ?_⟩
    · dsimp only
      split
      · exact hbonus.1
      · exact le_rfl
    · dsimp only
      split
      · exact hbonus.2
      · exact hzero.2

theorem CellBounds.later (h : core.WellFormed) {bonus : Int} (hbonus : 0 ≤ bonus ∧ bonus ≤ core.maxBonus) (matched : Bool)
    (left : Cell) {diagonal : Cell} (hdiagonal : core.CellBounds diagonal) :
    core.CellBounds (laterCell bonus matched left diagonal) := by
  refine .join h (fun _ => gapScore_le) ?_
  intro m hm
  obtain ⟨-, hm⟩ := Option.ite_none_right_eq_some.mp hm
  exact Option.some.inj hm ▸ CellBounds.matched hbonus hdiagonal

/-! ### Columns -/

@[simp] theorem column_nil : core.column [] = core.initialColumn := rfl

theorem column_snoc : core.column (p ++ [c]) = core.advance (core.column p) c := by
  rw [column, List.foldl_append]
  rfl

theorem depth_column : (core.column p).depth = p.length := by
  induction p using List.reverseRecOn with
  | nil => rfl
  | append_singleton p c ih => rw [column_snoc, advance, ih, List.length_append, List.length_singleton]

theorem length_cells : (core.column p).cells.length = core.query.length := by
  induction p using List.reverseRecOn with
  | nil => exact List.length_map _
  | append_singleton p c _ => rw [column_snoc, advance, List.length_map, List.length_range]

theorem cell_nil : (core.column []).cell i = default := by
  rw [column_nil, FzfColumn.cell, initialColumn, List.getElem?_map]
  cases core.query[i]?
  · rfl
  · rfl

theorem cell_snoc (hi : i < core.query.length) : (core.column (p ++ [c])).cell i = core.nextCell (core.column p) c i := by
  rw [column_snoc, FzfColumn.cell, advance, List.getElem?_map, List.getElem?_range hi]
  rfl

theorem cell_of_le (hi : core.query.length ≤ i) : (core.column p).cell i = default := by
  rw [FzfColumn.cell, List.getElem?_eq_none (by rw [length_cells]; exact hi)]
  rfl

theorem WellFormed.cellBounds (h : core.WellFormed) (p : List Char) (i : Nat) : core.CellBounds ((core.column p).cell i) := by
  induction p using List.reverseRecOn generalizing i with
  | nil =>
    rw [cell_nil]
    exact cellBounds_default h
  | append_singleton p c ih =>
    by_cases hi : i < core.query.length
    · rw [cell_snoc hi, nextCell]
      split
      · exact .first h (h.bonusFor_bounds _ _) _ _
      · exact .later h (h.bonusFor_bounds _ _) _ _ (ih _)
    · rw [cell_of_le (Nat.le_of_not_lt hi)]
      exact cellBounds_default h

/-! ### Subsequences -/

theorem gapScore_isSome {cell : Cell} : (gapScore cell).isSome = cell.reachable := by
  unfold gapScore
  cases cell.reachable
  · rfl
  · rfl

theorem firstCell_reachable {bonus : Int} {matched : Bool} {previous : Cell} :
    (firstCell bonus matched previous).reachable = (matched || previous.reachable) := by
  rw [show previous.reachable = (gapScore previous).isSome from gapScore_isSome.symm, firstCell]
  cases matched
  · cases gapScore previous
    · rfl
    · rfl
  · rfl

theorem joinCell_reachable {gap : Option Int} {matched : Option (Nat × Int × Int)} :
    (joinCell gap matched).reachable = (gap.isSome || matched.isSome) := by
  cases gap
  · cases matched
    · rfl
    · rfl
  · rfl

theorem laterCell_reachable {bonus : Int} {matched : Bool} {left diagonal : Cell} :
    (laterCell bonus matched left diagonal).reachable = (left.reachable || (matched && diagonal.reachable)) := by
  rw [laterCell, joinCell_reachable, gapScore_isSome]
  cases matched && diagonal.reachable
  · rfl
  · rfl

/-- Behind one more character, a sequence is a subsequence as before, or ends in that character. -/
theorem sublist_snoc_iff {α : Type} {l p : List α} {a b : α} : (l ++ [a]).Sublist (p ++ [b]) ↔ (l ++ [a]).Sublist p ∨ (a = b ∧ l.Sublist p) := by
  rw [← List.reverse_sublist, List.reverse_append, List.reverse_append]
  show (a :: l.reverse).Sublist (b :: p.reverse) ↔ _
  rw [List.cons_sublist_cons', List.reverse_sublist, ← @List.reverse_sublist _ (l ++ [a]), List.reverse_append]
  rfl

/-- A cell is reached when the query up to it is a subsequence of the folded candidate. -/
theorem reachable_iff (hi : i < core.query.length) :
    ((core.column p).cell i).reachable = true ↔ (core.query.take (i + 1)).Sublist (p.map core.comparable) := by
  induction p using List.reverseRecOn generalizing i with
  | nil =>
    rw [cell_nil]
    refine iff_of_false Bool.false_ne_true ?_
    intro h
    have := h.length_le
    rw [List.length_take, List.map_nil, List.length_nil] at this
    omega
  | append_singleton p c ih =>
    have hget : core.query[i]? = some core.query[i] := List.getElem?_eq_getElem hi
    have hmatched : (core.query[i]? == some (core.comparable c)) = true ↔ core.query[i] = core.comparable c := by
      rw [hget, beq_iff_eq, Option.some.injEq]
    have htake : core.query.take (i + 1) = core.query.take i ++ [core.query[i]] := by
      rw [List.take_add_one, hget]
      rfl
    rw [cell_snoc hi, nextCell, List.map_append, List.map_singleton, htake, sublist_snoc_iff, ← htake]
    by_cases hzero : i = 0
    · subst hzero
      rw [if_pos rfl, firstCell_reachable, Bool.or_eq_true, hmatched, ih hi, or_comm, List.take_zero]
      exact or_congr_right (and_iff_left (List.nil_sublist _)).symm
    · have hpred : i - 1 + 1 = i := Nat.succ_pred_eq_of_ne_zero hzero
      rw [if_neg hzero, laterCell_reachable, Bool.or_eq_true, Bool.and_eq_true, hmatched, ih hi,
        ih (Nat.lt_of_le_of_lt (Nat.sub_le i 1) hi), hpred]

/-! ### Best full scores -/

variable (core) in
/-- The folded query is a subsequence of the folded candidate. -/
def Contains (candidate : List Char) : Prop := core.query.Sublist (candidate.map core.comparable)

theorem best_snoc : (core.column (p ++ [c])).bestFullScore =
    raiseBest (core.column p).bestFullScore (currentFullScore (core.column (p ++ [c])).cells) := by
  rw [column_snoc, advance]

theorem getLast?_cells : (core.column p).cells.getLast? =
    if core.query = [] then none else some ((core.column p).cell (core.query.length - 1)) := by
  rw [List.getLast?_eq_getElem?, length_cells]
  split
  · rename_i hquery
    have hlen : (core.column p).cells.length = 0 := by rw [length_cells, hquery]; rfl
    exact List.getElem?_eq_none (by rw [hlen]; exact Nat.zero_le _)
  · rename_i hquery
    have hpos := List.length_pos_of_ne_nil hquery
    have hlt : core.query.length - 1 < (core.column p).cells.length := by rw [length_cells]; omega
    rw [FzfColumn.cell, List.getElem?_eq_getElem hlt]
    rfl

theorem currentFullScore_eq : currentFullScore (core.column p).cells =
    if core.query = [] then none
    else if ((core.column p).cell (core.query.length - 1)).reachable then some ((core.column p).cell (core.query.length - 1)).score
    else none := by
  rw [currentFullScore, getLast?_cells]
  split
  · rfl
  · rw [Option.filter_some]
    split
    · rfl
    · rfl

theorem reachable_last_iff (hquery : core.query ≠ []) :
    ((core.column p).cell (core.query.length - 1)).reachable = true ↔ core.Contains p := by
  have hpos := List.length_pos_of_ne_nil hquery
  rw [reachable_iff (Nat.sub_lt hpos Nat.one_pos), Nat.sub_add_cancel hpos, List.take_length]
  rfl

theorem raiseBest_isSome {previous current : Option Int} :
    (raiseBest previous current).isSome = (previous.isSome || current.isSome) := by
  cases previous
  · cases current
    · rfl
    · rfl
  · cases current
    · rfl
    · rfl

theorem le_raiseBest {previous current : Option Int} {v : Int} (h : previous = some v) :
    ∃ u, raiseBest previous current = some u ∧ v ≤ u := by
  subst h
  cases current with
  | none => exact ⟨v, rfl, le_rfl⟩
  | some w => exact ⟨max v w, rfl, le_max_left _ _⟩

/-- The candidates with a score are those that contain the query. -/
theorem best_isSome_iff : (core.column p).bestFullScore.isSome = true ↔ core.Contains p := by
  by_cases hquery : core.query = []
  · have hcontains : core.Contains p := by
      rw [Contains, hquery]
      exact List.nil_sublist _
    refine iff_of_true ?_ hcontains
    induction p using List.reverseRecOn with
    | nil => rw [column_nil, initialColumn, if_pos hquery]; rfl
    | append_singleton p c ih =>
      rw [best_snoc, raiseBest_isSome, ih (by rw [Contains, hquery]; exact List.nil_sublist _), Bool.true_or]
  · induction p using List.reverseRecOn with
    | nil =>
      rw [column_nil, initialColumn, if_neg hquery, Contains, List.map_nil, List.sublist_nil]
      exact iff_of_false Bool.false_ne_true hquery
    | append_singleton p c ih =>
      rw [best_snoc, raiseBest_isSome, Bool.or_eq_true, ih, currentFullScore_eq, if_neg hquery, ← reachable_last_iff hquery,
        ← reachable_last_iff hquery]
      cases h : ((core.column (p ++ [c])).cell (core.query.length - 1)).reachable
      · simp only [Bool.false_eq_true, if_false, Option.isSome_none, or_false]
        refine iff_of_false ?_ (by simp)
        intro hbefore
        -- What the prefix contains, the candidate contains.
        have hsub : core.Contains (p ++ [c]) := by
          rw [Contains, List.map_append]
          exact ((reachable_last_iff hquery).mp hbefore).trans (List.sublist_append_left _ _)
        rw [(reachable_last_iff hquery).mpr hsub] at h
        cases h
      · simp

/-- One more character keeps the best score, or raises it. -/
theorem best_mono {v : Int} (h : (core.column p).bestFullScore = some v) :
    ∃ u, (core.column (p ++ [c])).bestFullScore = some u ∧ v ≤ u := by
  rw [best_snoc]
  exact le_raiseBest h

theorem WellFormed.best_bounds (h : core.WellFormed) {v : Int} (hv : (core.column p).bestFullScore = some v) :
    0 ≤ v ∧ v ≤ i32Max := by
  induction p using List.reverseRecOn generalizing v with
  | nil =>
    rw [column_nil, initialColumn] at hv
    obtain ⟨-, hv⟩ := Option.ite_none_right_eq_some.mp hv
    cases hv
    exact ⟨le_rfl, by decide⟩
  | append_singleton p c ih =>
    have hcell := h.cellBounds (p ++ [c]) (core.query.length - 1)
    rw [best_snoc, currentFullScore_eq] at hv
    generalize (core.column p).bestFullScore = best at ih hv
    split at hv
    · cases best with
      | none => cases hv
      | some u => exact ih (hv ▸ rfl)
    · split at hv
      · cases best with
        | none =>
          cases hv
          exact ⟨hcell.score_nonneg, hcell.score_le⟩
        | some u =>
          cases hv
          exact ⟨le_trans (ih rfl).1 (le_max_left _ _), max_le (ih rfl).2 hcell.score_le⟩
      · cases best with
        | none => cases hv
        | some u => exact ih (hv ▸ rfl)

/-! ### Scores -/

theorem scoreFrom_eq (suffix : List Char) : core.scoreFrom (core.column p) suffix =
    if core.config.maxCandidateChars < p.length + suffix.length ∧ suffix ≠ [] then
      .error (.candidateTooLong (max core.config.maxCandidateChars p.length + 1) core.config.maxCandidateChars)
    else .ok (core.column (p ++ suffix)).bestFullScore := by
  induction suffix generalizing p with
  | nil => simp [scoreFrom]
  | cons c suffix ih =>
    have hlen : (p ++ [c]).length = p.length + 1 := by rw [List.length_append, List.length_singleton]
    rw [scoreFrom, depth_column, ← column_snoc, ih, hlen, List.length_cons, List.append_assoc, List.singleton_append]
    by_cases hdepth : core.config.maxCandidateChars ≤ p.length
    · rw [if_pos hdepth, if_pos ⟨by omega, List.cons_ne_nil _ _⟩, Nat.max_eq_right hdepth]
    · rw [if_neg hdepth]
      by_cases hlong : core.config.maxCandidateChars < p.length + 1 + suffix.length
      · have hne : suffix ≠ [] := by
          rintro rfl
          rw [List.length_nil] at hlong
          omega
        rw [if_pos ⟨hlong, hne⟩, if_pos ⟨by omega, List.cons_ne_nil _ _⟩, Nat.max_eq_left (by omega : p.length + 1 ≤ _),
          Nat.max_eq_left (by omega : p.length ≤ _)]
      · rw [if_neg fun h => hlong h.1, if_neg fun h => hlong (by omega)]

/-- A candidate within the limit is scored by its column; a longer one is refused. -/
theorem scoreChars_eq (candidate : List Char) : core.scoreChars candidate =
    if core.config.maxCandidateChars < candidate.length then
      .error (.candidateTooLong (core.config.maxCandidateChars + 1) core.config.maxCandidateChars)
    else .ok (core.column candidate).bestFullScore := by
  have h : core.scoreFrom (core.column []) candidate = _ := scoreFrom_eq candidate
  rw [column_nil, List.length_nil, Nat.zero_add, Nat.max_eq_left (Nat.zero_le _), List.nil_append] at h
  rw [scoreChars, h]
  refine if_congr (and_iff_left_of_imp ?_) rfl rfl
  intro hlong hnil
  subst hnil
  exact Nat.not_lt_zero _ hlong

end Duallity.FzfCore
