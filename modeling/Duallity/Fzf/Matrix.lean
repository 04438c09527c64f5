import Duallity.Fzf.Bound
import Duallity.Fzf.Paths
import Mathlib.Tactic.Ring

/-! The full matrices of the batch recurrence, which keep a cell for every query row and every candidate column and the bonus
    of every column. The columns of `FzfCore` carry the one bonus that a run of matches still needs. -/

namespace Duallity

/-- What the matrices hold at a row and a column: the score, the length of the run of matches, whether the row is in a gap,
    and whether the row has begun. -/
structure MatrixCell where
  score : Int
  consecutive : Nat
  inGap : Bool
  live : Bool
deriving DecidableEq

namespace MatrixCell

/-- Before a row has begun. -/
def dead : MatrixCell := ⟨0, 0, false, false⟩

end MatrixCell

/-- The matrices of a query and a candidate. `clamp` is applied to every sum: it is the identity for the recurrence over the
    integers. -/
structure FullMatrix where
  clamp : Int → Int
  query : List Char
  candidate : List Char
  bonus : List Int

namespace FullMatrix
variable (m : FullMatrix)

def gapScore (left : MatrixCell) : Option Int :=
  if left.live then some (m.clamp (left.score + if left.inGap then scoreGapExtension else scoreGapStart)) else none

/-- The bonus of a column. -/
def bonusAt (column : Nat) : Int := (m.bonus[column]?).getD 0

def matchesAt (row column : Nat) : Bool := m.query[row]? == m.candidate[column]?

/-- The length and the score of a run that a match at `column` extends; its first bonus is looked up where the run began. -/
def matchedAt (column : Nat) (diagonal : MatrixCell) : Nat × Int :=
  let bonus := m.bonusAt column
  let consecutive := diagonal.consecutive + 1
  let score := fun applied => m.clamp (m.clamp (diagonal.score + scoreMatch) + applied)
  if 1 < consecutive then
    let firstBonus := m.bonusAt (column + 1 - consecutive)
    if bonusBoundary ≤ bonus ∧ firstBonus < bonus then (1, score bonus)
    else (consecutive, score (max (max bonus bonusConsecutive) firstBonus))
  else (consecutive, score bonus)

/-- The cell of the first row at `column`. -/
def firstRowCell (column : Nat) (left : MatrixCell) : MatrixCell :=
  if m.matchesAt 0 column then
    ⟨m.clamp (scoreMatch + m.clamp (m.bonusAt column * bonusFirstCharMultiplier)), 1, false, true⟩
  else
    match m.gapScore left with
    | some score => ⟨max score 0, 0, true, true⟩
    | none => .dead

/-- The cell of a later row at `column`. -/
def laterRowCell (row column : Nat) (left diagonal : MatrixCell) : MatrixCell :=
  let gap := m.gapScore left
  let matched := if m.matchesAt row column && diagonal.live then some (m.matchedAt column diagonal) else none
  if gap.isNone && matched.isNone then .dead
  else
    let matchValue := matched.elim (i32Min / 4) fun run => run.2
    let gapValue := gap.getD (i32Min / 4)
    ⟨max (max matchValue gapValue) 0, if gapValue ≤ matchValue then matched.elim 0 fun run => run.1 else 0,
      decide (matchValue < gapValue), true⟩

/-- The cell of a row after `columns` columns. -/
def cellFrom (row : Nat) (above : Nat → MatrixCell) : Nat → MatrixCell
  | 0 => .dead
  | column + 1 =>
    if row = 0 then m.firstRowCell column (cellFrom row above column)
    else m.laterRowCell row column (cellFrom row above column) (above column)

def cell : Nat → Nat → MatrixCell
  | 0 => m.cellFrom 0 fun _ => .dead
  | row + 1 => m.cellFrom (row + 1) (cell row)

/-- The best score of the last row; an empty query has score 0. -/
def best : Option Int :=
  if m.query = [] then some 0
  else
    (List.range m.candidate.length).foldl (fun best column =>
      let last := m.cell (m.query.length - 1) (column + 1)
      if last.live then some (best.elim last.score fun best => max best last.score) else best) none

end FullMatrix

namespace FzfCore
variable (core : FzfCore)

/-- The bonuses of all columns. -/
def bonuses (candidate : List Char) : List Int :=
  let classes := candidate.map core.classify
  List.zipWith core.bonusFor (core.initialClass :: classes) classes

def fullMatrix (clamp : Int → Int) (candidate : List Char) : FullMatrix :=
  ⟨clamp, core.query, candidate.map core.comparable, core.bonuses candidate⟩

/-! ### Bonuses of columns -/

variable {core} {candidate : List Char} {i n : Nat}

theorem bonuses_getElem? (hn : n < candidate.length) : (core.bonuses candidate)[n]? =
    some (core.bonusFor (core.column (candidate.take n)).previousClass (core.classify candidate[n])) := by
  have hclass : (core.initialClass :: candidate.map core.classify)[n]? = some (core.column (candidate.take n)).previousClass := by
    cases n with
    | zero => rfl
    | succ n =>
      have hn' : n < candidate.length := Nat.lt_of_succ_lt hn
      rw [List.take_succ_eq_append_getElem hn', column_snoc]
      simp [advance, List.getElem?_eq_getElem hn']
  rw [bonuses, List.getElem?_zipWith, hclass, List.getElem?_map, List.getElem?_eq_getElem hn]
  rfl

theorem bonusAt_eq {clamp : Int → Int} (hn : n < candidate.length) : (core.fullMatrix clamp candidate).bonusAt n =
    core.bonusFor (core.column (candidate.take n)).previousClass (core.classify candidate[n]) := by
  simp [FullMatrix.bonusAt, fullMatrix, bonuses_getElem? hn]

theorem matchesAt_eq {clamp : Int → Int} (hn : n < candidate.length) : (core.fullMatrix clamp candidate).matchesAt i n =
    (core.query[i]? == some (core.comparable candidate[n])) := by
  simp [FullMatrix.matchesAt, fullMatrix, List.getElem?_eq_getElem hn]

/-! ### Columns against matrices -/

/-- The run of matches that ends in row `i` after `n` columns, of which a cell keeps the length and the first bonus. -/
structure Run (core : FzfCore) (candidate : List Char) (i n : Nat) (cell : Cell) : Prop where
  rows : cell.consecutive ≤ i + 1
  columns : cell.consecutive ≤ n
  characters : ∀ t < cell.consecutive, core.query[i - t]? = (candidate.map core.comparable)[n - 1 - t]?
  firstBonus : (core.bonuses candidate)[n - cell.consecutive]? = some cell.firstBonus

/-- A cell stands for that of the matrices. -/
structure Stores (core : FzfCore) (candidate : List Char) (i n : Nat) (cell : Cell) (entry : MatrixCell) : Prop where
  score : cell.score = entry.score
  consecutive : cell.consecutive = entry.consecutive
  inGap : cell.inGap = entry.inGap
  reachable : cell.reachable = entry.live
  run : 0 < cell.consecutive → core.Run candidate i n cell

theorem Stores.default : core.Stores candidate i n default .dead := ⟨rfl, rfl, rfl, rfl, fun h => absurd h (Nat.lt_irrefl 0)⟩

theorem Stores.gapScore {cell : Cell} {entry : MatrixCell} (h : core.Stores candidate i n cell entry) :
    (core.fullMatrix saturatingI32 candidate).gapScore entry = Duallity.gapScore cell := by
  simp [FullMatrix.gapScore, Duallity.gapScore, fullMatrix, h.score, h.inGap, h.reachable]

/-- A run of one match. -/
theorem Run.single {cell : Cell} (hn : n < candidate.length) (hmatched : core.query[i]? = some (core.comparable candidate[n]))
    (hlength : cell.consecutive = 1) (hbonus : cell.firstBonus = (core.fullMatrix saturatingI32 candidate).bonusAt n) :
    core.Run candidate i (n + 1) cell := by
  refine ⟨by omega, by omega, ?_, ?_⟩
  · intro t ht
    obtain rfl : t = 0 := by omega
    simp [hmatched, List.getElem?_eq_getElem hn]
  · rw [hlength, hbonus, Nat.add_sub_cancel, bonuses_getElem? hn, bonusAt_eq hn]

/-- A match extends the run of the diagonal cell. -/
theorem Run.extend {diagonal cell : Cell} (h : core.Run candidate i n diagonal) (hn : n < candidate.length)
    (hmatched : core.query[i + 1]? = some (core.comparable candidate[n]))
    (hlength : cell.consecutive = diagonal.consecutive + 1) (hbonus : cell.firstBonus = diagonal.firstBonus) :
    core.Run candidate (i + 1) (n + 1) cell := by
  have hrows := h.rows
  have hcolumns := h.columns
  refine ⟨by omega, by omega, ?_, ?_⟩
  · intro t ht
    cases t with
    | zero => simp [hmatched, List.getElem?_eq_getElem hn]
    | succ t =>
      rw [Nat.add_sub_add_right, Nat.add_sub_cancel, Nat.sub_add_eq, Nat.sub_right_comm]
      exact h.characters t (by omega)
  · rw [hlength, hbonus, Nat.add_sub_add_right]
    exact h.firstBonus

theorem Stores.first {previous : Cell} {left : MatrixCell} (h : core.Stores candidate 0 n previous left)
    (hn : n < candidate.length) :
    core.Stores candidate 0 (n + 1)
      (firstCell (core.bonusFor (core.column (candidate.take n)).previousClass (core.classify candidate[n]))
        (core.query[0]? == some (core.comparable candidate[n])) previous)
      ((core.fullMatrix saturatingI32 candidate).firstRowCell n left) := by
  unfold firstCell FullMatrix.firstRowCell
  rw [matchesAt_eq hn, h.gapScore, bonusAt_eq hn]
  split
  · rename_i hmatched
    exact ⟨rfl, rfl, rfl, rfl, fun _ => .single hn (by simpa using hmatched) rfl (bonusAt_eq hn).symm⟩
  · cases Duallity.gapScore previous with
    | none => exact .default
    | some score => exact ⟨rfl, rfl, rfl, rfl, fun h => absurd h (Nat.lt_irrefl 0)⟩

/-- The bonus that the run of a cell carries is the one that the matrices keep where the run began. -/
theorem Stores.matched {diagonal : Cell} {above : MatrixCell} {bonus : Int} (h : core.Stores candidate i n diagonal above)
    (hbonus : (core.fullMatrix saturatingI32 candidate).bonusAt n = bonus) :
    (core.fullMatrix saturatingI32 candidate).matchedAt n above =
      ((matchedCell bonus diagonal).1, (matchedCell bonus diagonal).2.2) := by
  unfold FullMatrix.matchedAt matchedCell
  simp only [hbonus, ← h.consecutive, ← h.score]
  by_cases hrun : 1 < diagonal.consecutive + 1
  · have hfirst : (core.fullMatrix saturatingI32 candidate).bonusAt (n + 1 - (diagonal.consecutive + 1)) = diagonal.firstBonus := by
      rw [Nat.add_sub_add_right]
      simp [FullMatrix.bonusAt, fullMatrix, (h.run (by omega)).firstBonus]
    simp only [if_pos hrun, hfirst]
    by_cases hbroken : bonusBoundary ≤ bonus ∧ diagonal.firstBonus < bonus
    · simp only [if_pos hbroken]
      rfl
    · simp only [if_neg hbroken]
      rfl
  · simp only [if_neg hrun]
    rfl

/-- A match continues the run of the diagonal cell, or starts one. -/
theorem Run.matched {diagonal cell : Cell} {bonus : Int} (hn : n < candidate.length)
    (hposition : (core.fullMatrix saturatingI32 candidate).bonusAt n = bonus)
    (hrun : 0 < diagonal.consecutive → core.Run candidate i n diagonal)
    (hmatched : core.query[i + 1]? = some (core.comparable candidate[n]))
    (hlength : cell.consecutive = (matchedCell bonus diagonal).1) (hbonus : cell.firstBonus = (matchedCell bonus diagonal).2.1) :
    core.Run candidate (i + 1) (n + 1) cell := by
  unfold matchedCell at hlength hbonus
  dsimp only at hlength hbonus
  by_cases hlong : 1 < diagonal.consecutive + 1
  · rw [if_pos hlong] at hlength hbonus
    by_cases hbroken : bonusBoundary ≤ bonus ∧ diagonal.firstBonus < bonus
    · rw [if_pos hbroken] at hlength hbonus
      exact .single hn hmatched hlength (hbonus.trans hposition.symm)
    · have hnonzero : diagonal.consecutive ≠ 0 := by omega
      rw [if_neg hbroken] at hlength hbonus
      simp only [if_neg hnonzero] at hbonus
      exact (hrun (by omega)).extend hn hmatched hlength hbonus
  · have hzero : diagonal.consecutive = 0 := by omega
    rw [if_neg hlong] at hlength hbonus
    simp only [if_pos hzero] at hbonus
    exact .single hn hmatched (by simpa [hzero] using hlength) (hbonus.trans hposition.symm)

/-- Without a match there is no run. -/
theorem consecutive_joinCell_none (gap : Option Int) : (joinCell gap none).consecutive = 0 := by
  cases gap with
  | none => rfl
  | some score => exact ite_self 0

theorem Stores.later {left diagonal : Cell} {leftEntry above : MatrixCell} (hleft : core.Stores candidate (i + 1) n left leftEntry)
    (hdiagonal : core.Stores candidate i n diagonal above) (hn : n < candidate.length) :
    core.Stores candidate (i + 1) (n + 1)
      (laterCell (core.bonusFor (core.column (candidate.take n)).previousClass (core.classify candidate[n]))
        (core.query[i + 1]? == some (core.comparable candidate[n])) left diagonal)
      ((core.fullMatrix saturatingI32 candidate).laterRowCell (i + 1) n leftEntry above) := by
  have hbonus : (core.fullMatrix saturatingI32 candidate).bonusAt n = _ := bonusAt_eq hn
  unfold laterCell FullMatrix.laterRowCell
  dsimp only
  rw [matchesAt_eq hn, hleft.gapScore, ← hdiagonal.reachable, hdiagonal.matched hbonus]
  generalize core.bonusFor _ _ = bonus at hbonus
  generalize Duallity.gapScore left = gap
  by_cases hmatched : (core.query[i + 1]? == some (core.comparable candidate[n]) && diagonal.reachable) = true
  · have hcharacter : core.query[i + 1]? = some (core.comparable candidate[n]) := by
      simpa using (Bool.and_eq_true_iff.mp hmatched).1
    simp only [if_pos hmatched, joinCell, Option.isNone_some, Bool.and_false, Bool.false_eq_true, if_false, Option.elim_some]
    refine ⟨rfl, rfl, rfl, rfl, ?_⟩
    intro hpos
    by_cases hwins : gap.getD (i32Min / 4) ≤ (matchedCell bonus diagonal).2.2
    · simp only [if_pos hwins]
      exact .matched hn hbonus hdiagonal.run hcharacter rfl rfl
    · simp [hwins] at hpos
  · simp only [if_neg hmatched, joinCell]
    cases gap with
    | none => exact .default
    | some score =>
      refine ⟨rfl, rfl, rfl, rfl, ?_⟩
      intro hpos
      exact absurd hpos (Nat.not_lt.mpr (consecutive_joinCell_none (some score)).le)

/-- After `n` characters, every cell of the column stands for the cell of its row. -/
theorem stores_cell (hn : n ≤ candidate.length) (hi : i < core.query.length) :
    core.Stores candidate i n ((core.column (candidate.take n)).cell i)
      ((core.fullMatrix saturatingI32 candidate).cell i n) := by
  induction n generalizing i with
  | zero =>
    rw [List.take_zero, cell_nil]
    cases i with
    | zero => exact .default
    | succ i => exact .default
  | succ n ih =>
    have hn' : n < candidate.length := hn
    rw [List.take_succ_eq_append_getElem hn', cell_snoc hi, nextCell]
    cases i with
    | zero => exact .first (ih hn'.le hi) hn'
    | succ i => exact .later (ih hn'.le hi) (ih hn'.le (Nat.lt_of_succ_lt hi)) hn'

theorem best_of_query_eq_nil (hquery : core.query = []) : (core.column candidate).bestFullScore = some 0 := by
  induction candidate using List.reverseRecOn with
  | nil => rw [column_nil, initialColumn, if_pos hquery]
  | append_singleton p c ih => rw [best_snoc, currentFullScore_eq, if_pos hquery, ih]; rfl

theorem best_eq_matrix (core : FzfCore) (candidate : List Char) :
    (core.column candidate).bestFullScore = (core.fullMatrix saturatingI32 candidate).best := by
  by_cases hquery : core.query = []
  · rw [best_of_query_eq_nil hquery]
    simp [FullMatrix.best, fullMatrix, hquery]
  have hlast : core.query.length - 1 < core.query.length := Nat.sub_lt (List.length_pos_of_ne_nil hquery) Nat.one_pos
  -- After `n` characters the column has the best score of the last row up to there.
  have hfold : ∀ n ≤ candidate.length, (core.column (candidate.take n)).bestFullScore =
      (List.range n).foldl (fun best column =>
        let last := (core.fullMatrix saturatingI32 candidate).cell (core.query.length - 1) (column + 1)
        if last.live then some (best.elim last.score fun best => max best last.score) else best) none := by
    intro n hn
    induction n with
    | zero => simp [initialColumn, hquery]
    | succ n ih =>
      have hstores := stores_cell hn hlast
      rw [List.take_succ_eq_append_getElem hn] at hstores ⊢
      rw [best_snoc, currentFullScore_eq, if_neg hquery, List.range_succ, List.foldl_append, ← ih (Nat.le_of_succ_le hn)]
      simp only [List.foldl_cons, List.foldl_nil, hstores.reachable, hstores.score]
      generalize (core.column (candidate.take n)).bestFullScore = best
      split
      · cases best <;> rfl
      · cases best <;> rfl
  have hall := hfold candidate.length le_rfl
  have hquery' : (core.fullMatrix saturatingI32 candidate).query ≠ [] := hquery
  have hlength : (core.fullMatrix saturatingI32 candidate).candidate.length = candidate.length := List.length_map _
  rw [List.take_length] at hall
  rw [hall, FullMatrix.best, if_neg hquery', hlength]
  rfl

/-! ### Without saturation -/

/-- What a perfect alignment of the query up to row `i` scores. -/
def perfectScore (core : FzfCore) (i : Nat) : Int := 16 + 2 * core.maxBonus + i * (16 + core.maxBonus)

theorem perfectScore_succ : core.perfectScore (i + 1) = core.perfectScore i + (16 + core.maxBonus) := by
  simp only [perfectScore, Nat.cast_add, Nat.cast_one]
  ring

theorem WellFormed.perfectScore_nonneg (h : core.WellFormed) (i : Nat) : 16 + 2 * core.maxBonus ≤ core.perfectScore i := by
  obtain ⟨hge, -⟩ := h.maxBonus_bounds
  have hrest : 0 ≤ (i : Int) * (16 + core.maxBonus) := Int.mul_nonneg (Int.natCast_nonneg _) (by omega)
  rw [perfectScore]
  omega

theorem score_joinCell_of_not_reachable {gap : Option Int} {run : Option (Nat × Int × Int)}
    (h : (joinCell gap run).reachable = false) : (joinCell gap run).score = 0 := by
  rw [joinCell_reachable] at h
  cases gap <;> cases run <;> first | rfl | cases h

/-- A cell scores at most a perfect alignment. -/
theorem WellFormed.score_le (h : core.WellFormed) (p : List Char) (i : Nat) :
    ((core.column p).cell i).score ≤ core.perfectScore i := by
  obtain ⟨hge, hle⟩ := h.maxBonus_bounds
  have hzero (i : Nat) : 0 ≤ core.perfectScore i := le_trans (by omega) (h.perfectScore_nonneg i)
  induction p using List.reverseRecOn generalizing i with
  | nil =>
    rw [cell_nil]
    exact hzero i
  | append_singleton p c ih =>
    by_cases hi : i < core.query.length
    · have hbonus := h.bonusFor_bounds (core.column p).previousClass (core.classify c)
      have hgap (i : Nat) (score : Int) (hscore : gapScore ((core.column p).cell i) = some score) :
          max score 0 ≤ core.perfectScore i :=
        max_le ((gapScore_le_score (h.cellBounds p i).score_nonneg hscore).trans (ih i)) (hzero i)
      rw [cell_snoc hi, nextCell]
      cases i with
      | zero =>
        rw [if_pos rfl, firstCell]
        split
        · refine le_trans ?_ (h.perfectScore_nonneg 0)
          show saturatingI32 (16 + saturatingI32 (_ * 2)) ≤ _
          unfold saturatingI32 i32Min i32Max
          omega
        · split
          · rename_i score hscore
            exact hgap 0 score hscore
          · exact hzero 0
      | succ i =>
        rw [if_neg (Nat.succ_ne_zero i), Nat.add_sub_cancel, laterCell]
        generalize hrun : (if (core.query[i + 1]? == some (core.comparable c)) && ((core.column p).cell i).reachable then
          some (matchedCell (core.bonusFor (core.column p).previousClass (core.classify c)) ((core.column p).cell i)) else none) =
            run
        cases hreachable : (joinCell (gapScore ((core.column p).cell (i + 1))) run).reachable with
        | false => exact (score_joinCell_of_not_reachable hreachable).le.trans (hzero _)
        | true =>
          rcases joinCell_score_le hreachable with ⟨score, hscore, hle⟩ | ⟨m, hm, hle⟩
          · exact hle.trans (hgap (i + 1) score hscore)
          · obtain ⟨-, hm⟩ := Option.ite_none_right_eq_some.mp (hrun.trans hm)
            have hmatch := matchedCell_score_le h hbonus (h.cellBounds p i)
            rw [Option.some.inj hm] at hmatch
            refine hle.trans (max_le (hmatch.trans ?_) (hzero _))
            rw [perfectScore_succ]
            exact add_le_add (ih i) le_rfl
    · rw [cell_of_le (Nat.le_of_not_lt hi)]
      exact hzero i

/-- Within the type, a cell of the matrices over the integers is that of the saturating ones. -/
theorem exact_gapScore {left : MatrixCell} (hnonneg : 0 ≤ left.score) (hle : left.score ≤ i32Max) :
    (core.fullMatrix id candidate).gapScore left = (core.fullMatrix saturatingI32 candidate).gapScore left := by
  have hsum : saturatingI32 (left.score + if left.inGap then scoreGapExtension else scoreGapStart) =
      left.score + if left.inGap then scoreGapExtension else scoreGapStart := by
    unfold saturatingI32 i32Min i32Max at *
    unfold scoreGapExtension scoreGapStart
    split <;> omega
  simp [FullMatrix.gapScore, fullMatrix, hsum]

theorem WellFormed.bonusAt_bounds (h : core.WellFormed) {clamp : Int → Int} (n : Nat) :
    0 ≤ (core.fullMatrix clamp candidate).bonusAt n ∧ (core.fullMatrix clamp candidate).bonusAt n ≤ core.maxBonus := by
  by_cases hn : n < candidate.length
  · rw [bonusAt_eq hn]
    exact h.bonusFor_bounds _ _
  · have hnone : (core.bonuses candidate)[n]? = none := by simp [bonuses]; omega
    have hzero : (core.fullMatrix clamp candidate).bonusAt n = 0 := by simp [FullMatrix.bonusAt, fullMatrix, hnone]
    rw [hzero]
    exact h.of_le_eight (by decide)

theorem WellFormed.exact_first (h : core.WellFormed) {left : MatrixCell} (hnonneg : 0 ≤ left.score) (hle : left.score ≤ i32Max) :
    (core.fullMatrix id candidate).firstRowCell n left = (core.fullMatrix saturatingI32 candidate).firstRowCell n left := by
  obtain ⟨hge, hmax⟩ := h.maxBonus_bounds
  have hbonus : 0 ≤ (core.fullMatrix saturatingI32 candidate).bonusAt n ∧ _ := h.bonusAt_bounds n
  have hgap : (core.fullMatrix id candidate).gapScore left = _ := exact_gapScore hnonneg hle
  have hbonusEq : (core.fullMatrix id candidate).bonusAt n = (core.fullMatrix saturatingI32 candidate).bonusAt n := rfl
  have hmatch : (core.fullMatrix id candidate).matchesAt 0 n = (core.fullMatrix saturatingI32 candidate).matchesAt 0 n := rfl
  unfold FullMatrix.firstRowCell
  rw [hgap, hbonusEq, hmatch]
  generalize (core.fullMatrix saturatingI32 candidate).bonusAt n = bonus at hbonus
  have hsum : saturatingI32 (scoreMatch + saturatingI32 (bonus * bonusFirstCharMultiplier)) =
      scoreMatch + bonus * bonusFirstCharMultiplier := by
    unfold saturatingI32 i32Min i32Max scoreMatch bonusFirstCharMultiplier
    omega
  simp only [fullMatrix, id, hsum]
  rfl

theorem WellFormed.exact_matched (h : core.WellFormed) {diagonal : MatrixCell} (hnonneg : 0 ≤ diagonal.score)
    (hle : diagonal.score + (16 + core.maxBonus) ≤ i32Max) :
    (core.fullMatrix id candidate).matchedAt n diagonal = (core.fullMatrix saturatingI32 candidate).matchedAt n diagonal := by
  obtain ⟨hge, hmax⟩ := h.maxBonus_bounds
  have hbonus : 0 ≤ (core.fullMatrix saturatingI32 candidate).bonusAt n ∧ _ := h.bonusAt_bounds n
  have hfirst : 0 ≤ (core.fullMatrix saturatingI32 candidate).bonusAt (n + 1 - (diagonal.consecutive + 1)) ∧ _ :=
    h.bonusAt_bounds _
  have hbonusEq (n : Nat) : (core.fullMatrix id candidate).bonusAt n = (core.fullMatrix saturatingI32 candidate).bonusAt n := rfl
  unfold FullMatrix.matchedAt
  simp only [hbonusEq]
  generalize (core.fullMatrix saturatingI32 candidate).bonusAt n = bonus at hbonus
  generalize (core.fullMatrix saturatingI32 candidate).bonusAt (n + 1 - (diagonal.consecutive + 1)) = first at hfirst
  have hsum (applied : Int) (happlied : 0 ≤ applied ∧ applied ≤ core.maxBonus) :
      saturatingI32 (saturatingI32 (diagonal.score + scoreMatch) + applied) = diagonal.score + scoreMatch + applied := by
    unfold saturatingI32 i32Min i32Max at *
    unfold scoreMatch
    omega
  have hextended : 0 ≤ max (max bonus bonusConsecutive) first ∧ max (max bonus bonusConsecutive) first ≤ core.maxBonus :=
    ⟨le_max_of_le_right hfirst.1, max_le (max_le hbonus.2 (h.of_le_eight (by decide)).2) hfirst.2⟩
  simp only [fullMatrix, id, hsum bonus hbonus, hsum _ hextended]

/-- Where no score reaches the end of `i32`, the recurrence is the one over the integers. -/
theorem WellFormed.exact_cell (h : core.WellFormed) (hfits : core.perfectScore (core.query.length - 1) ≤ i32Max)
    (hn : n ≤ candidate.length) (hi : i < core.query.length) :
    (core.fullMatrix id candidate).cell i n = (core.fullMatrix saturatingI32 candidate).cell i n := by
  obtain ⟨hge, -⟩ := h.maxBonus_bounds
  have hmono (i : Nat) (hi : i < core.query.length) : core.perfectScore i ≤ i32Max := by
    refine le_trans ?_ hfits
    have : (i : Int) * (16 + core.maxBonus) ≤ ((core.query.length - 1 : Nat) : Int) * (16 + core.maxBonus) :=
      Int.mul_le_mul_of_nonneg_right (by omega) (by omega)
    rw [perfectScore, perfectScore]
    omega
  have hbounds (i n : Nat) (hn : n ≤ candidate.length) (hi : i < core.query.length) :
      0 ≤ ((core.fullMatrix saturatingI32 candidate).cell i n).score ∧
        ((core.fullMatrix saturatingI32 candidate).cell i n).score ≤ core.perfectScore i := by
    rw [← (stores_cell hn hi).score]
    exact ⟨(h.cellBounds _ i).score_nonneg, h.score_le _ i⟩
  induction n generalizing i with
  | zero =>
    cases i with
    | zero => rfl
    | succ i => rfl
  | succ n ih =>
    have hn' : n ≤ candidate.length := Nat.le_of_succ_le hn
    obtain ⟨hnonneg, hle⟩ := hbounds i n hn' hi
    cases i with
    | zero =>
      have hleft := ih hn' hi
      show (core.fullMatrix id candidate).firstRowCell n ((core.fullMatrix id candidate).cell 0 n) = _
      rw [hleft, h.exact_first hnonneg (hle.trans (hmono 0 hi))]
      rfl
    | succ i =>
      have hi' : i < core.query.length := Nat.lt_of_succ_lt hi
      obtain ⟨hnonneg', hle'⟩ := hbounds i n hn' hi'
      have hroom := hmono (i + 1) hi
      rw [perfectScore_succ] at hroom
      have hgap : (core.fullMatrix id candidate).gapScore _ = _ := exact_gapScore hnonneg (hle.trans (hmono _ hi))
      have hmatched : (core.fullMatrix id candidate).matchedAt n _ = _ :=
        h.exact_matched hnonneg' (le_trans (add_le_add hle' le_rfl) hroom)
      show (core.fullMatrix id candidate).laterRowCell (i + 1) n ((core.fullMatrix id candidate).cell (i + 1) n)
        ((core.fullMatrix id candidate).cell i n) = (core.fullMatrix saturatingI32 candidate).laterRowCell (i + 1) n _ _
      rw [ih hn' hi, ih hn' hi', FullMatrix.laterRowCell, FullMatrix.laterRowCell, hgap, hmatched]
      rfl

theorem WellFormed.exact_best (h : core.WellFormed) (hfits : core.perfectScore (core.query.length - 1) ≤ i32Max) :
    (core.fullMatrix id candidate).best = (core.fullMatrix saturatingI32 candidate).best := by
  unfold FullMatrix.best
  by_cases hquery : core.query = []
  · have hquery' (clamp : Int → Int) : (core.fullMatrix clamp candidate).query = [] := hquery
    rw [if_pos (hquery' id), if_pos (hquery' saturatingI32)]
  · have hquery' (clamp : Int → Int) : (core.fullMatrix clamp candidate).query ≠ [] := hquery
    rw [if_neg (hquery' id), if_neg (hquery' saturatingI32)]
    refine List.foldl_ext _ _ _ fun best column hcolumn => ?_
    have hn : column + 1 ≤ candidate.length := by simpa [fullMatrix] using hcolumn
    have hcell : (core.fullMatrix id candidate).cell (core.query.length - 1) (column + 1) = _ :=
      h.exact_cell hfits hn (Nat.sub_lt (List.length_pos_of_ne_nil hquery) Nat.one_pos)
    exact congrArg (fun last : MatrixCell =>
      if last.live then some (best.elim last.score fun best => max best last.score) else best) hcell

/-- The columns of a candidate are those of the full matrices, the bonus that a cell carries is that of the column where its
    run of matches begins, and their best scores agree. -/
theorem column_eq_fullMatrix {tables : UnicodeTables} {query : List Char} {config : FzfConfig}
    (hnew : new tables query config = .ok core) (candidate : List Char) :
    (∀ i < core.query.length, ∀ j < candidate.length,
      let cell := (core.column (candidate.take (j + 1))).cell i
      let entry := (core.fullMatrix saturatingI32 candidate).cell i (j + 1)
      (cell.score = entry.score ∧ cell.consecutive = entry.consecutive ∧ cell.inGap = entry.inGap ∧
        cell.reachable = entry.live) ∧
      (0 < cell.consecutive → cell.consecutive ≤ i + 1 ∧ cell.consecutive ≤ j + 1 ∧
        (∀ t < cell.consecutive, core.query[i - t]? = (candidate.map core.comparable)[j - t]?) ∧
        (core.bonuses candidate)[j + 1 - cell.consecutive]? = some cell.firstBonus)) ∧
    (core.column candidate).bestFullScore = (core.fullMatrix saturatingI32 candidate).best ∧
    (core.perfectScore (core.query.length - 1) ≤ i32Max →
      (∀ i < core.query.length, ∀ j < candidate.length, ((core.column (candidate.take (j + 1))).cell i).score =
        ((core.fullMatrix id candidate).cell i (j + 1)).score) ∧
      (core.column candidate).bestFullScore = (core.fullMatrix id candidate).best) := by
  have hwf := wellFormed_of_new hnew
  refine ⟨?_, best_eq_matrix core candidate, ?_⟩
  · intro i hi j hj
    have hstores : core.Stores candidate i (j + 1) _ _ := stores_cell hj hi
    refine ⟨⟨hstores.score, hstores.consecutive, hstores.inGap, hstores.reachable⟩, fun hpos => ?_⟩
    have hrun := hstores.run hpos
    exact ⟨hrun.rows, hrun.columns, hrun.characters, hrun.firstBonus⟩
  · intro hfits
    refine ⟨fun i hi j hj => ?_, ?_⟩
    · rw [hwf.exact_cell hfits hj hi]
      exact (stores_cell hj hi).score
    · rw [hwf.exact_best hfits]
      exact best_eq_matrix core candidate

/-- With the query "bb" and the candidate "abb", the run of two carries the bonus of the second column. -/
theorem column_eq_fullMatrix_bb : ∃ core, new FzfStateSource.asciiTables ['b', 'b'] FzfStateSource.defaultConfig = .ok core ∧
    ((core.column ['a', 'b', 'b']).cell 1).consecutive = 2 ∧
    (core.bonuses ['a', 'b', 'b'])[1]? = some ((core.column ['a', 'b', 'b']).cell 1).firstBonus ∧
    (core.column ['a', 'b', 'b']).bestFullScore = (core.fullMatrix id ['a', 'b', 'b']).best := by
  have hnew : new FzfStateSource.asciiTables ['b', 'b'] FzfStateSource.defaultConfig =
      .ok ⟨FzfStateSource.asciiTables, ['b', 'b'], FzfStateSource.defaultConfig, 10⟩ := rfl
  obtain ⟨hcells, -, hexact⟩ := column_eq_fullMatrix hnew ['a', 'b', 'b']
  obtain ⟨-, hrun⟩ := hcells 1 (by decide) 2 (by decide)
  refine ⟨_, hnew, by decide, ?_, (hexact (by decide)).2⟩
  exact (hrun (by decide)).2.2.2

end FzfCore
end Duallity
