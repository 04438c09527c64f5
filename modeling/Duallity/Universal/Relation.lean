import Duallity.Lib.EditDistance
import Duallity.TrieDictionary
import Duallity.Universal.PositionAutomaton
import Duallity.Universal.Exploration

/-! The relation that the graph of the Universal source accepts: the query with the words within the bound, at the
    distance that the automaton measures, as long as no successor is dropped for lack of an id. -/

namespace Duallity.UniversalLevenshteinStateSource
open DictionaryNodeRegistry StateEncoding UniversalProduct LazySource
variable {N U σ β κ : Type} [CharUnit U] [DecidableEq κ] {A : UniversalAutomaton σ β κ} {D : FiniteDictionary N U}
  {q : List Char} {k : Nat} {r r' : UniversalRegistries N σ κ} {state : Nat} {t : SpelledState}
  {log : List (Nat × Expansion Nat Char Char Nat)}

variable (A q k) in
/-- What is assumed of the automaton: the state after a word accepts exactly within the bound, at the distance to
    the query, and where there is no transition, no extension is within the bound. -/
structure Measures (d : List Char → List Char → Nat) : Prop where
  accepts : ∀ {w u}, run A q k w = some u →
    A.acceptingDistance u q.length w.length = if d q w ≤ k then some (d q w) else none
  undefined : ∀ {w u c}, run A q k w = some u → UniversalProduct.read A q k u w.length c = none →
    ∀ w', k < d q (w ++ c :: w')

omit [DecidableEq κ] in
/-- A word without a state has no extension within the bound. -/
theorem Measures.lt_of_run_eq_none {d : List Char → List Char → Nat} (h : Measures A q k d) {w : List Char}
    (hrun : run A q k w = none) (w' : List Char) : k < d q (w ++ w') := by
  induction w using List.reverseRecOn generalizing w' with
  | nil => cases hrun
  | append_singleton w c ih =>
    rw [List.append_assoc]
    cases hw : run A q k w with
    | none => exact ih hw _
    | some u =>
      rw [run_snoc, hw, Option.bind_some] at hrun
      exact h.undefined hw hrun w'

/-- `u8::MAX`, the largest distance bound. -/
def u8Max : Nat := 255

omit [DecidableEq κ] in
/-- A run that accepts measures the distance, and so does the word of a distance within the bound. -/
theorem Measures.run_iff {d : List Char → List Char → Nat} (hd : Measures A q k d) (hk : k ≤ u8Max) {w : List Char} {v : Nat} :
    (∃ u, run A q k w = some u ∧ A.acceptingDistance u q.length w.length = some v ∧ v ≤ 9007199254740992) ↔
      d q w ≤ k ∧ v = d q w := by
  constructor
  · rintro ⟨u, hrun, hacc, -⟩
    rw [hd.accepts hrun] at hacc
    split at hacc
    · exact ⟨‹_›, (Option.some.inj hacc).symm⟩
    · cases hacc
  · rintro ⟨hle, rfl⟩
    cases hrun : run A q k w with
    | none =>
      have := hd.lt_of_run_eq_none hrun []
      rw [List.append_nil] at this
      omega
    | some u =>
      refine ⟨u, rfl, by rw [hd.accepts hrun, if_pos hle], ?_⟩
      have : (255 : Nat) ≤ 9007199254740992 := by decide
      exact (hle.trans hk).trans this

/-- When no successor is dropped, as when each is offered an id and all products fit `u32`, the graph accepts exactly the query with the
    words within the bound, each path with the distance as its weight. -/
theorem distance_relation {d : List Char → List Char → Nat} (hkey : Function.Injective A.key) (hd : Measures A q k d) (hk : k ≤ u8Max)
    (hE : Explored A D q k log r ∨ D.prefixes.ncard * (sourceOf A D q k).maxAutomatonStates ≤ u32Count ∧
      ((sourceOf A D q k).source.restrict (OffersIds (sourceOf A D q k))).ExploresFrom start (initial A D q k) log r)
    (hc : Complete log start) {x w : List Char} {v : Nat} :
    (graph log).Accepts start x w v ↔ x = q ∧ w ∈ D.words ∧ d q w ≤ k ∧ v = d q w := by
  have hE : Explored A D q k log r := hE.elim id fun h => explored_of_offersIds hkey h.1 h.2
  rw [accepts_machine_iff hkey hE hc, UniversalProduct.accepts_iff]
  exact and_congr_right fun _ => and_congr_right fun _ => hd.run_iff hk

/-! ### The query of one character -/

theorem levenshtein_singleton (a : Char) (w : List Char) :
    EditDistance.levenshtein [a] w = if a ∈ w then w.length - 1 else max 1 w.length := by
  induction w with
  | nil => simp [EditDistance.levenshtein_nil_right]
  | cons b w ih =>
    rw [EditDistance.levenshtein_cons_cons, ih, EditDistance.levenshtein_nil_left, EditDistance.levenshtein_nil_left]
    have hmem : a ∈ w → 0 < w.length := List.length_pos_of_mem
    by_cases hb : a = b
    · rw [if_pos hb, if_pos (List.mem_cons.mpr (Or.inl hb)), List.length_cons]
      split <;> omega
    · rw [if_neg hb, List.length_cons]
      simp only [List.mem_cons, hb, false_or]
      split
      · rename_i h
        have := hmem h
        omega
      · omega

/-- The position automaton reads a character by its comparisons with the query. -/
theorem read_congr {c c' : Char} (h : ∀ x ∈ q, (x == c) = (x == c')) (s : PositionState) (depth : Nat) :
    UniversalProduct.read positionAutomaton q k s depth c = UniversalProduct.read positionAutomaton q k s depth c' := by
  have hunits : ∀ x ∈ (relevantWindowAt q k (depth + 1)).units, x ∈ q := by
    intro x hx
    simp only [relevantWindowAt] at hx
    split at hx
    · exact List.mem_of_mem_take (List.mem_of_mem_drop hx)
    · cases hx
  simp only [UniversalProduct.read, positionAutomaton, List.map_congr_left fun x hx => h x (hunits x hx)]

/-- Whatever differs from `a` is read as `b` is. -/
theorem read_of_ne {c : Char} (hc : c ≠ 'a') (s : PositionState) (depth : Nat) :
    UniversalProduct.read positionAutomaton ['a'] k s depth c = UniversalProduct.read positionAutomaton ['a'] k s depth 'b' :=
  read_congr (by simp [Ne.symm hc]) s depth

theorem read_start : UniversalProduct.read positionAutomaton ['a'] 1 ⟨1, [⟨1, 0⟩]⟩ 0 'a' = some ⟨1, [⟨1, 0⟩]⟩ ∧
    UniversalProduct.read positionAutomaton ['a'] 1 ⟨1, [⟨1, 0⟩]⟩ 0 'b' = some ⟨1, [⟨0, 1⟩, ⟨1, 1⟩]⟩ := by decide

theorem read_matched : UniversalProduct.read positionAutomaton ['a'] 1 ⟨1, [⟨1, 0⟩]⟩ 1 'a' = some ⟨1, [⟨0, 1⟩]⟩ ∧
    UniversalProduct.read positionAutomaton ['a'] 1 ⟨1, [⟨1, 0⟩]⟩ 1 'b' = some ⟨1, [⟨0, 1⟩]⟩ := by decide

theorem read_replaced : UniversalProduct.read positionAutomaton ['a'] 1 ⟨1, [⟨0, 1⟩, ⟨1, 1⟩]⟩ 1 'a' = some ⟨1, [⟨0, 1⟩]⟩ ∧
    UniversalProduct.read positionAutomaton ['a'] 1 ⟨1, [⟨0, 1⟩, ⟨1, 1⟩]⟩ 1 'b' = none := by decide

theorem read_inserted : UniversalProduct.read positionAutomaton ['a'] 1 ⟨1, [⟨0, 1⟩]⟩ 2 'a' = none ∧
    UniversalProduct.read positionAutomaton ['a'] 1 ⟨1, [⟨0, 1⟩]⟩ 2 'b' = none := by decide

/-- The words within distance 1 of the query `a`, and the states after them. -/
theorem run_a {w : List Char} {u : PositionState} (h : run positionAutomaton ['a'] 1 w = some u) :
    w = [] ∧ u = ⟨1, [⟨1, 0⟩]⟩ ∨ w = ['a'] ∧ u = ⟨1, [⟨1, 0⟩]⟩ ∨ (∃ c ≠ 'a', w = [c]) ∧ u = ⟨1, [⟨0, 1⟩, ⟨1, 1⟩]⟩ ∨
      (∃ c d, w = [c, d] ∧ 'a' ∈ w) ∧ u = ⟨1, [⟨0, 1⟩]⟩ := by
  induction w using List.reverseRecOn generalizing u with
  | nil => exact Or.inl ⟨rfl, (Option.some.inj h).symm⟩
  | append_singleton w c ih =>
    rw [run_snoc] at h
    obtain ⟨u', hu', hread⟩ := Option.bind_eq_some_iff.mp h
    rcases ih hu' with ⟨rfl, rfl⟩ | ⟨rfl, rfl⟩ | ⟨⟨d, hd, rfl⟩, rfl⟩ | ⟨⟨d, e, rfl, -⟩, rfl⟩
    · rw [List.length_nil] at hread
      by_cases hc : c = 'a'
      · rw [hc, read_start.1, Option.some.injEq] at hread
        exact Or.inr (Or.inl ⟨by rw [hc]; rfl, hread.symm⟩)
      · rw [read_of_ne hc, read_start.2, Option.some.injEq] at hread
        exact Or.inr (Or.inr (Or.inl ⟨⟨c, hc, rfl⟩, hread.symm⟩))
    · refine Or.inr (Or.inr (Or.inr ⟨⟨'a', c, rfl, by simp⟩, ?_⟩))
      rw [List.length_singleton] at hread
      by_cases hc : c = 'a'
      · rw [hc, read_matched.1, Option.some.injEq] at hread
        exact hread.symm
      · rw [read_of_ne hc, read_matched.2, Option.some.injEq] at hread
        exact hread.symm
    · rw [List.length_singleton] at hread
      by_cases hc : c = 'a'
      · rw [hc, read_replaced.1, Option.some.injEq] at hread
        exact Or.inr (Or.inr (Or.inr ⟨⟨d, 'a', by rw [hc]; rfl, by simp [hc]⟩, hread.symm⟩))
      · rw [read_of_ne hc, read_replaced.2] at hread
        cases hread
    · by_cases hc : c = 'a'
      · rw [hc, show [d, e].length = 2 from rfl, read_inserted.1] at hread
        cases hread
      · rw [read_of_ne hc, show [d, e].length = 2 from rfl, read_inserted.2] at hread
        cases hread

/-- Within distance 1, the position automaton measures the Levenshtein distance to the query `a`. -/
theorem measures_a : Measures positionAutomaton ['a'] 1 EditDistance.levenshtein where
  accepts {w u} h := by
    rw [levenshtein_singleton]
    rcases run_a h with ⟨rfl, rfl⟩ | ⟨rfl, rfl⟩ | ⟨⟨c, hc, rfl⟩, rfl⟩ | ⟨⟨c, d, rfl, hmem⟩, rfl⟩
    · decide
    · decide
    · rw [show (if 'a' ∈ [c] then [c].length - 1 else max 1 [c].length) = 1 by simp [Ne.symm hc]]
      exact (by decide : positionAutomaton.acceptingDistance ⟨1, [⟨0, 1⟩, ⟨1, 1⟩]⟩ 1 1 = some 1)
    · rw [if_pos hmem]
      exact (by decide : positionAutomaton.acceptingDistance ⟨1, [⟨0, 1⟩]⟩ 1 2 = some 1)
  undefined {w u c} h hnone w' := by
    rw [levenshtein_singleton]
    rcases run_a h with ⟨rfl, rfl⟩ | ⟨rfl, rfl⟩ | ⟨⟨d, hd, rfl⟩, rfl⟩ | ⟨⟨d, e, rfl, -⟩, rfl⟩
    · exfalso
      rw [List.length_nil] at hnone
      by_cases hc : c = 'a'
      · rw [hc, read_start.1] at hnone
        cases hnone
      · rw [read_of_ne hc, read_start.2] at hnone
        cases hnone
    · exfalso
      rw [List.length_singleton] at hnone
      by_cases hc : c = 'a'
      · rw [hc, read_matched.1] at hnone
        cases hnone
      · rw [read_of_ne hc, read_matched.2] at hnone
        cases hnone
    · have hc : c ≠ 'a' := by
        intro hc
        rw [hc, List.length_singleton, read_replaced.1] at hnone
        cases hnone
      split
      · rename_i hmem
        have hrest : 'a' ∈ w' := by simpa [Ne.symm hd, Ne.symm hc] using hmem
        have := List.length_pos_of_mem hrest
        simp
        omega
      · simp
    · split <;> simp

def fourWords : List (List Char) := [['a'], ['b'], ['a', 'b'], ['b', 'b']]

/-- Within distance 1 of the query `a`, the graph accepts three of the words, two of them with an edit. -/
theorem distance_relation_a : ∃ log r,
    ((sourceOf positionAutomaton (trie fourWords) ['a'] 1).source.restrict
      (OffersIds (sourceOf positionAutomaton (trie fourWords) ['a'] 1))).ExploresFrom start
      (initial positionAutomaton (trie fourWords) ['a'] 1) log r ∧ Complete log start ∧
    ∀ x w v, (graph log).Accepts start x w v ↔ x = ['a'] ∧ (w, v) ∈ [(['a'], 0), (['b'], 1), (['a', 'b'], 1)] := by
  have hprefixes : (trie fourWords).prefixes.ncard = 5 := by
    rw [show (trie fourWords).prefixes = _ from TrieDictionary.prefixes_eq, Set.ncard_coe_finset]
    decide
  have hwords : (trie fourWords).words = {w | w ∈ fourWords} := TrieDictionary.words_eq
  have hcard : (reachableKeys positionAutomaton (trie fourWords) ['a'] 1).ncard ≤
      (sourceOf positionAutomaton (trie fourWords) ['a'] 1).maxAutomatonStates :=
    ncard_reachableKeys_le.trans (by rw [hprefixes]; decide)
  have hfits : (trie fourWords).prefixes.ncard * (sourceOf positionAutomaton (trie fourWords) ['a'] 1).maxAutomatonStates ≤ u32Count := by
    rw [hprefixes]
    decide
  obtain ⟨log, r, hE, hc⟩ := exists_exploration positionAutomaton_key_injective (trie fourWords) ['a'] 1
  have hoffers := offersIds_of_idsSuffice positionAutomaton_key_injective
    (fun _ _ => idsSuffice_of_ncard_le positionAutomaton_key_injective hcard) hE
  refine ⟨log, r, hoffers, hc, fun x w v => ?_⟩
  rw [distance_relation positionAutomaton_key_injective measures_a (by decide) (Or.inr ⟨hfits, hoffers⟩) hc, hwords,
    levenshtein_singleton]
  refine and_congr_right fun _ => ?_
  constructor
  · rintro ⟨hw, hle, rfl⟩
    have hcases : w = ['a'] ∨ w = ['b'] ∨ w = ['a', 'b'] ∨ w = ['b', 'b'] := by simpa [fourWords] using hw
    rcases hcases with rfl | rfl | rfl | rfl
    · decide
    · decide
    · decide
    · exact absurd hle (by decide)
  · intro h
    have hcases : w = ['a'] ∧ v = 0 ∨ w = ['b'] ∧ v = 1 ∨ w = ['a', 'b'] ∧ v = 1 := by simpa using h
    rcases hcases with ⟨rfl, rfl⟩ | ⟨rfl, rfl⟩ | ⟨rfl, rfl⟩
    · exact ⟨by simp [fourWords], by decide, by decide⟩
    · exact ⟨by simp [fourWords], by decide, by decide⟩
    · exact ⟨by simp [fourWords], by decide, by decide⟩

end Duallity.UniversalLevenshteinStateSource
