import Duallity.TrieDictionary
import Duallity.Universal.Exploration
import Duallity.Universal.PositionAutomaton

/-! The number of ids that the Universal source plans for interned states. It is enough exactly when the reachable keys
    are no more than that, and there are inputs with more: the plan counts positions, while states are sets of
    positions. -/

namespace Duallity.UniversalLevenshteinStateSource
open DictionaryNodeRegistry StateEncoding UniversalProduct LazySource
variable {N U σ β κ : Type} [CharUnit U] [DecidableEq κ] {A : UniversalAutomaton σ β κ} {D : FiniteDictionary N U}
  {q : List Char} {k : Nat} {r : UniversalRegistries N σ κ} {log : List (Nat × Expansion Nat Char Char Nat)}

variable (A D q k) in
/-- In every exploration the interned keys stay within the planned number, every successor of a state that has been
    reached is offered an id for its interned state, and no word that the automaton accepts is lost as long as all
    products of ids fit `u32`. -/
structure BudgetSuffices : Prop where
  size_le : ∀ log r, (sourceOf A D q k).source.ExploresFrom start (initial A D q k) log r →
    r.2.size ≤ (sourceOf A D q k).maxAutomatonStates
  ids : ∀ log r, (sourceOf A D q k).source.ExploresFrom start (initial A D q k) log r →
    IdsSuffice (sourceOf A D q k) log r
  words : D.prefixes.ncard * (sourceOf A D q k).maxAutomatonStates ≤ u32Count →
    ∀ log r, (sourceOf A D q k).source.ExploresFrom start (initial A D q k) log r → Complete log start →
      ∀ x w v, (machine A D.toDictionary q k).Accepts UniversalProduct.start x w v → (graph log).Accepts start x w v

theorem budgetSuffices_of_ncard_le (hkey : Function.Injective A.key)
    (h : (reachableKeys A D q k).ncard ≤ (sourceOf A D q k).maxAutomatonStates) : BudgetSuffices A D q k where
  size_le log r hE := (denotes_of_reached hkey hE (Or.inl rfl)).1.size_le
  ids log r hE := idsSuffice_of_ncard_le hkey h hE
  words hfits log r hE hc x w v hacc := by
    have hexplored := explored_of_idsSuffice hkey hfits (fun _ _ => idsSuffice_of_ncard_le hkey h) hE
    exact (accepts_machine_iff hkey hexplored hc).mpr hacc

/-- When ids suffice and all products fit, a complete exploration has an id for each reachable key. -/
theorem ncard_le_of_idsSuffice (hkey : Function.Injective A.key)
    (hfits : D.prefixes.ncard * (sourceOf A D q k).maxAutomatonStates ≤ u32Count)
    (h : ∀ log r, (sourceOf A D q k).source.ExploresFrom start (initial A D q k) log r →
      IdsSuffice (sourceOf A D q k) log r) :
    (reachableKeys A D q k).ncard ≤ (sourceOf A D q k).maxAutomatonStates := by
  rcases exists_exploration hkey D q k with ⟨log, r, hE, hc⟩
  have hkeys := keys_of_complete hkey (explored_of_idsSuffice hkey hfits h hE) hc
  exact (Interner.ncard_le_size hkeys).trans (denotes_of_reached hkey hE (Or.inl rfl)).1.size_le

/-- The planned number suffices when the reachable keys are no more; unless ids of products run out, this is also
    necessary. -/
theorem budgetSuffices_iff (hkey : Function.Injective A.key) :
    ((reachableKeys A D q k).ncard ≤ (sourceOf A D q k).maxAutomatonStates → BudgetSuffices A D q k) ∧
    (D.prefixes.ncard * (sourceOf A D q k).maxAutomatonStates ≤ u32Count →
      (BudgetSuffices A D q k ↔ (reachableKeys A D q k).ncard ≤ (sourceOf A D q k).maxAutomatonStates)) :=
  ⟨budgetSuffices_of_ncard_le hkey, fun hfits =>
    ⟨fun h => ncard_le_of_idsSuffice hkey hfits h.ids, budgetSuffices_of_ncard_le hkey⟩⟩

/-- The planned number suffices for a dictionary with one word and no error. -/
theorem budgetSuffices_iff_singleton : BudgetSuffices positionAutomaton (trie [['a']]) ['a'] 0 := by
  have hprefixes : (trie [['a']]).prefixes.ncard = 2 := by
    rw [show (trie [['a']]).prefixes = _ from TrieDictionary.prefixes_eq, Set.ncard_coe_finset]
    decide
  exact (budgetSuffices_iff positionAutomaton_key_injective).1
    (ncard_reachableKeys_le.trans (by rw [hprefixes]; decide))

/-! ### More states than planned -/

variable (A q k) in
/-- The keys of the state after a label sequence. -/
def keysAfter (p : List Char) : List (UniversalStateKey κ) :=
  (List.range' (min p.length q.length) (q.length + 1 - min p.length q.length)).map fun c =>
    ⟨c, ((run A q k p).map A.key).getD (A.key (A.initial k))⟩

omit [DecidableEq κ] in
theorem mem_keysAfter {p : List Char} {key : UniversalStateKey κ} (h : key ∈ keysAfter A q k p) (hp : p ∈ D.prefixes)
    (hrun : (run A q k p).isSome) : key ∈ reachableKeys A D q k := by
  rcases Option.isSome_iff_exists.mp hrun with ⟨u, hu⟩
  rcases List.mem_map.mp h with ⟨c, hc, rfl⟩
  rw [List.mem_range'_1] at hc
  refine ⟨p, hp, u, hu, hc.1, ?_, by simp only [hu, Option.map_some, Option.getD_some]⟩
  simp only
  omega

omit [DecidableEq κ] in
/-- Label sequences with distinct states bring distinct keys, one for each of their cursors. -/
theorem sum_le_ncard (ps : List (List Char)) (hps : ∀ p ∈ ps, p ∈ D.prefixes ∧ (run A q k p).isSome)
    (hnodup : (ps.map fun p => (run A q k p).map A.key).Nodup) :
    (ps.map fun p => q.length + 1 - min p.length q.length).sum ≤ (reachableKeys A D q k).ncard := by
  classical
  have hkeys : (ps.flatMap (keysAfter A q k)).Nodup := by
    refine List.nodup_flatMap.mpr ⟨fun p _ => ?_, ?_⟩
    · have hrange : (List.range' (min p.length q.length) (q.length + 1 - min p.length q.length)).Nodup := List.nodup_range'
      refine hrange.map ?_
      intro c c' h
      exact congrArg UniversalStateKey.queryPos h
    · -- Keys of distinct states differ.
      refine (List.pairwise_map.mp hnodup).imp_of_mem ?_
      intro p p' hp hp' hne key hmem hmem'
      rcases Option.isSome_iff_exists.mp (hps p hp).2 with ⟨u, hu⟩
      rcases Option.isSome_iff_exists.mp (hps p' hp').2 with ⟨u', hu'⟩
      rcases List.mem_map.mp hmem with ⟨c, -, rfl⟩
      rcases List.mem_map.mp hmem' with ⟨c', -, heq⟩
      simp only [hu, hu', Option.map_some, Option.getD_some, UniversalStateKey.mk.injEq] at heq hne
      exact hne (congrArg some heq.2.symm)
  have hlength : (ps.flatMap (keysAfter A q k)).length = (ps.map fun p => q.length + 1 - min p.length q.length).sum := by
    simp only [List.length_flatMap, keysAfter, List.length_map, List.length_range']
  rw [← hlength, ← List.toFinset_card_of_nodup hkeys, ← Set.ncard_coe_finset]
  refine Set.ncard_le_ncard ?_ reachableKeys_finite
  intro key hkey
  rcases List.mem_flatMap.mp (List.mem_toFinset.mp hkey) with ⟨p, hp, hmem⟩
  exact mem_keysAfter hmem (hps p hp).1 (hps p hp).2

/-- Words with distinct states of the query `abcdef` within distance 3. -/
def crowdedWords : List (List Char) :=
  ["", "b", "c", "d", "e", "ba", "bb", "bc", "bd", "be", "bf", "ca", "cd", "ce", "cf", "da", "de", "df", "baa",
    "bad", "bae", "bbb", "bbc", "bbd", "bbe", "bca", "bcc", "bcd", "bce", "bcf", "bda", "bdb", "bdc", "bdd", "bde",
    "bdf", "bdx", "bea", "beb", "bec", "bef", "bex", "caa", "cae", "cea", "ceb", "cee", "cef", "cex", "baaa",
    "baab", "baae", "baef", "bbbb", "bbbc", "bbbd", "bbbe", "bbcb", "bbcd", "bbce", "bbcf", "bbdc", "bbde", "bbdf",
    "bbef", "bcca", "bccc", "bccd", "bcce", "bccf", "bcda", "bcdb", "bcdc", "bcde", "bcdf", "bcea", "bced", "bcef",
    "bdaa", "bdad", "bdae", "bdaf", "bdbb", "bdbe", "bdbf", "bdca", "bdcc", "bdcf", "bdda", "bddb", "bddd"].map String.toList

def crowdedQuery : List Char := "abcdef".toList

theorem crowded_planned :
    (sourceOf positionAutomaton (trie crowdedWords) crowdedQuery 3).maxAutomatonStates = 343 := by decide

theorem crowded_nodup : (crowdedWords.map fun p =>
    (run positionAutomaton crowdedQuery 3 p).map positionAutomaton.key).Nodup := by decide +kernel

theorem crowded_run : ∀ p ∈ crowdedWords, (run positionAutomaton crowdedQuery 3 p).isSome := by decide +kernel

theorem crowded_sum : (crowdedWords.map fun p =>
    crowdedQuery.length + 1 - min p.length crowdedQuery.length).sum = 346 := by decide +kernel

theorem crowded_fits : (trie crowdedWords).prefixes.ncard *
    (sourceOf positionAutomaton (trie crowdedWords) crowdedQuery 3).maxAutomatonStates ≤ u32Count := by
  rw [show (trie crowdedWords).prefixes = _ from TrieDictionary.prefixes_eq, Set.ncard_coe_finset, crowded_planned]
  have hlength : ([] :: crowdedWords.flatMap List.inits).length ≤ 1000 := by decide +kernel
  have := (List.toFinset_card_le ([] :: crowdedWords.flatMap List.inits)).trans hlength
  exact (Nat.mul_le_mul_right 343 this).trans (by decide)

theorem crowded_exceeds : (sourceOf positionAutomaton (trie crowdedWords) crowdedQuery 3).maxAutomatonStates <
    (reachableKeys positionAutomaton (trie crowdedWords) crowdedQuery 3).ncard := by
  have hwords : ∀ p ∈ crowdedWords, p ∈ (trie crowdedWords).prefixes := by
    intro p hp
    exact TrieDictionary.mem_prefixes.mpr (Or.inr ⟨p, hp, List.prefix_refl p⟩)
  have := sum_le_ncard (D := trie crowdedWords) crowdedWords (fun p hp => ⟨hwords p hp, crowded_run p hp⟩) crowded_nodup
  rw [crowded_planned]
  exact lt_of_lt_of_le (by decide : 343 < 346) (crowded_sum ▸ this)

/-- Over these words, some exploration reaches a state of which a successor is skipped for lack of an id. -/
theorem not_budgetSuffices :
    (∃ log r s key, (sourceOf positionAutomaton (trie crowdedWords) crowdedQuery 3).source.ExploresFrom start
      (initial positionAutomaton (trie crowdedWords) crowdedQuery 3) log r ∧ Reached log start s ∧
      key ∈ (sourceOf positionAutomaton (trie crowdedWords) crowdedQuery 3).successorKeys r s ∧
      ∀ i, r.2.candidate u32Count key = some i → 343 ≤ i) ∧
    ¬BudgetSuffices positionAutomaton (trie crowdedWords) crowdedQuery 3 := by
  have hids : ¬∀ log r, (sourceOf positionAutomaton (trie crowdedWords) crowdedQuery 3).source.ExploresFrom start
      (initial positionAutomaton (trie crowdedWords) crowdedQuery 3) log r →
      IdsSuffice (sourceOf positionAutomaton (trie crowdedWords) crowdedQuery 3) log r := by
    intro h
    have hle := ncard_le_of_idsSuffice positionAutomaton_key_injective crowded_fits h
    exact absurd hle (Nat.not_le_of_lt crowded_exceeds)
  refine ⟨?_, fun h => hids h.ids⟩
  simp only [IdsSuffice, not_forall, not_exists, not_and] at hids
  rcases hids with ⟨log, r, hE, s, hs, key, hkey, hnone⟩
  refine ⟨log, r, s, key, hE, hs, hkey, ?_⟩
  intro i hi
  rw [crowded_planned] at hnone
  exact Nat.le_of_not_lt fun hlt => hnone i hlt hi

end Duallity.UniversalLevenshteinStateSource
