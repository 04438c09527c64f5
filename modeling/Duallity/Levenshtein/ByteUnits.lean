import Duallity.ByteDictionary
import Duallity.Levenshtein.Relation

/-! One set of terms in a dictionary of characters and, in UTF-8, in a dictionary of bytes. The arcs convert each byte to a
    character on its own, so that the two graphs agree on ASCII terms and write different words for the others. -/

namespace Duallity.LevenshteinStateSource
open DictionaryNodeRegistry LazySource EditMachine EditDistance
variable {N M : Type} {C : FiniteDictionary N Char} {B : FiniteDictionary M UInt8} {q : List Char} {k : Nat}
  {algorithm : Algorithm} {log log' : List (Nat × Expansion Nat Char Char Nat)} {r : DictionaryNodeRegistry N}
  {r' : DictionaryNodeRegistry M}

/-- The graphs write the same words with the same least weights. -/
def SameOutput (log log' : List (Nat × Expansion Nat Char Char Nat)) : Prop :=
  ∀ w c, IsLeast {v | ∃ x, (graph log).Accepts start x w v} c ↔ IsLeast {v | ∃ x, (graph log').Accepts start x w v} c

/-- Of the terms that are not ASCII, those within the bound are what the bytes of terms read as, and what the bytes of one of
    them read as, if within the bound, is a term. -/
def ReadingsAreTerms (terms : Set (List Char)) (q : List Char) (k : Nat) (algorithm : Algorithm) : Prop :=
  ∀ t ∈ terms, ¬IsAscii t → (cost algorithm q t ≤ k → ∃ t' ∈ terms, byteLabels t' = t) ∧
    (cost algorithm q (byteLabels t) ≤ k → byteLabels t ∈ terms)

/-- The words within the bound are the same on both sides. -/
theorem readingsAreTerms_iff {terms : Set (List Char)} : ReadingsAreTerms terms q k algorithm ↔
    ∀ w, cost algorithm q w ≤ k → ((∃ t ∈ terms, byteLabels t = w) ↔ w ∈ terms) := by
  refine ⟨fun h w hk => ⟨?_, fun hw => ?_⟩, fun h t ht _ => ⟨(h t · |>.mpr ht), (h _ · |>.mp ⟨t, ht, rfl⟩)⟩⟩
  · rintro ⟨t, ht, rfl⟩
    by_cases hascii : IsAscii t
    · rwa [byteLabels_of_isAscii hascii]
    · exact (h t ht hascii).2 hk
  · by_cases hascii : IsAscii w
    · exact ⟨w, hw, byteLabels_of_isAscii hascii⟩
    · exact (h w hw hascii).1 hk

/-- Whatever the representation, the words within the bound are written with their edit costs. -/
theorem sameOutput_iff_words (hC : Fits C q k algorithm) (hB : Fits B q k algorithm)
    (hE : (sourceOf C q k algorithm).source.Explores (initial C) log r) (hc : Complete log start)
    (hE' : (sourceOf B q k algorithm).source.Explores (initial B) log' r') (hc' : Complete log' start) :
    SameOutput log' log ↔ ∀ w, cost algorithm q w ≤ k → (w ∈ B.words ↔ w ∈ C.words) := by
  unfold SameOutput
  simp only [isLeast_output_iff hC hE hc, isLeast_output_iff hB hE' hc']
  refine ⟨fun h w hk => ?_, fun h w c => and_congr_left fun ⟨hk, _⟩ => h w hk⟩
  have hw := h w (cost algorithm q w)
  rwa [and_iff_left (And.intro hk rfl), and_iff_left (And.intro hk rfl)] at hw

/-- The two representations of a set of terms agree exactly when the terms that are not ASCII do not matter. -/
theorem sameOutput_bytes_iff (hterms : B.words = byteLabels '' C.words) (hC : Fits C q k algorithm)
    (hB : Fits B q k algorithm) (hE : (sourceOf C q k algorithm).source.Explores (initial C) log r) (hc : Complete log start)
    (hE' : (sourceOf B q k algorithm).source.Explores (initial B) log' r') (hc' : Complete log' start) :
    SameOutput log' log ↔ ReadingsAreTerms C.words q k algorithm := by
  rw [sameOutput_iff_words hC hB hE hc hE' hc', readingsAreTerms_iff, hterms]
  rfl

/-- The trie of words whose characters are bytes. -/
def byteTrie (ws : List (List Char)) : FiniteDictionary (List Char) UInt8 := (trie ws).withUnits UInt8

theorem byteTrie_words {ws : List (List Char)} (h : ∀ w ∈ ws, ∀ c ∈ w, c.toNat < 256) : (byteTrie ws).words = {w | w ∈ ws} := by
  have hwords : (trie ws).words = {w | w ∈ ws} := TrieDictionary.words_eq
  ext w
  refine Dictionary.mem_words_withUnits.trans ?_
  rw [hwords]
  refine and_iff_left_of_imp fun hw c hc => ?_
  exact Option.isSome_iff_exists.mpr ⟨_, if_pos (h w hw c hc)⟩

theorem fits_byteTrie {ws : List (List Char)} (h : Fits (trie ws) q k algorithm) : Fits (byteTrie ws) q k algorithm := by
  refine ⟨h.1, le_trans (Nat.mul_le_mul_right _ ?_) h.2⟩
  exact Set.ncard_le_ncard Dictionary.prefixes_withUnits_subset (trie ws).finite

theorem fits_trie_accent : Fits (trie [['\u00e9']]) ['\u00e9'] 0 .standard := by
  refine ⟨by decide, ?_⟩
  rw [show (trie [['\u00e9']]).prefixes = _ from TrieDictionary.prefixes_eq, Set.ncard_coe_finset]
  decide

/-- The two bytes of `é` read as two characters: the query `é` finds the term among characters and nothing among bytes. -/
theorem not_sameOutput_bytes : ∃ log log' r r',
    (sourceOf (trie [['\u00e9']]) ['\u00e9'] 0 .standard).source.Explores (initial (trie [['\u00e9']])) log r ∧
      Complete log start ∧
      (sourceOf (byteTrie [['\u00c3', '\u00a9']]) ['\u00e9'] 0 .standard).source.Explores
        (initial (byteTrie [['\u00c3', '\u00a9']])) log' r' ∧ Complete log' start ∧
      (byteTrie [['\u00c3', '\u00a9']]).words = byteLabels '' (trie [['\u00e9']]).words ∧ ¬SameOutput log' log := by
  obtain ⟨log, r, hE, hc⟩ := exists_exploration (trie [['\u00e9']]) ['\u00e9'] 0 .standard
  obtain ⟨log', r', hE', hc'⟩ := exists_exploration (byteTrie [['\u00c3', '\u00a9']]) ['\u00e9'] 0 .standard
  have hwords : (trie [['\u00e9']]).words = {['\u00e9']} := by
    rw [show (trie [['\u00e9']]).words = _ from TrieDictionary.words_eq]
    ext w
    simp
  have hwords' : (byteTrie [['\u00c3', '\u00a9']]).words = {['\u00c3', '\u00a9']} := by
    rw [byteTrie_words (by simp)]
    ext w
    simp
  have hbytes : byteLabels ['\u00e9'] = ['\u00c3', '\u00a9'] := by decide
  refine ⟨log, log', r, r', hE, hc, hE', hc', by rw [hwords, hwords', Set.image_singleton, hbytes], fun h => ?_⟩
  have hfound : IsLeast {v | ∃ x, (graph log).Accepts start x ['\u00e9'] v} 0 := by
    refine (isLeast_output_iff fits_trie_accent hE hc).mpr ?_
    have hcost : cost .standard ['\u00e9'] ['\u00e9'] ≤ 0 := editCost_le (.single (.keep _))
    rw [hwords]
    exact ⟨rfl, hcost, (Nat.le_zero.mp hcost).symm⟩
  obtain ⟨x, hx⟩ := ((h _ _).mpr hfound).1
  have hword := (cost_le_of_accepts hE' hx).1
  rw [hwords'] at hword
  exact absurd hword (by decide)

theorem fits_terms : Fits (trie [['a'], ['\u00e9']]) ['a', 'b'] 1 .standard := by
  refine ⟨by decide, ?_⟩
  rw [show (trie [['a'], ['\u00e9']]).prefixes = _ from TrieDictionary.prefixes_eq, Set.ncard_coe_finset]
  decide

theorem fits_bytes : Fits (trie [['a'], ['\u00c3', '\u00a9']]) ['a', 'b'] 1 .standard := by
  refine ⟨by decide, ?_⟩
  rw [show (trie [['a'], ['\u00c3', '\u00a9']]).prefixes = _ from TrieDictionary.prefixes_eq, Set.ncard_coe_finset]
  decide

/-- With `é` two edits away in either reading, the query `ab` finds the ASCII term alike. -/
theorem sameOutput_bytes_accent : ∃ log log' r r',
    (sourceOf (trie [['a'], ['\u00e9']]) ['a', 'b'] 1 .standard).source.Explores (initial (trie [['a'], ['\u00e9']])) log r ∧
      Complete log start ∧
      (sourceOf (byteTrie [['a'], ['\u00c3', '\u00a9']]) ['a', 'b'] 1 .standard).source.Explores
        (initial (byteTrie [['a'], ['\u00c3', '\u00a9']])) log' r' ∧ Complete log' start ∧
      (byteTrie [['a'], ['\u00c3', '\u00a9']]).words = byteLabels '' (trie [['a'], ['\u00e9']]).words ∧ SameOutput log' log ∧
      IsLeast {v | ∃ x, (graph log').Accepts start x ['a'] v} 1 := by
  obtain ⟨log, r, hE, hc⟩ := exists_exploration (trie [['a'], ['\u00e9']]) ['a', 'b'] 1 .standard
  obtain ⟨log', r', hE', hc'⟩ := exists_exploration (byteTrie [['a'], ['\u00c3', '\u00a9']]) ['a', 'b'] 1 .standard
  have hwords : (trie [['a'], ['\u00e9']]).words = {['a'], ['\u00e9']} := by
    rw [show (trie [['a'], ['\u00e9']]).words = _ from TrieDictionary.words_eq]
    ext w
    simp
  have hwords' : (byteTrie [['a'], ['\u00c3', '\u00a9']]).words = {['a'], ['\u00c3', '\u00a9']} := by
    rw [byteTrie_words (by simp)]
    ext w
    simp
  have hbytes : byteLabels ['\u00e9'] = ['\u00c3', '\u00a9'] := by decide
  have hterms : (byteTrie [['a'], ['\u00c3', '\u00a9']]).words = byteLabels '' (trie [['a'], ['\u00e9']]).words := by
    rw [hwords, hwords', Set.image_pair, byteLabels_of_isAscii (by decide), hbytes]
  have hcost : cost .standard ['a', 'b'] ['a'] = 1 ∧ cost .standard ['a', 'b'] ['\u00e9'] = 2 ∧
      cost .standard ['a', 'b'] ['\u00c3', '\u00a9'] = 2 := by
    simp [cost_standard, levenshtein_cons_cons, levenshtein_nil_left, levenshtein_nil_right]
  have hreadings : ReadingsAreTerms (trie [['a'], ['\u00e9']]).words ['a', 'b'] 1 .standard := by
    rw [hwords]
    rintro t (rfl | rfl) hascii
    · exact absurd (by decide) hascii
    · rw [hbytes, hcost.2.1, hcost.2.2]
      exact ⟨fun h => absurd h (by decide), fun h => absurd h (by decide)⟩
  have hsame := (sameOutput_bytes_iff hterms fits_terms (fits_byteTrie fits_bytes) hE hc hE' hc').mpr hreadings
  refine ⟨log, log', r, r', hE, hc, hE', hc', hterms, hsame, (hsame _ _).mpr ((isLeast_output_iff fits_terms hE hc).mpr ?_)⟩
  rw [hwords, hcost.1]
  exact ⟨Or.inl rfl, le_rfl, rfl⟩

end Duallity.LevenshteinStateSource
