import Duallity.Levenshtein.Relation
import Duallity.Universal.Relation
import Duallity.ProductPaths

/-! The three products of a query and a dictionary agree. The Levenshtein source enumerates edits, the Universal source reads
    characteristic vectors, and the Generalized source applies operations. Over the same dictionary they write the same words, and
    the least weight of each is its edit cost. -/

namespace Duallity
open LazySource EditMachine Alignment EditDistance

/-- What the documentation of `liblevenshtein` says of an operation set for edits: each edit is an operation of its cost, and no
    operation is cheaper than edits of its segments. Edits turn the query into the word, of which operations take the word first. -/
structure OperationLibrary.Edits {R : Type} (lib : OperationLibrary R) (operations : OperationSet R) (algorithm : Algorithm) : Prop where
  complete : ∀ {u v c}, Op algorithm u v c → ∃ o ∈ operations, v.length = o.consumeX ∧ u.length = o.consumeY ∧
    GeneralizedOps.operationApplies lib o v (GeneralizedOps.asBytes v) u (GeneralizedOps.asBytes u) = true ∧ o.weight = c
  sound : ∀ o ∈ operations, ∀ {u v}, v.length = o.consumeX → u.length = o.consumeY →
    GeneralizedOps.operationApplies lib o v (GeneralizedOps.asBytes v) u (GeneralizedOps.asBytes u) = true →
      (cost algorithm u v : ℚ) ≤ o.weight

/-! ### The Generalized product under edits -/

namespace OperationMachine
variable {R : Type} {lib : OperationLibrary R} {operations : OperationSet R} {algorithm : Algorithm} {scale : CostScale}
  {x y : List Char} {c : ℚ} {d n : Nat}

theorem align_consumes (hedits : lib.Edits operations algorithm) (hscaled : ∀ o ∈ operations, (scale.toScaled o.weight).isSome)
    (h : Align (Op algorithm) x y n) : ∃ d, Align (Consumes lib scale operations) y x ((n : ℚ), d) := by
  induction h with
  | nil =>
    refine ⟨0, ?_⟩
    rw [Nat.cast_zero]
    exact .nil
  | @cons u x v y c n hop _ ih =>
    obtain ⟨d, hd⟩ := ih
    obtain ⟨o, ho, hv, hu, happlies, hweight⟩ := hedits.complete hop
    obtain ⟨s, hs⟩ := Option.isSome_iff_exists.mp (hscaled o ho)
    have hconsumes : Consumes lib scale operations v u ((c : ℚ), s) := ⟨o, ho, hv, hu, happlies, hweight.symm, hs⟩
    refine ⟨s + d, ?_⟩
    have hcons := Align.cons hconsumes hd
    rwa [Prod.mk_add_mk, ← Nat.cast_add] at hcons

theorem cost_le_of_align (hedits : lib.Edits operations algorithm) (h : Align (Consumes lib scale operations) y x (c, d)) :
    (cost algorithm x y : ℚ) ≤ c := by
  suffices hle : ∀ {y x e}, Align (Consumes lib scale operations) y x e → (cost algorithm x y : ℚ) ≤ e.1 from hle h
  intro y x e h
  induction h with
  | nil =>
    have hzero : cost algorithm [] [] = 0 := Nat.le_zero.mp (editCost_le .nil)
    simp [hzero]
  | @cons v y u x e e' hop _ ih =>
    obtain ⟨o, ho, hv, hu, happlies, hweight, -⟩ := hop
    have hop : (cost algorithm u v : ℚ) ≤ e.1 := hweight ▸ hedits.sound o ho hv hu happlies
    have hsub : cost algorithm (u ++ x) (v ++ y) ≤ cost algorithm u v + cost algorithm x y :=
      editCost_le (align_editCost.append align_editCost)
    calc (cost algorithm (u ++ x) (v ++ y) : ℚ) ≤ cost algorithm u v + cost algorithm x y := by exact_mod_cast hsub
      _ ≤ e.1 + e'.1 := add_le_add hop ih

end OperationMachine

namespace GeneralizedWfst
open OperationMachine
variable {N R : Type} [DecidableEq R] {D : FiniteDictionary N Char} {lib : OperationLibrary R} {operations : OperationSet R}
  {limits : GeneralizedWfstLimits} {src : GeneralizedWfst N R} {env : Environment N} {q : List Char} {k owner tick : Nat}
  {algorithm : Algorithm} {log : List (Nat × Expansion Nat Char Char ℚ)} {s : Registries N × Nat}

/-- Under an operation set for edits, the words within the bound are written, and no path is cheaper than edits. -/
theorem accepts_edits (hlib : lib.Documented) (hedits : lib.Edits operations algorithm)
    (h : tryNewWithLimits D.provider lib q k operations limits = .ok src) (henv : env.Publishes D.toDictionary)
    (hE : (src.source env).ExploresFrom start (src.newRegistries owner, tick) log s) (hc : Complete log start) {w : List Char} :
    (∀ {x c}, (graph log).Accepts start x w c → w ∈ D.words ∧ cost algorithm q w ≤ k ∧ (cost algorithm q w : ℚ) ≤ c) ∧
      (w ∈ D.words → cost algorithm q w ≤ k → (graph log).Accepts start q w (cost algorithm q w)) := by
  obtain ⟨hdictionary, hlibrary, hquery⟩ := arguments_eq h
  obtain ⟨scale, hscale, hbudget, hsrc⟩ := preparedFrom h
  obtain ⟨denominator, hpos, hweights, hbudgets⟩ := hlib.scale _ _ hscale
  have hstart : src.Denotes (src.newRegistries owner) start _ := denotes_start owner
  have hwellFormed := wellFormed_newRegistries hdictionary owner
  have hexact := exact D.labels_nodup h henv
  have hexplores := hexact.toSound.exploresFrom_restrict hE hwellFormed hstart
  have haccepts : ∀ {x c}, (graph log).Accepts start x w c ↔ x = q ∧ w ∈ D.words ∧
      ∃ d ≤ src.maxCost, Align (Consumes lib scale operations) w x (c, d) := by
    intro x c
    rw [hexact.accepts_iff hexplores.explores hwellFormed hc hstart, OperationMachine.accepts_iff hsrc D.labels_nodup, hlibrary, hquery]
  have hmax : (src.maxCost : ℚ) = denominator * k := by exact_mod_cast hbudgets _ _ hbudget
  have hden : (0 : ℚ) < denominator := by exact_mod_cast hpos
  constructor
  · intro x c hx
    obtain ⟨rfl, hw, d, hd, halign⟩ := haccepts.mp hx
    have hcost := cost_le_of_align hedits halign
    have hscaled : (d : ℚ) = denominator * c := align_scaled hweights halign
    have hck : c ≤ k := by
      have hle : (d : ℚ) ≤ src.maxCost := by exact_mod_cast hd
      rw [hscaled, hmax] at hle
      exact le_of_mul_le_mul_left hle hden
    exact ⟨hw, by exact_mod_cast hcost.trans hck, hcost⟩
  · intro hw hk
    obtain ⟨d, halign⟩ := align_consumes hedits hsrc.scaled (align_editCost : Align (Op algorithm) q w (cost algorithm q w))
    have hscaled : (d : ℚ) = denominator * (cost algorithm q w : ℚ) := align_scaled hweights halign
    have hd : (d : ℚ) ≤ src.maxCost := by
      rw [hscaled, hmax]
      exact mul_le_mul_of_nonneg_left (by exact_mod_cast hk) hden.le
    exact haccepts.mpr ⟨rfl, hw, d, by exact_mod_cast hd, halign⟩

theorem isLeast_output_iff (hlib : lib.Documented) (hedits : lib.Edits operations algorithm)
    (h : tryNewWithLimits D.provider lib q k operations limits = .ok src) (henv : env.Publishes D.toDictionary)
    (hE : (src.source env).ExploresFrom start (src.newRegistries owner, tick) log s) (hc : Complete log start) {w : List Char} {c : ℚ} :
    IsLeast {v | ∃ x, (graph log).Accepts start x w v} c ↔ w ∈ D.words ∧ cost algorithm q w ≤ k ∧ c = cost algorithm q w := by
  obtain ⟨hsound, hcomplete⟩ := accepts_edits hlib hedits h henv hE hc (w := w)
  have hself (hw : w ∈ D.words) (hk : cost algorithm q w ≤ k) : IsLeast {v | ∃ x, (graph log).Accepts start x w v} (cost algorithm q w : ℚ) := by
    refine ⟨⟨q, hcomplete hw hk⟩, ?_⟩
    rintro v ⟨x, h⟩
    exact (hsound h).2.2
  constructor
  · intro h
    obtain ⟨x, hx⟩ := h.1
    obtain ⟨hw, hk, -⟩ := hsound hx
    exact ⟨hw, hk, h.unique (hself hw hk)⟩
  · rintro ⟨hw, hk, rfl⟩
    exact hself hw hk

end GeneralizedWfst

/-! ### The Universal product -/

namespace UniversalLevenshteinStateSource
variable {N U σ β κ : Type} [CharUnit U] [DecidableEq κ] {A : UniversalAutomaton σ β κ} {D : FiniteDictionary N U} {q : List Char} {k : Nat}
  {r : UniversalRegistries N σ κ} {log : List (Nat × Expansion Nat Char Char Nat)} {d : List Char → List Char → Nat}

/-- An automaton that measures a distance gives each word within the bound one weight. -/
theorem output_iff (hkey : Function.Injective A.key) (hd : Measures A q k d) (hk : k ≤ u8Max) (hE : Explored A D q k log r)
    (hc : Complete log start) {w : List Char} {v : Nat} :
    (∃ x, (graph log).Accepts start x w v) ↔ w ∈ D.words ∧ d q w ≤ k ∧ v = d q w := by
  simp only [accepts_machine_iff hkey hE hc, UniversalProduct.accepts_iff, exists_eq_left, hd.run_iff hk]

theorem isLeast_output_iff (hkey : Function.Injective A.key) (hd : Measures A q k d) (hk : k ≤ u8Max) (hE : Explored A D q k log r)
    (hc : Complete log start) {w : List Char} {c : Nat} :
    IsLeast {v | ∃ x, (graph log).Accepts start x w v} c ↔ w ∈ D.words ∧ d q w ≤ k ∧ c = d q w := by
  simp only [output_iff hkey hd hk hE hc]
  constructor
  · exact fun h => h.1
  · rintro ⟨hw, hle, rfl⟩
    exact ⟨⟨hw, hle, rfl⟩, fun v hv => hv.2.2.ge⟩

end UniversalLevenshteinStateSource

/-! ### Agreement -/

section Agreement
variable {N R σ β κ : Type} [DecidableEq R] [DecidableEq κ] {D : FiniteDictionary N Char} {q : List Char} {k owner tick : Nat}
  {algorithm : Algorithm} {A : UniversalAutomaton σ β κ} {lib : OperationLibrary R} {operations : OperationSet R}
  {limits : GeneralizedWfstLimits} {src : GeneralizedWfst N R} {env : Environment N} {s : Registries N × Nat}
  {r : DictionaryNodeRegistry N} {r' : UniversalRegistries N σ κ} {edits automaton : List (Nat × Expansion Nat Char Char Nat)}
  {operated : List (Nat × Expansion Nat Char Char ℚ)}

/-- Completely explored, the three graphs write the same words with the same least weights. -/
theorem products_agree (hfits : LevenshteinStateSource.Fits D q k algorithm)
    (hE : (LevenshteinStateSource.sourceOf D q k algorithm).source.Explores (LevenshteinStateSource.initial D) edits r)
    (hc : Complete edits LevenshteinStateSource.start)
    (hkey : Function.Injective A.key) (hmeasures : UniversalLevenshteinStateSource.Measures A q k (cost algorithm))
    (hk : k ≤ UniversalLevenshteinStateSource.u8Max) (hE' : UniversalLevenshteinStateSource.Explored A D q k automaton r')
    (hc' : Complete automaton UniversalLevenshteinStateSource.start)
    (hlib : lib.Documented) (hedits : lib.Edits operations algorithm)
    (h : GeneralizedWfst.tryNewWithLimits D.provider lib q k operations limits = .ok src) (henv : env.Publishes D.toDictionary)
    (hE'' : (src.source env).ExploresFrom GeneralizedWfst.start (src.newRegistries owner, tick) operated s)
    (hc'' : Complete operated GeneralizedWfst.start) (w : List Char) :
    ((∃ x v, (graph edits).Accepts LevenshteinStateSource.start x w v) ↔
      ∃ x v, (graph automaton).Accepts UniversalLevenshteinStateSource.start x w v) ∧
    ((∃ x v, (graph edits).Accepts LevenshteinStateSource.start x w v) ↔
      ∃ x v, (graph operated).Accepts GeneralizedWfst.start x w v) ∧
    (∀ c, IsLeast {v | ∃ x, (graph edits).Accepts LevenshteinStateSource.start x w v} c ↔
      IsLeast {v | ∃ x, (graph automaton).Accepts UniversalLevenshteinStateSource.start x w v} c) ∧
    ∀ c : ℚ, (∃ n : Nat, c = n ∧ IsLeast {v | ∃ x, (graph edits).Accepts LevenshteinStateSource.start x w v} n) ↔
      IsLeast {v | ∃ x, (graph operated).Accepts GeneralizedWfst.start x w v} c := by
  obtain ⟨hsound, hcomplete⟩ := GeneralizedWfst.accepts_edits hlib hedits h henv hE'' hc'' (w := w)
  have hedit : (∃ x v, (graph edits).Accepts LevenshteinStateSource.start x w v) ↔ w ∈ D.words ∧ cost algorithm q w ≤ k := by
    constructor
    · rintro ⟨x, v, hx⟩
      obtain ⟨hw, hcost, hv⟩ := LevenshteinStateSource.cost_le_of_accepts hE hx
      exact ⟨hw, hcost.trans hv⟩
    · rintro ⟨hw, hcost⟩
      exact ⟨q, _, LevenshteinStateSource.accepts_self hfits hE hc hw hcost⟩
  refine ⟨?_, ?_, fun c => ?_, fun c => ?_⟩
  · rw [hedit, exists_comm]
    simp [UniversalLevenshteinStateSource.output_iff hkey hmeasures hk hE' hc']
  · rw [hedit]
    constructor
    · exact fun hw => ⟨q, _, hcomplete hw.1 hw.2⟩
    · rintro ⟨x, v, hx⟩
      exact ⟨(hsound hx).1, (hsound hx).2.1⟩
  · rw [LevenshteinStateSource.isLeast_output_iff hfits hE hc,
      UniversalLevenshteinStateSource.isLeast_output_iff hkey hmeasures hk hE' hc']
  · simp only [LevenshteinStateSource.isLeast_output_iff hfits hE hc,
      GeneralizedWfst.isLeast_output_iff hlib hedits h henv hE'' hc'']
    constructor
    · rintro ⟨n, rfl, hw, hcost, rfl⟩
      exact ⟨hw, hcost, rfl⟩
    · rintro ⟨hw, hcost, rfl⟩
      exact ⟨_, rfl, hw, hcost, rfl⟩

end Agreement

/-! ### Operation sets for edits -/

/-- Matches, substitutions, insertions and deletions, and the further operations of the algorithm. -/
def editOperations (R : Type) (algorithm : Algorithm) : OperationSet R :=
  [⟨1, 1, 0, .equal⟩, ⟨1, 1, 1, .any⟩, ⟨1, 0, 1, .any⟩, ⟨0, 1, 1, .any⟩] ++
    (if algorithm.supportsTransposition then [⟨2, 2, 1, .adjacentTranspose⟩] else []) ++
    if algorithm.supportsMergeSplit then [⟨2, 1, 1, .any⟩, ⟨1, 2, 1, .any⟩] else []

section EditOperations
variable {R : Type} {algorithm : Algorithm} {u v : List Char}

theorem cost_le_one (h : Op algorithm u v 1) : (cost algorithm u v : ℚ) ≤ 1 := by
  have hcost : cost algorithm u v ≤ 1 := editCost_le (.single h)
  exact_mod_cast hcost

theorem cost_self (u : List Char) : cost algorithm u u = 0 := by
  refine Nat.le_zero.mp (editCost_le ?_)
  induction u with
  | nil => exact .nil
  | cons a u ih => exact .cons (.keep a) ih

theorem edits_editOperations (lib : OperationLibrary R) (algorithm : Algorithm) : lib.Edits (editOperations R algorithm) algorithm where
  complete {u v c} h := by
    cases h with
    | keep a => exact ⟨⟨1, 1, 0, .equal⟩, by simp [editOperations], rfl, rfl, by simp [GeneralizedOps.operationApplies], by simp⟩
    | replace hab => exact ⟨⟨1, 1, 1, .any⟩, by simp [editOperations], rfl, rfl, rfl, by simp⟩
    | insert b => exact ⟨⟨1, 0, 1, .any⟩, by simp [editOperations], rfl, rfl, rfl, by simp⟩
    | delete a => exact ⟨⟨0, 1, 1, .any⟩, by simp [editOperations], rfl, rfl, rfl, by simp⟩
    | swap htransposition hab =>
      exact ⟨⟨2, 2, 1, .adjacentTranspose⟩, by simp [editOperations, htransposition], rfl, rfl,
        by simp [GeneralizedOps.operationApplies], by simp⟩
    | merge a b c hmerge => exact ⟨⟨1, 2, 1, .any⟩, by simp [editOperations, hmerge], rfl, rfl, rfl, by simp⟩
    | split a b c hsplit => exact ⟨⟨2, 1, 1, .any⟩, by simp [editOperations, hsplit], rfl, rfl, rfl, by simp⟩
  sound o ho {u v} hv hu happlies := by
    simp only [editOperations, List.mem_append, List.mem_cons, List.not_mem_nil, or_false] at ho
    rcases ho with ((rfl | rfl | rfl | rfl) | ho) | ho
    · obtain rfl : v = u := by simpa [GeneralizedOps.operationApplies] using happlies
      simp [cost_self]
    · obtain ⟨b, rfl⟩ := List.length_eq_one_iff.mp hv
      obtain ⟨a, rfl⟩ := List.length_eq_one_iff.mp hu
      by_cases hab : a = b
      · simp [hab, cost_self]
      · exact cost_le_one (.replace hab)
    · obtain ⟨b, rfl⟩ := List.length_eq_one_iff.mp hv
      obtain rfl := List.length_eq_zero_iff.mp hu
      exact cost_le_one (.insert b)
    · obtain rfl := List.length_eq_zero_iff.mp hv
      obtain ⟨a, rfl⟩ := List.length_eq_one_iff.mp hu
      exact cost_le_one (.delete a)
    · split at ho
      · rename_i htransposition
        obtain rfl := List.mem_singleton.mp ho
        obtain ⟨b, b', rfl⟩ := List.length_eq_two.mp hv
        obtain ⟨a, a', rfl⟩ := List.length_eq_two.mp hu
        obtain ⟨rfl, rfl⟩ : b = a' ∧ b' = a := by simpa [GeneralizedOps.operationApplies] using happlies
        by_cases hab : b' = b
        · simp [hab, cost_self]
        · exact cost_le_one (.swap htransposition hab)
      · cases ho
    · split at ho
      · rename_i hmergeSplit
        simp only [List.mem_cons, List.not_mem_nil, or_false] at ho
        rcases ho with rfl | rfl
        · obtain ⟨b, b', rfl⟩ := List.length_eq_two.mp hv
          obtain ⟨a, rfl⟩ := List.length_eq_one_iff.mp hu
          exact cost_le_one (.split a b b' hmergeSplit)
        · obtain ⟨b, rfl⟩ := List.length_eq_one_iff.mp hv
          obtain ⟨a, a', rfl⟩ := List.length_eq_two.mp hu
          exact cost_le_one (.merge a a' b hmergeSplit)
      · cases ho

end EditOperations

/-- The Generalized product of four words and the query `a`, within distance 1. -/
def withinOne : Except GeneralizedWfstError (GeneralizedWfst (List Char) Unit) :=
  GeneralizedWfst.tryNewWithLimits (trie UniversalLevenshteinStateSource.fourWords).provider checkedLibrary ['a'] 1
    (editOperations Unit .standard) ⟨99, 99, 99, 99, 99, 99, 99, 9999⟩

open UniversalLevenshteinStateSource (fourWords) in
/-- All three write the word `a` at weight 0, and with one edit `b` and `ab`. None writes `bb`. -/
theorem products_agree_withinOne : ∃ (edits automaton : List (Nat × Expansion Nat Char Char Nat))
    (operated : List (Nat × Expansion Nat Char Char ℚ)) (src : GeneralizedWfst (List Char) Unit), withinOne = .ok src ∧
    (∀ w n, (w, n) ∈ [(['a'], 0), (['b'], 1), (['a', 'b'], 1)] →
      IsLeast {v | ∃ x, (graph edits).Accepts LevenshteinStateSource.start x w v} n ∧
      IsLeast {v | ∃ x, (graph automaton).Accepts UniversalLevenshteinStateSource.start x w v} n ∧
      IsLeast {v : ℚ | ∃ x, (graph operated).Accepts GeneralizedWfst.start x w v} n) ∧
    (¬∃ x v, (graph edits).Accepts LevenshteinStateSource.start x ['b', 'b'] v) ∧
    (¬∃ x v, (graph automaton).Accepts UniversalLevenshteinStateSource.start x ['b', 'b'] v) ∧
    ¬∃ x v, (graph operated).Accepts GeneralizedWfst.start x ['b', 'b'] v := by
  have hprefixes : (trie fourWords).prefixes.ncard = 5 := by
    rw [show (trie fourWords).prefixes = _ from TrieDictionary.prefixes_eq, Set.ncard_coe_finset]
    decide
  have hwords : (trie fourWords).words = {w | w ∈ fourWords} := TrieDictionary.words_eq
  have hfits : LevenshteinStateSource.Fits (trie fourWords) ['a'] 1 .standard := ⟨by decide, by rw [hprefixes]; decide⟩
  obtain ⟨edits, r, hE, hc⟩ := LevenshteinStateSource.exists_exploration (trie fourWords) ['a'] 1 .standard
  have hcard : (UniversalLevenshteinStateSource.reachableKeys positionAutomaton (trie fourWords) ['a'] 1).ncard ≤
      (UniversalLevenshteinStateSource.sourceOf positionAutomaton (trie fourWords) ['a'] 1).maxAutomatonStates :=
    UniversalLevenshteinStateSource.ncard_reachableKeys_le.trans (by rw [hprefixes]; decide)
  obtain ⟨automaton, r', hE', hc'⟩ :=
    UniversalLevenshteinStateSource.exists_exploration positionAutomaton_key_injective (trie fourWords) ['a'] 1
  have hexplored := UniversalLevenshteinStateSource.explored_of_idsSuffice positionAutomaton_key_injective
    (by rw [hprefixes]; decide)
    (fun _ _ => UniversalLevenshteinStateSource.idsSuffice_of_ncard_le positionAutomaton_key_injective hcard) hE'
  have hmeasures : UniversalLevenshteinStateSource.Measures positionAutomaton ['a'] 1 (cost .standard) :=
    cost_standard ▸ UniversalLevenshteinStateSource.measures_a
  have hmeets : GeneralizedWfst.meetsAll withinOne [0, 1, 2, 3, 4, 5, 6, 7] = true := by decide +kernel
  obtain ⟨src, operated, s, hsrc, hE'', hc''⟩ := GeneralizedWfst.exists_exploration_of_meetsAll hmeets
  have hagree := products_agree hfits hE hc positionAutomaton_key_injective hmeasures (by decide) hexplored hc'
    checkedLibrary_documented (edits_editOperations _ _) hsrc (.alone _) hE'' hc''
  have hleast : ∀ {w n}, IsLeast {v | ∃ x, (graph edits).Accepts LevenshteinStateSource.start x w v} n ↔
      w ∈ fourWords ∧ levenshtein ['a'] w ≤ 1 ∧ n = levenshtein ['a'] w := by
    intro w n
    rw [LevenshteinStateSource.isLeast_output_iff hfits hE hc, hwords, cost_standard]
    rfl
  refine ⟨edits, automaton, operated, src, hsrc, fun w n hmem => ?_, ?_⟩
  · obtain ⟨-, -, hautomaton, hoperated⟩ := hagree w
    have hedits : IsLeast {v | ∃ x, (graph edits).Accepts LevenshteinStateSource.start x w v} n := by
      rw [hleast, UniversalLevenshteinStateSource.levenshtein_singleton]
      have hcases : w = ['a'] ∧ n = 0 ∨ w = ['b'] ∧ n = 1 ∨ w = ['a', 'b'] ∧ n = 1 := by simpa using hmem
      rcases hcases with ⟨rfl, rfl⟩ | ⟨rfl, rfl⟩ | ⟨rfl, rfl⟩ <;> decide
    exact ⟨hedits, (hautomaton n).mp hedits, (hoperated n).mp ⟨n, rfl, hedits⟩⟩
  · obtain ⟨hautomaton, hoperated, -⟩ := hagree ['b', 'b']
    have hedits : ¬∃ x v, (graph edits).Accepts LevenshteinStateSource.start x ['b', 'b'] v := by
      rintro ⟨x, v, hx⟩
      obtain ⟨-, hcost, hv⟩ := LevenshteinStateSource.cost_le_of_accepts hE hx
      rw [cost_standard, UniversalLevenshteinStateSource.levenshtein_singleton] at hcost
      exact absurd (hcost.trans hv) (by decide)
    exact ⟨hedits, mt hautomaton.mpr hedits, mt hoperated.mpr hedits⟩

end Duallity
