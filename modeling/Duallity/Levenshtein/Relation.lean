import Duallity.Levenshtein.Registration
import Duallity.TrieDictionary

/-! The relation that the graph of the Levenshtein source accepts. On its outputs it is the bounded edit
    distance to the dictionary; on its inputs it also accepts proper prefixes of the query, whose rest the
    final weight deletes. -/

namespace Duallity.LevenshteinStateSource
open DictionaryNodeRegistry LazySource EditMachine EditDistance
variable {N U : Type} [CharUnit U] {D : FiniteDictionary N U} {q : List Char} {k : Nat} {algorithm : Algorithm}
  {log : List (Nat × Expansion Nat Char Char Nat)} {r : DictionaryNodeRegistry N}

/-- The registry that a new source starts from. -/
def initial (D : FiniteDictionary N U) : DictionaryNodeRegistry N := new D.root

theorem wellFormed_initial : WellFormed D.toDictionary (initial D) := wellFormed_new

theorem valid_of_denotes {r : DictionaryNodeRegistry N} {state : Nat} {s : EditState}
    (hr : WellFormed D.toDictionary r) (h : Denotes D q k algorithm r state s) :
    (sourceOf D q k algorithm).source.valid r state := by
  obtain ⟨hu, id, aid, hdecode, hspells, ha⟩ := h
  obtain ⟨n, -, hn⟩ := hr.node hspells
  refine ⟨hu, ?_⟩
  simp only [isValidProductState, hdecode, ha, hn, Option.isSome_some, Bool.and_self]

theorem exists_expandState (r : DictionaryNodeRegistry N) (state : Nat) :
    ∃ r' e, (sourceOf D q k algorithm).source.expand r state = (r', some e) := by
  have hM : (sourceOf D q k algorithm).codec.maxAutomatonStates ≠ 0 :=
    Nat.pos_iff_ne_zero.mp LevenshteinStateCodec.maxAutomatonStates_pos
  simp only [source, LevenshteinStateSource.expandState, LevenshteinStateCodec.decodeProductState,
    StateEncoding.decode, if_neg hM]
  exact ⟨_, _, rfl⟩

/-- Exploring until nothing reachable is left ends. -/
theorem exists_exploration (D : FiniteDictionary N U) (q : List Char) (k : Nat) (algorithm : Algorithm) :
    ∃ log r, (sourceOf D q k algorithm).source.Explores (initial D) log r ∧ Complete log start := by
  have hstates : ∀ {r state}, (sourceOf D q k algorithm).source.valid r state → state ∈ Finset.range (u32Max + 1) :=
    fun h => Finset.mem_range_succ_iff.mpr h.1
  obtain ⟨log, r, hE, hc⟩ := sound.exists_complete valid_of_denotes (fun _ _ => exists_expandState _ _) hstates
    wellFormed_initial denotes_start
  exact ⟨log, r, hE.explores, hc⟩

/-! ### Accepted pairs -/

/-- Without any bound on ids, the graph accepts alignments of prefixes of the query only. -/
theorem of_accepts {x w : List Char} {v : Nat}
    (hE : (sourceOf D q k algorithm).source.Explores (initial D) log r) (h : (graph log).Accepts start x w v) :
    w ∈ D.words ∧ ∃ c, x <+: q ∧ Alignment.Align (Op algorithm) x w c ∧ v = c + (q.length - x.length) ∧ v ≤ k :=
  EditMachine.accepts_iff.mp (sound.accepts hE wellFormed_initial denotes_start h)

theorem accepts_iff (hfits : Fits D q k algorithm)
    (hE : (sourceOf D q k algorithm).source.Explores (initial D) log r) (hc : Complete log start)
    {x w : List Char} {v : Nat} : (graph log).Accepts start x w v ↔
      w ∈ D.words ∧ ∃ c, x <+: q ∧ Alignment.Align (Op algorithm) x w c ∧ v = c + (q.length - x.length) ∧ v ≤ k :=
  ((exact hfits).accepts_iff hE wellFormed_initial hc denotes_start).trans EditMachine.accepts_iff

/-- Deleting the rest of the query completes an alignment of a prefix. -/
theorem cost_le_of_prefix {x w : List Char} {c : Nat} (hx : x <+: q) (h : Alignment.Align (Op algorithm) x w c) :
    cost algorithm q w ≤ c + (q.length - x.length) := by
  obtain ⟨z, rfl⟩ := hx
  have := h.append (align_delete z)
  rw [List.append_nil] at this
  rw [List.length_append, Nat.add_sub_cancel_left]
  exact editCost_le this

/-! ### The output tape -/

theorem accepts_self (hfits : Fits D q k algorithm)
    (hE : (sourceOf D q k algorithm).source.Explores (initial D) log r) (hc : Complete log start) {w : List Char}
    (hw : w ∈ D.words) (hk : cost algorithm q w ≤ k) : (graph log).Accepts start q w (cost algorithm q w) :=
  (accepts_iff hfits hE hc).mpr
    ⟨hw, _, List.prefix_refl q, align_editCost, by rw [Nat.sub_self, Nat.add_zero]; rfl, hk⟩

/-- What is accepted with any input is a word, and no cheaper than its edit cost. -/
theorem cost_le_of_accepts (hE : (sourceOf D q k algorithm).source.Explores (initial D) log r) {x w : List Char} {v : Nat}
    (h : (graph log).Accepts start x w v) : w ∈ D.words ∧ cost algorithm q w ≤ v ∧ v ≤ k := by
  obtain ⟨hw, c, hx, halign, rfl, hk⟩ := of_accepts hE h
  exact ⟨hw, cost_le_of_prefix hx halign, hk⟩

/-- The words written and their least weights. -/
theorem isLeast_output_iff (hfits : Fits D q k algorithm)
    (hE : (sourceOf D q k algorithm).source.Explores (initial D) log r) (hc : Complete log start) {w : List Char} {c : Nat} :
    IsLeast {v | ∃ x, (graph log).Accepts start x w v} c ↔
      w ∈ D.words ∧ cost algorithm q w ≤ k ∧ c = cost algorithm q w := by
  have hself (hw : w ∈ D.words) (hk : cost algorithm q w ≤ k) :
      IsLeast {v | ∃ x, (graph log).Accepts start x w v} (cost algorithm q w) := by
    refine ⟨⟨q, accepts_self hfits hE hc hw hk⟩, ?_⟩
    rintro v ⟨x, h⟩
    exact (cost_le_of_accepts hE h).2.1
  refine ⟨fun h => ?_, ?_⟩
  · obtain ⟨x, hx⟩ := h.1
    obtain ⟨hw, hcost, hk⟩ := cost_le_of_accepts hE hx
    exact ⟨hw, hcost.trans hk, h.unique (hself hw (hcost.trans hk))⟩
  · rintro ⟨hw, hk, rfl⟩
    exact hself hw hk

/-- The graph writes `w` exactly when `w` is a word within the bound, and the least weight of a path that writes
    it is its edit cost, which is the Levenshtein distance when the algorithm has no further operations. -/
theorem output_relation (hfits : Fits D q k algorithm)
    (hE : (sourceOf D q k algorithm).source.Explores (initial D) log r) (hc : Complete log start) :
    (∀ w, (∃ x v, (graph log).Accepts start x w v) ↔ w ∈ D.words ∧ cost algorithm q w ≤ k) ∧
    (∀ w ∈ D.words, cost algorithm q w ≤ k →
      IsLeast {v | ∃ x, (graph log).Accepts start x w v} (cost algorithm q w)) ∧
    (algorithm = .standard → ∀ w, cost algorithm q w = levenshtein q w) := by
  refine ⟨fun w => ⟨?_, fun ⟨hw, hk⟩ => ⟨q, _, accepts_self hfits hE hc hw hk⟩⟩, fun w hw hk => ?_, ?_⟩
  · rintro ⟨x, v, h⟩
    obtain ⟨hw, hcost, hk⟩ := cost_le_of_accepts hE h
    exact ⟨hw, hcost.trans hk⟩
  · exact (isLeast_output_iff hfits hE hc).mpr ⟨hw, hk, rfl⟩
  · rintro rfl w
    rw [cost_standard]

theorem fits_trie_swap : Fits (trie [['b', 'a']]) ['a', 'b'] 1 ⟨true, true⟩ := by
  refine ⟨by decide, ?_⟩
  rw [show (trie [['b', 'a']]).prefixes = _ from TrieDictionary.prefixes_eq, Set.ncard_coe_finset]
  decide

/-- The word `ba` is one swap away from the query `ab`. -/
theorem output_relation_swap : ∃ log r,
    (sourceOf (trie [['b', 'a']]) ['a', 'b'] 1 ⟨true, true⟩).source.Explores (initial (trie [['b', 'a']])) log r ∧
      Complete log start ∧ ∃ x v, (graph log).Accepts start x ['b', 'a'] v := by
  obtain ⟨log, r, hE, hc⟩ := exists_exploration (trie [['b', 'a']]) ['a', 'b'] 1 ⟨true, true⟩
  have hword : ['b', 'a'] ∈ (trie [['b', 'a']]).words := by
    rw [show (trie [['b', 'a']]).words = _ from TrieDictionary.words_eq]
    exact List.mem_singleton_self _
  have hcost : cost ⟨true, true⟩ ['a', 'b'] ['b', 'a'] ≤ 1 := editCost_le (.single (.swap rfl (by decide)))
  exact ⟨log, r, hE, hc, ((output_relation fits_trie_swap hE hc).1 _).mpr ⟨hword, hcost⟩⟩

/-! ### The input tape -/

/-- A normal state that has read the whole query, at a final dictionary node. -/
def WholeQuery (src : LevenshteinStateSource N U) (r : DictionaryNodeRegistry N) (state : Nat) : Prop :=
  ∃ id aid d n, src.codec.decodeProductState state = some (id, aid) ∧
    src.codec.decodeAutomatonState aid = some (.normal src.queryChars.length d) ∧ r.getNode id = some n ∧
    src.dictionary.isFinal n = true

/-- The same graph, final only where the whole query has been read. -/
def fullGraph (src : LevenshteinStateSource N U) (r : DictionaryNodeRegistry N)
    (log : List (Nat × Expansion Nat Char Char Nat)) : Transducer Nat Char Char Nat where
  step := (graph log).step
  final state f := f = 0 ∧ WholeQuery src r state

/-- Accepting paths read the whole query, so that both finalities weigh every pair alike and the graph
    accepts the query with the words within the bound, at their edit cost. -/
structure InputTapeIsQuery (D : FiniteDictionary N U) (q : List Char) (k : Nat) (algorithm : Algorithm)
    (r : DictionaryNodeRegistry N) (log : List (Nat × Expansion Nat Char Char Nat)) : Prop where
  sameWeights : ∀ x w c, (graph log).LeastWeight start x w c ↔
    (fullGraph (sourceOf D q k algorithm) r log).LeastWeight start x w c
  spellsQuery : ∀ x w v, (graph log).Accepts start x w v → x = q
  editRelation : ∀ x w c, (graph log).LeastWeight start x w c ↔
    x = q ∧ w ∈ D.words ∧ cost algorithm q w ≤ k ∧ c = cost algorithm q w

omit [CharUnit U] in
theorem path_fullGraph_iff {src : LevenshteinStateSource N U} {x w : List Char} {v s t : Nat} :
    (fullGraph src r log).Path s x w v t ↔ (graph log).Path s x w v t := by
  constructor <;> intro h <;> refine Transducer.Path.mono ?_ h <;> exact fun hs => hs

/-- Where the whole query has been read, the two finalities agree. -/
theorem accepts_fullGraph_iff (hE : (sourceOf D q k algorithm).source.Explores (initial D) log r)
    (hc : Complete log start) {x w : List Char} {v : Nat} :
    (fullGraph (sourceOf D q k algorithm) r log).Accepts start x w v ↔ x = q ∧ (graph log).Accepts start x w v := by
  have hr := sound.inv_explores hE wellFormed_initial
  have hstart : Denotes D q k algorithm r start EditMachine.start :=
    sound.den_explores hE wellFormed_initial denotes_start
  constructor
  · rintro ⟨t, v, _, hpath, ⟨rfl, id, aid, d, n, hdecode, ha, hn, hfinal⟩, rfl⟩
    rw [path_fullGraph_iff] at hpath
    obtain ⟨⟨p, a⟩, ht, habs⟩ := sound.path hE wellFormed_initial hstart hpath
    obtain ⟨hu, id', aid', hdecode', hspells, ha'⟩ := ht
    cases hdecode.symm.trans hdecode'
    obtain rfl : AutomatonState.normal q.length d = a := Option.some.inj (ha.symm.trans ha')
    obtain ⟨-, -, hk, -, rfl, -⟩ := reached habs
    -- The expansion of the state reached made it final with weight 0.
    obtain ⟨e, he⟩ := hc _ _ _ _ hpath
    obtain ⟨log₁, r₁, r₂, log₂, hE₁, hv, hexpand, hE₂⟩ := hE.of_mem he
    have hr₁ := sound.inv_explores hE₁ wellFormed_initial
    obtain ⟨s', hs'⟩ := denotes_of_valid hr₁ hv
    have heq := sound.den_unique hr (sound.den_explores hE₂ (sound.inv_expand hr₁ hexpand)
      (sound.den_expand hr₁ hexpand hs')) ⟨hu, id, aid, hdecode, hspells, ha⟩
    subst heq
    obtain ⟨id', aid', m, hspells', hnode, -, -, hexpand'⟩ := hs'.expandState hr₁
    cases hexpand'.symm.trans hexpand
    obtain ⟨m', hnode', hm'⟩ := hr.node hspells
    cases hnode'.symm.trans hnode
    cases hn.symm.trans hm'
    have hd := LevenshteinStateCodec.cost_lt_of_decode ha
    have hdk := (LevenshteinStateCodec.valid_of_decode ha).cost_le
    simp only [AutomatonState.editCost, u32Max] at hd hdk
    have hweight : (sourceOf D q k algorithm).normalFinalWeight n q.length d = some 0 :=
      normalFinalWeight_eq_some.mpr ⟨hfinal, le_rfl, (Nat.sub_self _).symm, hdk, by simp only [usizeMax]; omega,
        Nat.zero_le _⟩
    refine ⟨List.take_of_length_le le_rfl, t, v, 0, ?_, ⟨_, he, hweight⟩, rfl⟩
    exact hpath
  · rintro ⟨rfl, t, v, f, hpath, ⟨e, he, hf⟩, rfl⟩
    obtain ⟨⟨p, a⟩, ht, habs⟩ := sound.path hE wellFormed_initial hstart hpath
    obtain ⟨b, hb, -, hfinal⟩ := sound.logged hE wellFormed_initial he
    cases sound.den_unique hr ht hb
    obtain ⟨-, id, aid, hdecode, hspells, ha⟩ := ht
    cases hfinal f hf with
    | @normal _ i d hw hi hk =>
      obtain ⟨-, -, -, -, htake, -⟩ := reached habs
      -- Reading `x` has moved the cursor to its end.
      have hlen := congrArg List.length htake
      rw [List.length_take, Nat.min_eq_left hi] at hlen
      subst hlen
      obtain ⟨n, hn, hfinal⟩ := hw
      obtain ⟨n', hn', hid⟩ := hr.node hspells
      cases hn.symm.trans hn'
      rw [Nat.sub_self]
      exact ⟨t, v, 0, path_fullGraph_iff.mpr hpath, ⟨rfl, id, aid, d, n, hdecode, ha, hid, hfinal⟩, rfl⟩

/-- An accepted pair has a least weight. -/
theorem exists_leastWeight {x w : List Char} {v : Nat} (h : (graph log).Accepts start x w v) :
    ∃ c, (graph log).LeastWeight start x w c :=
  ⟨_, Nat.sInf_mem ⟨v, h⟩, fun _ hc => Nat.sInf_le hc⟩

theorem sameWeights_iff (hE : (sourceOf D q k algorithm).source.Explores (initial D) log r)
    (hc : Complete log start) : (∀ x w c, (graph log).LeastWeight start x w c ↔
      (fullGraph (sourceOf D q k algorithm) r log).LeastWeight start x w c) ↔
    ∀ x w v, (graph log).Accepts start x w v → x = q := by
  constructor
  · intro h x w v hv
    obtain ⟨c, hc'⟩ := exists_leastWeight hv
    exact ((accepts_fullGraph_iff hE hc).mp ((h x w c).mp hc').1).1
  · intro h x w c
    have heq : {v | (fullGraph (sourceOf D q k algorithm) r log).Accepts start x w v} =
        {v | (graph log).Accepts start x w v} :=
      Set.ext fun v => (accepts_fullGraph_iff hE hc).trans ⟨And.right, fun hv => ⟨h x w v hv, hv⟩⟩
    rw [Transducer.LeastWeight, Transducer.LeastWeight, heq]

/-- No word is so close to the query without its last character that the last deletion fits the bound too. -/
def LastDeletionExceedsBound (D : FiniteDictionary N U) (q : List Char) (k : Nat) (algorithm : Algorithm) : Prop :=
  q = [] ∨ ∀ w ∈ D.words, k ≤ cost algorithm q.dropLast w

/-- A proper prefix reads no further than the query without its last character. -/
theorem cost_dropLast_le {x w : List Char} {c : Nat} (hx : x <+: q) (hne : x ≠ q)
    (h : Alignment.Align (Op algorithm) x w c) : cost algorithm q.dropLast w + 1 ≤ c + (q.length - x.length) := by
  have hlt : x.length < q.length := lt_of_le_of_ne hx.length_le fun h => hne (hx.eq_of_length h)
  have hx' : x <+: q.dropLast := by
    rw [List.dropLast_eq_take, List.prefix_take_iff]
    exact ⟨hx, by omega⟩
  have := cost_le_of_prefix hx' h
  rw [List.length_dropLast] at this
  omega

theorem spellsQuery_of_condition (hE : (sourceOf D q k algorithm).source.Explores (initial D) log r)
    (h : LastDeletionExceedsBound D q k algorithm) : ∀ x w v, (graph log).Accepts start x w v → x = q := by
  intro x w v hv
  obtain ⟨hw, c, hx, halign, rfl, hk⟩ := of_accepts hE hv
  by_contra hne
  have hcost := cost_dropLast_le hx hne halign
  rcases h with rfl | h
  · exact hne (List.prefix_nil.mp hx)
  · have := h w hw
    omega

/-- The input tape is the query exactly when no word is that close; this suffices also when ids do not fit. -/
theorem inputTapeIsQuery_iff (hE : (sourceOf D q k algorithm).source.Explores (initial D) log r)
    (hc : Complete log start) :
    (LastDeletionExceedsBound D q k algorithm →
      (∀ x w c, (graph log).LeastWeight start x w c ↔
        (fullGraph (sourceOf D q k algorithm) r log).LeastWeight start x w c) ∧
      ∀ x w v, (graph log).Accepts start x w v → x = q) ∧
    (Fits D q k algorithm → (InputTapeIsQuery D q k algorithm r log ↔ LastDeletionExceedsBound D q k algorithm)) := by
  refine ⟨fun h => ⟨(sameWeights_iff hE hc).mpr (spellsQuery_of_condition hE h), spellsQuery_of_condition hE h⟩,
    fun hfits => ⟨fun h => ?_, fun h => ?_⟩⟩
  · by_contra hne
    simp only [LastDeletionExceedsBound, not_or, not_forall, not_le] at hne
    obtain ⟨hq, w, hw, hlt⟩ := hne
    have hlen := List.length_pos_iff.mpr hq
    have haccepts : (graph log).Accepts start q.dropLast w (cost algorithm q.dropLast w + 1) :=
      (accepts_iff hfits hE hc).mpr ⟨hw, _, List.dropLast_prefix q, align_editCost, by
        rw [List.length_dropLast, Nat.sub_sub_self hlen]; rfl, hlt⟩
    have := congrArg List.length (h.spellsQuery _ _ _ haccepts)
    rw [List.length_dropLast] at this
    omega
  · have hspells := spellsQuery_of_condition hE h
    refine ⟨(sameWeights_iff hE hc).mpr hspells, hspells, fun x w c => ⟨fun hleast => ?_, ?_⟩⟩
    · obtain rfl := hspells x w c hleast.1
      obtain ⟨hw, d, -, halign, heq, hk⟩ := (accepts_iff hfits hE hc).mp hleast.1
      rw [Nat.sub_self, Nat.add_zero] at heq
      subst heq
      have hcost := editCost_le halign
      have hself : (graph log).Accepts start x w (cost algorithm x w) := (accepts_iff hfits hE hc).mpr
        ⟨hw, _, List.prefix_refl x, align_editCost, by rw [Nat.sub_self, Nat.add_zero]; rfl, hcost.trans hk⟩
      exact ⟨rfl, hw, hcost.trans hk, le_antisymm (hleast.2 hself) hcost⟩
    · rintro ⟨rfl, hw, hk, rfl⟩
      refine ⟨(accepts_iff hfits hE hc).mpr
        ⟨hw, _, List.prefix_refl x, align_editCost, by rw [Nat.sub_self, Nat.add_zero]; rfl, hk⟩, fun v hv => ?_⟩
      obtain ⟨-, d, -, halign, rfl, -⟩ := (accepts_iff hfits hE hc).mp hv
      exact (editCost_le halign).trans (Nat.le_add_right _ _)

theorem fits_trie_empty : Fits (trie [[]]) ['a'] 1 .standard := by
  refine ⟨by decide, ?_⟩
  rw [show (trie [[]]).prefixes = _ from TrieDictionary.prefixes_eq, Set.ncard_coe_finset]
  decide

/-- Against the empty word, the query `a` is accepted within distance 1 without being read. -/
theorem not_inputTapeIsQuery : ∃ log r,
    (sourceOf (trie [[]]) ['a'] 1 .standard).source.Explores (initial (trie [[]])) log r ∧ Complete log start ∧
      (graph log).Accepts start [] [] 1 ∧ ¬InputTapeIsQuery (trie [[]]) ['a'] 1 .standard r log := by
  obtain ⟨log, r, hE, hc⟩ := exists_exploration (trie [[]]) ['a'] 1 .standard
  have hword : [] ∈ (trie [[]]).words := by
    rw [show (trie [[]]).words = _ from TrieDictionary.words_eq]
    exact List.mem_singleton_self _
  have haccepts : (graph log).Accepts start [] [] 1 :=
    (accepts_iff fits_trie_empty hE hc).mpr ⟨hword, 0, List.nil_prefix, .nil, rfl, le_rfl⟩
  exact ⟨log, r, hE, hc, haccepts, fun h => absurd (h.spellsQuery _ _ _ haccepts) (by decide)⟩

theorem fits_trie_ab : Fits (trie [['a', 'b']]) ['a', 'b'] 1 .standard := by
  refine ⟨by decide, ?_⟩
  rw [show (trie [['a', 'b']]).prefixes = _ from TrieDictionary.prefixes_eq, Set.ncard_coe_finset]
  decide

/-- The word `ab` is an edit away from `a`, so that within distance 1 the query `ab` is read whole when it is accepted. -/
theorem inputTapeIsQuery_ab : ∃ log r,
    (sourceOf (trie [['a', 'b']]) ['a', 'b'] 1 .standard).source.Explores (initial (trie [['a', 'b']])) log r ∧ Complete log start ∧
      InputTapeIsQuery (trie [['a', 'b']]) ['a', 'b'] 1 .standard r log ∧ (graph log).Accepts start ['a', 'b'] ['a', 'b'] 0 := by
  obtain ⟨log, r, hE, hc⟩ := exists_exploration (trie [['a', 'b']]) ['a', 'b'] 1 .standard
  have hwords : (trie [['a', 'b']]).words = {w | w ∈ [['a', 'b']]} := TrieDictionary.words_eq
  have hexceeds : LastDeletionExceedsBound (trie [['a', 'b']]) ['a', 'b'] 1 .standard := by
    refine Or.inr fun w hw => ?_
    obtain rfl : w = ['a', 'b'] := by simpa [hwords] using hw
    refine Nat.pos_of_ne_zero fun hzero => ?_
    exact absurd (eq_of_align_zero align_editCost hzero) (by decide)
  refine ⟨log, r, hE, hc, ((inputTapeIsQuery_iff hE hc).2 fits_trie_ab).mpr hexceeds, ?_⟩
  refine (accepts_iff fits_trie_ab hE hc).mpr ⟨by simp [hwords], 0, List.prefix_rfl, ?_, rfl, Nat.zero_le _⟩
  exact (Alignment.Align.single (EditOp.keep 'a')).append (.single (EditOp.keep 'b'))

end Duallity.LevenshteinStateSource
