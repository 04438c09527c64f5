import Duallity.Fzf.Exact
import Duallity.Fzf.Paths

/-! The three surfaces of fzf scoring. The scorer and the ranking refuse terms above the length limit; the graph does not look
    at it, so they agree exactly when no term above the limit that contains the query has got a state. -/

namespace Duallity.FzfStateSource
open DictionaryNodeRegistry LazySource FzfRanking

section Registered
variable {N U : Type} [CharUnit U] {D : FiniteDictionary N U} {core : FzfCore} {r r' : FzfStateRegistry N} {state d : Nat}
  {p : List Char} {log : List (Nat × Expansion Nat Char Char Int)} {arcs : List (Arc Nat Char Char Int)}

/-! ### Registered states -/

/-- Each id below another has the arc of some expansion. -/
def Logged (log : List (Nat × Expansion Nat Char Char Int)) (r : FzfStateRegistry N) : Prop :=
  ∀ q c d, r.id? (DictionaryNodeKey.child q c) = some d → ∃ e, (q, e) ∈ log ∧ ∃ arc ∈ e.arcs, Copies c d arc

theorem logged_initial : Logged [] (sourceOf D core).initial := by
  intro q c d h
  obtain ⟨-, -, hlt, -⟩ := WellFormed.child_edge (wellFormed_initial : WellFormed (D.scored core) _) h
  have hd := Interner.id?_lt h
  rw [show (sourceOf D core).initial.size = 1 from size_new] at hd
  omega

/-- An expansion fails and changes nothing, or it follows the edges of the state. -/
theorem expand_cases {o : Option (Expansion Nat Char Char Int)} (h : (sourceOf D core).source.expand r state = (r', o)) :
    (r' = r ∧ o = none) ∨ ∃ registered arcs final?, r.get state = some registered ∧
      (sourceOf D core).followEdges state registered (D.edges registered.node) r = some (r', arcs) ∧ o = some ⟨arcs, final?⟩ := by
  change ((sourceOf D core).computeRegisteredState r state).getD (r, none) = (r', o) at h
  unfold computeRegisteredState at h
  cases hget : r.get state with
  | none =>
    rw [hget] at h
    cases h
    exact .inl ⟨rfl, rfl⟩
  | some registered =>
    rw [hget] at h
    dsimp only at h
    change (Option.map _ ((sourceOf D core).followEdges state registered (D.edges registered.node) r)).getD _ = _ at h
    cases hfollow : (sourceOf D core).followEdges state registered (D.edges registered.node) r with
    | none =>
      rw [hfollow] at h
      cases h
      exact .inl ⟨rfl, rfl⟩
    | some result =>
      rw [hfollow] at h
      cases h
      exact .inr ⟨registered, result.2, _, rfl, hfollow, rfl⟩

theorem logged_of_explored (hcore : core.WellFormed) (hE : Explored D core log r) : Logged log r := by
  have hsound : Sound (sourceOf D core).source _ _ _ := sound hcore
  unfold Explored at hE
  generalize hinit : (sourceOf D core).initial = r₀ at hE
  induction hE with
  | nil => exact hinit ▸ logged_initial
  | @expanded r₁ r₂ log s e hE _ hexpand ih =>
    have hr₁ := hsound.inv_explores hE (hinit ▸ wellFormed_initial)
    rcases expand_cases hexpand with ⟨-, hnone⟩ | ⟨registered, arcs, final?, hget, hfollow, ho⟩
    · cases hnone
    · cases ho
      obtain ⟨-, -, hnew, -⟩ := followEdges_ids _ hr₁.size_le hfollow
      intro q c d h
      rcases hnew _ _ h with h | ⟨c', hk, arc, harc, hcopies⟩
      · obtain ⟨e, he, harc⟩ := ih q c d h
        exact ⟨e, List.mem_cons_of_mem _ he, harc⟩
      · obtain ⟨rfl, rfl⟩ := DictionaryNodeKey.child_injective hk
        exact ⟨_, List.mem_cons_self, arc, harc, hcopies⟩
  | @failed r₁ r₂ log s hE hexpand ih =>
    rcases expand_cases hexpand with ⟨heq, -⟩ | ⟨registered, arcs, final?, -, -, ho⟩
    · rw [heq]
      exact ih
    · cases ho

/-- A registered label sequence has a path. -/
theorem path_of_spells (hcore : core.WellFormed) (hE : Explored D core log r) (h : Spells r d p) :
    ∃ w, (graph log).Path start p p w d := by
  induction h with
  | root => exact ⟨0, .nil _⟩
  | child _ hid ih =>
    obtain ⟨w, hpath⟩ := ih
    obtain ⟨e, he, arc, harc, hinput, houtput, htarget⟩ := logged_of_explored hcore hE _ _ _ hid
    exact ⟨_, hpath.snoc ⟨e, he, arc, harc, hinput, houtput, rfl, htarget⟩⟩

/-- The expansion of a word that contains the query is final. -/
theorem final_of_logged (hcore : core.WellFormed) (hE : Explored D core log r) (hp : Spells r d p)
    {e : Expansion Nat Char Char Int} (he : (d, e) ∈ log) (hword : p ∈ D.words) (hcontains : core.Contains p) :
    e.final? = some 0 := by
  have hsound : Sound (sourceOf D core).source _ _ _ := sound hcore
  obtain ⟨log₁, r₁, r₂, log₂, hE₁, hvalid, hexpand, hE₂⟩ := hE.of_mem he
  have hr₁ := hsound.inv_explores hE₁ wellFormed_initial
  obtain ⟨p', hp'⟩ := hsound.den_of_valid hr₁ hvalid
  obtain ⟨r₃, e₃, hcompute, -, -, hfinal, -⟩ := computeRegisteredState_spec hcore hr₁ hp'
  cases (expand_eq_compute hcompute).symm.trans hexpand
  have hlast := hsound.den_explores hE₂ (hsound.inv_expand hr₁ hexpand) (hsound.den_expand hr₁ hexpand hp')
  cases (hsound.inv_explores hE wellFormed_initial).path_unique hp hlast
  exact (hfinal 0).mpr ⟨hword, hcontains, rfl⟩

/-- The graph accepts the words that contain the query and have a state, each with its score. -/
theorem accepts_iff_registered (hcore : core.WellFormed) (hE : Explored D core log r) (hc : Complete log start)
    {x y : List Char} {v : Int} : (graph log).Accepts start x y v ↔
      x = y ∧ x ∈ D.words ∧ (core.column x).bestFullScore = some v ∧ ∃ state, Spells r state x := by
  have hsound : Sound (sourceOf D core).source _ _ _ := sound hcore
  constructor
  · intro haccepts
    obtain ⟨hxy, hword, hbest⟩ := machine_accepts_iff.mp (hsound.accepts hE wellFormed_initial .root haccepts)
    obtain ⟨state, w, f, hpath, -⟩ := haccepts
    obtain ⟨p, hp, hmachine⟩ := hsound.path hE wellFormed_initial .root hpath
    obtain ⟨-, hpx, -⟩ := machine_path hmachine
    rw [List.nil_append] at hpx
    subst hpx
    exact ⟨hxy, hword, hbest, state, hp⟩
  · rintro ⟨rfl, hword, hbest, state, hspells⟩
    obtain ⟨w, hpath⟩ := path_of_spells hcore hE hspells
    obtain ⟨e, he⟩ := hc _ _ _ _ hpath
    have hcontains := FzfCore.best_isSome_iff.mp (Option.isSome_iff_exists.mpr ⟨v, hbest⟩)
    have hfinal := final_of_logged hcore hE hspells he hword hcontains
    have haccepts : (graph log).Accepts start x x (w + 0) := ⟨state, w, 0, hpath, ⟨e, he, hfinal⟩, rfl⟩
    obtain ⟨-, -, hweight⟩ := machine_accepts_iff.mp (hsound.accepts hE wellFormed_initial .root haccepts)
    rw [hbest] at hweight
    cases hweight
    exact haccepts

end Registered

/-! ### Agreement -/

section Agreement
variable {N : Type} {D : FiniteDictionary N Char} {scorer : FzfScorer} {r : FzfStateRegistry N}
  {log : List (Nat × Expansion Nat Char Char Int)} {tables : UnicodeTables} {query : List Char} {config : FzfConfig}

/-- The graph accepts a term with a score just when the scorer gives it that score, and a ranking has just the hits that the
    scorer gives, but for those below `topK` others. -/
def SurfacesAgree (D : FiniteDictionary N Char) (tables : UnicodeTables) (query : List Char) (config : FzfConfig)
    (scorer : FzfScorer) (log : List (Nat × Expansion Nat Char Char Int)) : Prop :=
  ∀ t ∈ D.words, ∀ s, ((graph log).Accepts start t t s ↔ scorer.score t = .ok (some s)) ∧
    ∀ workUnits ranking, ranked D.toDictionary tables query config workUnits = some (.ok ranking) →
      (⟨t, s⟩ ∈ ranking.hits ↔ scorer.score t = .ok (some s) ∧
        {hit : RankedHit | hit ∈ candidates D scorer.core ∧ ⟨t, s⟩ < hit}.ncard < config.topK)

theorem core_of_scorer (h : FzfScorer.withConfig tables query config = .ok scorer) :
    FzfCore.new tables query config = .ok scorer.core := by
  unfold FzfScorer.withConfig at h
  cases hnew : FzfCore.new tables query config with
  | error error =>
    rw [hnew] at h
    cases h
  | ok core =>
    rw [hnew] at h
    cases h
    rfl

/-- The number of elements of a set with a property, counted on a list of them. -/
theorem countP_eq_ncard {α : Type} [DecidableEq α] {all : List α} {C : Set α} (hnodup : all.Nodup) (hmem : ∀ x, x ∈ all ↔ x ∈ C)
    (P : α → Prop) [DecidablePred P] : all.countP (fun x => P x) = {x | x ∈ C ∧ P x}.ncard := by
  have hset : {x | x ∈ C ∧ P x} = ((all.filter fun x => P x).toFinset : Set α) := by
    ext x
    simp [hmem]
  rw [hset, Set.ncard_coe_finset, List.toFinset_card_of_nodup (hnodup.filter _), List.countP_eq_length_filter]

theorem mem_hits_iff (hscorer : FzfScorer.withConfig tables query config = .ok scorer) {workUnits : Nat} {ranking : DuallityFzfRanking}
    (h : ranked D.toDictionary tables query config workUnits = some (.ok ranking)) {hit : RankedHit} (hword : hit.term ∈ D.words) :
    hit ∈ ranking.hits ↔ scorer.score hit.term = .ok (some hit.score) ∧
      {other : RankedHit | other ∈ candidates D scorer.core ∧ hit < other}.ncard < config.topK := by
  have hnew := core_of_scorer hscorer
  have htop : 0 < config.topK := by
    rw [Nat.pos_iff_ne_zero]
    intro hzero
    rw [ranked, if_pos hzero] at h
    cases h
  rcases ranked_spec (D := D) (FzfCore.wellFormed_of_new hnew) hnew htop workUnits with
    hranked | ⟨ranking', hranked, all, hsorted, hmem, hhits⟩
  · cases h.symm.trans hranked
  · cases h.symm.trans hranked
    have hnodup : all.Nodup := hsorted.imp fun h => ne_of_gt h
    rw [hhits, TopK.mem_take_iff hsorted, hmem, countP_eq_ncard hnodup hmem, FzfCore.config_of_new hnew]
    exact and_congr_left fun _ => and_iff_right hword

/-- The surfaces agree on a term that contains the query when the length limit lets it in just if it has a state. -/
theorem agrees_iff (hscorer : FzfScorer.withConfig tables query config = .ok scorer) (hE : Explored D scorer.core log r)
    (hc : Complete log start) : SurfacesAgree D tables query config scorer log ↔ ∀ t ∈ D.words, scorer.core.Contains t →
      (t.length ≤ config.maxCandidateChars ↔ ∃ state, Spells r state t) := by
  have hnew := core_of_scorer hscorer
  have hcore := FzfCore.wellFormed_of_new hnew
  constructor
  · intro h t hword hcontains
    obtain ⟨s, hs⟩ := Option.isSome_iff_exists.mp (FzfCore.best_isSome_iff.mpr hcontains)
    have hterm := (h t hword s).1
    rw [accepts_iff_registered hcore hE hc, FzfScorer.score, scoreChars_eq_some, FzfCore.config_of_new hnew] at hterm
    constructor
    · intro hlen
      exact (hterm.mpr ⟨hlen, hs⟩).2.2.2
    · intro hspells
      exact (hterm.mp ⟨rfl, hword, hs, hspells⟩).1
  · intro h t hword s
    refine ⟨?_, fun workUnits ranking hranked => mem_hits_iff hscorer hranked hword⟩
    rw [accepts_iff_registered hcore hE hc, FzfScorer.score, scoreChars_eq_some, FzfCore.config_of_new hnew]
    constructor
    · rintro ⟨-, -, hs, hspells⟩
      have hcontains := FzfCore.best_isSome_iff.mp (Option.isSome_iff_exists.mpr ⟨s, hs⟩)
      exact ⟨(h t hword hcontains).mpr hspells, hs⟩
    · rintro ⟨hlen, hs⟩
      have hcontains := FzfCore.best_isSome_iff.mp (Option.isSome_iff_exists.mpr ⟨s, hs⟩)
      exact ⟨rfl, hword, hs, (h t hword hcontains).mp hlen⟩

/-- The surfaces agree just when the length limit lets in those terms that contain the query and have a state; within the ids,
    when no term above the limit contains the query. -/
theorem surfaces_agree_iff (D : FiniteDictionary N Char) (tables : UnicodeTables) (query : List Char) (config : FzfConfig)
    (hscorer : FzfScorer.withConfig tables query config = .ok scorer) (hE : Explored D scorer.core log r)
    (hc : Complete log start) :
    (SurfacesAgree D tables query config scorer log ↔ ∀ t ∈ D.words, scorer.core.query.Sublist (t.map scorer.core.comparable) →
      (t.length ≤ config.maxCandidateChars ↔ ∃ state, Spells r state t)) ∧
    (D.prefixes.ncard ≤ u32Count → (SurfacesAgree D tables query config scorer log ↔
      ∀ t ∈ D.words, scorer.core.query.Sublist (t.map scorer.core.comparable) → t.length ≤ config.maxCandidateChars)) := by
  have hagrees := agrees_iff hscorer hE hc
  refine ⟨hagrees, fun hfits => hagrees.trans ?_⟩
  have hcore := FzfCore.wellFormed_of_new (core_of_scorer hscorer)
  refine forall₂_congr fun t hword => forall_congr' fun hcontains => iff_true_right ?_
  obtain ⟨s, hs⟩ := Option.isSome_iff_exists.mp (FzfCore.best_isSome_iff.mpr hcontains)
  have haccepts := (accepts_iff hcore hfits hE hc (x := t) (y := t) (v := s)).mpr ⟨rfl, hword, hs⟩
  exact ((accepts_iff_registered hcore hE hc).mp haccepts).2.2.2

/-- A limit of two characters lets in both characters of the only term. -/
theorem surfaces_agree_iff_trie : ∃ log, SurfacesAgree (trie [['a', 'b']]) asciiTables ['a'] ⟨false, .default, 1, 1000, 2⟩
    ⟨⟨asciiTables, ['a'], ⟨false, .default, 1, 1000, 2⟩, 10⟩, [⟨[default], .white, 0, none⟩], [], ⟨0, 0, 0, 0, 0, 0⟩⟩ log := by
  have hscorer : FzfScorer.withConfig asciiTables ['a'] ⟨false, .default, 1, 1000, 2⟩ = .ok
      ⟨⟨asciiTables, ['a'], ⟨false, .default, 1, 1000, 2⟩, 10⟩, [⟨[default], .white, 0, none⟩], [], ⟨0, 0, 0, 0, 0, 0⟩⟩ := rfl
  have hfits : (trie [['a', 'b']]).prefixes.ncard ≤ u32Count := by
    rw [show (trie [['a', 'b']]).prefixes = _ from TrieDictionary.prefixes_eq, Set.ncard_coe_finset]
    decide
  obtain ⟨log, r, hE, hc⟩ := exists_exploration (FzfCore.wellFormed_of_new (core_of_scorer hscorer)) (trie [['a', 'b']])
  refine ⟨log, ((surfaces_agree_iff _ _ _ _ hscorer hE hc).2 hfits).mpr ?_⟩
  intro t hword _
  rw [show (trie [['a', 'b']]).words = _ from TrieDictionary.words_eq] at hword
  cases List.mem_singleton.mp hword
  exact le_rfl

/-- With a limit of one character, the graph accepts a term of two that the scorer and the ranking leave out. -/
theorem not_surfaces_agree : ∃ scorer log r, FzfScorer.withConfig asciiTables ['a'] ⟨false, .default, 1, 1000, 1⟩ = .ok scorer ∧
    Explored (trie [['a', 'b']]) scorer.core log r ∧ Complete log start ∧ (graph log).Accepts start ['a', 'b'] ['a', 'b'] 36 ∧
    scorer.score ['a', 'b'] = .error (.candidateTooLong 2 1) ∧
    (fzfRankRef (trie [['a', 'b']]).toDictionary asciiTables ['a'] ⟨false, .default, 1, 1000, 1⟩ 10).2.map DuallityFzfRanking.hits =
      some [] ∧
    ¬SurfacesAgree (trie [['a', 'b']]) asciiTables ['a'] ⟨false, .default, 1, 1000, 1⟩ scorer log := by
  have hscorer : FzfScorer.withConfig asciiTables ['a'] ⟨false, .default, 1, 1000, 1⟩ = .ok
      ⟨⟨asciiTables, ['a'], ⟨false, .default, 1, 1000, 1⟩, 10⟩, [⟨[default], .white, 0, none⟩], [], ⟨0, 0, 0, 0, 0, 0⟩⟩ := rfl
  have hfits : (trie [['a', 'b']]).prefixes.ncard ≤ u32Count := by
    rw [show (trie [['a', 'b']]).prefixes = _ from TrieDictionary.prefixes_eq, Set.ncard_coe_finset]
    decide
  have hword : ['a', 'b'] ∈ (trie [['a', 'b']]).words := by
    rw [show (trie [['a', 'b']]).words = _ from TrieDictionary.words_eq]
    exact List.mem_singleton_self _
  have hcore := FzfCore.wellFormed_of_new (core_of_scorer hscorer)
  obtain ⟨log, r, hE, hc⟩ := exists_exploration hcore (trie [['a', 'b']])
  have haccepts : (graph log).Accepts start ['a', 'b'] ['a', 'b'] 36 :=
    (accepts_iff hcore hfits hE hc).mpr ⟨rfl, hword, by decide⟩
  refine ⟨_, log, r, hscorer, hE, hc, haccepts, by decide, by decide +kernel, ?_⟩
  intro hagree
  have hlen := (scoreChars_eq_some.mp (((hagree _ hword 36).1).mp haccepts)).1
  exact absurd hlen (by decide)

end Agreement

end Duallity.FzfStateSource
