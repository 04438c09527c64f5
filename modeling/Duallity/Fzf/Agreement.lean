import Duallity.Fzf.Exact
import Duallity.Fzf.Paths

/-! The ranking against the graph. The search that leaves out subtrees ranks what the graph accepts, and it fits in a limit of
    one unit of work for each edge. -/

namespace Duallity.FzfRanking
variable {N : Type} {D : FiniteDictionary N Char} {core : FzfCore} {limit : Nat} {r r' : RankState N} {node : N} {depth : Nat}

theorem acceptNode_kept (h : acceptNode D.toDictionary node r = some r') :
    r'.stack = r.stack ∧ r'.activePrefix = r.activePrefix ∧ r'.work = r.work := by
  unfold acceptNode at h
  split at h
  · obtain ⟨p, -, rfl⟩ := Option.map_eq_some_iff.mp h
    exact ⟨rfl, rfl, rfl⟩
  · cases h
    exact ⟨rfl, rfl, rfl⟩

/-- The stack of a walk, and its work. -/
structure Affordable (D : FiniteDictionary N Char) (s : RankState N) : Prop where
  stack : StackOk D.toDictionary s.activePrefix s.stack
  affords : PrefixSearch.Affords D.prefixes s.work (roots s.activePrefix s.stack)

/-- A node that was reached is expanded. -/
theorem expandNode_affordable (hlimit : D.prefixes.ncard ≤ limit + 1) (hnode : D.node? r.activePrefix = some node)
    (hstack : StackOk D.toDictionary r.activePrefix r.stack)
    (haffords : PrefixSearch.Affords D.prefixes r.work (r.activePrefix :: roots r.activePrefix r.stack)) :
    ∃ r', expandNode D.toDictionary limit node r.activePrefix.length r = .ok r' ∧ Affordable D r' := by
  have hchildren : ∀ c ∈ (D.edges node).map Prod.fst, r.activePrefix ++ [c] ∈ D.prefixes := by
    intro c hc
    obtain ⟨child, hchild, rfl⟩ := List.mem_map.mp hc
    exact Dictionary.mem_prefixes.mpr ⟨_, node?_child hnode hchild⟩
  have hlabels : ((D.edges node).map Prod.fst).Nodup := D.labels_nodup node
  have hvisit := haffords.visit D.finite hlabels hchildren
  have hlength : ((D.edges node).map Prod.fst).length = (D.edges node).length := List.length_map _
  have hlt := hvisit.work_lt D.finite
  rw [hlength] at hlt
  have htake : (D.edges node).take (limit - r.work + 1) = D.edges node := List.take_of_length_le (by omega)
  unfold expandNode pushChildren
  dsimp only
  rw [htake, if_neg (by omega)]
  refine ⟨_, rfl, ?_, ?_⟩
  · exact stackOk_children hstack fun child hchild => node?_child hnode hchild
  · dsimp only
    rw [roots_children, ← hlength]
    exact hvisit

theorem rankEvent_affordable (hlimit : D.prefixes.ncard ≤ limit + 1) {event : WalkEvent N} {stack : List (WalkEvent N)}
    (hr : r.stack = event :: stack) (h : Affordable D r) {outcome : Except Rejection (RankState N)}
    (ho : rankEvent D.toDictionary limit { r with stack } event = some outcome) : ∃ r', outcome = .ok r' ∧ Affordable D r' := by
  obtain ⟨hstack, haffords⟩ := h
  rw [hr] at hstack haffords
  cases event with
  | leave unit depth =>
    obtain ⟨q, hq, -, hrest⟩ := hstack
    obtain ⟨s, -, rfl⟩ := Option.map_eq_some_iff.mp ho
    rw [roots] at haffords
    refine ⟨_, rfl, ?_, haffords⟩
    dsimp only
    rw [hq, List.dropLast_concat]
    exact hrest
  | enter unit node depth =>
    obtain ⟨hnode, rfl, hrest⟩ := hstack
    rw [roots] at haffords
    obtain ⟨⟨entered, s⟩, -, ho⟩ := Option.bind_eq_some_iff.mp ho
    cases entered with
    | true =>
      obtain ⟨reached, haccept, ho⟩ := Option.bind_eq_some_iff.mp ho
      obtain ⟨hkept, hpre, hwork⟩ := acceptNode_kept haccept
      dsimp only at hkept hpre hwork
      have hlength : r.activePrefix.length + 1 = reached.activePrefix.length := by rw [hpre, List.length_append]; rfl
      rw [← Option.some.inj ho, hlength]
      refine expandNode_affordable (r := { reached with stack := .leave unit reached.activePrefix.length :: reached.stack }) hlimit
        (hpre ▸ hnode) ?_ ?_
      · dsimp only
        rw [hpre, hkept]
        exact ⟨_, rfl, by rw [List.length_append]; rfl, hrest⟩
      · dsimp only
        rw [hpre, hkept, hwork, roots, List.dropLast_concat]
        exact haffords
    | false =>
      obtain ⟨s', -, ho⟩ := Option.bind_eq_some_iff.mp ho
      cases ho
      exact ⟨_, rfl, hrest, haffords.prune D.finite⟩

/-- The loop never runs out of work. -/
theorem rankLoop_affordable (hlimit : D.prefixes.ncard ≤ limit + 1) (fuel : Nat) (h : Affordable D r)
    {outcome : Except Rejection (RankState N)} (ho : rankLoop D.toDictionary limit fuel r = some outcome) :
    ∃ r', outcome = .ok r' := by
  induction fuel generalizing r with
  | zero =>
    rw [rankLoop] at ho
    split at ho
    · exact ⟨r, (Option.some.inj ho).symm⟩
    · cases ho
  | succ fuel ih =>
    rw [rankLoop] at ho
    split at ho
    · exact ⟨r, (Option.some.inj ho).symm⟩
    · rename_i event stack hr
      cases hevent : rankEvent D.toDictionary limit { r with stack } event with
      | none =>
        rw [hevent] at ho
        cases ho
      | some outcome' =>
        obtain ⟨r', rfl, hr'⟩ := rankEvent_affordable hlimit hr h hevent
        rw [hevent] at ho
        exact ih hr' ho

/-- One unit of work for each edge is enough. -/
theorem ranked_affordable {tables : UnicodeTables} {query : List Char} {config : FzfConfig} {workUnits : Nat}
    (hnew : FzfCore.new tables query config = .ok core) (htop : 0 < config.topK) (hwork : D.prefixes.ncard ≤ workUnits + 1) :
    ranked D.toDictionary tables query config workUnits ≠ some (.error workExceeded) := by
  unfold ranked
  rw [if_neg (Nat.ne_of_gt htop), FzfScorer.withConfig, hnew]
  dsimp only [Except.map, Option.bind_eq_bind]
  intro herror
  obtain ⟨reached, haccept, herror⟩ := Option.bind_eq_some_iff.mp herror
  obtain ⟨hkept, hpre, hcharged⟩ := acceptNode_kept haccept
  dsimp only at hkept hpre hcharged
  have hnil : 0 = reached.activePrefix.length := by rw [hpre]; rfl
  have hstart : PrefixSearch.Affords D.prefixes reached.work (reached.activePrefix :: roots reached.activePrefix reached.stack) := by
    rw [hkept, hpre, hcharged]
    exact PrefixSearch.affords_start Dictionary.nil_mem_prefixes
  have hstack : StackOk D.toDictionary reached.activePrefix reached.stack := by
    rw [hkept, hpre]
    rfl
  obtain ⟨s, hexpand, hs⟩ := expandNode_affordable hwork (by rw [hpre]; rfl) hstack hstart
  rw [hnil, hexpand] at herror
  obtain ⟨outcome, hloop, herror⟩ := Option.map_eq_some_iff.mp herror
  obtain ⟨r', rfl⟩ := rankLoop_affordable hwork _ hs hloop
  cases herror

/-- The ranking has the first `topK` of what the graph accepts within the candidate limit, by descending weight and then by
    ascending term. It stops for its limit only below one unit of work for each edge. -/
theorem ranking_of_graph (tables : UnicodeTables) (query : List Char) (config : FzfConfig) (workUnits : Nat)
    {log : List (Nat × Expansion Nat Char Char Int)} {registry : FzfStateRegistry N}
    (hnew : FzfCore.new tables query config = .ok core) (htop : 0 < config.topK) (hfits : D.prefixes.ncard ≤ u32Count)
    (hE : FzfStateSource.Explored D core log registry) (hc : LazySource.Complete log FzfStateSource.start) :
    (∃ ranking, ∃ all : List RankedHit, fzfRankRef D.toDictionary tables query config workUnits = (.ok, some ranking) ∧
      (∀ x y v, (LazySource.graph log).Accepts FzfStateSource.start x y v → x = y) ∧ all.Pairwise (· > ·) ∧
      (∀ hit : RankedHit, hit ∈ all ↔ hit.term.length ≤ config.maxCandidateChars ∧
        (LazySource.graph log).Accepts FzfStateSource.start hit.term hit.term hit.score) ∧ ranking.hits = all.take config.topK) ∨
    (workUnits + 1 < D.prefixes.ncard ∧ fzfRankRef D.toDictionary tables query config workUnits = (.limitExceeded, none)) := by
  have hcore := FzfCore.wellFormed_of_new hnew
  have hconfig := FzfCore.config_of_new hnew
  have haccepts {x y : List Char} {v : Int} := FzfStateSource.accepts_iff (x := x) (y := y) (v := v) hcore hfits hE hc
  rcases ranked_spec hcore hnew htop workUnits with hranked | ⟨ranking, hranked, all, hsorted, hmem, hhits⟩
  · have hwork : ¬D.prefixes.ncard ≤ workUnits + 1 := fun hle => ranked_affordable hnew htop hle hranked
    refine .inr ⟨Nat.lt_of_not_le hwork, ?_⟩
    rw [fzfRankRef, hranked]
    rfl
  · refine .inl ⟨ranking, all, ?_, fun x y v h => (haccepts.mp h).1, hsorted, fun hit => ?_, hconfig ▸ hhits⟩
    · rw [fzfRankRef, hranked]
      rfl
    · rw [hmem, mem_candidates, haccepts, hconfig]
      tauto

/-- The graph accepts the one term that is ranked. -/
theorem ranking_of_graph_trie : ∃ log registry,
    FzfStateSource.Explored (trie [['a', 'b'], ['b']]) ⟨FzfStateSource.asciiTables, ['b'], ⟨false, .default, 1, 1000, 1000000⟩, 10⟩ log
      registry ∧ LazySource.Complete log FzfStateSource.start ∧
    (fzfRankRef (trie [['a', 'b'], ['b']]).toDictionary FzfStateSource.asciiTables ['b'] ⟨false, .default, 1, 1000, 1000000⟩ 3).2.map
      DuallityFzfRanking.hits = some [⟨['b'], 36⟩] ∧ (LazySource.graph log).Accepts FzfStateSource.start ['b'] ['b'] 36 := by
  have hprefixes : (trie [['a', 'b'], ['b']]).prefixes.ncard = 4 := by
    rw [show (trie [['a', 'b'], ['b']]).prefixes = _ from TrieDictionary.prefixes_eq, Set.ncard_coe_finset]
    decide
  have hnew : FzfCore.new FzfStateSource.asciiTables ['b'] ⟨false, .default, 1, 1000, 1000000⟩ =
      .ok ⟨FzfStateSource.asciiTables, ['b'], ⟨false, .default, 1, 1000, 1000000⟩, 10⟩ := rfl
  have heval : (fzfRankRef (trie [['a', 'b'], ['b']]).toDictionary FzfStateSource.asciiTables ['b'] ⟨false, .default, 1, 1000, 1000000⟩
      3).2.map DuallityFzfRanking.hits = some [⟨['b'], 36⟩] := by decide +kernel
  obtain ⟨log, registry, hE, hc⟩ := FzfStateSource.exists_exploration (FzfCore.wellFormed_of_new hnew) (trie [['a', 'b'], ['b']])
  refine ⟨log, registry, hE, hc, heval, ?_⟩
  have hfits : (trie [['a', 'b'], ['b']]).prefixes.ncard ≤ u32Count := by
    rw [hprefixes]
    decide
  rcases ranking_of_graph FzfStateSource.asciiTables ['b'] ⟨false, .default, 1, 1000, 1000000⟩ 3 hnew (by decide) hfits hE hc with
    ⟨ranking, all, hok, -, -, hmem, hhits⟩ | ⟨hlt, -⟩
  · rw [hok] at heval
    have hhit : (⟨['b'], 36⟩ : RankedHit) ∈ ranking.hits := by
      rw [show ranking.hits = _ from Option.some.inj heval]
      exact List.mem_cons_self
    rw [hhits] at hhit
    exact ((hmem _).mp (List.mem_of_mem_take hhit)).2
  · rw [hprefixes] at hlt
    omega

end Duallity.FzfRanking
