import Duallity.WallBreaker.Forest

/-! The paths of a WallBreaker forest. Every path is the beginning of the one path that spells a retained term. -/

namespace Duallity
namespace WallBreakerWfst

/-- The forest of the retained results. -/
def forest (maxDistance : Nat) (results : List WallBreakerResult) : WallBreakerWfst where
  resultChars := ResultCharArena.fromResults results
  resultFinalWeights := wallbreakerResultFinalWeights results
  emptyResultFinalWeight := emptyWallbreakerResultFinalWeight results maxDistance
  idToState := buildWallbreakerStateIndex (ResultCharArena.fromResults results)

/-- Retained results whose characters all get an id. -/
structure Retained (maxDistance : Nat) (results : List WallBreakerResult) : Prop extends ResultsFit results where
  kept : ∀ r ∈ results, KeptDistance maxDistance r.distance

section Expansions
variable {maxDistance : Nat} {results : List WallBreakerResult} {i pos d : Nat} {r : WallBreakerResult}

theorem distanceToF64_kept (h : KeptDistance maxDistance d) : distanceToF64 d = some d := if_pos h.2

theorem finalWeight_kept (hkept : ∀ r ∈ results, KeptDistance maxDistance r.distance) (hr : results[i]? = some r) :
    (wallbreakerResultFinalWeights results)[i]?.join = some r.distance := by
  rw [wallbreakerResultFinalWeights, List.getElem?_map, hr, Option.map_some, Option.join_some]
  exact distanceToF64_kept (hkept r (List.mem_of_getElem? hr))

/-- At most one result has the empty term. -/
theorem Retained.emptyFinalWeight (h : Retained maxDistance results) :
    emptyWallbreakerResultFinalWeight results maxDistance = some d ↔ ⟨[], d⟩ ∈ results := by
  have hmem : ∀ r, r ∈ results.filter (fun r => decide (r.term = [] ∧ r.distance ≤ maxDistance)) ↔ r ∈ results ∧ r.term = [] := by
    intro r
    rw [List.mem_filter, decide_eq_true_eq]
    refine and_congr_right ?_
    intro hr
    exact and_iff_left (h.kept r hr).1
  have hnodup := (h.nodup.of_map _).filter fun r => decide (r.term = [] ∧ r.distance ≤ maxDistance)
  rw [emptyWallbreakerResultFinalWeight]
  generalize results.filter (fun r => decide (r.term = [] ∧ r.distance ≤ maxDistance)) = empties at hmem hnodup ⊢
  match empties, hnodup, hmem with
  | [], _, hmem =>
    refine iff_of_false (Option.some_ne_none d).symm ?_
    intro hd
    cases (hmem _).mpr ⟨hd, rfl⟩
  | [r], _, hmem =>
    obtain ⟨hr, hterm⟩ := (hmem r).mp List.mem_cons_self
    rw [List.foldl_cons, List.foldl_nil, distanceToF64_kept (h.kept r hr)]
    show some r.distance = some d ↔ _
    refine ⟨?_, ?_⟩
    · intro hd
      cases hd
      rw [← hterm]
      exact hr
    · intro hd
      rw [← List.mem_singleton.mp ((hmem _).mpr ⟨hd, rfl⟩)]
  | r :: r' :: empties, hnodup, hmem =>
    obtain ⟨hr, hterm⟩ := (hmem r).mp List.mem_cons_self
    obtain ⟨hr', hterm'⟩ := (hmem r').mp (List.mem_cons_of_mem _ List.mem_cons_self)
    have heq := List.inj_on_of_nodup_map h.nodup hr hr' (hterm.trans hterm'.symm)
    exact absurd (heq ▸ List.mem_cons_self) (List.nodup_cons.mp hnodup).1

/-- The state of a position is found by its key. -/
theorem lookupState_eq (hkey : (forest maxDistance results).idToState[spanStart results i + pos + 1]? = some ⟨i, pos + 1⟩)
    (hid : spanStart results i + pos + 1 ≤ u32Max) (hi : i < u32Max) (hr : results[i]? = some r) (hpos : pos < r.term.length) :
    (forest maxDistance results).lookupState ⟨i, pos + 1⟩ = some (spanStart results i + pos + 1) := by
  have hstate : (forest maxDistance results).resultChars.stateIdForPosition i (pos + 1) = some (spanStart results i + pos + 1) := by
    rw [ResultCharArena.stateIdForPosition, nextWallbreakerResultIndex_eq hi, Option.bind_some, if_neg (Nat.succ_ne_zero pos)]
    show (ResultCharArena.fromResults results).spans[i]?.bind _ = _
    rw [spans_fromResults, hr, Option.map_some, Option.bind_some]
    dsimp only
    rw [if_neg (Nat.not_lt_of_le hpos), checkedAdd, if_pos (by unfold usizeMax; unfold u32Max at hid; omega), Option.bind_some]
    exact if_pos hid
  rw [WallBreakerWfst.lookupState, if_neg (by unfold superStartResultIndex; exact hi.ne), hstate, Option.bind_some, if_pos hkey]

theorem Retained.lookupState (h : Retained maxDistance results) (hr : results[i]? = some r) (hpos : pos < r.term.length) :
    (forest maxDistance results).lookupState ⟨i, pos + 1⟩ = some (spanStart results i + pos + 1) := by
  have hi : i < u32Max := (List.getElem?_eq_some_iff.mp hr).1.trans h.length_lt
  have hle := spanStart_add_le hr
  have hids := h.ids
  refine lookupState_eq ((getElem?_idToState h.toResultsFit).mpr (Or.inr ⟨i, r, pos, hr, hpos, rfl, rfl⟩)) ?_ hi hr hpos
  unfold u32Count at hids
  unfold u32Max
  omega

/-- Where the path of a term is after some characters. -/
def position (results : List WallBreakerResult) (i : Nat) : Nat → Nat
  | 0 => 0
  | pos + 1 => spanStart results i + pos + 1

/-- The arc of the next character of a term. -/
def forestArc (results : List WallBreakerResult) (i : Nat) (r : WallBreakerResult) (pos : Nat) : Arc Nat Char Char Nat :=
  ⟨position results i pos, r.term[pos]?, r.term[pos]?, position results i (pos + 1), 0⟩

theorem Retained.expandState_start (h : Retained maxDistance results) :
    (forest maxDistance results).expandState 0 = some (forest maxDistance results).computeSuperStartTransitions := by
  have hkey : (forest maxDistance results).idToState[0]? = some ⟨superStartResultIndex, 0⟩ :=
    (getElem?_idToState h.toResultsFit).mpr (Or.inl ⟨rfl, rfl⟩)
  rw [expandState, hkey, Option.map_some, if_pos rfl]

/-- The start has an arc for each term that is not empty. -/
theorem Retained.startArcs (h : Retained maxDistance results) :
    (forest maxDistance results).computeSuperStartTransitions.arcs = (List.range results.length).filterMap fun i =>
      results[i]?.bind fun r => if r.term = [] then none else some (forestArc results i r 0) := by
  show (List.range (ResultCharArena.fromResults results).len).filterMap _ = _
  rw [len_fromResults]
  refine List.filterMap_congr ?_
  intro i hmem
  have hi := List.mem_range.mp hmem
  have hr : results[i]? = some results[i] := List.getElem?_eq_getElem hi
  have hi' : i < u32Max := hi.trans h.length_lt
  have hchar : (forest maxDistance results).resultChars.firstChar i = results[i].term[0]? := charAt_fromResults hr
  have hlookup := fun hpos : 0 < results[i].term.length => h.lookupState hr hpos
  rw [hchar, hr, Option.bind_some, nextWallbreakerResultIndex_eq hi']
  match hterm : results[i].term with
  | [] => rfl
  | c :: t =>
    rw [if_neg (List.cons_ne_nil c t), List.getElem?_cons_zero, Option.bind_some, Option.bind_some,
      hlookup (by rw [hterm]; exact Nat.succ_pos _), Option.map_some, forestArc, hterm]
    rfl

theorem Retained.expandState_position (h : Retained maxDistance results) (hr : results[i]? = some r) (hpos : pos < r.term.length) :
    (forest maxDistance results).expandState (position results i (pos + 1)) = some
      { arcs := if pos + 1 < r.term.length then [forestArc results i r (pos + 1)] else []
        final? := if r.term.length ≤ pos + 1 then some r.distance else none } := by
  have hkey : (forest maxDistance results).idToState[position results i (pos + 1)]? = some ⟨i, pos + 1⟩ :=
    (getElem?_idToState h.toResultsFit).mpr (Or.inr ⟨i, r, pos, hr, hpos, rfl, rfl⟩)
  have hi : i < u32Max := (List.getElem?_eq_some_iff.mp hr).1.trans h.length_lt
  have hlen := (spanStart_add_le hr)
  have hids := h.ids
  unfold u32Count at hids
  rw [expandState, hkey, Option.map_some, if_neg (by unfold superStartResultIndex; exact hi.ne), computeResultState]
  have htermLen : (forest maxDistance results).resultChars.termLen i = some r.term.length := termLen_fromResults hr
  have hfinal : (forest maxDistance results).resultFinalWeights[i]?.join = some r.distance := finalWeight_kept h.kept hr
  have hchar : (forest maxDistance results).resultChars.charAt i (pos + 1) = r.term[pos + 1]? := charAt_fromResults hr
  rw [htermLen, hfinal]
  dsimp only
  rw [hchar, saturatingAdd_one (by unfold usizeMax; omega)]
  refine congrArg some (congrArg₂ Expansion.mk ?_ rfl)
  by_cases hnext : pos + 1 < r.term.length
  · rw [if_pos hnext, List.getElem?_eq_getElem hnext, Option.bind_some, nextWallbreakerCharPosition,
      if_pos (by unfold u32Max; omega), Option.bind_some, h.lookupState hr hnext, forestArc, List.getElem?_eq_getElem hnext]
    rfl
  · rw [if_neg hnext, List.getElem?_eq_none (Nat.le_of_not_lt hnext)]
    rfl

end Expansions

/-! ### Paths -/

section Paths
variable {maxDistance : Nat} {results : List WallBreakerResult} {i pos : Nat} {r : WallBreakerResult}
  {arcs : List (Arc Nat Char Char Nat)} {t : Nat}

/-- The path of the first characters of a term. -/
def spell (results : List WallBreakerResult) (i : Nat) (r : WallBreakerResult) (n : Nat) : List (Arc Nat Char Char Nat) :=
  (List.range n).map (forestArc results i r)

theorem spell_succ : spell results i r (pos + 1) = spell results i r pos ++ [forestArc results i r pos] := by
  rw [spell, List.range_succ, List.map_append]
  rfl

theorem inputs_spell : ArcPath.inputs (spell results i r pos) = r.term.take pos := by
  induction pos with
  | zero => rfl
  | succ pos ih => rw [spell_succ, ArcPath.inputs_snoc, ih, List.take_add_one]; rfl

theorem outputs_spell : ArcPath.outputs (spell results i r pos) = r.term.take pos := by
  induction pos with
  | zero => rfl
  | succ pos ih => rw [spell_succ, ArcPath.outputs_snoc, ih, List.take_add_one]; rfl

theorem weight_spell : ArcPath.weight (spell results i r pos) = 0 := by
  induction pos with
  | zero => rfl
  | succ pos ih => rw [spell_succ, ArcPath.weight_snoc, ih]; rfl

theorem Retained.forestArc_mem (h : Retained maxDistance results) (hr : results[i]? = some r) (hpos : pos < r.term.length) :
    ∃ e, (forest maxDistance results).expandState (position results i pos) = some e ∧ forestArc results i r pos ∈ e.arcs := by
  cases pos with
  | zero =>
    refine ⟨_, h.expandState_start, ?_⟩
    rw [h.startArcs]
    refine List.mem_filterMap.mpr ⟨i, List.mem_range.mpr (List.getElem?_eq_some_iff.mp hr).1, ?_⟩
    rw [hr, Option.bind_some, if_neg (List.ne_nil_of_length_pos hpos)]
  | succ pos =>
    refine ⟨_, h.expandState_position hr (Nat.lt_of_succ_lt hpos), ?_⟩
    dsimp only
    rw [if_pos hpos]
    exact List.mem_cons_self

theorem Retained.isPath_spell (h : Retained maxDistance results) (hr : results[i]? = some r) (hpos : pos ≤ r.term.length) :
    ArcPath.IsPath (forest maxDistance results).expandState 0 (spell results i r pos) (position results i pos) := by
  induction pos with
  | zero => exact .nil
  | succ pos ih =>
    obtain ⟨e, he, harc⟩ := h.forestArc_mem hr hpos
    rw [spell_succ]
    exact (ih (Nat.le_of_succ_le hpos)).snoc he harc

/-- A path has spelled the beginning of a term. -/
theorem Retained.eq_spell (h : Retained maxDistance results)
    (hpath : ArcPath.IsPath (forest maxDistance results).expandState 0 arcs t) :
    (arcs = [] ∧ t = 0) ∨ ∃ i r pos, results[i]? = some r ∧ pos < r.term.length ∧ arcs = spell results i r (pos + 1) ∧
      t = position results i (pos + 1) := by
  induction hpath with
  | nil => exact Or.inl ⟨rfl, rfl⟩
  | snoc _ he harc ih =>
    right
    rcases ih with ⟨rfl, rfl⟩ | ⟨i, r, pos, hr, hpos, rfl, rfl⟩
    · cases he.symm.trans h.expandState_start
      rw [h.startArcs] at harc
      obtain ⟨i, _, harc⟩ := List.mem_filterMap.mp harc
      obtain ⟨r, hr, harc⟩ := Option.bind_eq_some_iff.mp harc
      split at harc
      · cases harc
      · rename_i hterm
        cases harc
        exact ⟨i, r, 0, hr, List.length_pos_of_ne_nil hterm, rfl, rfl⟩
    · cases he.symm.trans (h.expandState_position hr hpos)
      dsimp only at harc
      split at harc
      · rename_i hnext
        rw [List.mem_singleton.mp harc]
        exact ⟨i, r, pos + 1, hr, hnext, spell_succ.symm, rfl⟩
      · cases harc

/-- The paths to final states are those of the retained terms. -/
theorem Retained.accepting_iff (h : Retained maxDistance results) {f : Nat} :
    (∃ t e, ArcPath.IsPath (forest maxDistance results).expandState 0 arcs t ∧ (forest maxDistance results).expandState t = some e ∧
      e.final? = some f) ↔ ∃ i r, results[i]? = some r ∧ r.distance = f ∧ arcs = spell results i r r.term.length := by
  refine ⟨?_, ?_⟩
  · intro ⟨t, e, hpath, he, hf⟩
    rcases h.eq_spell hpath with ⟨rfl, rfl⟩ | ⟨i, r, pos, hr, hpos, rfl, rfl⟩
    · cases he.symm.trans h.expandState_start
      obtain ⟨i, hi⟩ := List.getElem?_of_mem (h.emptyFinalWeight.mp hf)
      exact ⟨i, _, hi, rfl, rfl⟩
    · cases he.symm.trans (h.expandState_position hr hpos)
      obtain ⟨hle, hf⟩ := Option.ite_none_right_eq_some.mp hf
      exact ⟨i, r, hr, Option.some.inj hf, by rw [Nat.le_antisymm hle hpos]⟩
  · intro ⟨i, r, hr, hf, harcs⟩
    subst hf harcs
    suffices hfinal : ∃ e, (forest maxDistance results).expandState (position results i r.term.length) = some e ∧
        e.final? = some r.distance by
      obtain ⟨e, he, hf⟩ := hfinal
      exact ⟨_, e, h.isPath_spell hr le_rfl, he, hf⟩
    cases hlen : r.term.length with
    | zero =>
      refine ⟨_, h.expandState_start, h.emptyFinalWeight.mpr ?_⟩
      rw [← List.eq_nil_of_length_eq_zero hlen]
      exact List.mem_of_getElem? hr
    | succ n => exact ⟨_, h.expandState_position hr (by omega), if_pos hlen.le⟩

/-- The arcs of a state differ. -/
theorem Retained.nodup_arcs (h : Retained maxDistance results) {e : Expansion Nat Char Char Nat}
    (he : (forest maxDistance results).expandState t = some e) : e.arcs.Nodup := by
  rw [expandState] at he
  obtain ⟨key, hkey, -⟩ := Option.map_eq_some_iff.mp he
  rw [← expandState] at he
  rcases (getElem?_idToState h.toResultsFit).mp hkey with ⟨rfl, -⟩ | ⟨i, r, pos, hr, hpos, rfl, -⟩
  · cases he.symm.trans h.expandState_start
    rw [h.startArcs]
    refine List.Nodup.filterMap ?_ List.nodup_range
    intro i j arc hi hj
    obtain ⟨r, hr, hi⟩ := Option.bind_eq_some_iff.mp hi
    obtain ⟨r', hr', hj⟩ := Option.bind_eq_some_iff.mp hj
    obtain ⟨hterm, hi⟩ := Option.ite_none_left_eq_some.mp hi
    obtain ⟨hterm', hj⟩ := Option.ite_none_left_eq_some.mp hj
    -- Both arcs lead to the same position, which has one key.
    have htarget : spanStart results i + 0 + 1 = spanStart results j + 0 + 1 :=
      congrArg Arc.target (Option.some.inj (hi.trans hj.symm))
    have hkey := (getElem?_idToState h.toResultsFit).mpr
      (Or.inr ⟨i, r, 0, hr, List.length_pos_of_ne_nil hterm, rfl, rfl⟩)
    have hkey' := (getElem?_idToState h.toResultsFit).mpr
      (Or.inr ⟨j, r', 0, hr', List.length_pos_of_ne_nil hterm', rfl, rfl⟩)
    rw [htarget] at hkey
    exact congrArg WallBreakerStateKey.resultIndex (Option.some.inj (hkey.symm.trans hkey'))
  · cases he.symm.trans (h.expandState_position hr hpos)
    dsimp only
    split
    · exact List.nodup_singleton _
    · exact List.nodup_nil

end Paths

/-! ### The forest of a list of search results -/

/-- The terms found at a kept distance. -/
def retainedTerms (maxDistance : Nat) (results : List WallBreakerResult) : List (List Char) :=
  ((results.filter fun r => decide (r.distance ≤ maxDistance) && (distanceToF64 r.distance).isSome).map
    WallBreakerResult.term).dedup

/-- The retained terms have an id for each character and one for the start. -/
def SpansFit (maxDistance : Nat) (results : List WallBreakerResult) : Prop :=
  1 + (retainedTerms maxDistance results).flatten.length ≤ u32Count

section Forest
variable {maxDistance : Nat} {results : List WallBreakerResult}

theorem mem_retainedTerms {t : List Char} : t ∈ retainedTerms maxDistance results ↔
    ∃ d, ⟨t, d⟩ ∈ results ∧ KeptDistance maxDistance d := by
  rw [retainedTerms, List.mem_dedup, List.mem_map]
  have hkept : ∀ r : WallBreakerResult, (decide (r.distance ≤ maxDistance) && (distanceToF64 r.distance).isSome) = true ↔
      KeptDistance maxDistance r.distance := by
    intro r
    rw [Bool.and_eq_true, decide_eq_true_eq, distanceToF64_eq, KeptDistance]
    refine and_congr_right fun _ => ?_
    split
    · exact iff_of_true rfl ‹_›
    · exact iff_of_false Bool.false_ne_true ‹_›
  refine ⟨?_, ?_⟩
  · intro h
    obtain ⟨r, hr, hterm⟩ := h
    obtain ⟨hr, hd⟩ := List.mem_filter.mp hr
    subst hterm
    exact ⟨r.distance, hr, (hkept r).mp hd⟩
  · intro h
    obtain ⟨d, hr, hd⟩ := h
    exact ⟨_, List.mem_filter.mpr ⟨hr, (hkept ⟨t, d⟩).mpr hd⟩, rfl⟩

theorem perm_retainedTerms {retained : List WallBreakerResult} (h : Reduced maxDistance results retained) :
    (retained.map WallBreakerResult.term).Perm (retainedTerms maxDistance results) := by
  refine (List.perm_ext_iff_of_nodup h.nodup (List.nodup_dedup _)).mpr ?_
  intro t
  refine Iff.trans ⟨?_, ?_⟩ mem_retainedTerms.symm
  · intro ht
    obtain ⟨r, hr, rfl⟩ := List.mem_map.mp ht
    exact ⟨r.distance, (h.least r hr).1⟩
  · intro ⟨d, hd, hkept⟩
    exact h.complete _ hd hkept

theorem totalChars_normalize : totalChars (normalizeWallbreakerResults results maxDistance) =
    (retainedTerms maxDistance results).flatten.length := by
  rw [totalChars_eq]
  exact (perm_retainedTerms (reduced_normalize maxDistance results)).flatten.length_eq

theorem retained_normalize (hfits : SpansFit maxDistance results) :
    Retained maxDistance (normalizeWallbreakerResults results maxDistance) where
  nodup := (reduced_normalize maxDistance results).nodup
  ids := by rw [totalChars_normalize]; exact hfits
  kept := by
    intro r hr
    exact ((reduced_normalize maxDistance results).least r hr).1.2

/-- A term with a least kept distance is one of the retained results. -/
theorem isLeast_iff_mem {retained : List WallBreakerResult} (h : Reduced maxDistance results retained) {t : List Char} {d : Nat} :
    IsLeast {d | ⟨t, d⟩ ∈ results ∧ KeptDistance maxDistance d} d ↔ ⟨t, d⟩ ∈ retained := by
  refine ⟨?_, ?_⟩
  · intro hleast
    obtain ⟨r, hr, rfl⟩ := List.mem_map.mp (h.complete _ hleast.1.1 hleast.1.2)
    rw [hleast.unique (h.least r hr)]
    exact hr
  · intro hr
    exact h.least _ hr

/-- The forest accepts each retained term on one path, whose weight is the least of its distances; its states are the
    start and the positions inside the spans. -/
theorem spells_retained (maxDistance : Nat) (results : List WallBreakerResult) (hfits : SpansFit maxDistance results) :
    (∀ x y v, (ArcPath.machine (fromOwnedResults maxDistance results).expandState).Accepts start x y v ↔
      x = y ∧ IsLeast {d | ⟨x, d⟩ ∈ results ∧ d ≤ maxDistance ∧ d ≤ 9007199254740992} v) ∧
    (∀ x d, ⟨x, d⟩ ∈ results → d ≤ maxDistance → d ≤ 9007199254740992 →
      ∃! arcs, ArcPath.IsAccepting (fromOwnedResults maxDistance results).expandState start x x arcs) ∧
    (∀ id e, (fromOwnedResults maxDistance results).expandState id = some e → e.arcs.Nodup) ∧
    (∀ id, (fromOwnedResults maxDistance results).isValidState id → id = start ∨
      ∃! p : Nat × Nat, ∃ span, (fromOwnedResults maxDistance results).resultChars.spans[p.1]? = some span ∧
        1 ≤ p.2 ∧ p.2 ≤ span.len ∧ id = span.start + p.2) ∧
    (fromOwnedResults maxDistance results).numStates = 1 + (retainedTerms maxDistance results).flatten.length := by
  have hreduced := reduced_normalize maxDistance results
  have hretained := retained_normalize hfits
  have htotal : totalChars (normalizeWallbreakerResults results maxDistance) = _ := totalChars_normalize
  have hforest : fromOwnedResults maxDistance results = forest maxDistance (normalizeWallbreakerResults results maxDistance) := rfl
  rw [hforest, ← htotal]
  generalize normalizeWallbreakerResults results maxDistance = retained at hreduced hretained
  refine ⟨?_, ?_, ?_, ?_, ?_⟩
  · intro x y v
    rw [ArcPath.accepts_iff_exists_isPath, show {d | (⟨x, d⟩ : WallBreakerResult) ∈ results ∧ d ≤ maxDistance ∧ d ≤ 9007199254740992} =
      {d | ⟨x, d⟩ ∈ results ∧ KeptDistance maxDistance d} from rfl, isLeast_iff_mem hreduced]
    refine ⟨?_, ?_⟩
    · intro ⟨arcs, t, e, f, hpath, he, hf, hx, hy, hv⟩
      obtain ⟨i, r, hr, rfl, rfl⟩ := hretained.accepting_iff.mp ⟨t, e, hpath, he, hf⟩
      rw [inputs_spell, List.take_length] at hx
      rw [outputs_spell, List.take_length] at hy
      rw [weight_spell, Nat.zero_add] at hv
      subst hx hy hv
      exact ⟨rfl, List.mem_of_getElem? hr⟩
    · intro ⟨hxy, hmem⟩
      subst hxy
      obtain ⟨i, hr⟩ := List.getElem?_of_mem hmem
      obtain ⟨t, e, hpath, he, hf⟩ := hretained.accepting_iff.mpr ⟨i, _, hr, rfl, rfl⟩
      refine ⟨_, t, e, v, hpath, he, hf, ?_, ?_, ?_⟩
      · rw [inputs_spell, List.take_length]
      · rw [outputs_spell, List.take_length]
      · rw [weight_spell, Nat.zero_add]
  · intro x d hd hmax hf64
    obtain ⟨r, hr, rfl⟩ := List.mem_map.mp (hreduced.complete _ hd ⟨hmax, hf64⟩)
    obtain ⟨i, hr⟩ := List.getElem?_of_mem hr
    refine ⟨spell retained i r r.term.length, ?_, ?_⟩
    · obtain ⟨t, e, hpath, he, hf⟩ := hretained.accepting_iff.mpr ⟨i, r, hr, rfl, rfl⟩
      refine ⟨t, e, hpath, he, ?_, ?_, ?_⟩
      · rw [hf]; rfl
      · rw [inputs_spell, List.take_length]
      · rw [outputs_spell, List.take_length]
    · intro arcs ⟨t, e, hpath, he, hf, hx, _⟩
      obtain ⟨f, hf⟩ := Option.isSome_iff_exists.mp hf
      obtain ⟨j, r', hr', _, rfl⟩ := hretained.accepting_iff.mp ⟨t, e, hpath, he, hf⟩
      rw [inputs_spell, List.take_length] at hx
      cases hretained.index_inj hr' hr hx
      cases hr.symm.trans hr'
      rfl
  · intro id e he
    exact hretained.nodup_arcs he
  · intro id hid
    obtain ⟨key, hkey⟩ := Option.isSome_iff_exists.mp hid
    rcases (getElem?_idToState hretained.toResultsFit).mp hkey with ⟨hid, _⟩ | ⟨i, r, pos, hr, hpos, hid, hkey⟩
    · exact Or.inl hid
    · refine Or.inr ⟨(i, pos + 1), ⟨⟨spanStart retained i, r.term.length⟩, ?_, Nat.succ_pos pos, hpos, hid⟩, ?_⟩
      · exact (spans_fromResults).trans (by rw [hr]; rfl)
      · intro ⟨j, pos'⟩ ⟨span, hspan, hone, hle, hid'⟩
        -- The id has one key.
        obtain ⟨r', hr', rfl⟩ := Option.map_eq_some_iff.mp (spans_fromResults.symm.trans hspan)
        obtain ⟨pos', rfl⟩ := Nat.exists_eq_add_of_le' hone
        have hkey' := (getElem?_idToState hretained.toResultsFit).mpr (Or.inr ⟨j, r', pos', hr', hle, rfl, rfl⟩)
        have heq := (getElem?_idToState hretained.toResultsFit).mpr (Or.inr ⟨i, r, pos, hr, hpos, rfl, rfl⟩)
        rw [← hid, hid'] at heq
        have hsame := Option.some.inj (hkey'.symm.trans heq)
        exact Prod.ext (congrArg WallBreakerStateKey.resultIndex hsame) (congrArg WallBreakerStateKey.charPosition hsame)
  · show (buildWallbreakerStateIndex (ResultCharArena.fromResults retained)).length = _
    rw [idToState_eq hretained.toResultsFit, List.length_cons, length_stateKeys le_rfl, spanStart, List.take_length, totalChars,
      Nat.add_comm]

theorem spells_retained_twice :
    (ArcPath.machine (fromOwnedResults 3 [⟨['a', 'b'], 2⟩, ⟨[], 3⟩, ⟨['a', 'b'], 1⟩]).expandState).Accepts start
      ['a', 'b'] ['a', 'b'] 1 := by
  refine ((spells_retained 3 [⟨['a', 'b'], 2⟩, ⟨[], 3⟩, ⟨['a', 'b'], 1⟩] (by unfold SpansFit; decide)).1 _ _ _).mpr ⟨rfl, ?_, ?_⟩
  · simp
  · intro d hd
    simp at hd
    omega

/-- A distance that no `f64` holds exactly is dropped, also when it is within the bound. -/
theorem not_spells_inexact : ¬∀ x y v,
    (ArcPath.machine (fromOwnedResults 9007199254740993 [⟨['a'], 9007199254740993⟩]).expandState).Accepts start x y v ↔
      x = y ∧ IsLeast {d | (⟨x, d⟩ : WallBreakerResult) ∈ [⟨['a'], 9007199254740993⟩] ∧ d ≤ 9007199254740993} v := by
  intro hall
  obtain ⟨t, w, f, hpath, hfinal, -⟩ := (hall ['a'] ['a'] 9007199254740993).mpr
    ⟨rfl, ⟨List.mem_cons_self, le_rfl⟩, fun d hd => by simp at hd; omega⟩
  have hretained : Retained 9007199254740993 [] := ⟨⟨List.nodup_nil, by decide⟩, nofun⟩
  have hforest : fromOwnedResults 9007199254740993 [⟨['a'], 9007199254740993⟩] = forest 9007199254740993 [] := by decide
  rw [hforest] at hpath hfinal
  obtain ⟨arcs, harcs, -⟩ := ArcPath.exists_isPath hpath
  obtain ⟨e, he, hf⟩ := hfinal
  obtain ⟨i, r, hr, -⟩ := hretained.accepting_iff.mp ⟨t, e, harcs, he, hf⟩
  cases hr

end Forest
end WallBreakerWfst
end Duallity
