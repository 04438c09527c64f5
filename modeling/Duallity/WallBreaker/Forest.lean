import Duallity.WallBreaker.Results
import Mathlib.Data.List.Perm.Subperm
import Mathlib.Tactic.Linarith

/-! What a WallBreaker forest accepts. A state inside a span has one arc into it, so each retained term has one path,
    which spells it. -/

namespace Duallity

/-- The distances that are kept: they are within the bound, and an `f64` holds them exactly. -/
def KeptDistance (maxDistance d : Nat) : Prop := d ≤ maxDistance ∧ d ≤ 9007199254740992

/-! ### Reduced results -/

section Reduction
variable {maxDistance : Nat} {results : List WallBreakerResult}

theorem distanceToF64_eq (d : Nat) : distanceToF64 d = if d ≤ 9007199254740992 then some d else none := rfl

/-- One result for each term with a kept distance, with the least of them. -/
structure Reduced (maxDistance : Nat) (results retained : List WallBreakerResult) : Prop where
  nodup : (retained.map WallBreakerResult.term).Nodup
  least : ∀ r ∈ retained, IsLeast {d | ⟨r.term, d⟩ ∈ results ∧ KeptDistance maxDistance d} r.distance
  complete : ∀ r ∈ results, KeptDistance maxDistance r.distance → r.term ∈ retained.map WallBreakerResult.term

/-- The map has the index of every term. -/
def Indexes (termToIndex : List (List Char × Nat)) (retained : List WallBreakerResult) : Prop :=
  ∀ t i, termToIndex.lookup t = some i ↔ ∃ r, retained[i]? = some r ∧ r.term = t

theorem Reduced.skip {retained : List WallBreakerResult} (h : Reduced maxDistance results retained) {result : WallBreakerResult}
    (hkept : ¬KeptDistance maxDistance result.distance) : Reduced maxDistance (results ++ [result]) retained := by
  refine ⟨h.nodup, ?_, ?_⟩
  · intro r hr
    obtain ⟨⟨hmem, hd⟩, hle⟩ := h.least r hr
    refine ⟨⟨List.mem_append_left _ hmem, hd⟩, ?_⟩
    intro d ⟨hd', hkept'⟩
    rcases List.mem_append.mp hd' with hd' | hd'
    · exact hle ⟨hd', hkept'⟩
    · cases List.mem_singleton.mp hd'
      exact absurd hkept' hkept
  · intro r hr hkept'
    rcases List.mem_append.mp hr with hr | hr
    · exact h.complete r hr hkept'
    · cases List.mem_singleton.mp hr
      exact absurd hkept' hkept

theorem Reduced.push {retained : List WallBreakerResult} (h : Reduced maxDistance results retained) {result : WallBreakerResult}
    (hkept : KeptDistance maxDistance result.distance) (hnew : result.term ∉ retained.map WallBreakerResult.term) :
    Reduced maxDistance (results ++ [result]) (retained ++ [result]) := by
  refine ⟨?_, ?_, ?_⟩
  · rw [List.map_append, List.map_singleton]
    refine List.nodup_append.mpr ⟨h.nodup, List.nodup_singleton _, ?_⟩
    intro t ht t' ht'
    rw [List.mem_singleton.mp ht']
    rintro rfl
    exact hnew ht
  · intro r hr
    rcases List.mem_append.mp hr with hr | hr
    · obtain ⟨⟨hmem, hd⟩, hle⟩ := h.least r hr
      refine ⟨⟨List.mem_append_left _ hmem, hd⟩, ?_⟩
      intro d ⟨hd', hkept'⟩
      rcases List.mem_append.mp hd' with hd' | hd'
      · exact hle ⟨hd', hkept'⟩
      · have hterm := congrArg WallBreakerResult.term (List.mem_singleton.mp hd')
        exact absurd (List.mem_map_of_mem hr) ((hterm : r.term = _) ▸ hnew)
    · cases List.mem_singleton.mp hr
      refine ⟨⟨List.mem_append_right _ List.mem_cons_self, hkept⟩, ?_⟩
      intro d ⟨hd', hkept'⟩
      rcases List.mem_append.mp hd' with hd' | hd'
      · exact absurd (h.complete _ hd' hkept') hnew
      · exact (congrArg WallBreakerResult.distance (List.mem_singleton.mp hd')).ge
  · intro r hr hkept'
    rw [List.map_append, List.mem_append]
    rcases List.mem_append.mp hr with hr | hr
    · exact Or.inl (h.complete r hr hkept')
    · cases List.mem_singleton.mp hr
      exact Or.inr List.mem_cons_self

theorem term_lowerDistance {d : Nat} {r : WallBreakerResult} : (lowerDistance d r).term = r.term := by
  unfold lowerDistance
  split
  · rfl
  · rfl

theorem getElem?_lower {retained : List WallBreakerResult} {i j d : Nat} :
    (retained.modify i (lowerDistance d))[j]? = (retained[j]?).map fun r => if i = j then lowerDistance d r else r := by
  rw [List.getElem?_modify]
  rfl

theorem map_term_lower {retained : List WallBreakerResult} {i d : Nat} :
    (retained.modify i (lowerDistance d)).map WallBreakerResult.term = retained.map WallBreakerResult.term := by
  refine List.ext_getElem? ?_
  intro j
  rw [List.getElem?_map, getElem?_lower, List.getElem?_map, Option.map_map]
  congr 1
  funext r
  show (if i = j then lowerDistance d r else r).term = r.term
  split
  · exact term_lowerDistance
  · rfl

/-- A shorter distance of a term that is there replaces its distance. -/
theorem Reduced.lower {retained : List WallBreakerResult} (h : Reduced maxDistance results retained) {result : WallBreakerResult}
    (hkept : KeptDistance maxDistance result.distance) {i : Nat} {r : WallBreakerResult} (hi : retained[i]? = some r)
    (hterm : r.term = result.term) :
    Reduced maxDistance (results ++ [result]) (retained.modify i (lowerDistance result.distance)) := by
  refine ⟨by rw [map_term_lower]; exact h.nodup, ?_, ?_⟩
  · intro r' hr'
    obtain ⟨j, hj⟩ := List.getElem?_of_mem hr'
    rw [getElem?_lower] at hj
    obtain ⟨r₀, hr₀, hr'⟩ := Option.map_eq_some_iff.mp hj
    obtain ⟨⟨hmem, hd⟩, hle⟩ := h.least r₀ (List.mem_of_getElem? hr₀)
    by_cases hij : i = j
    · subst hij
      cases hi.symm.trans hr₀
      rw [if_pos rfl] at hr'
      have hnew : (⟨r.term, result.distance⟩ : WallBreakerResult) ∈ results ++ [result] := by
        rw [hterm]
        exact List.mem_append_right _ List.mem_cons_self
      -- The distances of the term are those of before and the new one.
      have hset : ∀ d, (⟨r.term, d⟩ ∈ results ++ [result] ∧ KeptDistance maxDistance d) → r.distance ≤ d ∨ d = result.distance := by
        intro d ⟨hd', hkept'⟩
        rcases List.mem_append.mp hd' with hd' | hd'
        · exact Or.inl (hle ⟨hd', hkept'⟩)
        · exact Or.inr (congrArg WallBreakerResult.distance (List.mem_singleton.mp hd'))
      unfold lowerDistance at hr'
      split at hr'
      · rename_i hlt
        subst hr'
        refine ⟨⟨hnew, hkept⟩, ?_⟩
        intro d hd'
        rcases hset d hd' with hd' | rfl
        · exact hlt.le.trans hd'
        · exact le_rfl
      · rename_i hlt
        subst hr'
        refine ⟨⟨List.mem_append_left _ hmem, hd⟩, ?_⟩
        intro d hd'
        rcases hset d hd' with hd' | rfl
        · exact hd'
        · exact Nat.le_of_not_lt hlt
    · rw [if_neg hij] at hr'
      subst hr'
      refine ⟨⟨List.mem_append_left _ hmem, hd⟩, ?_⟩
      intro d ⟨hd', hkept'⟩
      rcases List.mem_append.mp hd' with hd' | hd'
      · exact hle ⟨hd', hkept'⟩
      · -- The entry at `i` would have the same term.
        have hterm' : r₀.term = r.term := (congrArg WallBreakerResult.term (List.mem_singleton.mp hd')).trans hterm.symm
        have hlt : i < (retained.map WallBreakerResult.term).length := by
          rw [List.length_map]
          exact (List.getElem?_eq_some_iff.mp hi).1
        refine absurd ((List.getElem?_inj hlt h.nodup).mp ?_) hij
        rw [List.getElem?_map, List.getElem?_map, hi, hr₀, Option.map_some, Option.map_some, hterm']
  · intro r' hr' hkept'
    rw [map_term_lower]
    rcases List.mem_append.mp hr' with hr' | hr'
    · exact h.complete r' hr' hkept'
    · cases List.mem_singleton.mp hr'
      exact hterm ▸ List.mem_map_of_mem (List.mem_of_getElem? hi)

/-- The results with a kept distance are not skipped. -/
theorem skipped_iff {d : Nat} : (maxDistance < d ∨ (distanceToF64 d).isNone = true) ↔ ¬KeptDistance maxDistance d := by
  rw [KeptDistance, distanceToF64_eq, not_and_or, Nat.not_le]
  refine or_congr_right ?_
  split
  · simp [*]
  · simp [*]

theorem Indexes.lower {termToIndex : List (List Char × Nat)} {retained : List WallBreakerResult}
    (h : Indexes termToIndex retained) (i d : Nat) : Indexes termToIndex (retained.modify i (lowerDistance d)) := by
  intro t j
  rw [h t j, getElem?_lower]
  have hterm : ∀ r : WallBreakerResult, (if i = j then lowerDistance d r else r).term = r.term := by
    intro r
    split
    · exact term_lowerDistance
    · rfl
  refine ⟨?_, ?_⟩
  · intro ⟨r, hr, ht⟩
    exact ⟨_, by rw [hr, Option.map_some], (hterm r).trans ht⟩
  · intro ⟨r, hr, ht⟩
    obtain ⟨r', hr', rfl⟩ := Option.map_eq_some_iff.mp hr
    exact ⟨r', hr', (hterm r').symm.trans ht⟩

theorem Indexes.push {termToIndex : List (List Char × Nat)} {retained : List WallBreakerResult}
    (h : Indexes termToIndex retained) {result : WallBreakerResult} (hnone : termToIndex.lookup result.term = none) :
    Indexes ((result.term, retained.length) :: termToIndex) (retained ++ [result]) := by
  intro t i
  rw [List.lookup_cons, List.getElem?_append]
  by_cases ht : t = result.term
  · subst ht
    rw [beq_self_eq_true]
    refine ⟨?_, ?_⟩
    · intro hi
      cases hi
      exact ⟨result, by simp, rfl⟩
    · intro ⟨r, hr, hterm⟩
      split at hr
      · cases hnone.symm.trans ((h _ i).mpr ⟨r, hr, hterm⟩)
      · rename_i hlt
        have hzero : i - retained.length = 0 := by
          have := (List.getElem?_eq_some_iff.mp hr).1
          rw [List.length_singleton] at this
          omega
        exact congrArg some (by omega)
  · rw [beq_false_of_ne ht]
    refine (h t i).trans ⟨?_, ?_⟩
    · intro ⟨r, hr, hterm⟩
      have hlt := (List.getElem?_eq_some_iff.mp hr).1
      exact ⟨r, by rw [if_pos hlt]; exact hr, hterm⟩
    · intro ⟨r, hr, hterm⟩
      split at hr
      · exact ⟨r, hr, hterm⟩
      · have hmem := List.mem_of_getElem? hr
        rw [List.mem_singleton.mp hmem] at hterm
        exact absurd hterm.symm ht

theorem reduced_normalize (maxDistance : Nat) (results : List WallBreakerResult) :
    Reduced maxDistance results (normalizeWallbreakerResults results maxDistance) := by
  suffices h : Reduced maxDistance results (results.foldl (normalizeResult maxDistance) ([], [])).1 ∧
      Indexes (results.foldl (normalizeResult maxDistance) ([], [])).2 (results.foldl (normalizeResult maxDistance) ([], [])).1
    from h.1
  induction results using List.reverseRecOn with
  | nil =>
    refine ⟨⟨List.nodup_nil, by simp, by simp⟩, ?_⟩
    intro t i
    simp
  | append_singleton results result ih =>
    obtain ⟨hreduced, hindex⟩ := ih
    rw [List.foldl_append, List.foldl_cons, List.foldl_nil]
    generalize results.foldl (normalizeResult maxDistance) ([], []) = acc at hreduced hindex
    unfold normalizeResult
    by_cases hkept : KeptDistance maxDistance result.distance
    · rw [if_neg (fun h => skipped_iff.mp h hkept)]
      split
      · rename_i i hi
        obtain ⟨r, hr, hterm⟩ := (hindex _ i).mp hi
        exact ⟨hreduced.lower hkept hr hterm, hindex.lower i _⟩
      · rename_i hnone
        refine ⟨hreduced.push hkept ?_, hindex.push hnone⟩
        intro hmem
        obtain ⟨r, hr, hterm⟩ := List.mem_map.mp hmem
        obtain ⟨i, hi⟩ := List.getElem?_of_mem hr
        cases hnone.symm.trans ((hindex _ i).mpr ⟨r, hi, hterm⟩)
    · rw [if_pos (skipped_iff.mpr hkept)]
      exact ⟨hreduced.skip hkept, hindex⟩

end Reduction

/-! ### Spans -/

/-- Where the span of a result starts: behind the characters of the results before it. -/
def spanStart (results : List WallBreakerResult) (i : Nat) : Nat :=
  ((results.take i).flatMap WallBreakerResult.term).length

def totalChars (results : List WallBreakerResult) : Nat := (results.flatMap WallBreakerResult.term).length

section Arena
variable {results : List WallBreakerResult} {i pos : Nat} {r : WallBreakerResult}

theorem fromResults_snoc {result : WallBreakerResult} : ResultCharArena.fromResults (results ++ [result]) =
    ⟨(ResultCharArena.fromResults results).chars ++ result.term, (ResultCharArena.fromResults results).spans ++
      [⟨(ResultCharArena.fromResults results).chars.length, result.term.length⟩]⟩ := by
  rw [ResultCharArena.fromResults, List.foldl_append]
  rfl

theorem chars_fromResults : (ResultCharArena.fromResults results).chars = results.flatMap WallBreakerResult.term := by
  induction results using List.reverseRecOn with
  | nil => rfl
  | append_singleton results result ih => rw [fromResults_snoc, ih, List.flatMap_append, List.flatMap_singleton]

theorem len_fromResults : (ResultCharArena.fromResults results).len = results.length := by
  unfold ResultCharArena.len
  induction results using List.reverseRecOn with
  | nil => rfl
  | append_singleton results result ih => rw [fromResults_snoc, List.length_append, List.length_append, ih]; rfl

theorem spans_fromResults : (ResultCharArena.fromResults results).spans[i]? =
    results[i]?.map fun r => ⟨spanStart results i, r.term.length⟩ := by
  induction results using List.reverseRecOn with
  | nil => simp [ResultCharArena.fromResults]
  | append_singleton results result ih =>
    have hlen : (ResultCharArena.fromResults results).spans.length = results.length := len_fromResults
    rw [fromResults_snoc, List.getElem?_append, List.getElem?_append, hlen]
    by_cases hlt : i < results.length
    · rw [if_pos hlt, if_pos hlt, ih]
      unfold spanStart
      rw [List.take_append_of_le_length hlt.le]
    · rw [if_neg hlt, if_neg hlt, chars_fromResults]
      cases hi : i - results.length with
      | zero =>
        have heq : i = results.length := by omega
        subst heq
        simp [spanStart]
      | succ n => simp

theorem termLen_fromResults (hr : results[i]? = some r) :
    (ResultCharArena.fromResults results).termLen i = some r.term.length := by
  rw [ResultCharArena.termLen, spans_fromResults, hr]
  rfl

/-- The results from one on, behind the characters of those before it. -/
theorem flatMap_eq (hr : results[i]? = some r) : results.flatMap WallBreakerResult.term =
    (results.take i).flatMap WallBreakerResult.term ++ (r.term ++ (results.drop (i + 1)).flatMap WallBreakerResult.term) := by
  obtain ⟨hlt, rfl⟩ := List.getElem?_eq_some_iff.mp hr
  rw [← List.flatMap_cons, ← List.flatMap_append]
  congr 1
  simp

theorem charAt_fromResults (hr : results[i]? = some r) :
    (ResultCharArena.fromResults results).charAt i pos = r.term[pos]? := by
  rw [ResultCharArena.charAt, spans_fromResults, hr, Option.map_some, Option.bind_some, chars_fromResults]
  by_cases hlt : pos < r.term.length
  · rw [if_neg (Nat.not_le_of_lt hlt), flatMap_eq hr]
    have hstart : ((results.take i).flatMap WallBreakerResult.term).length = spanStart results i := rfl
    rw [List.getElem?_append_right (hstart ▸ Nat.le_add_right _ _), hstart, Nat.add_sub_cancel_left,
      List.getElem?_append_left hlt]
  · rw [if_pos (Nat.le_of_not_lt hlt), List.getElem?_eq_none (Nat.le_of_not_lt hlt)]

theorem spanStart_succ (hr : results[i]? = some r) : spanStart results (i + 1) = spanStart results i + r.term.length := by
  rw [spanStart, List.take_add_one, hr, List.flatMap_append, List.length_append, Option.toList_some, List.flatMap_singleton,
    spanStart]

theorem spanStart_mono {j : Nat} (hij : i ≤ j) : spanStart results i ≤ spanStart results j := by
  unfold spanStart
  have htake : results.take j = results.take i ++ (results.take j).drop i := by
    conv_lhs => rw [← List.take_append_drop i (results.take j), List.take_take, Nat.min_eq_left hij]
  rw [htake, List.flatMap_append, List.length_append]
  exact Nat.le_add_right _ _

theorem spanStart_add_le (hr : results[i]? = some r) : spanStart results i + r.term.length ≤ totalChars results := by
  rw [totalChars, flatMap_eq hr, List.length_append, List.length_append, spanStart]
  omega

end Arena

/-! ### State ids -/

section States
variable {results : List WallBreakerResult} {i pos id : Nat} {r : WallBreakerResult} {key : WallBreakerStateKey}

/-- The keys of the first `n` results. -/
def stateKeys (results : List WallBreakerResult) (n : Nat) : List WallBreakerStateKey :=
  (List.range n).flatMap fun i =>
    (List.range' 1 (((ResultCharArena.fromResults results).termLen i).getD 0)).map fun pos => ⟨i, pos⟩

theorem stateKeys_succ (hr : results[i]? = some r) :
    stateKeys results (i + 1) = stateKeys results i ++ (List.range' 1 r.term.length).map fun pos => ⟨i, pos⟩ := by
  rw [stateKeys, List.range_succ, List.flatMap_append, List.flatMap_singleton, termLen_fromResults hr]
  rfl

theorem length_stateKeys {n : Nat} (hn : n ≤ results.length) : (stateKeys results n).length = spanStart results n := by
  induction n with
  | zero => rfl
  | succ n ih =>
    have hr : results[n]? = some results[n] := List.getElem?_eq_getElem hn
    rw [stateKeys_succ hr, List.length_append, ih (Nat.le_of_succ_le hn), List.length_map, List.length_range', spanStart_succ hr]

/-- A key stands where its position is in the span of its result. -/
theorem getElem?_stateKeys {n : Nat} (hn : n ≤ results.length) : (stateKeys results n)[id]? = some key ↔
    ∃ i r pos, i < n ∧ results[i]? = some r ∧ pos < r.term.length ∧ id = spanStart results i + pos ∧ key = ⟨i, pos + 1⟩ := by
  induction n with
  | zero => simp [stateKeys]
  | succ n ih =>
    have hr : results[n]? = some results[n] := List.getElem?_eq_getElem hn
    have hlen := length_stateKeys (Nat.le_of_succ_le hn)
    rw [stateKeys_succ hr, List.getElem?_append, hlen]
    by_cases hlt : id < spanStart results n
    · rw [if_pos hlt, ih (Nat.le_of_succ_le hn)]
      refine ⟨?_, ?_⟩
      · intro ⟨i, r, pos, hi, h⟩
        exact ⟨i, r, pos, hi.trans (Nat.lt_succ_self n), h⟩
      · intro ⟨i, r, pos, hi, hr', hpos, hid, hkey⟩
        rcases Nat.lt_succ_iff_lt_or_eq.mp hi with hi | rfl
        · exact ⟨i, r, pos, hi, hr', hpos, hid, hkey⟩
        · exact absurd hlt (Nat.not_lt_of_le (hid ▸ Nat.le_add_right _ _))
    · rw [if_neg hlt, List.getElem?_map]
      refine ⟨?_, ?_⟩
      · intro h
        obtain ⟨pos, hpos, rfl⟩ := Option.map_eq_some_iff.mp h
        obtain ⟨hlen', rfl⟩ := List.getElem?_eq_some_iff.mp hpos
        rw [List.length_range'] at hlen'
        refine ⟨n, _, id - spanStart results n, Nat.lt_succ_self n, hr, hlen', ?_, ?_⟩
        · exact (Nat.add_sub_cancel' (Nat.le_of_not_lt hlt)).symm
        · rw [List.getElem_range', Nat.one_mul, Nat.add_comm 1]
      · intro ⟨i, r, pos, hi, hr', hpos, hid, hkey⟩
        rcases Nat.lt_succ_iff_lt_or_eq.mp hi with hi | rfl
        · have hmono : spanStart results (i + 1) ≤ spanStart results n := spanStart_mono hi
          rw [spanStart_succ hr'] at hmono
          omega
        · cases hr.symm.trans hr'
          subst hkey
          rw [hid, Nat.add_sub_cancel_left, List.getElem?_range' hpos, Nat.one_mul, Nat.add_comm]
          rfl

theorem pushPositions_eq (i : Nat) (positions : List Nat) (idToState : List WallBreakerStateKey)
    (hfits : idToState.length + positions.length ≤ u32Count) (hpos : ∀ pos ∈ positions, pos ≤ u32Max) :
    pushPositions i positions idToState = (idToState ++ positions.map fun pos => ⟨i, pos⟩, true) := by
  induction positions generalizing idToState with
  | nil => rw [pushPositions, List.map_nil, List.append_nil]
  | cons pos positions ih =>
    rw [List.length_cons] at hfits
    have hid : nextWallbreakerStateId idToState.length = some idToState.length :=
      if_pos (by unfold u32Count at hfits; unfold u32Max; omega)
    have hchar : nextWallbreakerCharPosition pos = some pos := if_pos (hpos pos List.mem_cons_self)
    rw [pushPositions, hid, hchar]
    show pushPositions i positions (idToState ++ [⟨i, pos⟩]) = _
    rw [ih _ (by rw [List.length_append, List.length_singleton]; omega) fun p hp => hpos p (List.mem_cons_of_mem _ hp),
      List.append_assoc]
    rfl

theorem nextWallbreakerResultIndex_eq (hi : i < u32Max) : nextWallbreakerResultIndex i = some i := by
  rw [nextWallbreakerResultIndex, if_pos hi.le, Option.filter_some]
  exact if_pos (decide_eq_true hi)

/-- While the ids last, every position of every result gets one. -/
theorem pushResults_eq (hindices : results.length ≤ u32Max) (indices : List Nat) (hmem : ∀ i ∈ indices, i < results.length)
    (idToState : List WallBreakerStateKey) (hfits : idToState.length + (indices.flatMap fun i =>
      (List.range' 1 (((ResultCharArena.fromResults results).termLen i).getD 0))).length ≤ u32Count)
    (htotal : totalChars results ≤ u32Max) :
    pushResults (ResultCharArena.fromResults results) indices idToState = idToState ++ indices.flatMap fun i =>
      (List.range' 1 (((ResultCharArena.fromResults results).termLen i).getD 0)).map fun pos => ⟨i, pos⟩ := by
  induction indices generalizing idToState with
  | nil => rw [pushResults, List.flatMap_nil, List.append_nil]
  | cons i indices ih =>
    have hi := hmem i List.mem_cons_self
    have hr : results[i]? = some results[i] := List.getElem?_eq_getElem hi
    rw [List.flatMap_cons, List.length_append, termLen_fromResults hr, Option.getD_some] at hfits
    have hpositions : ∀ pos ∈ List.range' 1 results[i].term.length, pos ≤ u32Max := by
      intro pos hpos
      have hlen := (spanStart_add_le hr).trans htotal
      have := (List.mem_range'_1.mp hpos).2
      omega
    rw [pushResults, nextWallbreakerResultIndex_eq (hi.trans_le hindices), termLen_fromResults hr]
    dsimp only
    rw [pushPositions_eq i _ _ (by omega) hpositions]
    show pushResults _ indices _ = _
    rw [ih (fun j hj => hmem j (List.mem_cons_of_mem _ hj)) _ (by
      rw [List.length_append, List.length_map]; omega), List.flatMap_cons, termLen_fromResults hr, Option.getD_some,
      List.append_assoc]

/-- There are ids for the characters of the results, which are told apart by their terms. -/
structure ResultsFit (results : List WallBreakerResult) : Prop where
  nodup : (results.map WallBreakerResult.term).Nodup
  ids : 1 + totalChars results ≤ u32Count

/-- At most one character codes a term of at most one character. -/
def shortCode : List Char → Nat
  | [] => 0
  | c :: _ => c.toNat + 1

theorem toNat_lt_charCount (c : Char) : c.toNat < 0x110000 := by
  rcases c.valid with h | h
  · exact h.trans (by decide)
  · exact h.2

theorem length_short_le (terms : List (List Char)) (hnodup : terms.Nodup) (hshort : ∀ t ∈ terms, t.length ≤ 1) :
    terms.length ≤ 0x110001 := by
  have hcodes : (terms.map shortCode).Nodup := by
    refine hnodup.map_on ?_
    intro t ht t' ht' heq
    match t, t', hshort t ht, hshort t' ht', heq with
    | [], [], _, _, _ => rfl
    | [c], [c'], _, _, heq => rw [Char.toNat_inj.mp (Nat.succ.inj heq)]
  have hsub : terms.map shortCode ⊆ List.range 0x110001 := by
    intro n hn
    obtain ⟨t, ht, rfl⟩ := List.mem_map.mp hn
    rw [List.mem_range]
    match t with
    | [] => exact Nat.succ_pos _
    | c :: _ => exact Nat.succ_lt_succ (toNat_lt_charCount c)
  have hle := (hcodes.subperm hsub).length_le
  rwa [List.length_map, List.length_range] at hle

/-- Terms of more than one character use up the ids twice as fast as the indices. -/
theorem two_mul_length_le (terms : List (List Char)) :
    2 * terms.length ≤ terms.flatten.length + 2 * (terms.filter fun t => t.length ≤ 1).length := by
  induction terms with
  | nil => exact Nat.le_refl _
  | cons t terms ih =>
    rw [List.filter_cons, List.flatten_cons, List.length_append, List.length_cons]
    split
    · rw [List.length_cons]
      omega
    · rename_i hlong
      have : ¬t.length ≤ 1 := fun h => hlong (decide_eq_true h)
      omega

theorem totalChars_eq : totalChars results = (results.map WallBreakerResult.term).flatten.length := by
  rw [totalChars, List.flatMap_def]

theorem ResultsFit.length_lt (h : ResultsFit results) : results.length < u32Max := by
  have hle := two_mul_length_le (results.map WallBreakerResult.term)
  have hshort := length_short_le ((results.map WallBreakerResult.term).filter fun t => t.length ≤ 1)
    (h.nodup.filter _) fun t ht => of_decide_eq_true (List.mem_filter.mp ht).2
  have hids := h.ids
  rw [totalChars_eq] at hids
  rw [List.length_map] at hle
  unfold u32Count at hids
  unfold u32Max
  omega

/-- Terms are told apart by their indices. -/
theorem ResultsFit.index_inj (h : ResultsFit results) {j : Nat} {r' : WallBreakerResult} (hr : results[i]? = some r)
    (hr' : results[j]? = some r') (hterm : r.term = r'.term) : i = j := by
  have hlt : i < (results.map WallBreakerResult.term).length := by
    rw [List.length_map]
    exact (List.getElem?_eq_some_iff.mp hr).1
  refine (List.getElem?_inj hlt h.nodup).mp ?_
  rw [List.getElem?_map, List.getElem?_map, hr, hr', Option.map_some, Option.map_some, hterm]

theorem idToState_eq (h : ResultsFit results) : buildWallbreakerStateIndex (ResultCharArena.fromResults results) =
    ⟨superStartResultIndex, 0⟩ :: stateKeys results results.length := by
  have hids := h.ids
  rw [buildWallbreakerStateIndex, len_fromResults, pushResults_eq h.length_lt.le _ (fun i hi => List.mem_range.mp hi)]
  · rfl
  · have hlen : (stateKeys results results.length).length = _ := length_stateKeys (Nat.le_refl _)
    rw [stateKeys] at hlen
    simp only [List.length_flatMap, List.length_map] at hlen ⊢
    rw [hlen, List.length_singleton]
    have htotal : spanStart results results.length = totalChars results := by rw [spanStart, List.take_length, totalChars]
    omega
  · unfold u32Count at hids
    unfold u32Max
    omega

theorem getElem?_idToState (h : ResultsFit results) :
    (buildWallbreakerStateIndex (ResultCharArena.fromResults results))[id]? = some key ↔
      (id = 0 ∧ key = ⟨superStartResultIndex, 0⟩) ∨ ∃ i r pos, results[i]? = some r ∧ pos < r.term.length ∧
        id = spanStart results i + pos + 1 ∧ key = ⟨i, pos + 1⟩ := by
  rw [idToState_eq h]
  cases id with
  | zero => simp [eq_comm]
  | succ id =>
    rw [List.getElem?_cons_succ, getElem?_stateKeys (Nat.le_refl _)]
    refine ⟨?_, ?_⟩
    · intro hkey
      obtain ⟨i, r, pos, -, hr, hpos, hid, hkey⟩ := hkey
      exact Or.inr ⟨i, r, pos, hr, hpos, congrArg Nat.succ hid, hkey⟩
    · intro hkey
      rcases hkey with ⟨hid, _⟩ | ⟨i, r, pos, hr, hpos, hid, hkey⟩
      · cases hid
      · exact ⟨i, r, pos, (List.getElem?_eq_some_iff.mp hr).1, hr, hpos, Nat.succ.inj hid, hkey⟩

end States
end Duallity
