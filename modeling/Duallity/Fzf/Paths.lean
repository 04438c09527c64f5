import Duallity.Fzf.StateSource
import Duallity.TrieDictionary

/-! The graph of the fzf source. Arc weights are the differences of the scores of label sequences, so the weight of a path is
    the score of what it spells. -/

namespace Duallity.FzfStateSource
open DictionaryNodeRegistry LazySource
variable {N U : Type} [CharUnit U] {D : FiniteDictionary N U} {core : FzfCore} {r r' : FzfStateRegistry N} {state : Nat}
  {p : List Char} {log : List (Nat × Expansion Nat Char Char Int)}

/-- The score of a label sequence, 0 as long as it has none. -/
def score (core : FzfCore) (p : List Char) : Int := (core.column p).pathScore

/-- The transducer over label sequences: an arc writes what it reads and weighs what it adds to the score. -/
def machine (D : Dictionary N U) (core : FzfCore) : Transducer (List Char) Char Char Int where
  step p a b w p' := ∃ c, a = some c ∧ b = some c ∧ p' = p ++ [c] ∧ p' ∈ D.prefixes ∧ w = score core p' - score core p
  final p f := p ∈ D.words ∧ core.Contains p ∧ f = 0

def sourceOf (D : FiniteDictionary N U) (core : FzfCore) : FzfStateSource N U := ⟨D.toDictionary, core⟩

/-- A state has the node and the column of the labels that lead to it. -/
theorem get_eq (hr : WellFormed (D.scored core) r) (hp : Spells r state p) :
    ∃ n, D.node? p = some n ∧ r.get state = some ⟨n, core.column p, score core p⟩ := by
  obtain ⟨s, hs, hget⟩ := hr.node hp
  rw [Dictionary.scored_node?] at hs
  obtain ⟨n, hn, rfl⟩ := Option.map_eq_some_iff.mp hs
  exact ⟨n, hn, hget⟩

theorem score_snoc (c : Char) : (core.advance (core.column p) c).pathScore = score core (p ++ [c]) := by
  rw [score, FzfCore.column_snoc]

/-! ### Expansions -/

/-- An arc that reads and writes a character. -/
def Copies (c : Char) (d : Nat) (arc : Arc Nat Char Char Int) : Prop :=
  arc.input = some c ∧ arc.output = some c ∧ arc.target = d

/-- New ids are those of the edges that were followed, and the id that such an edge has at the end, or could get, is the target of
    its arc. -/
theorem followEdges_ids {src : FzfStateSource N U} {registered : RegisteredFzfState N} {arcs : List (Arc Nat Char Char Int)}
    (edges : List (U × N)) (hsize : r.size ≤ u32Count) (h : src.followEdges state registered edges r = some (r', arcs)) :
    r ≤ r' ∧ r'.size ≤ u32Count ∧
      (∀ k d, r'.id? k = some d → r.id? k = some d ∨ ∃ c, k = DictionaryNodeKey.child state c ∧ ∃ arc ∈ arcs, Copies c d arc) ∧
      ∀ e ∈ edges, ∀ d, r'.candidateId (DictionaryNodeKey.child state (CharUnit.toChar e.1)) = some d →
        r'.id? (DictionaryNodeKey.child state (CharUnit.toChar e.1)) = some d ∧ ∃ arc ∈ arcs, Copies (CharUnit.toChar e.1) d arc := by
  induction edges generalizing r arcs with
  | nil =>
    cases h
    exact ⟨le_rfl, hsize, fun k d h => .inl h, nofun⟩
  | cons e edges ih =>
    obtain ⟨unit, child⟩ := e
    rw [followEdges] at h
    obtain ⟨delta, -, h⟩ := Option.bind_eq_some_iff.mp h
    generalize src.core.advance registered.column (CharUnit.toChar unit) = column at h
    have hregister : r.registerChild state (CharUnit.toChar unit) child column =
        ((r.registerChild state (CharUnit.toChar unit) child column).1,
          r.candidateId (DictionaryNodeKey.child state (CharUnit.toChar unit))) := Prod.ext rfl Interner.register_snd
    have hle : r ≤ (r.registerChild state (CharUnit.toChar unit) child column).1 := Interner.le_register
    have hsize₁ : (r.registerChild state (CharUnit.toChar unit) child column).1.size ≤ u32Count := Interner.size_register_le hsize
    have hother : ∀ k d, (r.registerChild state (CharUnit.toChar unit) child column).1.id? k = some d →
        r.id? k = some d ∨ k = DictionaryNodeKey.child state (CharUnit.toChar unit) := fun k d => Interner.id?_of_register
    have hid : ∀ i, r.candidateId (DictionaryNodeKey.child state (CharUnit.toChar unit)) = some i →
        (r.registerChild state (CharUnit.toChar unit) child column).1.id? (DictionaryNodeKey.child state (CharUnit.toChar unit)) =
          some i := fun i hi => Interner.id?_register hi
    rw [hregister] at h
    generalize (r.registerChild state (CharUnit.toChar unit) child column).1 = r₁ at h hle hsize₁ hother hid
    cases hcandidate : r.candidateId (DictionaryNodeKey.child state (CharUnit.toChar unit)) with
    | none =>
      -- The ids have run out, so the key never gets one.
      rw [hcandidate] at h
      obtain ⟨hle', hsize', hnew, hall⟩ := ih hsize₁ h
      have hnever : ∀ d, r'.candidateId (DictionaryNodeKey.child state (CharUnit.toChar unit)) ≠ some d := by
        intro d hd
        have hnone := Interner.candidate_eq_none_mono (hle.trans hle') hcandidate hsize'
        cases hd.symm.trans hnone
      refine ⟨hle.trans hle', hsize', ?_, ?_⟩
      · intro k d hkd
        rcases hnew k d hkd with hkd₁ | hnew
        · rcases hother k d hkd₁ with hkd₁ | rfl
          · exact .inl hkd₁
          · exact absurd (Interner.candidate_of_some hkd) (hnever d)
        · exact .inr hnew
      · intro e he d hd
        rcases List.mem_cons.mp he with rfl | he
        · exact absurd hd (hnever d)
        · exact hall e he d hd
    | some i =>
      rw [hcandidate] at h
      dsimp only at h
      obtain ⟨⟨r'', arcs'⟩, hrest, heq⟩ := Option.map_eq_some_iff.mp h
      cases heq
      obtain ⟨hle', hsize', hnew, hall⟩ := ih hsize₁ hrest
      have hkey := Interner.le_id? hle' (hid i hcandidate)
      refine ⟨hle.trans hle', hsize', ?_, ?_⟩
      · intro k d hkd
        rcases hnew k d hkd with hkd₁ | ⟨c, hk, arc, harc, hcopies⟩
        · rcases hother k d hkd₁ with hkd₁ | rfl
          · exact .inl hkd₁
          · cases hkey.symm.trans hkd
            exact .inr ⟨_, rfl, _, List.mem_cons_self, rfl, rfl, rfl⟩
        · exact .inr ⟨c, hk, arc, List.mem_cons_of_mem _ harc, hcopies⟩
      · intro e he d hd
        rcases List.mem_cons.mp he with rfl | he
        · cases (Interner.candidate_of_some hkey).symm.trans hd
          exact ⟨hkey, _, List.mem_cons_self, rfl, rfl, rfl⟩
        · obtain ⟨hid, arc, harc, hcopies⟩ := hall e he d hd
          exact ⟨hid, arc, List.mem_cons_of_mem _ harc, hcopies⟩

section Expansions
variable (hcore : core.WellFormed)
include hcore

/-- The best score of a prefix is never above that of the sequence, so the delta is an `i32`. -/
theorem checkedSub_eq (c : Char) :
    checkedSubI32 (score core (p ++ [c])) (score core p) = some (score core (p ++ [c]) - score core p) := by
  have hbounds : ∀ q, 0 ≤ score core q ∧ score core q ≤ i32Max := by
    intro q
    unfold score FzfColumn.pathScore
    cases hbest : (core.column q).bestFullScore with
    | none => exact ⟨le_rfl, by decide⟩
    | some v => exact hcore.best_bounds hbest
  have hnext := hbounds (p ++ [c])
  have hpre := hbounds p
  unfold i32Max at hnext hpre
  exact if_pos ⟨by unfold i32Min; omega, by unfold i32Max; omega⟩

/-- One edge: the arc to its child, unless the ids have run out. -/
theorem followEdges_cons {n m : N} {u : U} {edges : List (U × N)} :
    (sourceOf D core).followEdges state ⟨n, core.column p, score core p⟩ ((u, m) :: edges) r =
      match r.registerChild state (CharUnit.toChar u) m (core.column (p ++ [CharUnit.toChar u])) with
      | (r, some childState) => ((sourceOf D core).followEdges state ⟨n, core.column p, score core p⟩ edges r).map fun (r, arcs) =>
          (r, ⟨state, some (CharUnit.toChar u), some (CharUnit.toChar u), childState,
            score core (p ++ [CharUnit.toChar u]) - score core p⟩ :: arcs)
      | (r, none) => (sourceOf D core).followEdges state ⟨n, core.column p, score core p⟩ edges r := by
  rw [followEdges]
  show (checkedSubI32 (core.advance (core.column p) _).pathScore (score core p)).bind _ = _
  rw [score_snoc, checkedSub_eq hcore, Option.bind_some]
  show (match r.registerChild state _ m (core.advance (core.column p) _) with | (r, some childState) => _ | (r, none) => _) = _
  rw [← FzfCore.column_snoc]

/-- The arcs of the edges lead to their labels, and every edge has one when all labels fit. -/
theorem followEdges_spec {n : N} (hn : D.node? p = some n) (edges : List (U × N)) (hedges : edges ⊆ D.edges n)
    (hr : WellFormed (D.scored core) r) (hp : Spells r state p) :
    ∃ r' arcs, (sourceOf D core).followEdges state ⟨n, core.column p, score core p⟩ edges r = some (r', arcs) ∧
      WellFormed (D.scored core) r' ∧ r ≤ r' ∧
      (∀ arc ∈ arcs, ∃ c, p ++ [c] ∈ D.prefixes ∧ Spells r' arc.target (p ++ [c]) ∧
        arc = ⟨state, some c, some c, arc.target, score core (p ++ [c]) - score core p⟩) ∧
      (D.prefixes.ncard ≤ u32Count → ∀ e ∈ edges, ∃ arc ∈ arcs, Spells r' arc.target (p ++ [CharUnit.toChar e.1]) ∧
        arc = ⟨state, some (CharUnit.toChar e.1), some (CharUnit.toChar e.1), arc.target,
          score core (p ++ [CharUnit.toChar e.1]) - score core p⟩) := by
  induction edges generalizing r with
  | nil => exact ⟨r, [], rfl, hr, le_rfl, nofun, fun _ => nofun⟩
  | cons e edges ih =>
    obtain ⟨u, m⟩ := e
    obtain ⟨hmem, hedges⟩ := List.cons_subset.mp hedges
    have hstep : D.step? n (CharUnit.toChar u) = some m := FiniteDictionary.step?_eq_some.mpr ⟨u, hmem, rfl⟩
    have hpre : p ++ [CharUnit.toChar u] ∈ D.prefixes :=
      Dictionary.mem_prefixes.mpr ⟨m, by rw [Dictionary.node?_snoc, hn, Option.bind_some, hstep]⟩
    obtain ⟨n', hn', hget⟩ := get_eq hr hp
    cases hn.symm.trans hn'
    have hscored : (D.scored core).step? ⟨n, core.column p, score core p⟩ (CharUnit.toChar u) =
        some ⟨m, core.column (p ++ [CharUnit.toChar u]), (core.column (p ++ [CharUnit.toChar u])).pathScore⟩ := by
      rw [Dictionary.scored_step?, hstep, Option.map_some, ← FzfCore.column_snoc]
    have hr₁ := hr.registerNode hget hscored
    have hle : r ≤ (r.registerChild state (CharUnit.toChar u) m (core.column (p ++ [CharUnit.toChar u]))).1 :=
      Interner.le_register
    obtain ⟨r', arcs, hfollow, hr', hle', harcs, hall⟩ := ih hedges hr₁ (hp.mono hle)
    have hsnd : (r.registerChild state (CharUnit.toChar u) m (core.column (p ++ [CharUnit.toChar u]))).2 =
        candidateId r (DictionaryNodeKey.child state (CharUnit.toChar u)) := Interner.register_snd
    rw [followEdges_cons hcore]
    cases hcandidate : candidateId r (DictionaryNodeKey.child state (CharUnit.toChar u)) with
    | none =>
      have hregister : r.registerChild state (CharUnit.toChar u) m (core.column (p ++ [CharUnit.toChar u])) =
        (_, none) := Prod.ext rfl (hsnd.trans hcandidate)
      rw [hregister]
      refine ⟨r', arcs, hfollow, hr', hle.trans hle', harcs, ?_⟩
      intro hfits
      have hprefixes : (D.scored core).prefixes = D.prefixes := Dictionary.scored_prefixes
      obtain ⟨i, hi⟩ := hr.exists_candidate (hprefixes ▸ D.finite) (by rw [hprefixes]; exact hfits) hp hget hscored
      cases hcandidate.symm.trans hi
    | some i =>
      have hregister : r.registerChild state (CharUnit.toChar u) m (core.column (p ++ [CharUnit.toChar u])) =
        (_, some i) := Prod.ext rfl (hsnd.trans hcandidate)
      have hspells : Spells r' i (p ++ [CharUnit.toChar u]) := (hp.registerNode hcandidate).mono hle'
      rw [hregister]
      refine ⟨r', _, congrArg (Option.map _) hfollow, hr', hle.trans hle', ?_, ?_⟩
      · intro arc harc
        rcases List.mem_cons.mp harc with rfl | harc
        · exact ⟨_, hpre, hspells, rfl⟩
        · exact harcs arc harc
      · intro hfits e he
        rcases List.mem_cons.mp he with rfl | he
        · exact ⟨_, List.mem_cons_self, hspells, rfl⟩
        · obtain ⟨arc, harc, h⟩ := hall hfits e he
          exact ⟨arc, List.mem_cons_of_mem _ harc, h⟩

/-- What the expansion of a label sequence returns. -/
theorem computeRegisteredState_spec (hr : WellFormed (D.scored core) r) (hp : Spells r state p) :
    ∃ r' e, (sourceOf D core).computeRegisteredState r state = some (r', some e) ∧ WellFormed (D.scored core) r' ∧ r ≤ r' ∧
      (∀ f, e.final? = some f ↔ p ∈ D.words ∧ core.Contains p ∧ f = 0) ∧
      (∀ arc ∈ e.arcs, ∃ c, p ++ [c] ∈ D.prefixes ∧ Spells r' arc.target (p ++ [c]) ∧
        arc = ⟨state, some c, some c, arc.target, score core (p ++ [c]) - score core p⟩) ∧
      (D.prefixes.ncard ≤ u32Count → ∀ c, p ++ [c] ∈ D.prefixes → ∃ arc ∈ e.arcs, Spells r' arc.target (p ++ [c]) ∧
        arc = ⟨state, some c, some c, arc.target, score core (p ++ [c]) - score core p⟩) := by
  obtain ⟨n, hn, hget⟩ := get_eq hr hp
  obtain ⟨r', arcs, hfollow, hr', hle, harcs, hall⟩ := followEdges_spec hcore hn (D.edges n) (List.Subset.refl _) hr hp
  have hfinal : (D.isFinal n = true ∧ (core.column p).bestFullScore.isSome = true) ↔ p ∈ D.words ∧ core.Contains p := by
    rw [FzfCore.best_isSome_iff]
    refine and_congr_left fun _ => ⟨fun h => ⟨n, hn, h⟩, ?_⟩
    intro ⟨n', hn', h⟩
    cases hn.symm.trans hn'
    exact h
  refine ⟨r', ⟨arcs, if D.isFinal n = true ∧ (core.column p).bestFullScore.isSome = true then some 0 else none⟩, ?_, hr', hle,
    ?_, harcs, ?_⟩
  · rw [computeRegisteredState, hget]
    show (Option.map _ ((sourceOf D core).followEdges state _ (D.edges n) r)) = _
    rw [hfollow]
    rfl
  · intro f
    rw [Option.ite_none_right_eq_some, hfinal, Option.some.injEq, and_assoc, eq_comm (a := f)]
  · intro hfits c hc
    obtain ⟨m, hm⟩ := Dictionary.mem_prefixes.mp hc
    rw [Dictionary.node?_snoc, hn, Option.bind_some] at hm
    obtain ⟨u, hu, rfl⟩ := FiniteDictionary.step?_eq_some.mp hm
    exact hall hfits (u, m) hu

end Expansions

/-! ### Explorations -/

/-- A run of expansions of registered states, in any order. -/
def Explored (D : FiniteDictionary N U) (core : FzfCore) (log : List (Nat × Expansion Nat Char Char Int))
    (r : FzfStateRegistry N) : Prop := (sourceOf D core).source.Explores (sourceOf D core).initial log r

theorem wellFormed_initial : WellFormed (D.scored core) (sourceOf D core).initial := wellFormed_new

theorem expand_eq_compute {o : Option (Expansion Nat Char Char Int)}
    (h : (sourceOf D core).computeRegisteredState r state = some (r', o)) :
    (sourceOf D core).source.expand r state = (r', o) := by
  show ((sourceOf D core).computeRegisteredState r state).getD _ = _
  rw [h, Option.getD_some]

/-- A state that is not registered does not expand. -/
theorem expand_of_size_le (hr : WellFormed (D.scored core) r) (h : ∀ p, ¬Spells r state p) :
    (sourceOf D core).computeRegisteredState r state = some (r, none) := by
  have hnone : r.get state = none := by
    refine Option.eq_none_iff_forall_not_mem.mpr ?_
    intro s hs
    obtain ⟨p, hp, -⟩ := hr.path_of_getNode hs
    exact h p hp
  rw [computeRegisteredState, hnone]

theorem sound (hcore : core.WellFormed) : Sound (sourceOf D core).source (machine D.toDictionary core)
    (WellFormed (D.scored core)) (fun r state p => Spells r state p) := by
  have hexpand : ∀ {r r' : FzfStateRegistry N} {state o}, WellFormed (D.scored core) r →
      (sourceOf D core).source.expand r state = (r', o) → WellFormed (D.scored core) r' ∧ r ≤ r' := by
    intro r r' state o hr h
    by_cases hspells : ∃ p, Spells r state p
    · obtain ⟨p, hp⟩ := hspells
      obtain ⟨r₁, arcs, hcompute, hr₁, hle, -⟩ := computeRegisteredState_spec hcore hr hp
      cases (expand_eq_compute hcompute).symm.trans h
      exact ⟨hr₁, hle⟩
    · cases (expand_eq_compute (expand_of_size_le hr (not_exists.mp hspells))).symm.trans h
      exact ⟨hr, le_rfl⟩
  refine ⟨fun hr h => (hexpand hr h).1, fun hr h hp => hp.mono (hexpand hr h).2, fun hr => hr.path_unique, ?_, ?_, ?_⟩
  · intro r state hr hvalid
    obtain ⟨s, hs⟩ := Option.isSome_iff_exists.mp hvalid.2
    obtain ⟨p, hp, -⟩ := hr.path_of_getNode hs
    exact ⟨p, hp⟩
  · intro r state p r' e hr hp h arc harc
    obtain ⟨r₁, e₁, hcompute, -, -, -, harcs, -⟩ := computeRegisteredState_spec hcore hr hp
    cases (expand_eq_compute hcompute).symm.trans h
    obtain ⟨c, hc, hspells, heq⟩ := harcs arc harc
    refine ⟨p ++ [c], hspells, c, ?_⟩
    rw [heq]
    exact ⟨rfl, rfl, rfl, hc, rfl⟩
  · intro r state p r' e f hr hp h hf
    obtain ⟨r₁, e₁, hcompute, -, -, hfinal, -⟩ := computeRegisteredState_spec hcore hr hp
    cases (expand_eq_compute hcompute).symm.trans h
    exact (hfinal f).mp hf

theorem exact (hcore : core.WellFormed) (hfits : D.prefixes.ncard ≤ u32Count) : Exact (sourceOf D core).source
    (machine D.toDictionary core) (WellFormed (D.scored core)) (fun r state p => Spells r state p) where
  toSound := sound hcore
  steps {r state p r' e} hr hp _ h {i o w b} hstep := by
    obtain ⟨c, rfl, rfl, rfl, hc, rfl⟩ := hstep
    obtain ⟨r₁, e₁, hcompute, -, -, -, -, hall⟩ := computeRegisteredState_spec hcore hr hp
    cases (expand_eq_compute hcompute).symm.trans h
    obtain ⟨arc, harc, hspells, heq⟩ := hall hfits c hc
    refine ⟨arc, harc, ?_⟩
    rw [heq]
    exact ⟨rfl, rfl, rfl, hspells⟩
  finals {r state p r' e f} hr hp _ h hfinal := by
    obtain ⟨r₁, e₁, hcompute, -, -, hfinals, -⟩ := computeRegisteredState_spec hcore hr hp
    cases (expand_eq_compute hcompute).symm.trans h
    exact (hfinals f).mpr hfinal

/-- Some exploration expands every state that it reaches. -/
theorem exists_exploration (hcore : core.WellFormed) (D : FiniteDictionary N U) :
    ∃ log r, Explored D core log r ∧ Complete log start := by
  have hsound : Sound (sourceOf D core).source _ _ _ := sound hcore
  have hstates : ∀ {r state}, (sourceOf D core).source.valid r state → state ∈ Finset.range (u32Max + 1) :=
    fun h => Finset.mem_range_succ_iff.mpr h.1
  have hvalid : ∀ {r state p}, WellFormed (D.scored core) r → Spells r state p → (sourceOf D core).source.valid r state := by
    intro r state p hr hp
    obtain ⟨n, -, hget⟩ := get_eq hr hp
    have hlt := (hr.lt_size hp).trans_le hr.size_le
    exact ⟨Nat.le_of_lt_succ hlt, by rw [hget]; rfl⟩
  have htotal : ∀ {r state}, WellFormed (D.scored core) r → (sourceOf D core).source.valid r state →
      ∃ r' e, (sourceOf D core).source.expand r state = (r', some e) := by
    intro r state hr hvalid
    obtain ⟨p, hp⟩ := hsound.den_of_valid hr hvalid
    obtain ⟨r', e, hcompute, -⟩ := computeRegisteredState_spec hcore hr hp
    exact ⟨r', e, expand_eq_compute hcompute⟩
  obtain ⟨log, r, hE, hc⟩ := hsound.exists_complete hvalid htotal hstates wellFormed_initial .root
  exact ⟨log, r, hE.explores, hc⟩

/-! ### Telescoping -/

/-- A path over label sequences spells its target, and its weight is what the score grows by. -/
theorem machine_path {D : Dictionary N U} {p p' x y : List Char} {w : Int} (h : (machine D core).Path p x y w p') :
    x = y ∧ p' = p ++ x ∧ w = score core p' - score core p := by
  refine Transducer.Path.snocInduction (motive := fun x y w p' => x = y ∧ p' = p ++ x ∧ w = score core p' - score core p)
    ⟨rfl, (List.append_nil p).symm, (sub_self _).symm⟩ ?_ h
  intro x y w t a b v u _ ih hstep
  obtain ⟨rfl, rfl, rfl⟩ := ih
  obtain ⟨c, rfl, rfl, rfl, -, rfl⟩ := hstep
  refine ⟨rfl, List.append_assoc _ _ _, ?_⟩
  rw [add_comm, sub_add_sub_cancel]

theorem machine_path_label {D : Dictionary N U} (hp : p ∈ D.prefixes) :
    (machine D core).Path [] p p (score core p - score core []) p := by
  induction p using List.reverseRecOn with
  | nil =>
    rw [sub_self]
    exact .nil _
  | append_singleton p c ih =>
    have hpath := (ih (Dictionary.mem_prefixes_of_append hp)).snoc (u := p ++ [c])
      ⟨c, rfl, rfl, rfl, hp, (rfl : score core (p ++ [c]) - score core p = _)⟩
    rwa [sub_add_sub_cancel'] at hpath

theorem score_nil : score core [] = 0 := by
  rw [score, FzfCore.column_nil, FzfColumn.pathScore, FzfCore.initialColumn]
  dsimp only
  split
  · rfl
  · rfl

/-- What the machine accepts: the words that contain the query, with their scores. -/
theorem machine_accepts_iff {D : Dictionary N U} {x y : List Char} {v : Int} : (machine D core).Accepts [] x y v ↔
    x = y ∧ x ∈ D.words ∧ (core.column x).bestFullScore = some v := by
  have hscore : core.Contains x → ((core.column x).bestFullScore = some v ↔ v = score core x) := by
    intro hcontains
    obtain ⟨u, hu⟩ := Option.isSome_iff_exists.mp (FzfCore.best_isSome_iff.mpr hcontains)
    rw [score, FzfColumn.pathScore, hu, Option.getD_some, Option.some.injEq, eq_comm]
  refine ⟨?_, ?_⟩
  · intro ⟨p, w, f, hpath, ⟨hword, hcontains, hf⟩, hv⟩
    obtain ⟨rfl, hp, hw⟩ := machine_path hpath
    rw [List.nil_append] at hp
    subst hp
    refine ⟨rfl, hword, (hscore hcontains).mpr ?_⟩
    rw [hv, hf, hw, score_nil, sub_zero, add_zero]
  · intro ⟨hxy, hword, hbest⟩
    subst hxy
    have hcontains := FzfCore.best_isSome_iff.mp (Option.isSome_iff_exists.mpr ⟨v, hbest⟩)
    refine ⟨x, _, 0, machine_path_label (Dictionary.words_subset_prefixes hword), ⟨hword, hcontains, rfl⟩, ?_⟩
    rw [score_nil, sub_zero, add_zero]
    exact (hscore hcontains).mp hbest

/-- The graph accepts exactly the words that contain the query, each with its score. -/
theorem accepts_iff (hcore : core.WellFormed) (hfits : D.prefixes.ncard ≤ u32Count) (hE : Explored D core log r)
    (hc : Complete log start) {x y : List Char} {v : Int} : (graph log).Accepts start x y v ↔
      x = y ∧ x ∈ D.words ∧ (core.column x).bestFullScore = some v :=
  ((exact hcore hfits).accepts_iff hE wellFormed_initial hc .root).trans machine_accepts_iff

/-- The weight of a path is the best full score of what it spells; its state is final exactly at a word that contains the
    query, belongs to no other sequence, and expands without a failed subtraction. -/
theorem paths_telescope (D : FiniteDictionary N U) (tables : UnicodeTables) (query : List Char) (config : FzfConfig)
    (hnew : FzfCore.new tables query config = .ok core) (hE : Explored D core log r) :
    (∀ x y w s, (graph log).Path start x y w s → x = y ∧ x ∈ D.prefixes ∧ w = ((core.column x).bestFullScore).getD 0 ∧
      (∀ e, (s, e) ∈ log → (e.final?.isSome ↔ x ∈ D.words ∧ core.query.Sublist (x.map core.comparable)) ∧
        ∀ f, e.final? = some f → f = 0) ∧
      ∀ x' y' w', (graph log).Path start x' y' w' s → x = x') ∧
    (∀ s, (sourceOf D core).computeRegisteredState r s ≠ none) ∧
    (D.prefixes.ncard ≤ u32Count → Complete log start → ∀ x ∈ D.prefixes, ∃ w s, (graph log).Path start x x w s) := by
  have hcore := FzfCore.wellFormed_of_new hnew
  have hsound : Sound (sourceOf D core).source _ _ _ := sound hcore
  have hr := hsound.inv_explores hE wellFormed_initial
  have hden : ∀ {x y w s}, (graph log).Path start x y w s → x = y ∧ Spells r s x ∧ w = score core x := by
    intro x y w s hpath
    obtain ⟨p, hp, hmachine⟩ := hsound.path hE wellFormed_initial .root hpath
    obtain ⟨hxy, hx, hw⟩ := machine_path hmachine
    rw [List.nil_append] at hx
    subst hx
    exact ⟨hxy, hp, by rw [hw, score_nil, sub_zero]⟩
  refine ⟨?_, ?_, ?_⟩
  · intro x y w s hpath
    obtain ⟨hxy, hp, hw⟩ := hden hpath
    have hprefixes : (D.scored core).prefixes = D.prefixes := Dictionary.scored_prefixes
    refine ⟨hxy, hprefixes ▸ hr.spelled_subset ⟨s, hp⟩, hw, ?_, ?_⟩
    · intro e he
      obtain ⟨p, hp', -, hfinal⟩ := hsound.logged hE wellFormed_initial he
      cases hr.path_unique hp hp'
      refine ⟨⟨?_, ?_⟩, fun f hf => (hfinal f hf).2.2⟩
      · intro hsome
        obtain ⟨f, hf⟩ := Option.isSome_iff_exists.mp hsome
        exact ⟨(hfinal f hf).1, (hfinal f hf).2.1⟩
      · intro hword
        obtain ⟨log₁, r₁, r₂, log₂, hE₁, hvalid, hexpand, hE₂⟩ := hE.of_mem he
        have hr₁ := hsound.inv_explores hE₁ wellFormed_initial
        obtain ⟨p, hp₁⟩ := hsound.den_of_valid hr₁ hvalid
        obtain ⟨r₃, e₃, hcompute, -, -, hfinals, -⟩ := computeRegisteredState_spec hcore hr₁ hp₁
        cases (expand_eq_compute hcompute).symm.trans hexpand
        cases hr.path_unique hp (hsound.den_explores hE₂ (hsound.inv_expand hr₁ hexpand)
          (hsound.den_expand hr₁ hexpand hp₁))
        exact Option.isSome_iff_exists.mpr ⟨0, (hfinals 0).mpr ⟨hword.1, hword.2, rfl⟩⟩
    · intro x' y' w' hpath'
      exact hr.path_unique hp (hden hpath').2.1
  · intro s hpanic
    by_cases hspells : ∃ p, Spells r s p
    · obtain ⟨p, hp⟩ := hspells
      obtain ⟨r', arcs, hcompute, -⟩ := computeRegisteredState_spec hcore hr hp
      cases hpanic.symm.trans hcompute
    · cases hpanic.symm.trans (expand_of_size_le hr (not_exists.mp hspells))
  · intro hfits hc x hx
    obtain ⟨s, -, hpath⟩ := (exact hcore hfits).path hE wellFormed_initial hc .root (machine_path_label hx)
    exact ⟨_, s, hpath⟩

/-- The tables of ASCII. -/
def asciiTables : UnicodeTables where
  isLowercase := Char.isLower
  isUppercase := Char.isUpper
  isNumeric := Char.isDigit
  isAlphabetic := Char.isAlpha
  isWhitespace := Char.isWhitespace
  toLowercase c := c

def defaultConfig : FzfConfig := ⟨false, .default, 0, 1000, 1000000⟩

theorem paths_telescope_trie : ∃ log r w s, Explored (trie [['a', 'b']]) ⟨asciiTables, ['b'], defaultConfig, 10⟩ log r ∧
    (graph log).Path start ['a', 'b'] ['a', 'b'] w s ∧ w = 16 := by
  have hprefixes : (trie [['a', 'b']]).prefixes.ncard ≤ u32Count := by
    rw [show (trie [['a', 'b']]).prefixes = _ from TrieDictionary.prefixes_eq, Set.ncard_coe_finset]
    decide
  have hmem : ['a', 'b'] ∈ (trie [['a', 'b']]).prefixes :=
    TrieDictionary.mem_prefixes.mpr (Or.inr ⟨_, List.mem_cons_self, List.prefix_refl _⟩)
  have hnew : FzfCore.new asciiTables ['b'] defaultConfig = .ok ⟨asciiTables, ['b'], defaultConfig, 10⟩ := rfl
  obtain ⟨log, r, hE, hc⟩ := exists_exploration (FzfCore.wellFormed_of_new hnew) (trie [['a', 'b']])
  obtain ⟨hpaths, -, hcomplete⟩ := paths_telescope _ _ _ _ hnew hE
  obtain ⟨w, s, hpath⟩ := hcomplete hprefixes hc _ hmem
  exact ⟨log, r, w, s, hE, hpath, (hpaths _ _ _ _ hpath).2.2.1.trans (by decide)⟩

end Duallity.FzfStateSource
