import Duallity.Universal.Successors

/-! Explorations of the Universal source from its start: as long as the reachable keys are no more than the ids planned
    for interned states, no successor lacks one, in any order of expansions. -/

namespace Duallity.UniversalLevenshteinStateSource
open DictionaryNodeRegistry StateEncoding UniversalProduct LazySource
variable {N U σ β κ : Type} [CharUnit U] [DecidableEq κ] {A : UniversalAutomaton σ β κ} {D : FiniteDictionary N U}
  {q : List Char} {k : Nat} {r r' : UniversalRegistries N σ κ} {state : Nat} {t : SpelledState}
  {log : List (Nat × Expansion Nat Char Char Nat)}

/-- States with a denotation are the ones an exploration meets. -/
theorem sound_denoted (hkey : Function.Injective A.key) :
    Sound ((sourceOf A D q k).source.restrict fun r s => ∃ t, Denotes A D q k r s t) (machine A D.toDictionary q k)
      (WellFormed (sourceOf A D q k)) (Denotes A D q k) := sound hkey And.right

theorem valid_of_denotes (hr : WellFormed (sourceOf A D q k) r) (h : Denotes A D q k r state t) :
    ((sourceOf A D q k).source.restrict fun r s => ∃ t, Denotes A D q k r s t).valid r state := by
  refine ⟨?_, t, h⟩
  rcases h with ⟨hu, -, -, id, aid, u, hdecode, hspells, -, hv⟩
  rcases hr.node hspells with ⟨n, -, hn⟩
  refine ⟨hu, ?_⟩
  simp only [isValidProductState, hdecode, hn, hv, Option.isSome_some, Bool.and_self]

theorem exists_expandState (r : UniversalRegistries N σ κ) (state : Nat) :
    ∃ r' e, (sourceOf A D q k).expandState r state = (r', some e) := by
  have hM : (sourceOf A D q k).maxAutomatonStates ≠ 0 := Nat.pos_iff_ne_zero.mp maxAutomatonStates_pos
  simp only [UniversalLevenshteinStateSource.expandState, StateEncoding.decode, if_neg hM]
  exact ⟨_, _, rfl⟩

/-- Exploring until nothing reachable is left ends. -/
theorem exists_exploration (hkey : Function.Injective A.key) (D : FiniteDictionary N U) (q : List Char) (k : Nat) :
    ∃ log r, (sourceOf A D q k).source.ExploresFrom start (initial A D q k) log r ∧ Complete log start := by
  have hstates : ∀ {r state}, ((sourceOf A D q k).source.restrict fun r s => ∃ t, Denotes A D q k r s t).valid r state →
      state ∈ Finset.range (u32Max + 1) := fun h => Finset.mem_range_succ_iff.mpr h.1.1
  rcases (sound_denoted hkey).exists_complete valid_of_denotes (fun _ _ => exists_expandState _ _) hstates
    wellFormed_initial denotes_start with ⟨log, r, hE, hc⟩
  exact ⟨log, r, hE.mono (fun _ _ h => h.1) rfl, hc⟩

/-! ### Explorations that drop nothing -/

/-- An exploration from the start that drops nothing. -/
abbrev Explored (A : UniversalAutomaton σ β κ) (D : FiniteDictionary N U) (q : List Char) (k : Nat)
    (log : List (Nat × Expansion Nat Char Char Nat)) (r : UniversalRegistries N σ κ) : Prop :=
  ((sourceOf A D q k).source.restrict (DropsNothing (sourceOf A D q k))).ExploresFrom start (initial A D q k) log r

theorem exact_denoted (hkey : Function.Injective A.key) :
    Exact (((sourceOf A D q k).source.restrict (DropsNothing (sourceOf A D q k))).restrict
      fun r s => ∃ t, Denotes A D q k r s t) (machine A D.toDictionary q k) (WellFormed (sourceOf A D q k))
      (Denotes A D q k) := exact hkey And.right fun h => h.1.2

theorem Explored.denoted (hkey : Function.Injective A.key) (hE : Explored A D q k log r) :
    (((sourceOf A D q k).source.restrict (DropsNothing (sourceOf A D q k))).restrict
      fun r s => ∃ t, Denotes A D q k r s t).ExploresFrom start (initial A D q k) log r :=
  (exact_denoted hkey).exploresFrom_restrict hE wellFormed_initial denotes_start

/-- When no successor is dropped, the graph accepts what the product machine accepts. -/
theorem accepts_machine_iff (hkey : Function.Injective A.key) (hE : Explored A D q k log r) (hc : Complete log start)
    {x w : List Char} {v : Nat} :
    (graph log).Accepts start x w v ↔ (machine A D.toDictionary q k).Accepts UniversalProduct.start x w v :=
  (exact_denoted hkey).accepts_iff (hE.denoted hkey).explores wellFormed_initial hc denotes_start

/-! ### Ids of interned states -/

theorem keys_initial : (initial A D q k).2.keys ⊆ reachableKeys A D q k := by
  intro key hmem
  rcases hmem with ⟨i, hi⟩
  rw [initial_states, Interner.id?_push] at hi
  split at hi
  · rename_i heq
    rw [heq]
    exact mem_reachableKeys (t := UniversalProduct.start) Dictionary.nil_mem_prefixes rfl (Nat.min_le_left _ _)
      (Nat.zero_le _)
  · cases hi

theorem denotes_of_reached (hkey : Function.Injective A.key)
    (hE : (sourceOf A D q k).source.ExploresFrom start (initial A D q k) log r) (h : Reached log start state) :
    WellFormed (sourceOf A D q k) r ∧ ∃ t, Denotes A D q k r state t := by
  have hE' := ((sound_denoted hkey).exploresFrom_restrict hE wellFormed_initial denotes_start).explores
  exact ⟨(sound_denoted hkey).inv_explores hE' wellFormed_initial,
    (sound_denoted hkey).den_of_reached hE' wellFormed_initial denotes_start h⟩

/-- Whatever the order of expansions, only reachable keys are interned. -/
theorem keys_explored (hkey : Function.Injective A.key)
    (hE : (sourceOf A D q k).source.ExploresFrom start (initial A D q k) log r) : r.2.keys ⊆ reachableKeys A D q k := by
  have hE' := (sound_denoted hkey).exploresFrom_restrict hE wellFormed_initial denotes_start
  refine (hE'.inv (p := fun r => WellFormed (sourceOf A D q k) r ∧ r.2.keys ⊆ reachableKeys A D q k) ?_
    ⟨wellFormed_initial, keys_initial⟩).2
  intro r s r' e h hv he
  rcases hv with ⟨-, t, ht⟩
  have he' : (sourceOf A D q k).expandState r s = (r', some e) := he
  have hr' := wellFormed_expandState s h.1
  have hkeys := keys_expandState ht h.1 h.2
  rw [he'] at hr' hkeys
  exact ⟨hr', hkeys⟩

/-- Every successor of a state that has been reached is offered an id for its interned state. -/
def IdsSuffice (src : UniversalLevenshteinStateSource N U σ β κ) (log : List (Nat × Expansion Nat Char Char Nat))
    (r : UniversalRegistries N σ κ) : Prop :=
  ∀ s, Reached log start s → ∀ key ∈ src.successorKeys r s,
    ∃ i < src.maxAutomatonStates, r.2.candidate u32Count key = some i

omit [DecidableEq κ] in
theorem maxAutomatonStates_le : (sourceOf A D q k).maxAutomatonStates ≤ u32Count := by
  refine (max_le saturatingMul_le ?_).trans (Nat.le_succ u32Max)
  decide

/-- Ids suffice while the reachable keys are no more than the states planned for. -/
theorem idsSuffice_of_ncard_le (hkey : Function.Injective A.key)
    (hcard : (reachableKeys A D q k).ncard ≤ (sourceOf A D q k).maxAutomatonStates)
    (hE : (sourceOf A D q k).source.ExploresFrom start (initial A D q k) log r) :
    IdsSuffice (sourceOf A D q k) log r := by
  intro s hs key hmem
  rcases denotes_of_reached hkey hE hs with ⟨hr, t, ht⟩
  rcases Interner.exists_candidate_lt reachableKeys_finite (keys_explored hkey hE)
    (reachable_of_mem_successorKeys ht hr hmem) (hcard.trans maxAutomatonStates_le) with ⟨i, hi, hcandidate⟩
  exact ⟨i, hi.trans_le hcard, hcandidate⟩

theorem successorKeys_mono (ht : Denotes A D q k r state t) (hr : WellFormed (sourceOf A D q k) r)
    (hr' : WellFormed (sourceOf A D q k) r') (hle : r ≤ r') :
    (sourceOf A D q k).successorKeys r' state = (sourceOf A D q k).successorKeys r state := by
  rcases ht.successorKeys hr with ⟨id, aid, u, n, -, hnode, -, hrun, -, hkeys, -⟩
  rcases (ht.mono hle).successorKeys hr' with ⟨id', aid', u', n', -, hnode', -, hrun', -, hkeys', -⟩
  cases hnode.symm.trans hnode'
  cases hrun.symm.trans hrun'
  rw [hkeys, hkeys']

/-- When ids suffice throughout, every expansion offers them. -/
theorem offersIds_of_idsSuffice (hkey : Function.Injective A.key)
    (h : ∀ log r, (sourceOf A D q k).source.ExploresFrom start (initial A D q k) log r →
      IdsSuffice (sourceOf A D q k) log r)
    (hE : (sourceOf A D q k).source.ExploresFrom start (initial A D q k) log r) :
    ((sourceOf A D q k).source.restrict (OffersIds (sourceOf A D q k))).ExploresFrom start (initial A D q k) log r := by
  refine hE.restrict ?_
  intro log r₁ r₂ s e _ hE' hreached hv he
  rcases denotes_of_reached hkey hE' hreached with ⟨hr, t, ht⟩
  have hnext := hE'.expanded hreached hv he
  have he' : (sourceOf A D q k).expandState r₁ s = (r₂, some e) := he
  have hle := le_expandState A D q k r₁ s
  have hr₂ := wellFormed_expandState s hr
  unfold OffersIds
  rw [he'] at hle hr₂ ⊢
  rw [← successorKeys_mono ht hr hr₂ hle]
  refine h _ _ hnext s ?_
  rcases hreached with rfl | ⟨l, hl, harc⟩
  · exact Or.inl rfl
  · exact Or.inr ⟨l, List.mem_cons_of_mem _ hl, harc⟩

/-- An exploration whose expansions offer ids drops no successor while all products fit `u32`. -/
theorem explored_of_offersIds (hkey : Function.Injective A.key)
    (hfits : D.prefixes.ncard * (sourceOf A D q k).maxAutomatonStates ≤ u32Count)
    (hE : ((sourceOf A D q k).source.restrict (OffersIds (sourceOf A D q k))).ExploresFrom start (initial A D q k) log r) :
    Explored A D q k log r := by
  refine (hE.restrict ?_).mono (fun _ _ h => ⟨h.1.1, h.2⟩) rfl
  intro log r₁ r₂ s e _ hE' hreached hv _
  rcases denotes_of_reached hkey (hE'.mono (fun _ _ h => h.1) rfl) hreached with ⟨hr, t, ht⟩
  exact dropsNothing_of_candidates ht hr hfits hv.2

/-- When ids suffice throughout and all products fit `u32`, no exploration drops a successor. -/
theorem explored_of_idsSuffice (hkey : Function.Injective A.key)
    (hfits : D.prefixes.ncard * (sourceOf A D q k).maxAutomatonStates ≤ u32Count)
    (h : ∀ log r, (sourceOf A D q k).source.ExploresFrom start (initial A D q k) log r →
      IdsSuffice (sourceOf A D q k) log r)
    (hE : (sourceOf A D q k).source.ExploresFrom start (initial A D q k) log r) : Explored A D q k log r :=
  explored_of_offersIds hkey hfits (offersIds_of_idsSuffice hkey h hE)

omit [DecidableEq κ] in
/-- There are no more reachable keys than label sequences and cursors. -/
theorem ncard_reachableKeys_le : (reachableKeys A D q k).ncard ≤ D.prefixes.ncard * (q.length + 1) := by
  have hsub : reachableKeys A D q k ⊆ (fun x : List Char × Nat =>
      ⟨x.2, ((run A q k x.1).map A.key).getD (A.key (A.initial k))⟩) '' D.prefixes ×ˢ {c | c ≤ q.length} := by
    intro key hmem
    rcases hmem with ⟨p, hp, u, hrun, -, hc, hkey⟩
    refine ⟨(p, key.queryPos), ⟨hp, hc⟩, ?_⟩
    simp only [hrun, Option.map_some, Option.getD_some, ← hkey]
  have hcursors : {c | c ≤ q.length}.ncard = q.length + 1 := by
    rw [show {c | c ≤ q.length} = (Finset.range (q.length + 1) : Set Nat) by ext c; simp,
      Set.ncard_coe_finset, Finset.card_range]
  have hfinite := D.finite.prod (Set.finite_le_nat q.length)
  refine (Set.ncard_le_ncard hsub (hfinite.image _)).trans ((Set.ncard_image_le hfinite).trans ?_)
  rw [Set.ncard_prod, hcursors]

/-- A complete exploration that drops nothing interns every reachable key. -/
theorem keys_of_complete (hkey : Function.Injective A.key) (hE : Explored A D q k log r) (hc : Complete log start) :
    reachableKeys A D q k ⊆ r.2.keys := by
  intro key hmem
  rcases hmem with ⟨p, hp, u, hrun, hl, hle, hstate⟩
  have hr := (exact_denoted hkey).inv_explores (hE.denoted hkey).explores wellFormed_initial
  have hspell := path_spell (A := A) (q := q) (k := k) hp (by rw [hrun]; rfl)
  have hpath := hspell.append (path_skip A D.toDictionary k hl hle)
  rcases (exact_denoted hkey).path (hE.denoted hkey).explores wellFormed_initial hc denotes_start hpath with
    ⟨s, ⟨-, -, -, id, aid, u', -, -, hrun', hv⟩, -⟩
  cases hrun.symm.trans hrun'
  -- The state reached is stored under its own key, which is the given one.
  rcases Interner.exists_id? (Interner.lt_of_value? hv) with ⟨key', hid⟩
  rcases hr.states hid with ⟨v, hv', hkey'⟩
  cases hv.symm.trans hv'
  have : key' = key := by
    rw [hkey']
    cases key
    simp only [stateKey]
    exact congrArg _ hstate.symm
  exact this ▸ ⟨aid, hid⟩

end Duallity.UniversalLevenshteinStateSource
