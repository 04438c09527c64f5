import Duallity.Lib.ArcPath
import Duallity.Phonetic.Registration

/-! The language of the WFST of a phonetic NFA. A state stands for a state set, and what is accepted is what the NFA accepts. -/

namespace Duallity.PhoneticNfaWfst
open LazySource
variable {W : PhoneticNfaWfst} {r r' : NfaStateRegistry} {v : RegisteredNfaState} {state : Nat} {S S' : Set Nat}
  {log : List (Nat × Expansion Nat Char Char ℚ)}

/-! ### Keys -/

theorem stateSetToKey_injective {L L' : List Nat} (h : L.Nodup) (h' : L'.Nodup) (heq : {q | q ∈ L} = {q | q ∈ L'}) :
    stateSetToKey L = stateSetToKey L' := by
  have hmem : ∀ q, q ∈ L ↔ q ∈ L' := fun q => Set.ext_iff.mp heq q
  have hperm : (stateSetToKey L).Perm (stateSetToKey L') := by
    refine (List.perm_insertionSort _ _).trans (.trans ?_ (List.perm_insertionSort _ _).symm)
    exact (List.perm_ext_iff_of_nodup h h').mpr hmem
  exact hperm.eq_of_pairwise' (List.pairwise_insertionSort _ _) (List.pairwise_insertionSort _ _)

theorem reachable_subset (h : W.Reachable S) : S ⊆ {q | q < W.nfa.numStates ∨ q = W.nfa.start} := by
  have htarget : ∀ {R : Nat → Nat → Prop}, (∀ p q, R p q → q < W.nfa.numStates) → ∀ {p q}, Relation.ReflTransGen R p q →
      q = p ∨ q < W.nfa.numStates := by
    intro R hR p q h
    rcases Relation.ReflTransGen.cases_tail h with heq | ⟨_, _, hstep⟩
    · exact .inl heq
    · exact .inr (hR _ _ hstep)
  have hlt : ∀ {p t}, t ∈ W.nfa.transitionsFrom p → t.target < W.nfa.numStates := fun ht => (W.nfa.transition_lt _ _ ht).2
  cases h with
  | initial =>
    intro q hq
    refine (htarget ?_ hq).symm
    rintro p q (⟨t, ht, -, rfl⟩ | ⟨t, ht, -, rfl⟩)
    · exact hlt ht
    · exact hlt ht
  | next _ _ _ =>
    rintro q ⟨p, -, p', ⟨t, ht, -, rfl⟩, hreach⟩
    refine .inl ?_
    rcases htarget (R := W.nfa.automaton.eps) (fun p q ⟨t, ht, _, h⟩ => h ▸ hlt ht) hreach with rfl | hq
    · exact hlt ht
    · exact hq

/-- There are finitely many state sets. -/
theorem finite_reachable : {S | W.Reachable S}.Finite := by
  have hfinite : {q | q < W.nfa.numStates ∨ q = W.nfa.start}.Finite :=
    (Set.finite_lt_nat _).union (Set.finite_singleton _)
  exact hfinite.finite_subsets.subset fun S h => reachable_subset h

/-- The keys of the reachable state sets. -/
def keys (W : PhoneticNfaWfst) : Set (List Nat) := {key | ∃ L : List Nat, L.Nodup ∧ stateSetToKey L = key ∧ W.Reachable {q | q ∈ L}}

theorem keys_card : W.keys.Finite ∧ W.keys.ncard ≤ {S | W.Reachable S}.ncard := by
  have hset : ∀ L : List Nat, {q | q ∈ stateSetToKey L} = {q | q ∈ L} := fun L => Set.ext fun q => mem_stateSetToKey
  have himage : (fun key : List Nat => {q | q ∈ key}) '' W.keys ⊆ {S | W.Reachable S} := by
    rintro _ ⟨_, ⟨L, -, rfl, hL⟩, rfl⟩
    show W.Reachable {q | q ∈ stateSetToKey L}
    rw [hset]
    exact hL
  have hinj : Set.InjOn (fun key : List Nat => {q | q ∈ key}) W.keys := by
    rintro _ ⟨L, hL, rfl, -⟩ _ ⟨L', hL', rfl, -⟩ heq
    exact stateSetToKey_injective hL hL' ((hset L).symm.trans (heq.trans (hset L')))
  refine ⟨Set.Finite.of_finite_image (finite_reachable.subset himage) hinj, ?_⟩
  rw [← hinj.ncard_image]
  exact Set.ncard_le_ncard himage finite_reachable

theorem WellFormed.keys_subset (hr : WellFormed W r) : r.keys ⊆ W.keys := by
  rintro key ⟨i, hi⟩
  obtain ⟨v, hv, hkey⟩ := hr.value_of_id hi
  exact ⟨v.stateSet, hr.nodup hv, hkey, hr.reachable hv⟩

/-! ### Expansions -/

/-- The arcs to the targets that have an id. -/
def arcsOf (W : PhoneticNfaWfst) (r : NfaStateRegistry) (state : Nat) (v : RegisteredNfaState) : List (Arc Nat Char Char ℚ) :=
  (W.pendingTargets v.stateSet).filterMap fun t => (r.id? t.2.2).map fun target => ⟨state, some t.1, some t.1, target, W.phoneticWeight⟩

theorem WellFormed.sets (hr : WellFormed W r) (hv : r.value? state = some v) :
    ∀ t ∈ W.pendingTargets v.stateSet, Sets W (t.2.1, t.2.2, W.nfa.canReachFinalThroughEndAnchors t.2.1) := by
  rintro ⟨c, next, key⟩ ht
  obtain ⟨hnodup, hkey, hset, hne⟩ := mem_pendingTargets ht
  obtain ⟨q, hq⟩ := List.exists_mem_of_ne_nil _ hne
  refine ⟨hnodup, hkey, rfl, ?_⟩
  show W.Reachable {q | q ∈ next}
  have hmem : q ∈ {q | q ∈ next} := hq
  rw [hset] at hmem ⊢
  exact .next (hr.reachable hv) (candidate_of_mem_pendingTargets ht) ⟨q, hmem⟩

theorem expand_of_some (hv : r.value? state = some v) :
    W.source.expand r state = ((W.computeNfaTransitions r state v).1, some (W.computeNfaTransitions r state v).2) := by
  simp only [source, hv]

theorem expand_of_none (hv : r.value? state = none) : W.source.expand r state = (r, none) := by simp only [source, hv]

/-- An expansion registers the targets and has an arc to each one with an id. -/
theorem expand_spec (hr : WellFormed W r) (hv : r.value? state = some v) : ∃ r', W.source.expand r state =
      (r', some ⟨W.arcsOf r' state v, if v.isFinal then some 0 else none⟩) ∧ WellFormed W r' ∧ r ≤ r' ∧
    ∀ t ∈ W.pendingTargets v.stateSet, r'.candidate u32Count t.2.2 = r'.id? t.2.2 := by
  obtain ⟨hr', hle, hresolved, hcandidates⟩ := resolve_spec hr (W.pendingTargets v.stateSet) (hr.sets hv)
  refine ⟨(W.resolveTransitionTargets r (W.pendingTargets v.stateSet)).1, ?_, hr', hle, hcandidates⟩
  rw [expand_of_some hv, computeNfaTransitions]
  dsimp only
  rw [hresolved, List.filterMap_map]
  rfl

theorem value?_of_expand {e : Expansion Nat Char Char ℚ} (h : W.source.expand r state = (r', some e)) :
    ∃ v, r.value? state = some v := by
  cases hv : r.value? state with
  | some v => exact ⟨v, rfl⟩
  | none => cases (expand_of_none hv).symm.trans h

theorem expand_eq (hr : WellFormed W r) (hv : r.value? state = some v) {e : Expansion Nat Char Char ℚ}
    (h : W.source.expand r state = (r', some e)) : WellFormed W r' ∧ r ≤ r' ∧ e.arcs = W.arcsOf r' state v ∧
      (e.final? = if v.isFinal then some 0 else none) ∧
      ∀ t ∈ W.pendingTargets v.stateSet, r'.candidate u32Count t.2.2 = r'.id? t.2.2 := by
  obtain ⟨r'', hexpand, hr'', hle, hcandidates⟩ := expand_spec hr hv
  cases hexpand.symm.trans h
  exact ⟨hr'', hle, rfl, rfl, hcandidates⟩

theorem mem_arcsOf {arc : Arc Nat Char Char ℚ} (h : arc ∈ W.arcsOf r state v) : ∃ c next key target,
    (c, next, key) ∈ W.pendingTargets v.stateSet ∧ r.id? key = some target ∧ arc = ⟨state, some c, some c, target, W.phoneticWeight⟩ := by
  obtain ⟨⟨c, next, key⟩, ht, harc⟩ := List.mem_filterMap.mp h
  obtain ⟨target, htarget, rfl⟩ := Option.map_eq_some_iff.mp harc
  exact ⟨c, next, key, target, ht, htarget, rfl⟩

/-- The arcs of an expansion read distinct characters. -/
theorem nodup_arcsOf : ((W.arcsOf r state v).map Arc.input).Nodup := by
  refine List.Nodup.sublist ?_ ((@nodup_pendingTargets W v.stateSet).map (Option.some_injective _))
  unfold arcsOf
  generalize W.pendingTargets v.stateSet = pending
  induction pending with
  | nil => exact List.Sublist.refl _
  | cons t pending ih =>
    rw [List.filterMap_cons]
    split
    · exact ih.cons _
    · rename_i arc harc
      obtain ⟨target, -, rfl⟩ := Option.map_eq_some_iff.mp harc
      exact ih.cons_cons _

/-! ### Denotations -/

/-- The state stands for its state set. -/
def Denotes (r : NfaStateRegistry) (state : Nat) (S : Set Nat) : Prop := ∃ v, r.value? state = some v ∧ {q | q ∈ v.stateSet} = S

/-- The transducer over state sets: a character leads to the states behind it. -/
def machine (W : PhoneticNfaWfst) : Transducer (Set Nat) Char Char ℚ where
  step S a b w S' := ∃ c, a = some c ∧ b = some c ∧ w = W.phoneticWeight ∧ S' = W.nfa.automaton.next S c
  final S f := W.nfa.automaton.Accepting S ∧ f = 0

theorem WellFormed.denotes_target (hr : WellFormed W r) {c : Char} {next key : List Nat} {target : Nat}
    (ht : (c, next, key) ∈ W.pendingTargets v.stateSet) (hid : r.id? key = some target) :
    Denotes r target (W.nfa.automaton.next {q | q ∈ v.stateSet} c) := by
  obtain ⟨hnodup, hkey, hset, -⟩ := mem_pendingTargets ht
  obtain ⟨v', hv', heq⟩ := hr.value_of_id hid
  refine ⟨v', hv', ?_⟩
  rw [← hset]
  ext q
  show q ∈ v'.stateSet ↔ q ∈ next
  rw [← mem_stateSetToKey, heq, hkey, mem_stateSetToKey]

theorem WellFormed.expand (hr : WellFormed W r) {o : Option (Expansion Nat Char Char ℚ)} (h : W.source.expand r state = (r', o)) :
    WellFormed W r' ∧ r ≤ r' := by
  cases hv : r.value? state with
  | some v =>
    obtain ⟨r'', hexpand, hr'', hle, -⟩ := expand_spec hr hv
    cases hexpand.symm.trans h
    exact ⟨hr'', hle⟩
  | none =>
    cases (expand_of_none hv).symm.trans h
    exact ⟨hr, le_rfl⟩

theorem Denotes.mono (h : Denotes r state S) (hle : r ≤ r') : Denotes r' state S := by
  obtain ⟨v, hv, hset⟩ := h
  exact ⟨v, Interner.le_value? hle hv, hset⟩

theorem sound : Sound W.source (machine W) (WellFormed W) Denotes where
  inv_expand hr h := (hr.expand h).1
  den_expand hr h hS := hS.mono (hr.expand h).2
  den_unique := by
    rintro r s S S' - ⟨v, hv, hset⟩ ⟨v', hv', hset'⟩
    cases hv.symm.trans hv'
    exact hset.symm.trans hset'
  den_of_valid := by
    intro r s _ hs
    obtain ⟨v, hv⟩ := Option.isSome_iff_exists.mp hs
    exact ⟨_, v, hv, rfl⟩
  arcs := by
    rintro r s _ r' e hr ⟨v, hv, rfl⟩ h arc harc
    obtain ⟨hr', -, harcs, -, -⟩ := expand_eq hr hv h
    rw [harcs] at harc
    obtain ⟨c, next, key, target, ht, hid, rfl⟩ := mem_arcsOf harc
    exact ⟨_, hr'.denotes_target ht hid, c, rfl, rfl, rfl, rfl⟩
  final := by
    rintro r s _ r' e f hr ⟨v, hv, rfl⟩ h hf
    obtain ⟨-, -, -, hfinal, -⟩ := expand_eq hr hv h
    rw [hfinal, hr.isFinal hv] at hf
    obtain ⟨haccepting, hf⟩ := Option.ite_none_right_eq_some.mp hf
    cases hf
    exact ⟨NFAChar.canReachFinal_iff.mp haccepting, rfl⟩

theorem wellFormed_initial : WellFormed W W.initial ∧ Denotes W.initial 0 W.nfa.automaton.initial := by
  have hinitial : W.initial = Interner.push .empty (stateSetToKey W.nfa.startAnchorClosure)
      ⟨W.nfa.startAnchorClosure, W.nfa.canReachFinalThroughEndAnchors W.nfa.startAnchorClosure⟩ Interner.id?_empty := by
    rw [initial, NfaStateRegistry.new, Interner.register_of_none Interner.id?_empty]
    rfl
  have hset : {q | q ∈ W.nfa.startAnchorClosure} = W.nfa.automaton.initial := Set.ext fun q => NFAChar.mem_startAnchorClosure
  have hzero : W.initial.value? 0 = some
      ⟨W.nfa.startAnchorClosure, W.nfa.canReachFinalThroughEndAnchors W.nfa.startAnchorClosure⟩ := by
    rw [hinitial]
    exact Interner.value?_push_self
  have honly : ∀ {i v}, W.initial.value? i = some v → i = 0 ∧
      v = ⟨W.nfa.startAnchorClosure, W.nfa.canReachFinalThroughEndAnchors W.nfa.startAnchorClosure⟩ := by
    intro i v hv
    have hlt := Interner.lt_of_value? hv
    rw [hinitial, Interner.size_push, Interner.size_empty] at hlt
    cases Nat.lt_one_iff.mp hlt
    cases hzero.symm.trans hv
    exact ⟨rfl, rfl⟩
  refine ⟨⟨?_, ⟨_, hzero, hset⟩, ?_, ?_, ?_, ?_⟩, _, hzero, hset⟩
  · rw [hinitial, Interner.size_push, Interner.size_empty]
    decide
  · intro i v hv
    obtain ⟨rfl, rfl⟩ := honly hv
    exact NFAChar.nodup_startAnchorClosure
  · intro i v hv
    obtain ⟨rfl, rfl⟩ := honly hv
    rw [hinitial]
    exact Interner.id?_push_self _
  · intro i v hv
    obtain ⟨rfl, rfl⟩ := honly hv
    rfl
  · intro i v hv
    obtain ⟨rfl, rfl⟩ := honly hv
    exact hset ▸ .initial

/-! ### Paths -/

/-- A path of the machine writes what it reads and costs the same for each character. -/
theorem machine_path {x y : List Char} {w : ℚ} (h : (machine W).Path S x y w S') :
    y = x ∧ w = x.length * W.phoneticWeight ∧ S' = x.foldl W.nfa.automaton.next S := by
  induction h with
  | nil => simp
  | cons hstep _ ih =>
    obtain ⟨c, rfl, rfl, rfl, rfl⟩ := hstep
    obtain ⟨rfl, rfl, rfl⟩ := ih
    refine ⟨rfl, ?_, rfl⟩
    simp only [Option.toList_some, List.singleton_append, List.length_cons]
    rw [Nat.cast_succ, add_mul, one_mul, add_comm]

theorem WellFormed.explores (hE : W.source.Explores r log r')
    (hr : WellFormed W r) : WellFormed W r' ∧ r ≤ r' := by
  induction hE with
  | nil => exact ⟨hr, le_rfl⟩
  | expanded _ _ hexpand ih =>
    obtain ⟨hr', hle⟩ := ih.1.expand hexpand
    exact ⟨hr', ih.2.trans hle⟩
  | failed _ hexpand ih =>
    obtain ⟨hr', hle⟩ := ih.1.expand hexpand
    exact ⟨hr', ih.2.trans hle⟩

section Explorations
variable (hE : W.source.Explores W.initial log r)
include hE

/-- A logged expansion has the arcs of its state in a registry of before. -/
theorem logged_arcs {e : Expansion Nat Char Char ℚ} (he : (state, e) ∈ log) : ∃ r₁ v, WellFormed W r₁ ∧ r₁ ≤ r ∧
    r₁.value? state = some v ∧ e.arcs = W.arcsOf r₁ state v ∧ (e.final? = if v.isFinal then some 0 else none) ∧
    ∀ t ∈ W.pendingTargets v.stateSet, r₁.candidate u32Count t.2.2 = r₁.id? t.2.2 := by
  obtain ⟨log₁, r₁, r₂, log₂, hE₁, -, hexpand, hE₂⟩ := hE.of_mem he
  have hr₁ := (wellFormed_initial.1.explores hE₁).1
  obtain ⟨v, hv⟩ := value?_of_expand hexpand
  obtain ⟨hr₂, hle, harcs, hfinal, hcandidates⟩ := expand_eq hr₁ hv hexpand
  exact ⟨r₂, v, hr₂, (hr₂.explores hE₂).2, Interner.le_value? hle hv, harcs, hfinal, hcandidates⟩

/-- An arc is told by its state and its character. -/
theorem logged_unique {e e' : Expansion Nat Char Char ℚ} (he : (state, e) ∈ log) (he' : (state, e') ∈ log) :
    ∀ arc ∈ e.arcs, ∀ arc' ∈ e'.arcs, arc.input = arc'.input → arc = arc' := by
  intro arc harc arc' harc' hinput
  obtain ⟨r₁, v, -, hle, hv, harcs, -⟩ := logged_arcs hE he
  obtain ⟨r₁', v', -, hle', hv', harcs', -⟩ := logged_arcs hE he'
  cases (Interner.le_value? hle hv).symm.trans (Interner.le_value? hle' hv')
  obtain ⟨c, next, key, target, ht, hid, rfl⟩ := mem_arcsOf (harcs ▸ harc)
  obtain ⟨c', next', key', target', ht', hid', rfl⟩ := mem_arcsOf (harcs' ▸ harc')
  cases hinput
  cases List.inj_on_of_nodup_map nodup_pendingTargets ht ht' rfl
  cases (Interner.le_id? hle hid).symm.trans (Interner.le_id? hle' hid')
  rfl

/-- A complete exploration follows each string of the alphabet as long as states are left. -/
theorem path_of_reach (hcard : {S | W.Reachable S}.ncard ≤ u32Count) (hc : Complete log start) (x : List Char)
    (hx : ∀ c ∈ x, c ∈ W.alphabet) (hne : (W.nfa.automaton.reach x).Nonempty) :
    ∃ t w, Denotes r t (W.nfa.automaton.reach x) ∧ (graph log).Path start x x w t := by
  induction x using List.reverseRecOn with
  | nil => exact ⟨_, _, wellFormed_initial.2.mono (wellFormed_initial.1.explores hE).2, .nil _⟩
  | append_singleton x c ih =>
    have hreach : W.nfa.automaton.reach (x ++ [c]) = W.nfa.automaton.next (W.nfa.automaton.reach x) c := by
      rw [AnchoredAutomaton.reach, List.foldl_append]
      rfl
    rw [hreach] at hne ⊢
    obtain ⟨q, hq⟩ := hne
    obtain ⟨t, w, hden, hpath⟩ := ih (fun d hd => hx d (List.mem_append_left _ hd)) ⟨_, hq.choose_spec.1⟩
    obtain ⟨e, he⟩ := hc _ _ _ _ hpath
    obtain ⟨r₁, v, hr₁, hle, hv, harcs, -, hcandidates⟩ := logged_arcs hE he
    obtain ⟨v', hv', hset⟩ := hden
    cases (Interner.le_value? hle hv).symm.trans hv'
    rw [← hset] at hq ⊢
    -- The target has a key of a reachable state set, so it has been given an id.
    obtain ⟨next, key, ht⟩ := exists_pendingTarget (hx c (List.mem_append_right _ List.mem_cons_self)) hq
    have hsets := hr₁.sets hv _ ht
    obtain ⟨target, -, htarget⟩ := Interner.exists_candidate_lt keys_card.1 hr₁.keys_subset ⟨next, hsets.nodup, hsets.key.symm, hsets.reachable⟩
      (keys_card.2.trans hcard)
    have hid := (hcandidates _ ht).symm.trans htarget
    have harc : ⟨t, some c, some c, target, W.phoneticWeight⟩ ∈ W.arcsOf r₁ t v := by
      refine List.mem_filterMap.mpr ⟨_, ht, ?_⟩
      rw [hid]
      rfl
    have hstep : (graph log).step t (some c) (some c) W.phoneticWeight target := ⟨e, he, _, harcs ▸ harc, rfl, rfl, rfl, rfl⟩
    exact ⟨target, _, (hr₁.denotes_target ht hid).mono hle, hpath.snoc hstep⟩

end Explorations

end Duallity.PhoneticNfaWfst
