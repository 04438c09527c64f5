import Duallity.CachedSource
import Duallity.Phonetic.NfaLanguage

/-! Clones of the WFST of a phonetic NFA (`phonetic_nfa_wfst.rs`). They share the registry of state sets, and each has a cache of its
    own. An expansion takes the lock of the registry several times, and the clones take turns in whatever order. -/

namespace Duallity.PhoneticNfaWfst
open LazySource

/-- How far `ensure_state` has come; each phase ends with a lock. The last one keeps the targets as they were resolved, and which of
    them are missing. -/
inductive Phase
  | idle
  | checked (state : UInt32)
  | found (state : UInt32) (registered : RegisteredNfaState)
  | resolved (state : UInt32) (registered : RegisteredNfaState) (targets : List (Char × Option Nat)) (missing : List MissingTarget)

def Phase.isIdle : Phase → Bool
  | .idle => true
  | _ => false

def Phase.state? : Phase → Option UInt32
  | .idle => none
  | .checked state => some state
  | .found state _ => some state
  | .resolved state _ _ _ => some state

/-- The locks that are left to take. -/
def Phase.locks : Phase → Nat
  | .idle => 0
  | .checked _ => 3
  | .found _ _ => 2
  | .resolved _ _ _ _ => 1

/-- The registry that the clones `ι` share, their caches, what each of them is doing, and what their expansions have returned so far,
    each with its state, the latest first. -/
structure NfaClones (ι : Type) where
  registry : NfaStateRegistry
  caches : ι → LazyStateCache (Expansion Nat Char Char ℚ)
  phases : ι → Phase
  returned : List (Nat × Expansion Nat Char Char ℚ)

/-- A call on a clone, or the next lock of the call that it is in. -/
inductive NfaAction (ι : Type)
  | call (c : CloneCall ι Unit)
  | lock

/-- What `compute_nfa_transitions` returns once the targets are resolved. -/
def expansionOf (W : PhoneticNfaWfst) (state : Nat) (registered : RegisteredNfaState) (targets : List (Char × Option Nat)) :
    Expansion Nat Char Char ℚ where
  arcs := targets.filterMap fun (c, target?) => target?.map fun target => ⟨state, some c, some c, target, W.phoneticWeight⟩
  final? := if registered.isFinal then some 0 else none

namespace NfaClones
variable {ι : Type} [DecidableEq ι] (W : PhoneticNfaWfst) (self : NfaClones ι) (clone : ι)

def new (maxLruStates : Nat) : NfaClones ι := ⟨W.initial, fun _ => .new maxLruStates, fun _ => .idle, []⟩

def enter (phase : Phase) : NfaClones ι := { self with phases := Function.update self.phases clone phase }

def withCache (cache : LazyStateCache (Expansion Nat Char Char ℚ)) : NfaClones ι :=
  { self with caches := Function.update self.caches clone cache }

/-- `cache_char_state_expansion`, with which the call returns. -/
def finish (state : Nat) (e : Expansion Nat Char Char ℚ) : NfaClones ι :=
  { ((self.withCache clone ((self.caches clone).insert state e)).enter clone .idle) with returned := (state, e) :: self.returned }

/-- The first lock checks that the state is registered. A state that is cached, or not registered, needs no other. -/
def ensureState (state : UInt32) : NfaClones ι :=
  let (cache, cached) := (self.caches clone).touchIfCached state.toNat
  let self := self.withCache clone cache
  if !cached && decide (state.toNat < self.registry.size) then self.enter clone (.checked state) else self

def call : CloneCall ι Unit → NfaClones ι
  | .expand _ state => self.ensureState clone state
  | .transitionsLazy _ state => self.ensureState clone state
  | .clearCache => self.withCache clone (self.caches clone).clear
  | .setCachePolicy policy => self.withCache clone ((self.caches clone).setPolicy policy)
  | .setMaxCacheSize size => self.withCache clone ((self.caches clone).setMaxLruStates size)
  | .cloneOf original => if (self.phases original).isIdle then self.withCache clone (self.caches original) else self

/-- What is done under the next lock: the state is looked up, the ids of its targets are read, and the missing ones are registered. -/
def lock : NfaClones ι :=
  match self.phases clone with
  | .idle => self
  | .checked state =>
    match self.registry.value? state.toNat with
    | none => self.finish clone state.toNat ⟨[], none⟩
    | some registered => self.enter clone (.found state registered)
  | .found state registered =>
    let pending := W.pendingTargets registered.stateSet
    let targets := pending.map fun (c, _, key) => (c, self.registry.id? key)
    let missing := missingTargets self.registry pending
    if missing.isEmpty then self.finish clone state.toNat (W.expansionOf state.toNat registered targets)
    else self.enter clone (.resolved state registered targets missing)
  | .resolved state registered targets missing =>
    let m := missing.foldl W.addMissing ⟨[], [], []⟩
    let (registry, ids) := registerTargets m.targets self.registry
    { self with registry := registry }.finish clone state.toNat (W.expansionOf state.toNat registered (fillTargets ids targets m.uses))

/-- A clone that is in a call is called again when that one has returned. -/
def step : NfaAction ι → NfaClones ι
  | .call c => if (self.phases clone).isIdle then self.call clone c else self
  | .lock => self.lock W clone

def run (actions : List (ι × NfaAction ι)) : NfaClones ι := actions.foldl (fun self a => self.step W a.1 a.2) self

def isFinal (state : UInt32) : Bool :=
  (((self.caches clone).get state.toNat).map fun e => e.final?.isSome).getD
    ((self.registry.value? state.toNat).any RegisteredNfaState.isFinal)

/-- No weight is `TropicalWeight::zero`. -/
def finalWeight (state : UInt32) : Option ℚ :=
  (((self.caches clone).get state.toNat).map Expansion.final?).getD
    ((self.registry.value? state.toNat).bind fun registered => if registered.isFinal then some 0 else none)

end NfaClones

/-! ### Registrations amid others -/

section Registrations
variable {W : PhoneticNfaWfst} {r r₀ r₁ : NfaStateRegistry} {v : RegisteredNfaState} {state : Nat}
  {pending : List (Char × List Nat × List Nat)} {missing : List MissingTarget}

/-- The missing targets registered one by one. -/
def registerMissing (W : PhoneticNfaWfst) (r : NfaStateRegistry) (missing : List MissingTarget) : NfaStateRegistry :=
  missing.foldl (fun r u => (r.getOrCreateWithKey u.stateSet u.key (W.nfa.canReachFinalThroughEndAnchors u.stateSet)).1) r

theorem registerMissing_concat {u : MissingTarget} : W.registerMissing r (missing ++ [u]) =
    ((W.registerMissing r missing).getOrCreateWithKey u.stateSet u.key (W.nfa.canReachFinalThroughEndAnchors u.stateSet)).1 :=
  List.foldl_concat ..

theorem registerTargets_append (targets targets' : List (List Nat × List Nat × Bool)) :
    (registerTargets (targets ++ targets') r).1 = (registerTargets targets' (registerTargets targets r).1).1 := by
  induction targets generalizing r with
  | nil => rfl
  | cons t targets ih => exact ih

/-- A key with an id, or without one in a full registry, is not registered again. -/
theorem getOrCreateWithKey_of_candidate {stateSet key : List Nat} {isFinal : Bool} (h : r.candidate u32Count key = r.id? key) :
    (r.getOrCreateWithKey stateSet key isFinal).1 = r := by
  unfold NfaStateRegistry.getOrCreateWithKey
  rcases Interner.register_cases u32Count r key ⟨stateSet, isFinal⟩ with hregister | ⟨hk, hlt, -⟩
  · exact hregister
  · rw [Interner.candidate_of_none hk, hk, Interner.nextId, if_pos hlt] at h
    cases h

/-- It does not matter that a target is registered once only. -/
theorem registerTargets_gathered (hr : WellFormed W r)
    (hmissing : ∀ u ∈ missing, Sets W (u.stateSet, u.key, W.nfa.canReachFinalThroughEndAnchors u.stateSet)) :
    (registerTargets (missing.foldl W.addMissing ⟨[], [], []⟩).targets r).1 = W.registerMissing r missing := by
  induction missing using List.reverseRecOn with
  | nil => rfl
  | append_singleton missing u ih =>
    have hbefore : ∀ u ∈ missing, Sets W (u.stateSet, u.key, W.nfa.canReachFinalThroughEndAnchors u.stateSet) := fun u hu =>
      hmissing u (List.mem_append_left _ hu)
    have hgathers := gathers_foldl (W := W) missing
    rw [registerMissing_concat, ← ih hbefore, List.foldl_concat]
    generalize missing.foldl W.addMissing ⟨[], [], []⟩ = m at hgathers
    unfold PhoneticNfaWfst.addMissing
    split
    · rename_i j hj
      obtain ⟨S, b, htarget⟩ := hgathers.lookup _ _ hj
      have htargets : ∀ t ∈ m.targets, Sets W t := by
        intro t ht
        obtain ⟨u', hu', rfl⟩ := hgathers.target t ht
        exact hbefore u' hu'
      obtain ⟨-, -, -, hcandidates⟩ := registerTargets_spec hr m.targets htargets
      exact (getOrCreateWithKey_of_candidate (hcandidates _ (List.mem_of_getElem? htarget))).symm
    · exact registerTargets_append _ _

/-- What has an id already need not be registered. -/
theorem registerMissing_filter (hle : r ≤ r₁) :
    W.registerMissing r₁ (missing.filter fun u => (r.id? u.key).isNone) = W.registerMissing r₁ missing := by
  induction missing generalizing r₁ with
  | nil => rfl
  | cons u missing ih =>
    rw [List.filter_cons]
    split
    · exact ih (hle.trans Interner.le_register)
    · rename_i hsome
      obtain ⟨i, hi⟩ := Option.ne_none_iff_exists'.mp fun h => hsome (Option.isNone_iff_eq_none.mpr h)
      have hi' := Interner.le_id? hle hi
      have hhead : (r₁.getOrCreateWithKey u.stateSet u.key (W.nfa.canReachFinalThroughEndAnchors u.stateSet)).1 = r₁ :=
        getOrCreateWithKey_of_candidate ((Interner.candidate_of_some hi').trans hi'.symm)
      rw [ih hle, registerMissing, registerMissing, List.foldl_cons, hhead]

/-- What others have registered is not missing any more. -/
theorem missingTargets_of_le (hle : r₀ ≤ r) :
    missingTargets r pending = (missingTargets r₀ pending).filter fun u => (r.id? u.key).isNone := by
  unfold missingTargets
  rw [List.filter_filterMap]
  refine List.filterMap_congr fun t _ => ?_
  obtain ⟨⟨c, stateSet, key⟩, index⟩ := t
  dsimp only
  cases h₀ : r₀.id? key with
  | some i => simp [Interner.le_id? hle h₀]
  | none => cases h : r.id? key <;> simp [Option.filter, h]

theorem resolveTransitionTargets_fst (hr : WellFormed W r)
    (hp : ∀ t ∈ pending, Sets W (t.2.1, t.2.2, W.nfa.canReachFinalThroughEndAnchors t.2.1)) :
    (W.resolveTransitionTargets r pending).1 = W.registerMissing r (missingTargets r pending) := by
  unfold resolveTransitionTargets
  dsimp only
  split
  · rename_i hempty
    rw [List.isEmpty_iff.mp hempty]
    rfl
  · refine registerTargets_gathered hr fun u hu => ?_
    obtain ⟨c, hget, -⟩ := (mem_missingTargets u).mp hu
    exact hp _ (List.mem_of_getElem? hget)

/-- When all targets had an id, the expansion could have been done then. -/
theorem expand_of_found (hv : r.value? state = some v) (hempty : (missingTargets r (W.pendingTargets v.stateSet)).isEmpty = true) :
    W.source.expand r state =
      (r, some (W.expansionOf state v ((W.pendingTargets v.stateSet).map fun t => (t.1, r.id? t.2.2)))) := by
  have hresolve : W.resolveTransitionTargets r (W.pendingTargets v.stateSet) =
      (r, (W.pendingTargets v.stateSet).map fun t => (t.1, r.id? t.2.2)) := if_pos hempty
  rw [expand_of_some hv, computeNfaTransitions, hresolve]
  rfl

/-- Otherwise it could have been done when the missing ones were registered, whatever others had registered since they were read. -/
theorem expand_of_resolved (hr : WellFormed W r) (hv : r.value? state = some v) (hle : r₀ ≤ r) {m : UniqueMissing}
    (hm : m = (missingTargets r₀ (W.pendingTargets v.stateSet)).foldl W.addMissing ⟨[], [], []⟩) :
    W.source.expand r state = ((registerTargets m.targets r).1, some (W.expansionOf state v (fillTargets
      (registerTargets m.targets r).2 ((W.pendingTargets v.stateSet).map fun t => (t.1, r₀.id? t.2.2)) m.uses))) := by
  have hp := hr.sets hv
  have hmissing : ∀ u ∈ missingTargets r₀ (W.pendingTargets v.stateSet),
      Sets W (u.stateSet, u.key, W.nfa.canReachFinalThroughEndAnchors u.stateSet) := by
    intro u hu
    obtain ⟨c, hget, -⟩ := (mem_missingTargets u).mp hu
    exact hp _ (List.mem_of_getElem? hget)
  have hregistry : (W.resolveTransitionTargets r (W.pendingTargets v.stateSet)).1 = (registerTargets m.targets r).1 := by
    rw [resolveTransitionTargets_fst hr hp, missingTargets_of_le hle, registerMissing_filter le_rfl, hm,
      registerTargets_gathered hr hmissing]
  obtain ⟨-, -, hresolved, -⟩ := resolve_spec hr (W.pendingTargets v.stateSet) hp
  obtain ⟨-, -, hfilled, -⟩ := fill_spec hle hr (W.pendingTargets v.stateSet) hp hm
  have hresolve : W.resolveTransitionTargets r (W.pendingTargets v.stateSet) = ((registerTargets m.targets r).1, fillTargets
      (registerTargets m.targets r).2 ((W.pendingTargets v.stateSet).map fun t => (t.1, r₀.id? t.2.2)) m.uses) :=
    Prod.ext hregistry (by rw [hresolved, hfilled, hregistry])
  rw [expand_of_some hv, computeNfaTransitions, hresolve]
  rfl

/-- The arcs of an expansion stay those of its state. -/
theorem WellFormed.arcsOf_of_le (hr : WellFormed W r) (hle : r₁ ≤ r)
    (hcandidates : ∀ t ∈ W.pendingTargets v.stateSet, r₁.candidate u32Count t.2.2 = r₁.id? t.2.2) :
    W.arcsOf r₁ state v = W.arcsOf r state v := by
  refine List.filterMap_congr fun t ht => ?_
  cases hid : r₁.id? t.2.2 with
  | some i => rw [Interner.le_id? hle hid]
  | none =>
    have hnone := Interner.candidate_eq_none_mono hle ((hcandidates t ht).trans hid) hr.size_le
    rw [(Option.or_eq_none_iff.mp hnone).1]

end Registrations

/-! ### Runs -/

section Runs
variable {ι : Type} {W : PhoneticNfaWfst} {r r' : NfaStateRegistry} {v : RegisteredNfaState} {σ : NfaClones ι} {clone : ι}

/-- What a clone has read holds of the registry, or held when it read the ids. -/
def Phase.Fits (W : PhoneticNfaWfst) (r : NfaStateRegistry) : Phase → Prop
  | .idle => True
  | .checked state => ∃ v, r.value? state.toNat = some v
  | .found state v => r.value? state.toNat = some v
  | .resolved state v targets missing => r.value? state.toNat = some v ∧ ∃ r₀, r₀ ≤ r ∧
      targets = (W.pendingTargets v.stateSet).map (fun t => (t.1, r₀.id? t.2.2)) ∧ missing = missingTargets r₀ (W.pendingTargets v.stateSet)

theorem Phase.Fits.mono {phase : Phase} (h : phase.Fits W r) (hle : r ≤ r') : phase.Fits W r' := by
  cases phase with
  | idle => trivial
  | checked state =>
    obtain ⟨v, hv⟩ := h
    exact ⟨v, Interner.le_value? hle hv⟩
  | found state v => exact Interner.le_value? hle h
  | resolved state v targets missing =>
    obtain ⟨hv, r₀, hle₀, htargets, hmissing⟩ := h
    exact ⟨Interner.le_value? hle hv, r₀, hle₀.trans hle, htargets, hmissing⟩

/-- What holds between the locks: one clone alone could have returned what has been returned, in the same order. -/
structure Explored (W : PhoneticNfaWfst) (σ : NfaClones ι) : Prop where
  explores : W.source.Explores W.initial σ.returned σ.registry
  cached : ∀ clone, (σ.caches clone).Holds fun state e => (state, e) ∈ σ.returned
  fits : ∀ clone, (σ.phases clone).Fits W σ.registry

theorem Explored.wellFormed (h : Explored W σ) : WellFormed W σ.registry := (wellFormed_initial.1.explores h.explores).1

theorem explored_new (W : PhoneticNfaWfst) (maxLruStates : Nat) : Explored W (.new W maxLruStates : NfaClones ι) :=
  ⟨.nil _, fun _ => LazyStateCache.holds_new, fun _ => trivial⟩

/-- All expansions of a state returned the same, and it is as final as they say. -/
theorem Explored.unique (h : Explored W σ) {state : Nat} {e e' : Expansion Nat Char Char ℚ} (he : (state, e) ∈ σ.returned)
    (he' : (state, e') ∈ σ.returned) : e = e' ∧ ∃ v, σ.registry.value? state = some v ∧ e.final? = if v.isFinal then some 0 else none := by
  obtain ⟨r₁, v, -, hle, hv, harcs, hfinal, hcandidates⟩ := logged_arcs h.explores he
  obtain ⟨r₁', v', -, hle', hv', harcs', hfinal', hcandidates'⟩ := logged_arcs h.explores he'
  obtain rfl := Option.some.inj ((Interner.le_value? hle hv).symm.trans (Interner.le_value? hle' hv'))
  rw [h.wellFormed.arcsOf_of_le hle hcandidates] at harcs
  rw [h.wellFormed.arcsOf_of_le hle' hcandidates'] at harcs'
  refine ⟨?_, v, Interner.le_value? hle hv, hfinal⟩
  cases e
  cases e'
  simp_all

variable [DecidableEq ι]

theorem Explored.enter (h : Explored W σ) {phase : Phase} (hphase : phase.Fits W σ.registry) (clone : ι) :
    Explored W (σ.enter clone phase) := by
  refine ⟨h.explores, h.cached, fun clone' => ?_⟩
  by_cases heq : clone' = clone
  · subst heq
    simpa [NfaClones.enter] using hphase
  · simpa [NfaClones.enter, Function.update_of_ne heq] using h.fits clone'

theorem Explored.withCache (h : Explored W σ) {cache : LazyStateCache (Expansion Nat Char Char ℚ)}
    (hcache : cache.Holds fun state e => (state, e) ∈ σ.returned) (clone : ι) : Explored W (σ.withCache clone cache) := by
  refine ⟨h.explores, fun clone' => ?_, h.fits⟩
  by_cases heq : clone' = clone
  · subst heq
    simpa [NfaClones.withCache] using hcache
  · simpa [NfaClones.withCache, Function.update_of_ne heq] using h.cached clone'

/-- A call returns with an expansion that could have been done under its last lock. -/
theorem Explored.finish (h : Explored W σ) {state : Nat} {e : Expansion Nat Char Char ℚ} (hv : σ.registry.value? state = some v)
    (hexpand : W.source.expand σ.registry state = (r, some e)) (clone : ι) :
    Explored W ({ σ with registry := r }.finish clone state e) := by
  have hle : σ.registry ≤ r := (h.wellFormed.expand hexpand).2
  have hvalid : W.source.valid σ.registry state := Option.isSome_iff_exists.mpr ⟨v, hv⟩
  have hcached : ∀ clone', (σ.caches clone').Holds fun state' e' => (state', e') ∈ (state, e) :: σ.returned := fun clone' =>
    (h.cached clone').imp (List.mem_cons_of_mem _)
  have hexplored : Explored W { σ with registry := r, returned := (state, e) :: σ.returned } :=
    ⟨h.explores.expanded hvalid hexpand, hcached, fun clone' => (h.fits clone').mono hle⟩
  have hidle : Phase.Fits W r .idle := trivial
  exact (hexplored.withCache ((hcached clone).insert List.mem_cons_self) clone).enter hidle clone

theorem Explored.ensureState (h : Explored W σ) (clone : ι) (state : UInt32) : Explored W (σ.ensureState clone state) := by
  have htouched : Explored W (σ.withCache clone ((σ.caches clone).touchIfCached state.toNat).1) :=
    h.withCache (h.cached clone).touchIfCached clone
  unfold NfaClones.ensureState
  dsimp only
  split
  · rename_i hcheck
    have hlt : state.toNat < σ.registry.size := of_decide_eq_true (Bool.and_eq_true_iff.mp hcheck).2
    have hchecked : Phase.Fits W σ.registry (.checked state) := Interner.exists_value? hlt
    exact htouched.enter hchecked clone
  · exact htouched

theorem Explored.call (h : Explored W σ) (clone : ι) (c : CloneCall ι Unit) : Explored W (σ.call clone c) := by
  cases c with
  | expand env state => exact h.ensureState clone state
  | transitionsLazy env state => exact h.ensureState clone state
  | clearCache => exact h.withCache LazyStateCache.holds_clear clone
  | setCachePolicy policy => exact h.withCache LazyStateCache.holds_clear clone
  | setMaxCacheSize size => exact h.withCache (h.cached clone).setMaxLruStates clone
  | cloneOf original =>
    unfold NfaClones.call
    dsimp only
    split
    · exact h.withCache (h.cached original) clone
    · exact h

/-- What is done under one lock. -/
theorem Explored.lock (h : Explored W σ) (clone : ι) : Explored W (σ.lock W clone) := by
  have hfits := h.fits clone
  unfold NfaClones.lock
  cases hphase : σ.phases clone with
  | idle => exact h
  | checked state =>
    rw [hphase] at hfits
    obtain ⟨v, hv⟩ := hfits
    simp only [hv]
    have hfound : Phase.Fits W σ.registry (.found state v) := hv
    exact h.enter hfound clone
  | found state v =>
    rw [hphase] at hfits
    dsimp only
    split
    · rename_i hempty
      exact h.finish hfits (expand_of_found hfits hempty) clone
    · have hresolved : Phase.Fits W σ.registry (.resolved state v ((W.pendingTargets v.stateSet).map fun t => (t.1, σ.registry.id? t.2.2))
          (missingTargets σ.registry (W.pendingTargets v.stateSet))) := ⟨hfits, σ.registry, le_rfl, rfl, rfl⟩
      exact h.enter hresolved clone
  | resolved state v targets missing =>
    rw [hphase] at hfits
    obtain ⟨hv, r₀, hle, rfl, rfl⟩ := hfits
    exact h.finish hv (expand_of_resolved h.wellFormed hv hle rfl) clone

theorem Explored.step (h : Explored W σ) (clone : ι) (action : NfaAction ι) : Explored W (σ.step W clone action) := by
  cases action with
  | call c =>
    unfold NfaClones.step
    dsimp only
    split
    · exact h.call clone c
    · exact h
  | lock => exact h.lock clone

theorem Explored.run (h : Explored W σ) (actions : List (ι × NfaAction ι)) : Explored W (σ.run W actions) := by
  induction actions generalizing σ with
  | nil => exact h
  | cons action actions ih => exact ih (h.step action.1 action.2)

/-! ### Progress -/

/-- The clone has at most `n` locks left to take, and then it has returned what the state expands to. -/
structure Returns (σ : NfaClones ι) (clone : ι) (state : UInt32) (n : Nat) : Prop where
  locks : (σ.phases clone).locks ≤ n
  returned : (σ.phases clone).state? = some state ∨ ∃ e, (state.toNat, e) ∈ σ.returned

theorem returns_finish {state : UInt32} {s n : Nat} {e : Expansion Nat Char Char ℚ}
    (h : s = state.toNat ∨ ∃ e, (state.toNat, e) ∈ σ.returned) : Returns (σ.finish clone s e) clone state n := by
  refine ⟨?_, Or.inr ?_⟩
  · simp [NfaClones.finish, NfaClones.enter, Phase.locks]
  · rcases h with rfl | ⟨e', he'⟩
    · exact ⟨e, List.mem_cons_self⟩
    · exact ⟨e', List.mem_cons_of_mem _ he'⟩

theorem returns_enter {state : UInt32} {phase : Phase} {n : Nat} (hlocks : phase.locks ≤ n)
    (h : phase.state? = some state ∨ ∃ e, (state.toNat, e) ∈ σ.returned) : Returns (σ.enter clone phase) clone state n := by
  refine ⟨?_, ?_⟩
  · simpa [NfaClones.enter] using hlocks
  · simpa [NfaClones.enter] using h

/-- Each lock of a call leaves one less to take. -/
theorem Returns.lock {state : UInt32} {n : Nat} (h : Returns σ clone state (n + 1)) : Returns (σ.lock W clone) clone state n := by
  obtain ⟨hlocks, hreturned⟩ := h
  unfold NfaClones.lock
  cases hphase : σ.phases clone with
  | idle =>
    rw [hphase] at hreturned
    refine ⟨?_, Or.inr (hreturned.resolve_left nofun)⟩
    rw [hphase]
    exact Nat.zero_le n
  | checked s =>
    rw [hphase] at hlocks hreturned
    dsimp only
    split
    · refine returns_finish (hreturned.imp_left fun heq => ?_)
      rw [Option.some.inj heq]
    · exact returns_enter (Nat.le_of_succ_le_succ hlocks) hreturned
  | found s v =>
    rw [hphase] at hlocks hreturned
    dsimp only
    split
    · refine returns_finish (hreturned.imp_left fun heq => ?_)
      rw [Option.some.inj heq]
    · exact returns_enter (Nat.le_of_succ_le_succ hlocks) hreturned
  | resolved s v targets missing =>
    rw [hphase] at hreturned
    refine returns_finish (hreturned.imp_left fun heq => ?_)
    rw [Option.some.inj heq]

/-- What others do neither leads a clone on nor keeps it back. -/
theorem step_of_ne {clone' : ι} (hne : clone' ≠ clone) (action : NfaAction ι) :
    (σ.step W clone' action).phases clone = σ.phases clone ∧ ∃ new, (σ.step W clone' action).returned = new ++ σ.returned := by
  have hphases : ∀ phase, Function.update σ.phases clone' phase clone = σ.phases clone := fun phase =>
    Function.update_of_ne hne.symm phase σ.phases
  cases action with
  | call c =>
    unfold NfaClones.step
    dsimp only
    split
    · cases c with
      | expand env state =>
        unfold NfaClones.call NfaClones.ensureState
        dsimp only
        split
        · exact ⟨hphases _, [], rfl⟩
        · exact ⟨rfl, [], rfl⟩
      | transitionsLazy env state =>
        unfold NfaClones.call NfaClones.ensureState
        dsimp only
        split
        · exact ⟨hphases _, [], rfl⟩
        · exact ⟨rfl, [], rfl⟩
      | clearCache => exact ⟨rfl, [], rfl⟩
      | setCachePolicy policy => exact ⟨rfl, [], rfl⟩
      | setMaxCacheSize size => exact ⟨rfl, [], rfl⟩
      | cloneOf original =>
        unfold NfaClones.call
        dsimp only
        split
        · exact ⟨rfl, [], rfl⟩
        · exact ⟨rfl, [], rfl⟩
    · exact ⟨rfl, [], rfl⟩
  | lock =>
    unfold NfaClones.step NfaClones.lock
    cases σ.phases clone' with
    | idle => exact ⟨rfl, [], rfl⟩
    | checked state =>
      dsimp only
      split
      · exact ⟨hphases _, [_], rfl⟩
      · exact ⟨hphases _, [], rfl⟩
    | found state v =>
      dsimp only
      split
      · exact ⟨hphases _, [_], rfl⟩
      · exact ⟨hphases _, [], rfl⟩
    | resolved state v targets missing => exact ⟨hphases _, [_], rfl⟩

/-- A clone returns with its third lock, whatever others do in between. -/
theorem Returns.run {state : UInt32} {n : Nat} (h : Returns σ clone state n) {actions : List (ι × NfaAction ι)}
    (hactions : ∀ a ∈ actions, a.1 = clone → a.2 = .lock) (hn : n ≤ (actions.filter fun a => a.1 = clone).length) :
    Returns (σ.run W actions) clone state 0 := by
  induction actions generalizing σ n with
  | nil => exact ⟨h.locks.trans hn, h.returned⟩
  | cons a actions ih =>
    obtain ⟨hhead, htail⟩ := List.forall_mem_cons.mp hactions
    show Returns ((σ.step W a.1 a.2).run W actions) clone state 0
    rw [List.filter_cons] at hn
    by_cases heq : a.1 = clone
    · rw [if_pos (decide_eq_true heq), List.length_cons] at hn
      rw [hhead heq, heq]
      have hlocks : Returns σ clone state (n - 1 + 1) := ⟨h.locks.trans (by omega), h.returned⟩
      exact ih hlocks.lock htail (by omega)
    · rw [if_neg (by simpa using heq)] at hn
      obtain ⟨hphase, new, hreturned⟩ := step_of_ne heq a.2 (W := W) (σ := σ)
      refine ih ⟨?_, ?_⟩ htail hn
      · rw [hphase]
        exact h.locks
      · rw [hphase, hreturned]
        refine h.returned.imp_right fun hbefore => ?_
        obtain ⟨e, he⟩ := hbefore
        exact ⟨e, List.mem_append_right new he⟩

end Runs

/-- The clones answer as one would that expands a state after the other, and none of them waits for another. -/
structure Linearizes {ι : Type} [DecidableEq ι] (W : PhoneticNfaWfst) (σ : NfaClones ι) : Prop where
  explores : W.source.Explores W.initial σ.returned σ.registry
  cached : ∀ {clone state e}, (σ.caches clone).get state = some e → (state, e) ∈ σ.returned
  unique : ∀ {state e e'}, (state, e) ∈ σ.returned → (state, e') ∈ σ.returned → e = e'
  final : ∀ {clone} {state : UInt32} {e}, (state.toNat, e) ∈ σ.returned →
    σ.isFinal clone state = e.final?.isSome ∧ σ.finalWeight clone state = e.final?
  returns : ∀ {clone state later}, (σ.phases clone).state? = some state → (∀ a ∈ later, a.1 = clone → a.2 = .lock) →
    3 ≤ (later.filter fun a => a.1 = clone).length →
      ((σ.run W later).phases clone).isIdle = true ∧ ∃ e, (state.toNat, e) ∈ (σ.run W later).returned

/-- In whatever order clones of a new WFST take their locks, their expansions are those of one exploration, with the ids that it
    gives. -/
theorem clones_linearize {ι : Type} [DecidableEq ι] (W : PhoneticNfaWfst) (maxLruStates : Nat) (actions : List (ι × NfaAction ι)) :
    Linearizes W ((NfaClones.new W maxLruStates).run W actions) := by
  have hexplored := (explored_new W maxLruStates (ι := ι)).run actions
  generalize (NfaClones.new W maxLruStates : NfaClones ι).run W actions = σ at hexplored
  have hcached : ∀ {clone state e}, (σ.caches clone).get state = some e → (state, e) ∈ σ.returned := fun {clone state e} hget =>
    (hexplored.cached clone).get hget
  refine ⟨hexplored.explores, hcached, fun he he' => (hexplored.unique he he').1, ?_, ?_⟩
  · intro clone state e he
    obtain ⟨-, v, hv, hfinal⟩ := hexplored.unique he he
    unfold NfaClones.isFinal NfaClones.finalWeight
    cases hget : (σ.caches clone).get state.toNat with
    | none =>
      rw [hfinal, hv]
      cases hv : v.isFinal <;> simp [hv]
    | some e' =>
      obtain ⟨rfl, -⟩ := hexplored.unique he (hcached hget)
      exact ⟨rfl, rfl⟩
  · intro clone state later hstate hlater hcount
    have hlocks : (σ.phases clone).locks ≤ 3 := by cases σ.phases clone <;> simp [Phase.locks]
    obtain ⟨hzero, hreturned⟩ := Returns.run (W := W) ⟨hlocks, Or.inl hstate⟩ hlater hcount
    have hidle : ((σ.run W later).phases clone) = .idle := by
      cases hphase : (σ.run W later).phases clone with
      | idle => rfl
      | checked s => simp [hphase, Phase.locks] at hzero
      | found s v => simp [hphase, Phase.locks] at hzero
      | resolved s v targets missing => simp [hphase, Phase.locks] at hzero
    rw [hidle] at hreturned ⊢
    exact ⟨rfl, hreturned.resolve_left nofun⟩

-- Both clones read the ids before either of them registers a target, and both return the ids of the one that does so first.
example : let W := withPhoneticWeightAndAlphabet (windowNfa 1 (by decide) (by decide)) 1 ['a', 'b']
    let actions : List (Bool × NfaAction Bool) := [(true, .call (.expand () 0)), (false, .call (.expand () 0)), (true, .lock),
      (false, .lock), (true, .lock), (false, .lock), (false, .lock), (true, .lock)]
    let σ := (NfaClones.new W 1).run W actions
    σ.registry.size = 2 ∧ σ.returned.map (fun l => l.2.arcs.map Arc.target) = [[1, 0], [1, 0]] := by decide

end Duallity.PhoneticNfaWfst
