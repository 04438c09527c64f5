import Duallity.Lib.LazyGraph
import Duallity.LruCache

/-! Wrappers that cache what a state source expands (`lazy_cache.rs`). Clones of a wrapper share the registries of the source, and
    each has a cache of its own. What a cache has lost is expanded again, through registries that have grown meanwhile. -/

namespace Duallity

inductive ExpansionStatus
  | expandedEmpty
  | expandedNonempty
deriving DecidableEq, Repr

section Status
variable {ω : Type}

def expansionStatus (expansion : Expansion Nat Char Char ω) : ExpansionStatus :=
  if expansion.arcs.isEmpty then .expandedEmpty else .expandedNonempty

/-- No status is an invalid state. -/
def cachedCharStateStatus (cache : LazyStateCache (Expansion Nat Char Char ω)) (state : Nat) : Option ExpansionStatus :=
  (cache.get state).map expansionStatus

end Status

/-- What a wrapper calls on its source: `isValid` is what it checks before an expansion, and `isValidState` what it answers. An
    expansion that starts under the conditions `E` fails with an error in `ε`. -/
structure CharStateSource (E ρ ε ω : Type) where
  isValid : ρ → Nat → Bool
  isValidState : ρ → Nat → Bool
  expandState : E → ρ → Nat → ρ × Except ε (Expansion Nat Char Char ω)
  finalWeightForState : ρ → Nat → Option ω
  invalidStateError : Nat → ε

section Cache
variable {E ρ ε ω : Type}

/-- An expansion that fails is not cached. -/
def cacheCharStateExpansion (cache : LazyStateCache (Expansion Nat Char Char ω)) (state : Nat) :
    ρ × Except ε (Expansion Nat Char Char ω) → (ρ × LazyStateCache (Expansion Nat Char Char ω)) × Except ε ExpansionStatus
  | (r, .ok cached) => ((r, cache.insert state cached), .ok (expansionStatus cached))
  | (r, .error e) => ((r, cache), .error e)

def ensureCachedCharState (src : CharStateSource E ρ ε ω) (env : E) (r : ρ) (cache : LazyStateCache (Expansion Nat Char Char ω))
    (state : Nat) : (ρ × LazyStateCache (Expansion Nat Char Char ω)) × Except ε ExpansionStatus :=
  let (cache, cached) := cache.touchIfCached state
  if cached then
    ((r, cache), (cachedCharStateStatus cache state).elim (.error (src.invalidStateError state)) .ok)
  else if src.isValid r state then cacheCharStateExpansion cache state (src.expandState env r state)
  else ((r, cache), .error (src.invalidStateError state))

end Cache

/-- The clones `ι` of a wrapper. -/
structure CachedClones (ι ρ ω : Type) where
  registries : ρ
  caches : ι → LazyStateCache (Expansion Nat Char Char ω)

/-- A call on a clone. `cloneOf` makes the clone anew, from another one. -/
inductive CloneCall (ι E : Type)
  | expand (env : E) (state : UInt32)
  | transitionsLazy (env : E) (state : UInt32)
  | clearCache
  | setCachePolicy (policy : CachePolicy)
  | setMaxCacheSize (size : Nat)
  | cloneOf (original : ι)

namespace CachedClones
variable {ι E ρ ε ω : Type} [DecidableEq ι] (src : CharStateSource E ρ ε ω) (self : CachedClones ι ρ ω) (clone : ι)

def new (r : ρ) (maxLruStates : Nat) : CachedClones ι ρ ω := ⟨r, fun _ => .new maxLruStates⟩

def ensureState (env : E) (state : UInt32) : CachedClones ι ρ ω × Except ε ExpansionStatus :=
  let ((r, cache), result) := ensureCachedCharState src env self.registries (self.caches clone) state.toNat
  (⟨r, Function.update self.caches clone cache⟩, result)

def isFinal (state : UInt32) : Bool :=
  (((self.caches clone).get state.toNat).map fun e => e.final?.isSome).getD
    (src.finalWeightForState self.registries state.toNat).isSome

/-- No weight is `TropicalWeight::zero`. -/
def finalWeight (state : UInt32) : Option ω :=
  (((self.caches clone).get state.toNat).map Expansion.final?).getD (src.finalWeightForState self.registries state.toNat)

def transitions (state : UInt32) : List (Arc Nat Char Char ω) := (((self.caches clone).get state.toNat).map Expansion.arcs).getD []

/-- The arcs after an expansion whose error, if it has one, goes to the caller. -/
def tryTransitions (env : E) (state : UInt32) : CachedClones ι ρ ω × Except ε (List (Arc Nat Char Char ω)) :=
  let (self, result) := self.ensureState src clone env state
  (self, result.map fun _ => self.transitions clone state)

/-- The arcs after an expansion whose error is dropped. -/
def transitionsLazy (env : E) (state : UInt32) : CachedClones ι ρ ω × List (Arc Nat Char Char ω) :=
  let self := (self.ensureState src clone env state).1
  (self, self.transitions clone state)

def call : CloneCall ι E → CachedClones ι ρ ω
  | .expand env state => (self.ensureState src clone env state).1
  | .transitionsLazy env state => (self.transitionsLazy src clone env state).1
  | .clearCache => { self with caches := Function.update self.caches clone (self.caches clone).clear }
  | .setCachePolicy policy => { self with caches := Function.update self.caches clone ((self.caches clone).setPolicy policy) }
  | .setMaxCacheSize size => { self with caches := Function.update self.caches clone ((self.caches clone).setMaxLruStates size) }
  | .cloneOf original => { self with caches := Function.update self.caches clone (self.caches original) }

def run (calls : List (ι × CloneCall ι E)) : CachedClones ι ρ ω := calls.foldl (fun self c => self.call src c.1 c.2) self

end CachedClones

/-! ### Sources whose expansions are settled -/

/-- Registries only grow, and the first expansion of a state settles what it expands to in them: no other expansion of the state
    can follow, and the state has been as final since it became valid. -/
structure CharStateSource.Settled {E ρ ε ω : Type} (src : CharStateSource E ρ ε ω) (inv : ρ → Prop) (grows : ρ → ρ → Prop)
    (settles : ρ → Nat → Expansion Nat Char Char ω → Prop) : Prop where
  refl : ∀ r, grows r r
  trans : ∀ {r r' r''}, grows r r' → grows r' r'' → grows r r''
  keeps : ∀ {env r} {state : UInt32} {r' result}, inv r → src.isValid r state.toNat = true →
    src.expandState env r state.toNat = (r', result) → inv r' ∧ grows r r'
  expands : ∀ {env r} {state : UInt32} {r' e}, inv r → src.isValid r state.toNat = true →
    src.expandState env r state.toNat = (r', .ok e) → settles r' state.toNat e
  mono : ∀ {r r' s e}, inv r → grows r r' → settles r s e → settles r' s e
  unique : ∀ {r s e e'}, inv r → settles r s e → settles r s e' → e = e'
  valid : ∀ {r s e}, settles r s e → src.isValidState r s = true
  final : ∀ {r r' s e}, inv r → inv r' → grows r r' → src.isValidState r s = true → settles r' s e →
    src.finalWeightForState r s = e.final?

namespace LazyStateCache
variable {τ : Type} {c : LazyStateCache τ}

theorem Holds.imp {p q : Nat → τ → Prop} (h : c.Holds p) (himp : ∀ {s t}, p s t → q s t) : c.Holds q :=
  ⟨fun e he => himp (h.entries e he), fun s hs => himp (h.scratch s hs)⟩

theorem touchIfCached_of_get_eq_none {state : Nat} (h : c.get state = none) : c.touchIfCached state = (c, false) := by
  have hsnd : (c.touchIfCached state).2 = (c.get state).isSome := touchIfCached_snd
  rw [h] at hsnd
  unfold touchIfCached at hsnd ⊢
  split at hsnd
  · cases hsnd
  · rename_i hlookup
    rw [if_neg hlookup]
    exact Prod.ext rfl hsnd

end LazyStateCache

section Ensure
variable {E ρ ε ω : Type} {src : CharStateSource E ρ ε ω} {env : E} {r : ρ} {cache : LazyStateCache (Expansion Nat Char Char ω)}
  {state : UInt32}

/-- What is cached is touched. -/
theorem ensureCachedCharState_of_cached {m : IdealCache (Expansion Nat Char Char ω)} {e : Expansion Nat Char Char ω}
    (hrefines : cache.Refines m) (h : cache.get state.toNat = some e) : ensureCachedCharState src env r cache state.toNat =
      ((r, (cache.touchIfCached state.toNat).1), .ok (expansionStatus e)) := by
  have hget := hrefines.get_touchIfCached state state.toNat
  have hsnd : (cache.touchIfCached state.toNat).2 = (cache.get state.toNat).isSome := LazyStateCache.touchIfCached_snd
  unfold ensureCachedCharState cachedCharStateStatus
  generalize cache.touchIfCached state.toNat = touched at hget hsnd
  obtain ⟨touched, cached⟩ := touched
  dsimp only at hget hsnd ⊢
  rw [hsnd, h, hget, h]
  rfl

/-- What is not cached is expanded when it is valid. -/
theorem ensureCachedCharState_of_get_eq_none (h : cache.get state.toNat = none) : ensureCachedCharState src env r cache state.toNat =
    if src.isValid r state.toNat then cacheCharStateExpansion cache state.toNat (src.expandState env r state.toNat)
    else ((r, cache), .error (src.invalidStateError state.toNat)) := by
  unfold ensureCachedCharState
  rw [LazyStateCache.touchIfCached_of_get_eq_none h]
  rfl

/-- An error is one of an expansion, or says that the state is invalid; the cache stays as it is. -/
theorem of_ensureCachedCharState_error {m : IdealCache (Expansion Nat Char Char ω)} {r' : ρ}
    {cache' : LazyStateCache (Expansion Nat Char Char ω)} {e : ε} (hrefines : cache.Refines m)
    (h : ensureCachedCharState src env r cache state.toNat = ((r', cache'), .error e)) : cache' = cache ∧
      (src.isValid r state.toNat = false ∧ r' = r ∨
        src.isValid r state.toNat = true ∧ src.expandState env r state.toNat = (r', .error e)) := by
  cases hget : cache.get state.toNat with
  | some cached =>
    rw [ensureCachedCharState_of_cached hrefines hget] at h
    cases h
  | none =>
    rw [ensureCachedCharState_of_get_eq_none hget] at h
    cases hvalid : src.isValid r state.toNat with
    | true =>
      rcases hexpand : src.expandState env r state.toNat with ⟨r'', expansion⟩
      rw [if_pos hvalid, hexpand] at h
      cases expansion with
      | ok cached => cases h
      | error e' =>
        cases h
        exact ⟨rfl, Or.inr ⟨rfl, rfl⟩⟩
    | false =>
      rw [if_neg (by simp [hvalid])] at h
      cases h
      exact ⟨rfl, Or.inl ⟨rfl, rfl⟩⟩

end Ensure

namespace CachedClones
variable {ι E ρ ε ω : Type} {src : CharStateSource E ρ ε ω} {inv : ρ → Prop} {grows : ρ → ρ → Prop}
  {settles : ρ → Nat → Expansion Nat Char Char ω → Prop} {self σ : CachedClones ι ρ ω} {clone : ι} {env : E} {state : UInt32}

/-- What holds between calls: a cache has what the states expand to. -/
structure Consistent (inv : ρ → Prop) (settles : ρ → Nat → Expansion Nat Char Char ω → Prop) (σ : CachedClones ι ρ ω) : Prop where
  registries : inv σ.registries
  cached : ∀ clone, (σ.caches clone).Holds (settles σ.registries)
  refines : ∀ clone, ∃ m, (σ.caches clone).Refines m

theorem consistent_new {r : ρ} (hr : inv r) (maxLruStates : Nat) : Consistent inv settles (new r maxLruStates : CachedClones ι ρ ω) :=
  ⟨hr, fun _ => LazyStateCache.holds_new, fun _ => ⟨_, LazyStateCache.refines_new maxLruStates⟩⟩

variable [DecidableEq ι]

theorem Consistent.update (h : Consistent inv settles self) (hsrc : src.Settled inv grows settles) {r : ρ} (hr : inv r)
    (hgrows : grows self.registries r) {cache : LazyStateCache (Expansion Nat Char Char ω)} (hcached : cache.Holds (settles r))
    (hrefines : ∃ m, cache.Refines m) (clone : ι) : Consistent inv settles ⟨r, Function.update self.caches clone cache⟩ := by
  have hmono : ∀ {s e}, settles self.registries s e → settles r s e := hsrc.mono h.registries hgrows
  refine ⟨hr, fun clone' => ?_, fun clone' => ?_⟩
  · by_cases heq : clone' = clone
    · subst heq
      simpa using hcached
    · simpa [Function.update_of_ne heq] using (h.cached clone').imp hmono
  · by_cases heq : clone' = clone
    · subst heq
      simpa using hrefines
    · simpa [Function.update_of_ne heq] using h.refines clone'

/-- A state that is ensured is cached with what it expands to; an error leaves all caches as they are. -/
theorem Consistent.ensureState (h : Consistent inv settles self) (hsrc : src.Settled inv grows settles)
    {result : Except ε ExpansionStatus} (hensure : self.ensureState src clone env state = (σ, result)) :
    Consistent inv settles σ ∧ grows self.registries σ.registries ∧
    (∀ status, result = .ok status → ∃ e, (σ.caches clone).get state.toNat = some e ∧ status = expansionStatus e ∧
      settles σ.registries state.toNat e) ∧
    ∀ e, result = .error e → σ.caches = self.caches := by
  obtain ⟨m, hrefines⟩ := h.refines clone
  unfold CachedClones.ensureState at hensure
  cases hget : (self.caches clone).get state.toNat with
  | some e =>
    rw [ensureCachedCharState_of_cached hrefines hget] at hensure
    obtain ⟨rfl, rfl⟩ := Prod.mk.inj hensure
    refine ⟨?_, hsrc.refl _, fun status heq => ⟨e, ?_, ?_, (h.cached clone).get hget⟩, fun _ heq => by cases heq⟩
    · exact h.update hsrc h.registries (hsrc.refl _) (h.cached clone).touchIfCached ⟨_, (hrefines.touchIfCached state).1⟩ clone
    · simpa [hrefines.get_touchIfCached] using hget
    · cases heq
      rfl
  | none =>
    rw [ensureCachedCharState_of_get_eq_none hget] at hensure
    by_cases hvalid : src.isValid self.registries state.toNat = true
    · rcases hexpand : src.expandState env self.registries state.toNat with ⟨r, expansion⟩
      rw [if_pos hvalid, hexpand] at hensure
      obtain ⟨hr, hgrows⟩ := hsrc.keeps h.registries hvalid hexpand
      cases expansion with
      | ok e =>
        obtain ⟨rfl, rfl⟩ := Prod.mk.inj hensure
        have hsettles := hsrc.expands h.registries hvalid hexpand
        refine ⟨?_, hgrows, fun status heq => ⟨e, ?_, ?_, hsettles⟩, fun _ heq => by cases heq⟩
        · have hcached : (self.caches clone).Holds (settles r) := (h.cached clone).imp (hsrc.mono h.registries hgrows)
          exact h.update hsrc hr hgrows (hcached.insert hsettles) ⟨_, (hrefines.insert state e).1⟩ clone
        · simpa using hrefines.get_insert state e
        · cases heq
          rfl
      | error e =>
        obtain ⟨rfl, rfl⟩ := Prod.mk.inj hensure
        have hcached : (self.caches clone).Holds (settles r) := (h.cached clone).imp (hsrc.mono h.registries hgrows)
        exact ⟨h.update hsrc hr hgrows hcached ⟨m, hrefines⟩ clone, hgrows, nofun, fun _ _ => Function.update_eq_self _ _⟩
    · rw [if_neg hvalid] at hensure
      obtain ⟨rfl, rfl⟩ := Prod.mk.inj hensure
      exact ⟨h.update hsrc h.registries (hsrc.refl _) (h.cached clone) ⟨m, hrefines⟩ clone, hsrc.refl _, nofun,
        fun _ _ => Function.update_eq_self _ _⟩

theorem Consistent.call (h : Consistent inv settles self) (hsrc : src.Settled inv grows settles) (clone : ι) (c : CloneCall ι E) :
    Consistent inv settles (self.call src clone c) ∧ grows self.registries (self.call src clone c).registries := by
  obtain ⟨m, hrefines⟩ := h.refines clone
  cases c with
  | expand env state =>
    rcases hrun : self.ensureState src clone env state with ⟨σ, result⟩
    obtain ⟨hconsistent, hgrows, -⟩ := h.ensureState hsrc hrun
    simpa [CachedClones.call, hrun] using And.intro hconsistent hgrows
  | transitionsLazy env state =>
    rcases hrun : self.ensureState src clone env state with ⟨σ, result⟩
    obtain ⟨hconsistent, hgrows, -⟩ := h.ensureState hsrc hrun
    simpa [CachedClones.call, CachedClones.transitionsLazy, hrun] using And.intro hconsistent hgrows
  | clearCache =>
    exact ⟨h.update hsrc h.registries (hsrc.refl _) LazyStateCache.holds_clear ⟨_, hrefines.clear.1⟩ clone, hsrc.refl _⟩
  | setCachePolicy policy =>
    exact ⟨h.update hsrc h.registries (hsrc.refl _) LazyStateCache.holds_clear ⟨_, (hrefines.setPolicy policy).1⟩ clone, hsrc.refl _⟩
  | setMaxCacheSize size =>
    exact ⟨h.update hsrc h.registries (hsrc.refl _) (h.cached clone).setMaxLruStates ⟨_, (hrefines.setMaxLruStates size).1⟩ clone,
      hsrc.refl _⟩
  | cloneOf original =>
    exact ⟨h.update hsrc h.registries (hsrc.refl _) (h.cached original) (h.refines original) clone, hsrc.refl _⟩

theorem Consistent.run (h : Consistent inv settles self) (hsrc : src.Settled inv grows settles) (calls : List (ι × CloneCall ι E)) :
    Consistent inv settles (self.run src calls) ∧ grows self.registries (self.run src calls).registries := by
  induction calls generalizing self with
  | nil => exact ⟨h, hsrc.refl _⟩
  | cons c calls ih =>
    obtain ⟨hconsistent, hgrows⟩ := h.call hsrc c.1 c.2
    obtain ⟨hconsistent', hgrows'⟩ := ih hconsistent
    exact ⟨hconsistent', hsrc.trans hgrows hgrows'⟩

/-! ### Transparency -/

/-- All that clones answer of a state says that it expands to `e`. -/
structure Answers (src : CharStateSource E ρ ε ω) (σ : CachedClones ι ρ ω) (state : UInt32) (e : Expansion Nat Char Char ω) :
    Prop where
  cached : ∀ {clone cached}, (σ.caches clone).get state.toNat = some cached → cached = e
  expand : ∀ {clone env σ' status}, σ.ensureState src clone env state = (σ', .ok status) →
    status = expansionStatus e ∧ (σ'.caches clone).get state.toNat = some e
  tryTransitions : ∀ {clone env σ' arcs}, σ.tryTransitions src clone env state = (σ', .ok arcs) → arcs = e.arcs
  isFinal : ∀ clone, σ.isFinal src clone state = e.final?.isSome
  finalWeight : ∀ clone, σ.finalWeight src clone state = e.final?
  uncached : src.finalWeightForState σ.registries state.toNat = e.final?

theorem Consistent.answers (h : Consistent inv settles self) (hsrc : src.Settled inv grows settles) {e : Expansion Nat Char Char ω}
    (he : settles self.registries state.toNat e) : Answers src self state e := by
  have hcached : ∀ {clone cached}, (self.caches clone).get state.toNat = some cached → cached = e := fun {clone cached} hget =>
    hsrc.unique h.registries ((h.cached clone).get hget) he
  have hensure : ∀ {clone env σ status}, self.ensureState src clone env state = (σ, .ok status) →
      status = expansionStatus e ∧ (σ.caches clone).get state.toNat = some e := by
    intro clone env σ status hensure
    obtain ⟨hconsistent, hgrows, hok, -⟩ := h.ensureState hsrc hensure
    obtain ⟨e', hget, hstatus, hsettles⟩ := hok status rfl
    obtain rfl := hsrc.unique hconsistent.registries hsettles (hsrc.mono h.registries hgrows he)
    exact ⟨hstatus, hget⟩
  have huncached := hsrc.final h.registries h.registries (hsrc.refl _) (hsrc.valid he) he
  refine ⟨hcached, hensure, fun {clone env σ arcs} htry => ?_, fun clone => ?_, fun clone => ?_, huncached⟩
  · unfold CachedClones.tryTransitions at htry
    rcases hrun : self.ensureState src clone env state with ⟨σ', result⟩
    rw [hrun] at htry
    cases result with
    | error e => cases htry
    | ok status =>
      cases htry
      simp [CachedClones.transitions, (hensure hrun).2]
  · unfold CachedClones.isFinal
    cases hget : (self.caches clone).get state.toNat with
    | none => simp [huncached]
    | some cached => simp [hcached hget]
  · unfold CachedClones.finalWeight
    cases hget : (self.caches clone).get state.toNat with
    | none => simp [huncached]
    | some cached => simp [hcached hget]

/-- When a clone has ensured a state, it has the state cached, and all that clones answer of it afterwards is what has been cached
    then. So is the final weight that the source has given without it since the state became valid. -/
def Transparent (src : CharStateSource E ρ ε ω) (initial : CachedClones ι ρ ω) : Prop :=
  ∀ ⦃before clone env state σ status⦄, (initial.run src before).ensureState src clone env state = (σ, .ok status) →
    ∃ e, (σ.caches clone).get state.toNat = some e ∧ status = expansionStatus e ∧ (∀ after, Answers src (σ.run src after) state e) ∧
      ∀ earlier later, before = earlier ++ later →
        src.isValidState (initial.run src earlier).registries state.toNat = true →
          src.finalWeightForState (initial.run src earlier).registries state.toNat = e.final?

theorem Consistent.transparent (h : Consistent inv settles self) (hsrc : src.Settled inv grows settles) : Transparent src self := by
  intro before clone env state σ status hensure
  obtain ⟨hbefore, -⟩ := h.run hsrc before
  obtain ⟨hσ, hgrows, hok, -⟩ := hbefore.ensureState hsrc hensure
  obtain ⟨e, hget, hstatus, hsettles⟩ := hok status rfl
  refine ⟨e, hget, hstatus, fun after => ?_, fun earlier later heq hvalid => ?_⟩
  · obtain ⟨hafter, hgrows'⟩ := hσ.run hsrc after
    exact hafter.answers hsrc (hsrc.mono hσ.registries hgrows' hsettles)
  · obtain ⟨hearlier, -⟩ := h.run hsrc earlier
    obtain ⟨-, hgrows'⟩ := hearlier.run hsrc later
    rw [heq, CachedClones.run, List.foldl_append] at hgrows
    exact hsrc.final hearlier.registries hσ.registries (hsrc.trans hgrows' hgrows) hvalid hsettles

/-- A clone that has ensured a state gets its arcs again, and so do the others. -/
def Persistent (src : CharStateSource E ρ ε ω) (initial : CachedClones ι ρ ω) : Prop :=
  ∀ ⦃before clone env state σ status⦄, (initial.run src before).ensureState src clone env state = (σ, .ok status) →
    ∀ after clone' env', ((σ.run src after).transitionsLazy src clone' env' state).2 = σ.transitions clone state

/-- States that have been expanded can be expanded again. -/
theorem Consistent.persistent (h : Consistent inv settles self) (hsrc : src.Settled inv grows settles)
    (hagain : ∀ {r} {state : UInt32} {e}, inv r → settles r state.toNat e → src.isValid r state.toNat = true ∧
      ∀ env, ∃ r' e', src.expandState env r state.toNat = (r', .ok e')) : Persistent src self := by
  intro before clone env state σ status hensure after clone' env'
  obtain ⟨hbefore, -⟩ := h.run hsrc before
  obtain ⟨hσ, -, hok, -⟩ := hbefore.ensureState hsrc hensure
  obtain ⟨e, hget, -, hsettles⟩ := hok status rfl
  obtain ⟨hafter, hgrows⟩ := hσ.run hsrc after
  have hsettles := hsrc.mono hσ.registries hgrows hsettles
  have hanswers := hafter.answers hsrc hsettles
  obtain ⟨m, hrefines⟩ := hafter.refines clone'
  obtain ⟨status', hstatus⟩ : ∃ status', ((σ.run src after).ensureState src clone' env' state).2 = .ok status' := by
    unfold CachedClones.ensureState
    cases hcached : ((σ.run src after).caches clone').get state.toNat with
    | some cached =>
      rw [ensureCachedCharState_of_cached hrefines hcached]
      exact ⟨_, rfl⟩
    | none =>
      obtain ⟨hvalid, hexpands⟩ := hagain hafter.registries hsettles
      obtain ⟨r', e', hexpand⟩ := hexpands env'
      rw [ensureCachedCharState_of_get_eq_none hcached, if_pos hvalid, hexpand]
      exact ⟨_, rfl⟩
  rcases hrun : (σ.run src after).ensureState src clone' env' state with ⟨σ', result⟩
  rw [hrun] at hstatus
  obtain rfl : result = .ok status' := hstatus
  obtain ⟨-, hget'⟩ := hanswers.expand hrun
  simp [CachedClones.transitionsLazy, CachedClones.transitions, hrun, hget, hget']

end CachedClones

/-! ### Sources that fail on invalid states only -/

namespace CharStateSource
variable {ρ ε ω : Type} {isValid : ρ → Nat → Bool} {expand : ρ → Nat → ρ × Option (Expansion Nat Char Char ω)}
  {finalWeight : ρ → Nat → Option ω} {invalidStateError : Nat → ε} {inv : ρ → Prop}

def ofProduct (isValid : ρ → Nat → Bool) (expand : ρ → Nat → ρ × Option (Expansion Nat Char Char ω))
    (finalWeight : ρ → Nat → Option ω) (invalidStateError : Nat → ε) : CharStateSource Unit ρ ε ω where
  isValid := isValid
  isValidState := isValid
  expandState _ r state := ((expand r state).1, (expand r state).2.elim (.error (invalidStateError state)) .ok)
  finalWeightForState := finalWeight
  invalidStateError := invalidStateError

/-- Every later expansion of the state returns `e`. -/
def ExpandsAgain [LE ρ] (isValid : ρ → Nat → Bool) (expand : ρ → Nat → ρ × Option (Expansion Nat Char Char ω)) (inv : ρ → Prop)
    (r : ρ) (state : Nat) (e : Expansion Nat Char Char ω) : Prop :=
  state ≤ u32Max ∧ isValid r state = true ∧ ∀ r', r ≤ r' → inv r' → (expand r' state).2 = some e

/-- Valid states stay valid, and expand as they did before. -/
structure Reexpands [LE ρ] (isValid : ρ → Nat → Bool) (expand : ρ → Nat → ρ × Option (Expansion Nat Char Char ω))
    (finalWeight : ρ → Nat → Option ω) (inv : ρ → Prop) : Prop where
  keeps : ∀ {r state}, inv r → isValid r state = true → state ≤ u32Max → inv (expand r state).1
  le : ∀ {r state}, isValid r state = true → state ≤ u32Max → r ≤ (expand r state).1
  valid : ∀ {r r' state}, r ≤ r' → isValid r state = true → isValid r' state = true
  final : ∀ {r r' state}, r ≤ r' → isValid r state = true → state ≤ u32Max →
    ∃ e, (expand r' state).2 = some e ∧ finalWeight r state = e.final?
  again : ∀ {r r' state}, inv r' → isValid r state = true → state ≤ u32Max → (expand r state).1 ≤ r' →
    (expand r' state).2 = (expand r state).2

theorem Reexpands.settled [Preorder ρ] (h : Reexpands isValid expand finalWeight inv) :
    (ofProduct isValid expand finalWeight invalidStateError).Settled inv (· ≤ ·) (ExpandsAgain isValid expand inv) where
  refl := le_refl
  trans := le_trans
  keeps {env r state r' result} hr hvalid hexpand := by
    obtain ⟨rfl, -⟩ := Prod.mk.inj hexpand
    exact ⟨h.keeps hr hvalid (Nat.le_of_lt_succ state.toNat_lt), h.le hvalid (Nat.le_of_lt_succ state.toNat_lt)⟩
  expands {env r state r' e} hr hvalid hexpand := by
    obtain ⟨rfl, hresult⟩ := Prod.mk.inj hexpand
    have hu : state.toNat ≤ u32Max := Nat.le_of_lt_succ state.toNat_lt
    obtain ⟨e', he', -⟩ := h.final (le_refl r) hvalid hu
    rw [he'] at hresult
    obtain rfl := Except.ok.inj hresult
    exact ⟨hu, h.valid (h.le hvalid hu) hvalid, fun r'' hle hinv => (h.again hinv hvalid hu hle).trans he'⟩
  mono {r r' s e} hr hle hagain := ⟨hagain.1, h.valid hle hagain.2.1, fun r'' hle' => hagain.2.2 r'' (hle.trans hle')⟩
  unique {r s e e'} hr hagain hagain' :=
    Option.some.inj ((hagain.2.2 r (le_refl r) hr).symm.trans (hagain'.2.2 r (le_refl r) hr))
  valid hagain := hagain.2.1
  final {r r' s e} hr hr' hle hvalid hagain := by
    obtain ⟨e', he', hfinal⟩ := h.final hle hvalid hagain.1
    obtain rfl := Option.some.inj (he'.symm.trans (hagain.2.2 r' (le_refl r') hr'))
    exact hfinal

/-- However the registries of a new wrapper have grown, its caches cannot be noticed. -/
theorem Reexpands.transparent {ι : Type} [DecidableEq ι] [Preorder ρ] (h : Reexpands isValid expand finalWeight inv) {r : ρ} (hr : inv r)
    (maxLruStates : Nat) :
    CachedClones.Transparent (ofProduct isValid expand finalWeight invalidStateError) (.new r maxLruStates : CachedClones ι ρ ω) ∧
    CachedClones.Persistent (ofProduct isValid expand finalWeight invalidStateError) (.new r maxLruStates : CachedClones ι ρ ω) := by
  have hconsistent : CachedClones.Consistent inv (ExpandsAgain isValid expand inv) (.new r maxLruStates : CachedClones ι ρ ω) :=
    CachedClones.consistent_new hr maxLruStates
  refine ⟨hconsistent.transparent h.settled, hconsistent.persistent h.settled fun {r state e} hr hagain => ?_⟩
  refine ⟨hagain.2.1, fun _ => ⟨(expand r state.toNat).1, e, ?_⟩⟩
  simp [ofProduct, hagain.2.2 r (le_refl r) hr]

end CharStateSource
end Duallity
