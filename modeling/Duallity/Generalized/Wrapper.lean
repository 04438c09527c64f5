import Duallity.CachedSource
import Duallity.Generalized.Budget
import Duallity.Generalized.Clones

/-! The cache in front of the Generalized expansions (`generalized_wfst.rs`). An expansion that fails leaves the cache and the
    registries as they are; one that succeeds is settled, and all that it refers to is registered. -/

namespace Duallity

theorem EmissionRun.mono {states states' : StateRegistry} {id target : Nat} {ts : List GeneralizedTransition}
    (h : EmissionRun states id ts target) (hgrows : states.idToState <+: states'.idToState) : EmissionRun states' id ts target := by
  induction h with
  | arrived hget => exact .arrived (StateRegistry.get_mono hgrows hget)
  | emit hget hexpansion _ ih => exact .emit (StateRegistry.get_mono hgrows hget) hexpansion ih

namespace GeneralizedWfst
open GeneralizedOps DictionaryNodeRegistry OperationMachine StateRegistry
variable {E N R : Type} {D : Dictionary N Char} {src : GeneralizedWfst N R} {env : Environment N} {r r' : Registries N} {state : Nat}

def isRegisteredState (r : Registries N) (state : Nat) : Bool := (r.states.get state).isSome

def computeRegisteredState (src : GeneralizedWfst N R) (env : Environment N) (r : Registries N) (state : Nat) :
    Registries N × Except ExpansionError CachedCharState :=
  let (result, s) := src.tryComputeRegisteredState env state (.fresh r 0)
  (s.registries, result)

/-- The wrapper does not check a state before the expansion does. -/
def charStateSource (src : GeneralizedWfst N R) (others : E → Environment N) : CharStateSource E (Registries N) ExpansionError ℚ where
  isValid _ _ := true
  isValidState := isRegisteredState
  expandState env := src.computeRegisteredState (others env)
  finalWeightForState := src.finalWeightForState
  invalidStateError := .invalidState

/-! ### Settled expansions -/

theorem Emits.mono {t : GeneralizedTransition} {arc : OperationArc} {target : Nat} (h : Emits src r state t arc target)
    (hr : r.WellFormed D) (hpublished : Published D r r') : Emits src r' state t arc target := by
  obtain ⟨node, hget, hspells⟩ := h.product
  obtain ⟨ts, hrun, hlabels⟩ := h.run
  refine { h with product := ⟨node, hpublished.get hget, hpublished.spells hspells⟩, chain := ?_,
                  run := ⟨ts, hrun.mono hpublished.states_prefix, hlabels⟩ }
  have hchain := h.chain
  split
  · rename_i hle
    rwa [if_pos hle] at hchain
  · rename_i hgt
    rw [if_neg hgt] at hchain
    exact hr.states.chainId_mono (hpublished.wellFormed hr).states hpublished.states_prefix hchain

/-- An operation has one transition. -/
theorem Emits.unique {t t' : GeneralizedTransition} {arc : OperationArc} {target target' : Nat} (hr : r.WellFormed D)
    (h : Emits src r state t arc target) (h' : Emits src r state t' arc target') : t = t' := by
  obtain ⟨node, hget, hspells⟩ := h.product
  obtain ⟨node', hget', hspells'⟩ := h'.product
  obtain rfl := hspells.id_unique hspells'
  obtain rfl := Option.some.inj ((hr.states.product_iff.mpr hget).symm.trans (hr.states.product_iff.mpr hget'))
  have hchain := h.chain
  have hchain' := h'.chain
  have htarget : t.target = t'.target := by
    split at hchain
    · rename_i hle
      rw [if_pos hle] at hchain'
      exact hchain.trans hchain'.symm
    · rename_i hgt
      rw [if_neg hgt] at hchain'
      exact Option.some.inj (hchain.symm.trans hchain')
  have hsource := h.source.trans h'.source.symm
  have hinput := h.input.trans h'.input.symm
  have houtput := h.output.trans h'.output.symm
  have hweight := h.weight.trans h'.weight.symm
  cases t
  cases t'
  simp_all

theorem ExpandsTo.mono {value : CachedCharState} (h : ExpandsTo D src r state value) (hr : r.WellFormed D)
    (hpublished : Published D r r') : ExpandsTo D src r' state value := by
  rcases h with ⟨emit, hget, rfl⟩ | ⟨product, base, n, position, hget, hspells, hrest⟩
  · exact Or.inl ⟨emit, hpublished.get hget, rfl⟩
  · obtain ⟨hn, hle, hpos, hcost, hfinal, harcs⟩ := hrest
    refine Or.inr ⟨product, base, n, position, hpublished.get hget, hpublished.spells hspells, hn, hle, hpos, hcost, hfinal, ?_⟩
    refine harcs.imp fun t arc hemits => ?_
    obtain ⟨target, hemits⟩ := hemits
    exact ⟨target, hemits.mono hr hpublished⟩

/-- A state expands to one thing. -/
theorem ExpandsTo.unique {value value' : CachedCharState} (hr : r.WellFormed D) (h : ExpandsTo D src r state value)
    (h' : ExpandsTo D src r state value') : value = value' := by
  rcases h with ⟨emit, hget, rfl⟩ | ⟨product, base, n, position, hget, hspells, hn, hle, hpos, -, hfinal, harcs⟩
  · rcases h' with ⟨emit', hget', rfl⟩ | ⟨product, base, n, position, hget', -⟩
    · obtain rfl := RegisteredState.emit.inj (Option.some.inj (hget.symm.trans hget'))
      rfl
    · cases hget.symm.trans hget'
  · rcases h' with ⟨emit', hget', rfl⟩ | ⟨product', base', n', position', hget', hspells', hn', hle', hpos', -, hfinal', harcs'⟩
    · cases hget.symm.trans hget'
    · obtain rfl := RegisteredState.product.inj (Option.some.inj (hget.symm.trans hget'))
      obtain rfl := hr.nodes.path_unique hspells hspells'
      obtain rfl := Option.some.inj (hn.symm.trans hn')
      obtain rfl := utf8Len_take_injective hle hle' (hpos.symm.trans hpos')
      have hunique : Relator.LeftUnique fun t arc => ∃ target, Emits src r state t arc target := by
        intro t arc t' hemits hemits'
        obtain ⟨target, hemits⟩ := hemits
        obtain ⟨target', hemits'⟩ := hemits'
        exact hemits.unique hr hemits'
      have heq : value.arcs = value'.arcs := hunique.forall₂ harcs harcs'
      cases value
      cases value'
      simp_all

/-- A state that is registered is as final as it expands to. -/
theorem ExpandsTo.final {value : CachedCharState} (hretains : r.Retains src) (hpublished : Published D r r')
    (hr' : r'.WellFormed D) (hvalid : isRegisteredState r state = true) (h : ExpandsTo D src r' state value) :
    src.finalWeightForState r state = value.final? := by
  obtain ⟨registered, hget⟩ := Option.isSome_iff_exists.mp hvalid
  have hget' := hpublished.get hget
  unfold finalWeightForState
  rw [hget, Option.bind_some]
  rcases h with ⟨emit, hemit, rfl⟩ | ⟨product, base, n, position, hproduct, hspells, hn, -, -, -, hfinal, -⟩
  · obtain rfl := Option.some.inj (hget'.symm.trans hemit)
    rfl
  · obtain rfl := Option.some.inj (hget'.symm.trans hproduct)
    obtain ⟨node, hnode⟩ := Interner.exists_value? (hretains.product hget).1
    have hvalue : node.value = n := by
      obtain ⟨m, hm, hspelled⟩ := hr'.nodes.node hspells
      obtain rfl := Option.some.inj (hm.symm.trans hn)
      have hnode' : r'.nodes.getNode product.dictNodeId = some node := Interner.le_value? hpublished.nodes_le hnode
      have hmapped : (r'.nodes.getNode product.dictNodeId).map Owned.value = some m := Interner.value?_mapValues.symm.trans hspelled
      simpa [hnode'] using hmapped
    have hstored : r.nodes.getNode product.dictNodeId = some node := hnode
    simp only [hstored, Option.bind_some, hvalue, hfinal]

/-- An expansion that others publish around grows the registries as they rely on. -/
theorem grows_computeRegisteredState (hD : D.DistinctLabels) (hsrc : src.dictionary = D.provider) (hslots : src.SlotsFit)
    (henv : env.GrowsWith D src) (hr : r.WellFormed D) {result : Except ExpansionError CachedCharState}
    (h : src.computeRegisteredState env r state = (r', result)) : Grows D src r r' ∧ (∀ message, result ≠ .error (.panicked message)) ∧
      ∀ value, result = .ok value → ExpandsTo D src r' state value := by
  unfold computeRegisteredState at h
  rcases hrun : src.tryComputeRegisteredState env state (.fresh r 0) with ⟨result', s⟩
  rw [hrun] at h
  obtain ⟨rfl, rfl⟩ := Prod.mk.inj h
  have hfits := tryComputeRegisteredState_fits hD hsrc (fun tick r => (henv tick r).published) hslots state (Grows D src r)
    fun hgrows => hgrows.trans (henv _ _)
  cases result' with
  | ok value =>
    obtain ⟨⟨r₁, hr₁, hgrows⟩, -, hexpands⟩ := hfits.ok ⟨hr, .refl r⟩ hrun
    refine ⟨hr₁.trans hgrows, nofun, fun value' heq => ?_⟩
    cases heq
    exact hexpands
  | error e =>
    obtain ⟨hreported, hgrows⟩ := hfits.error ⟨hr, .refl r⟩ hrun
    refine ⟨hgrows, fun message heq => ?_, nofun⟩
    cases heq
    exact hreported message rfl

/-- The conditions under which an expansion starts: others publish what makes the registries grow as expansions do. -/
abbrev Others (D : Dictionary N Char) (src : GeneralizedWfst N R) : Type := {env : Environment N // env.GrowsWith D src}

theorem settled (hD : D.DistinctLabels) (hsrc : src.dictionary = D.provider) (hslots : src.SlotsFit) :
    (src.charStateSource (Subtype.val : Others D src → Environment N)).Settled (fun r => r.WellFormed D ∧ r.Retains src) (Grows D src)
      (ExpandsTo D src) where
  refl := .refl
  trans := .trans
  keeps {env r state r' result} hr _ hexpand := by
    obtain ⟨hgrows, -⟩ := grows_computeRegisteredState hD hsrc hslots env.2 hr.1 hexpand
    exact ⟨⟨hgrows.published.wellFormed hr.1, hgrows.retains hr.1 hr.2⟩, hgrows⟩
  expands {env r state r' e} hr _ hexpand := by
    obtain ⟨-, -, hexpands⟩ := grows_computeRegisteredState hD hsrc hslots env.2 hr.1 hexpand
    exact hexpands e rfl
  mono hr hgrows hexpands := hexpands.mono hr.1 hgrows.published
  unique hr hexpands hexpands' := hexpands.unique hr.1 hexpands'
  valid {r s e} hexpands := by
    rcases hexpands with ⟨emit, hget, -⟩ | ⟨product, base, n, position, hget, -⟩
    · exact Option.isSome_of_eq_some hget
    · exact Option.isSome_of_eq_some hget
  final hr hr' hgrows hvalid hexpands := hexpands.final hr.2 hgrows.published hr'.1 hvalid

/-! ### Failures and references -/

/-- An expansion that reports an error leaves the registries to the other clones; it is not one that would go on. -/
theorem computeRegisteredState_error {e : ExpansionError} (h : src.computeRegisteredState env r state = (r', .error e)) :
    ((∀ message, e ≠ .panicked message) → LeftToClones env r r') ∧ e ≠ .outOfFuel := by
  unfold computeRegisteredState at h
  rcases hrun : src.tryComputeRegisteredState env state (.fresh r 0) with ⟨result, s⟩
  rw [hrun] at h
  obtain ⟨rfl, rfl⟩ := Prod.mk.inj h
  have hfresh : Charged src.limits 0 (ExpansionState.fresh r 0) :=
    ⟨Nat.zero_le _, Nat.zero_le _, Nat.le_refl _, Nat.zero_le _, Nat.le_refl _⟩
  refine ⟨fun he => ?_, ((src.costs_tryComputeRegisteredState env state 0).error hfresh hrun).ne_outOfFuel⟩
  exact (tryComputeRegisteredState_isolated src env (p := LeftToClones env r) .clones state).error .refl hrun he

/-- A state that is ensured in vain leaves the cache, and the registries as its expansion has left them. -/
theorem of_ensure_error (src : GeneralizedWfst N R) (others : E → Environment N) {env : E} {cache cache' : LazyStateCache CachedCharState}
    {m : IdealCache CachedCharState} {state : UInt32} {e : ExpansionError} (hrefines : cache.Refines m)
    (hensure : ensureCachedCharState (src.charStateSource others) env r cache state.toNat = ((r', cache'), .error e)) :
    cache' = cache ∧ src.computeRegisteredState (others env) r state.toNat = (r', .error e) := by
  obtain ⟨hcache, hinvalid | ⟨-, hexpand⟩⟩ := of_ensureCachedCharState_error hrefines hensure
  · cases hinvalid.1
  · exact ⟨hcache, hexpand⟩

/-- The states that the arcs of `value` lead to, also through emission states, and the product states at the ends of their chains. -/
inductive References (r : Registries N) (value : CachedCharState) : Nat → Prop
  | arc {t : GeneralizedTransition} : t ∈ value.arcs → References r value t.target
  | next {id : Nat} {emit : EmitState} : References r value id → r.states.get id = some (.emit emit) → References r value emit.next
  | target {id : Nat} {emit : EmitState} : References r value id → r.states.get id = some (.emit emit) →
      References r value emit.chain.target

/-- What a state refers to is registered, and so are the nodes of the product states among it. -/
theorem References.registered {value : CachedCharState} {id : Nat} (hr : r.WellFormed D) (hretains : r.Retains src)
    (hvalue : Registered r value) (h : References r value id) : ∃ registered, r.states.get id = some registered ∧
      ∀ product, registered = .product product → ∃ node, r.nodes.getNode product.dictNodeId = some node := by
  have hget : ∃ registered, r.states.get id = some registered := by
    cases h with
    | arc ht => exact hvalue _ ht
    | next _ hemit => exact exists_next hr hemit
    | target _ hemit =>
      obtain ⟨-, first, hfirst, -⟩ := hr.states.chain_of_emit hemit
      obtain ⟨-, product, hproduct⟩ := hr.states.target hfirst
      exact ⟨_, hproduct⟩
  obtain ⟨registered, hget⟩ := hget
  refine ⟨registered, hget, fun product heq => ?_⟩
  rw [heq] at hget
  exact Interner.exists_value? (hretains.product hget).1

/-- The clones `ι` of a new wrapper. -/
def newWrappers {ι : Type} (src : GeneralizedWfst N R) (owner maxLruStates : Nat) : CachedClones ι (Registries N) ℚ :=
  .new (src.newRegistries owner) maxLruStates

theorem consistent_newWrappers {ι : Type} [DecidableEq R] {lib : OperationLibrary R} {query : List Char} {maxDistance : Nat}
    {operations : OperationSet R} {limits : GeneralizedWfstLimits}
    (h : tryNewWithLimits D.provider lib query maxDistance operations limits = .ok src) (owner maxLruStates : Nat) :
    CachedClones.Consistent (fun r => r.WellFormed D ∧ r.Retains src) (ExpandsTo D src)
      (src.newWrappers owner maxLruStates : CachedClones ι (Registries N) ℚ) := by
  obtain ⟨hsrc, -⟩ := arguments_eq h
  exact CachedClones.consistent_new ⟨wellFormed_newRegistries hsrc owner, retains_newRegistries h⟩ maxLruStates

/-- Whatever a cache and the registries hold, an expansion that fails or is cancelled leaves them as they would be without it. After
    any calls on clones no other error can occur, and all that a successful expansion refers to is registered. -/
theorem expansion_atomic (src : GeneralizedWfst N R) :
    (∀ {env : Environment N} {r r' : Registries N} {maxLruStates : Nat} {operations : List (CacheOperation CachedCharState)}
      {cache' : LazyStateCache CachedCharState} {state : UInt32} {e : ExpansionError},
      ensureCachedCharState (src.charStateSource id) env r ((LazyStateCache.new maxLruStates).run operations) state.toNat =
        ((r', cache'), .error e) → (∀ message, e ≠ .panicked message) →
      cache' = (LazyStateCache.new maxLruStates).run operations ∧ LeftToClones env r r') ∧
    ∀ {ι : Type} [DecidableEq ι] [DecidableEq R] {D : Dictionary N Char} {lib : OperationLibrary R} {query : List Char}
      {maxDistance : Nat} {operations : OperationSet R} {limits : GeneralizedWfstLimits}, D.DistinctLabels →
      tryNewWithLimits D.provider lib query maxDistance operations limits = .ok src →
      ∀ {owner maxLruStates : Nat} {calls : List (ι × CloneCall ι (Others D src))} {σ σ' : CachedClones ι (Registries N) ℚ} {clone : ι}
        {env : Others D src} {state : UInt32} {result : Except ExpansionError ExpansionStatus},
        σ = (src.newWrappers owner maxLruStates).run (src.charStateSource Subtype.val) calls →
        σ.ensureState (src.charStateSource Subtype.val) clone env state = (σ', result) →
        (∀ e, result = .error e → (∀ message, e ≠ .panicked message) ∧ e ≠ .outOfFuel ∧ σ'.caches = σ.caches ∧
          LeftToClones env.val σ.registries σ'.registries) ∧
        ∀ status, result = .ok status → ∃ value, (σ'.caches clone).get state.toNat = some value ∧
          ∀ id, References σ'.registries value id → ∃ registered, σ'.registries.states.get id = some registered ∧
            ∀ product, registered = .product product → ∃ node, σ'.registries.nodes.getNode product.dictNodeId = some node := by
  refine ⟨fun {env r r' maxLruStates operations cache' state e} hensure he => ?_, ?_⟩
  · obtain ⟨hcache, hexpand⟩ := src.of_ensure_error id ((LazyStateCache.refines_new maxLruStates).run operations) hensure
    exact ⟨hcache, (computeRegisteredState_error hexpand).1 he⟩
  intro ι _ _ D lib query maxDistance operations limits hD h owner maxLruStates calls σ σ' clone env state result hσ hensure
  obtain ⟨hsrc, -⟩ := arguments_eq h
  have hsettled := settled hD hsrc (slotsFit h)
  obtain ⟨hconsistent, -⟩ := (consistent_newWrappers h owner maxLruStates).run hsettled calls
  rw [← hσ] at hconsistent
  obtain ⟨hconsistent', -, hok, herror⟩ := hconsistent.ensureState hsettled hensure
  refine ⟨fun e heq => ?_, fun status heq => ?_⟩
  · obtain ⟨m, hrefines⟩ := hconsistent.refines clone
    rw [heq] at hensure
    unfold CachedClones.ensureState at hensure
    rcases hrun : ensureCachedCharState (src.charStateSource Subtype.val) env σ.registries (σ.caches clone) state.toNat with
      ⟨⟨r', cache'⟩, result'⟩
    rw [hrun] at hensure
    cases hensure
    obtain ⟨-, hexpand⟩ := src.of_ensure_error Subtype.val hrefines hrun
    obtain ⟨-, hpanics, -⟩ := grows_computeRegisteredState hD hsrc (slotsFit h) env.2 hconsistent.registries.1 hexpand
    have hreported : ∀ message, e ≠ .panicked message := fun message he => hpanics message (congrArg _ he)
    obtain ⟨hleft, hfuel⟩ := computeRegisteredState_error hexpand
    exact ⟨hreported, hfuel, herror e heq, hleft hreported⟩
  · obtain ⟨value, hget, -, hexpands⟩ := hok status heq
    obtain ⟨hr, hretains⟩ := hconsistent'.registries
    exact ⟨value, hget, fun id hid => hid.registered hr hretains (hexpands.registered hr)⟩

/-- Nobody publishes, and the expansion is cancelled at one tick. -/
def cancellingAt (tick : Nat) : Environment (List Char) :=
  { Environment.alone _ with cancellation := fun t => if t = tick then some 7 else none }

/-- What a clone of a constructed source answers when it ensures the start. -/
def ensuresStart (constructed : Except GeneralizedWfstError (GeneralizedWfst (List Char) Unit)) (env : Environment (List Char)) :
    Option (Except ExpansionError ExpansionStatus) :=
  match constructed with
  | .ok src => some ((src.newWrappers 0 1 : CachedClones Bool _ _).ensureState (src.charStateSource id) true env 0).2
  | .error _ => none

theorem ensuresStart_transposing : ensuresStart transposing (.alone _) = some (.ok .expandedNonempty) := by decide +kernel

/-- An expansion of the start that is cancelled after it has registered a chain, and one that is not. -/
theorem expansion_atomic_transposing : ∃ src, transposing = .ok src ∧
    (∃ r', ensureCachedCharState (src.charStateSource id) (cancellingAt 39) (src.newRegistries 0) ((LazyStateCache.new 1).run []) 0 =
      ((r', (LazyStateCache.new 1).run []), .error (.cancelled 7)) ∧ LeftToClones (cancellingAt 39) (src.newRegistries 0) r') ∧
    ∃ σ : CachedClones Bool (Registries (List Char)) ℚ, ∃ value, (σ.caches true).get 0 = some value ∧
      ∀ id, References σ.registries value id → ∃ registered, σ.registries.states.get id = some registered ∧
        ∀ product, registered = .product product → ∃ node, σ.registries.nodes.getNode product.dictNodeId = some node := by
  have hcancelled : ensuresStart transposing (cancellingAt 39) = some (.error (.cancelled 7)) := by decide +kernel
  have hsucceeds := ensuresStart_transposing
  unfold ensuresStart at hcancelled hsucceeds
  cases h : transposing with
  | error e =>
    rw [h] at hsucceeds
    cases hsucceeds
  | ok src =>
    rw [h] at hcancelled hsucceeds
    have halone : (Environment.alone (List Char)).GrowsWith (trie [['b', 'a']]).toDictionary src := fun _ r => .refl r
    refine ⟨src, rfl, ?_, ?_⟩
    · rcases hrun : ensureCachedCharState (src.charStateSource id) (cancellingAt 39) (src.newRegistries 0)
        ((LazyStateCache.new 1).run []) (0 : UInt32).toNat with ⟨⟨r', cache'⟩, result⟩
      obtain rfl : result = .error (.cancelled 7) := by
        have hresult := congrArg Prod.snd hrun
        exact hresult.symm.trans (Option.some.inj hcancelled)
      obtain ⟨rfl, hleft⟩ := (expansion_atomic src).1 hrun nofun
      exact ⟨r', hrun, hleft⟩
    · let others : Others (trie [['b', 'a']]).toDictionary src := ⟨.alone _, halone⟩
      rcases hrun : (src.newWrappers 0 1 : CachedClones Bool _ _).ensureState (src.charStateSource Subtype.val) true others 0 with
        ⟨σ, result⟩
      obtain rfl : result = .ok .expandedNonempty := by
        have hresult := congrArg Prod.snd hrun
        exact hresult.symm.trans (Option.some.inj hsucceeds)
      have hstart : (src.newWrappers 0 1 : CachedClones Bool _ _) = (src.newWrappers 0 1).run (src.charStateSource Subtype.val)
        ([] : List (Bool × CloneCall Bool (Others (trie [['b', 'a']]).toDictionary src))) := rfl
      obtain ⟨value, hget, hregistered⟩ := ((expansion_atomic src).2 (trie [['b', 'a']]).labels_nodup h hstart hrun).2 _ rfl
      exact ⟨σ, value, hget, hregistered⟩

end GeneralizedWfst
end Duallity
