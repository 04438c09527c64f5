import Duallity.Generalized.Chains
import Mathlib.Logic.Relation

/-! Clones that expand at the same time. Each of them stages an expansion and then takes turns to reconcile and commit it; the
    steps of any number of clones interleave over the registries that they share. -/

namespace Duallity

/-- Where the expansion of a clone is: what it has staged, and its budget. -/
inductive CloneActivity (N : Type)
  | idle
  | committing (pending : PendingExpansion N) (budget : ExpansionState N)

/-- The registries that the clones `ι` share, what each of them is doing, and what their expansions have returned so far, each
    with its state. -/
structure SharedClones (ι N : Type) where
  registries : Registries N
  activity : ι → CloneActivity N
  returned : List (Nat × CachedCharState)

/-- Within a step, before each lock, others may publish what makes the registries grow as steps do. -/
def Environment.GrowsWith {N R : Type} (D : Dictionary N Char) (src : GeneralizedWfst N R) (env : Environment N) : Prop :=
  ∀ tick r, GeneralizedWfst.Grows D src r (env.clones tick r)

namespace GeneralizedWfst
open GeneralizedOps DictionaryNodeRegistry OperationMachine StateRegistry
variable {ι N R : Type} {D : Dictionary N Char} {src : GeneralizedWfst N R} {env : Environment N}
  {r r' : Registries N} {σ σ' σ'' : SharedClones ι N}

/-- A step of one clone. A turn of the commit either leaves the commit to a later turn, or publishes, or fails. -/
inductive CloneStep [DecidableEq ι] (D : Dictionary N Char) (src : GeneralizedWfst N R) : SharedClones ι N → SharedClones ι N → Prop
  | stage {σ clone env state tick pending s} : σ.activity clone = .idle → env.GrowsWith D src →
      src.stageExpansion env state (.fresh σ.registries tick) = (.ok (.pending pending), s) →
      CloneStep D src σ ⟨s.registries, Function.update σ.activity clone (.committing pending s), σ.returned⟩
  | emit {σ clone env state tick value s} : σ.activity clone = .idle → env.GrowsWith D src →
      src.stageExpansion env state (.fresh σ.registries tick) = (.ok (.emitted value), s) →
      CloneStep D src σ ⟨s.registries, σ.activity, (state, value) :: σ.returned⟩
  | stageFailure {σ clone env state tick e s} : σ.activity clone = .idle → env.GrowsWith D src →
      src.stageExpansion env state (.fresh σ.registries tick) = (.error e, s) →
      CloneStep D src σ ⟨s.registries, σ.activity, σ.returned⟩
  | reconcile {σ clone env pending budget pending' s} : σ.activity clone = .committing pending budget → env.GrowsWith D src →
      src.commitTurn env pending { budget with registries := σ.registries } = (.ok (.inl pending'), s) →
      CloneStep D src σ ⟨s.registries, Function.update σ.activity clone (.committing pending' s), σ.returned⟩
  | commit {σ clone env pending budget value s} : σ.activity clone = .committing pending budget → env.GrowsWith D src →
      src.commitTurn env pending { budget with registries := σ.registries } = (.ok (.inr value), s) →
      CloneStep D src σ ⟨s.registries, Function.update σ.activity clone .idle, (pending.state, value) :: σ.returned⟩
  | commitFailure {σ clone env pending budget e s} : σ.activity clone = .committing pending budget → env.GrowsWith D src →
      src.commitTurn env pending { budget with registries := σ.registries } = (.error e, s) →
      CloneStep D src σ ⟨s.registries, Function.update σ.activity clone .idle, σ.returned⟩

/-- Clones that have not expanded anything yet. -/
def newClones (src : GeneralizedWfst N R) (owner : Nat) : SharedClones ι N := ⟨src.newRegistries owner, fun _ => .idle, []⟩

/-- What is staged of a product state fits the operations of its point. -/
def Staged (D : Dictionary N Char) (src : GeneralizedWfst N R) (r : Registries N) (pending : PendingExpansion N) : Prop :=
  ∃ n point, point.cost ≤ src.maxCost ∧ StagedFits D src (operationArcs D src n point) pending r

/-- The ids that a state refers to are registered. -/
def Registered (r : Registries N) (value : CachedCharState) : Prop := ∀ arc ∈ value.arcs, ∃ state, r.states.get arc.target = some state

/-- What holds between the steps of the clones. -/
structure Consistent (D : Dictionary N Char) (src : GeneralizedWfst N R) (σ : SharedClones ι N) : Prop where
  wellFormed : σ.registries.WellFormed D
  retains : σ.registries.Retains src
  staged : ∀ {clone pending budget}, σ.activity clone = .committing pending budget → Staged D src σ.registries pending
  returned : ∀ {state value}, (state, value) ∈ σ.returned → Registered σ.registries value

/-! ### Steps -/

theorem Staged.mono {pending : PendingExpansion N} (h : Staged D src r pending) (hr : Published D r r') : Staged D src r' pending := by
  obtain ⟨n, point, hcost, hfits⟩ := h
  exact ⟨n, point, hcost, hfits.mono hr⟩

theorem Registered.mono {value : CachedCharState} (h : Registered r value) (hr : Published D r r') : Registered r' value := by
  intro arc harc
  obtain ⟨state, hstate⟩ := h arc harc
  exact ⟨state, hr.get hstate⟩

/-- The next position of a chain has an id, and so has the product at its end. -/
theorem exists_next (hr : r.WellFormed D) {id : Nat} {emit : EmitState} (hget : r.states.get id = some (.emit emit)) :
    ∃ state, r.states.get emit.next = some state := by
  obtain ⟨hlt, first, hfirst, hnext⟩ := hr.states.chain_of_emit hget
  rw [hnext, EmissionChain.next]
  split
  · obtain ⟨-, product, hproduct⟩ := hr.states.target hfirst
    exact ⟨_, hproduct⟩
  · exact ⟨_, hr.states.chain_get hfirst (emit.position + 1) (Nat.succ_pos _) (by omega)⟩

theorem Emits.registered {state target : Nat} {t : GeneralizedTransition} {arc : OperationArc} (h : Emits src r state t arc target) :
    ∃ state, r.states.get t.target = some state := by
  obtain ⟨ts, hrun, -⟩ := h.run
  cases hrun with
  | arrived hget => exact ⟨_, hget⟩
  | emit hget => exact ⟨_, hget⟩

theorem ExpandsTo.registered (hr : r.WellFormed D) {state : Nat} {value : CachedCharState} (h : ExpandsTo D src r state value) :
    Registered r value := by
  intro arc harc
  rcases h with ⟨emit, hget, rfl⟩ | ⟨product, base, n, position, -, -, -, -, -, -, -, harcs⟩
  · rw [List.mem_singleton.mp harc]
    exact exists_next hr hget
  · obtain ⟨_, -, target, hemits⟩ := exists_mem_of_forall₂ harcs harc
    exact hemits.registered

theorem Consistent.grow (h : Consistent D src σ) (hgrows : Grows D src σ.registries r) {activity : ι → CloneActivity N}
    {returned : List (Nat × CachedCharState)}
    (hactivity : ∀ {clone pending budget}, activity clone = .committing pending budget →
      σ.activity clone = .committing pending budget ∨ Staged D src r pending)
    (hreturned : ∀ {state value}, (state, value) ∈ returned → (state, value) ∈ σ.returned ∨ Registered r value) :
    Consistent D src ⟨r, activity, returned⟩ := by
  refine ⟨hgrows.published.wellFormed h.wellFormed, hgrows.retains h.wellFormed h.retains, fun hclone => ?_, fun hvalue => ?_⟩
  · rcases hactivity hclone with hold | hnew
    · exact (h.staged hold).mono hgrows.published
    · exact hnew
  · rcases hreturned hvalue with hold | hnew
    · exact (h.returned hold).mono hgrows.published
    · exact hnew

theorem activity_update [DecidableEq ι] {f : ι → CloneActivity N} {clone : ι} {a : CloneActivity N} {p : PendingExpansion N → Prop}
    (ha : ∀ {pending budget}, a = .committing pending budget → p pending) {clone' : ι} {pending : PendingExpansion N}
    {budget : ExpansionState N} (h : Function.update f clone a clone' = .committing pending budget) :
    f clone' = .committing pending budget ∨ p pending := by
  by_cases heq : clone' = clone
  · rw [heq, Function.update_self] at h
    exact Or.inr (ha h)
  · rw [Function.update_of_ne heq] at h
    exact Or.inl h

/-- What a clone stages grows the registries as the other clones have published them, and refers to what is in them. -/
theorem stage_grows (hD : D.DistinctLabels) (hsrc : src.dictionary = D.provider) (hslots : src.SlotsFit) (h : Consistent D src σ)
    (henv : env.GrowsWith D src) {state tick : Nat} {result : Except ExpansionError (StagedExpansion N)} {s : ExpansionState N}
    (hrun : src.stageExpansion env state (.fresh σ.registries tick) = (result, s)) :
    Grows D src σ.registries s.registries ∧ ∀ staged, result = .ok staged → StagesFor D src state s.registries staged := by
  have hstage := stageExpansion_fits hD hsrc (fun tick r => (henv tick r).published) hslots state
    (fun r => Grows D src σ.registries r) (fun hr => hr.trans (henv _ _)) fun r hr => hr.published.wellFormed h.wellFormed
  cases result with
  | ok staged =>
    have hok := hstage.ok (.refl _) hrun
    exact ⟨hok.1, fun staged' heq => by cases heq; exact hok.2⟩
  | error e => exact ⟨(hstage.error (.refl _) hrun).2, nofun⟩

theorem commitTurn_grows (h : Consistent D src σ) {clone : ι} {pending : PendingExpansion N} {budget s : ExpansionState N}
    (hclone : σ.activity clone = .committing pending budget) (henv : env.GrowsWith D src)
    {result : Except ExpansionError (PendingExpansion N ⊕ CachedCharState)}
    (hrun : src.commitTurn env pending { budget with registries := σ.registries } = (result, s)) :
    Grows D src σ.registries s.registries ∧ (∀ pending', result = .ok (.inl pending') → Staged D src s.registries pending') ∧
      ∀ value, result = .ok (.inr value) → Registered s.registries value := by
  obtain ⟨n, point, hcost, hfits⟩ := h.staged hclone
  have hturn : Effect.Triple (fun s => StagedFits D src (operationArcs D src n point) pending s.registries ∧
      Grows D src σ.registries s.registries) (src.commitTurn env pending) _ _ :=
    commitTurn_fits (fun tick r => (henv tick r).published) pending _ fun hr => hr.trans (henv _ _)
  cases result with
  | error e => exact ⟨(hturn.error ⟨hfits, .refl _⟩ hrun).2, nofun, nofun⟩
  | ok next =>
    have hok := hturn.ok ⟨hfits, .refl _⟩ hrun
    cases next with
    | inl pending' => exact ⟨hok.1, fun pending'' heq => by cases heq; exact ⟨n, point, hcost, hok.2.2.2⟩, nofun⟩
    | inr value =>
      obtain ⟨r, hr, hcommits⟩ := hok
      refine ⟨hr.trans (hcommits.grows fun arc harc => cost_le_of_mem_operationArcs hcost harc), nofun, fun value' heq arc harc => ?_⟩
      cases heq
      obtain ⟨_, -, target, hemits⟩ := exists_mem_of_forall₂ hcommits.transitions harc
      exact hemits.registered

/-- A step grows the registries, as other clones rely on, and what holds between steps holds again. -/
theorem Consistent.step [DecidableEq ι] (hD : D.DistinctLabels) (hsrc : src.dictionary = D.provider) (hslots : src.SlotsFit)
    (h : Consistent D src σ) (hstep : CloneStep D src σ σ') : Grows D src σ.registries σ'.registries ∧ Consistent D src σ' := by
  cases hstep with
  | @stage clone env state tick pending s hclone henv hrun =>
    obtain ⟨hgrows, hstaged⟩ := stage_grows hD hsrc hslots h henv hrun
    obtain ⟨product, base, n, position, hget, hfits⟩ := hstaged _ rfl
    refine ⟨hgrows, h.grow hgrows (activity_update fun {pending' budget} heq => ?_) Or.inl⟩
    cases heq
    exact ⟨n, ⟨base, position, product.cost⟩, hfits.cost_le, hfits.registries, hfits.staging.steps, hfits.arcs⟩
  | @emit clone env state tick value s hclone henv hrun =>
    obtain ⟨hgrows, hstaged⟩ := stage_grows hD hsrc hslots h henv hrun
    refine ⟨hgrows, h.grow hgrows Or.inl fun {state' value'} hmem => ?_⟩
    rcases List.mem_cons.mp hmem with heq | hold
    · obtain ⟨rfl, rfl⟩ := Prod.mk.inj heq
      have hexpands : ExpandsTo D src s.registries state' value' := Or.inl (hstaged _ rfl)
      exact Or.inr (hexpands.registered (hgrows.published.wellFormed h.wellFormed))
    · exact Or.inl hold
  | @stageFailure clone env state tick e s hclone henv hrun =>
    obtain ⟨hgrows, -⟩ := stage_grows hD hsrc hslots h henv hrun
    exact ⟨hgrows, h.grow hgrows Or.inl Or.inl⟩
  | @reconcile clone env pending budget pending' s hclone henv hrun =>
    obtain ⟨hgrows, hstaged, -⟩ := commitTurn_grows h hclone henv hrun
    refine ⟨hgrows, h.grow hgrows (activity_update fun {pending'' budget'} heq => ?_) Or.inl⟩
    cases heq
    exact hstaged _ rfl
  | @commit clone env pending budget value s hclone henv hrun =>
    obtain ⟨hgrows, -, hvalue⟩ := commitTurn_grows h hclone henv hrun
    refine ⟨hgrows, h.grow hgrows (activity_update fun heq => by cases heq) fun {state' value'} hmem => ?_⟩
    rcases List.mem_cons.mp hmem with heq | hold
    · obtain ⟨rfl, rfl⟩ := Prod.mk.inj heq
      exact Or.inr (hvalue _ rfl)
    · exact Or.inl hold
  | @commitFailure clone env pending budget e s hclone henv hrun =>
    obtain ⟨hgrows, -⟩ := commitTurn_grows h hclone henv hrun
    exact ⟨hgrows, h.grow hgrows (activity_update fun heq => by cases heq) Or.inl⟩

/-- A run grows the registries, and what holds between steps holds at its end. -/
theorem Consistent.run [DecidableEq ι] (hD : D.DistinctLabels) (hsrc : src.dictionary = D.provider) (hslots : src.SlotsFit)
    (h : Consistent D src σ) (hrun : Relation.ReflTransGen (CloneStep D src) σ σ') :
    Grows D src σ.registries σ'.registries ∧ Consistent D src σ' := by
  induction hrun with
  | refl => exact ⟨.refl _, h⟩
  | tail _ hstep ih =>
    obtain ⟨hgrows, hconsistent⟩ := ih
    obtain ⟨hgrows', hconsistent'⟩ := hconsistent.step hD hsrc hslots hstep
    exact ⟨hgrows.trans hgrows', hconsistent'⟩

/-! ### Runs from new clones -/

theorem bind_requireAtMost {α : Type} {resource : GeneralizedWfstResource} {required limit : Nat}
    {f : Unit → Except GeneralizedWfstError α} {a : α} (h : (requireAtMost resource required limit >>= f) = .ok a) :
    required ≤ limit ∧ f () = .ok a := by
  unfold requireAtMost at h
  split at h
  · rename_i hle
    exact ⟨hle, h⟩
  · cases h

theorem retains_newRegistries [DecidableEq R] {dictionary : DictionaryProvider N} {lib : OperationLibrary R} {query : List Char}
    {maxDistance owner : Nat} {operations : OperationSet R} {limits : GeneralizedWfstLimits}
    (h : tryNewWithLimits dictionary lib query maxDistance operations limits = .ok src) : (src.newRegistries owner).Retains src := by
  obtain ⟨hlimits, _, _, _, _, -, -, -, -, rfl⟩ := of_tryNewWithLimits h
  obtain ⟨-, hlimits⟩ := bind_requireAtMost hlimits
  obtain ⟨-, hlimits⟩ := bind_requireAtMost hlimits
  obtain ⟨hnodes, hlimits⟩ := bind_requireAtMost hlimits
  obtain ⟨hstates, -⟩ := bind_requireAtMost hlimits
  refine ⟨fun {id product} hget => ?_, ?_, hstates⟩
  · obtain rfl : product = startState := by
      have hmem := List.mem_of_getElem? hget
      simpa [newRegistries, StateRegistry.new] using hmem
    refine ⟨?_, ?_, Nat.zero_le _⟩
    · simp [newRegistries, startState, DictionaryNodeRegistry.size_new]
    · exact isCharBoundary_take query 0
  · simpa [newRegistries, DictionaryNodeRegistry.size_new] using hnodes

/-- Each dictionary node, product state and position of a chain has one id, and each id has one of them. -/
structure Bijective (D : Dictionary N Char) (r : Registries N) : Prop where
  node : ∀ id < r.nodes.size, ∃ path, Spells r.dictionaryNodes id path ∧ D.node? path = (r.nodes.getNode id).map Owned.value ∧
    ∀ id' path', Spells r.dictionaryNodes id' path' → (id' = id ↔ path' = path)
  child : ∀ {id id' parent parent' label label'}, r.nodes.id? (.child parent label) = some id →
    r.nodes.id? (.child parent' label') = some id' → (id = id' ↔ parent = parent' ∧ label = label')
  product : ∀ {id id' product product'}, r.states.get id = some (.product product) → r.states.get id' = some (.product product') →
    (id = id' ↔ product = product')
  productId : ∀ {id product}, r.states.productId product = some id ↔ r.states.get id = some (.product product)
  chain : ∀ {id id' emit emit'}, r.states.get id = some (.emit emit) → r.states.get id' = some (.emit emit') →
    (id = id' ↔ emit.chain = emit'.chain ∧ emit.position = emit'.position)
  chainId : ∀ {chain first}, r.states.chainId chain = some first ↔ 1 < chain.width ∧ ∃ next, r.states.get first = some (.emit ⟨chain, 1, next⟩)

theorem bijective_of_wellFormed (hr : r.WellFormed D) : Bijective D r := by
  refine ⟨fun id hlt => ?_, fun {id id' parent parent' label label'} hid hid' => ?_, fun {id id' product product'} hget hget' => ?_,
    hr.states.product_iff, fun {id id' emit emit'} hget hget' => ?_, fun {chain first} => ?_⟩
  · obtain ⟨path, hspells⟩ := hr.nodes.exists_path (by rwa [Registries.dictionaryNodes, Interner.size_mapValues] : id < r.dictionaryNodes.size)
    obtain ⟨n, hn, hget⟩ := hr.nodes.node hspells
    refine ⟨path, hspells, hn.trans (hget.symm.trans Interner.value?_mapValues), fun id' path' hspells' => ⟨?_, ?_⟩⟩
    · rintro rfl
      exact hr.nodes.path_unique hspells' hspells
    · rintro rfl
      exact hspells'.id_unique hspells
  · constructor
    · rintro rfl
      exact DictionaryNodeKey.child_injective (Interner.id?_injective hid hid')
    · rintro ⟨rfl, rfl⟩
      exact Option.some.inj (hid.symm.trans hid')
  · constructor
    · rintro rfl
      simpa using hget.symm.trans hget'
    · rintro rfl
      exact Option.some.inj ((hr.states.product_iff.mpr hget).symm.trans (hr.states.product_iff.mpr hget'))
  · obtain ⟨hpos, hlt, first, hfirst, hid⟩ := hr.states.chain_of_get hget
    obtain ⟨hpos', hlt', first', hfirst', hid'⟩ := hr.states.chain_of_get hget'
    rw [← hr.states.chain_position_inj hfirst hfirst' hpos hlt hpos' hlt', ← hid, ← hid', Nat.add_right_cancel_iff]
  · constructor
    · intro hid
      have hwidth := (hr.states.target hid).1
      exact ⟨hwidth, _, hr.states.chain_get hid 1 le_rfl hwidth⟩
    · intro h
      obtain ⟨hwidth, next, hget⟩ := h
      obtain ⟨-, -, first', hfirst', heq⟩ := hr.states.chain_of_get hget
      dsimp only at hfirst' heq
      rw [hfirst', Nat.add_right_cancel heq]

/-- However the steps of clones interleave, the registries that they share give each node, product state and chain one id; they only
    grow, so that no id changes its meaning; all ids that are referred to are registered, and what is retained stays within the
    limits. Each step grows the registries as the other clones rely on. -/
theorem clones_share_registries [DecidableEq ι] [DecidableEq R] {lib : OperationLibrary R} {query : List Char} {maxDistance owner : Nat}
    {operations : OperationSet R} {limits : GeneralizedWfstLimits} (hD : D.DistinctLabels)
    (h : tryNewWithLimits D.provider lib query maxDistance operations limits = .ok src)
    (hrun : Relation.ReflTransGen (CloneStep D src) (newClones src owner) σ) :
    Bijective D σ.registries ∧
    (∀ {σ'}, Relation.ReflTransGen (CloneStep D src) σ σ' → σ.registries.nodes ≤ σ'.registries.nodes ∧
      σ.registries.states.idToState <+: σ'.registries.states.idToState) ∧
    (∀ {state value}, (state, value) ∈ σ.returned → ∀ arc ∈ value.arcs, ∃ registered, σ.registries.states.get arc.target = some registered) ∧
    (∀ {id emit}, σ.registries.states.get id = some (.emit emit) → ∃ registered, σ.registries.states.get emit.next = some registered) ∧
    (∀ {id product}, σ.registries.states.get id = some (.product product) →
      (∃ node, σ.registries.nodes.getNode product.dictNodeId = some node) ∧ isCharBoundary query product.queryBytePos = true ∧
        product.cost ≤ src.maxCost) ∧
    σ.registries.nodes.size ≤ limits.maxRetainedDictionaryNodes ∧ σ.registries.states.len ≤ limits.maxRetainedWfstStates ∧
    ∀ {σ'}, CloneStep D src σ σ' → Grows D src σ.registries σ'.registries := by
  obtain ⟨hsrc, -, hquery⟩ := arguments_eq h
  have hlimits : src.limits = limits := by
    obtain ⟨-, _, _, _, _, -, -, -, -, rfl⟩ := of_tryNewWithLimits h
    rfl
  have hslots := slotsFit h
  have hnew : Consistent D src (newClones src owner : SharedClones ι N) :=
    ⟨wellFormed_newRegistries hsrc owner, retains_newRegistries h, nofun, nofun⟩
  obtain ⟨-, hconsistent⟩ := hnew.run hD hsrc hslots hrun
  have hretains := hconsistent.retains
  refine ⟨bijective_of_wellFormed hconsistent.wellFormed, fun hrun' => ?_, hconsistent.returned, exists_next hconsistent.wellFormed,
    fun {id product} hget => ?_, hlimits ▸ hretains.nodes_le, hlimits ▸ hretains.states_le,
    fun hstep => (hconsistent.step hD hsrc hslots hstep).1⟩
  · obtain ⟨hgrows, -⟩ := hconsistent.run hD hsrc hslots hrun'
    exact ⟨hgrows.published.nodes_le, hgrows.published.states_prefix⟩
  · obtain ⟨hnode, hposition, hcost⟩ := hretains.product hget
    exact ⟨Interner.exists_value? hnode, hquery ▸ hposition, hcost⟩

/-- Whether a clone of a constructed source stages an expansion of the start and commits it in one turn. -/
def commitsAtOnce (constructed : Except GeneralizedWfstError (GeneralizedWfst (List Char) Unit)) : Bool :=
  match constructed with
  | .ok src =>
    match src.stageExpansion (.alone _) start (.fresh (src.newRegistries 0) 0) with
    | (.ok (.pending pending), s) =>
      match src.commitTurn (.alone _) pending s with
      | (.ok (.inr _), _) => true
      | _ => false
    | _ => false
  | .error _ => false

/-- One of two clones of the transposing source stages an expansion and commits it. -/
theorem clones_share_registries_transposing : ∃ src, ∃ σ : SharedClones Bool (List Char), transposing = .ok src ∧
    Relation.ReflTransGen (CloneStep (trie [['b', 'a']]).toDictionary src) (newClones src 0) σ ∧ σ.returned.length = 1 ∧
    Bijective (trie [['b', 'a']]).toDictionary σ.registries := by
  have hcommits : commitsAtOnce transposing = true := by decide +kernel
  unfold commitsAtOnce at hcommits
  split at hcommits
  · rename_i src hsrc
    split at hcommits
    · rename_i pending s hstage
      split at hcommits
      · rename_i value s' hcommit
        have halone : (Environment.alone (List Char)).GrowsWith (trie [['b', 'a']]).toDictionary src := fun _ r => .refl r
        let σ : SharedClones Bool (List Char) := ⟨s.registries, Function.update (fun _ => .idle) true (.committing pending s), []⟩
        have hidle : (newClones src 0 : SharedClones Bool (List Char)).activity true = .idle := rfl
        have hcommitting : σ.activity true = .committing pending s := by simp [σ]
        have hrun : Relation.ReflTransGen (CloneStep (trie [['b', 'a']]).toDictionary src) (newClones src 0) _ :=
          .tail (.tail .refl (.stage hidle halone hstage)) (.commit hcommitting halone hcommit)
        exact ⟨src, _, hsrc, hrun, rfl, (clones_share_registries (trie [['b', 'a']]).labels_nodup hsrc hrun).1⟩
      · cases hcommits
    · cases hcommits
  · cases hcommits

end GeneralizedWfst
end Duallity
