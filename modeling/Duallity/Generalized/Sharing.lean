import Duallity.Generalized.Computation

/-! What the clones of a transducer share: registries in which every node id stands for a path of the dictionary and every
    emission state has its place in a chain. Clones only add to them. -/

namespace Duallity

/-- The nodes under their ids, whoever owns them. -/
def Registries.dictionaryNodes {N : Type} (r : Registries N) : DictionaryNodeRegistry N := r.nodes.mapValues Owned.value

namespace EmissionChain

/-- The labels of a chain are emitted by as many arcs. -/
def width (chain : EmissionChain) : Nat := max chain.input.length chain.output.length

/-- Where the state of a position leads, in a chain whose first position has the id `first`. -/
def next (chain : EmissionChain) (first position : Nat) : Nat :=
  if position + 1 = chain.width then chain.target else first + position

end EmissionChain

/-- Products and chains have ids of their own, and the positions of a chain follow each other. -/
structure StateRegistry.WellFormed (r : StateRegistry) : Prop where
  product_iff : ∀ {product id}, r.productId product = some id ↔ r.get id = some (.product product)
  chain_get : ∀ {chain first}, r.chainId chain = some first → ∀ position, 1 ≤ position → position < chain.width →
    r.get (first + position - 1) = some (.emit ⟨chain, position, chain.next first position⟩)
  chain_of_get : ∀ {id emit}, r.get id = some (.emit emit) → 1 ≤ emit.position ∧ emit.position < emit.chain.width ∧
    ∃ first, r.chainId emit.chain = some first ∧ id + 1 = first + emit.position
  target : ∀ {chain first}, r.chainId chain = some first → 1 < chain.width ∧ ∃ product, r.get chain.target = some (.product product)
  len_le : r.len ≤ u32Max

structure Registries.WellFormed {N : Type} (D : Dictionary N Char) (r : Registries N) : Prop where
  nodes : DictionaryNodeRegistry.WellFormed D r.dictionaryNodes
  states : r.states.WellFormed

/-- What one clone does to the registries in the eyes of another. -/
structure Published {N : Type} (D : Dictionary N Char) (r r' : Registries N) : Prop where
  nodes_le : r.nodes ≤ r'.nodes
  states_prefix : r.states.idToState <+: r'.states.idToState
  wellFormed : r.WellFormed D → r'.WellFormed D

/-- Other clones publish what expansions commit. -/
def Environment.Publishes {N : Type} (D : Dictionary N Char) (env : Environment N) : Prop :=
  ∀ tick r, Published D r (env.clones tick r)

/-- An environment in which nothing fails and no other clone is at work. -/
def Environment.alone (N : Type) : Environment N := ⟨fun _ => none, fun _ => none, fun _ => true, id, fun _ r => r⟩

namespace Published
variable {N : Type} {D : Dictionary N Char} {r r' r'' : Registries N}

theorem refl (r : Registries N) : Published D r r := ⟨le_rfl, List.prefix_rfl, id⟩

theorem trans (h : Published D r r') (h' : Published D r' r'') : Published D r r'' :=
  ⟨h.nodes_le.trans h'.nodes_le, h.states_prefix.trans h'.states_prefix, fun hr => h'.wellFormed (h.wellFormed hr)⟩

theorem dictionaryNodes_le (h : Published D r r') : r.dictionaryNodes ≤ r'.dictionaryNodes :=
  Interner.mapValues_mono Owned.value h.nodes_le

theorem spells {id : Nat} {path : List Char} (h : Published D r r')
    (hs : DictionaryNodeRegistry.Spells r.dictionaryNodes id path) : DictionaryNodeRegistry.Spells r'.dictionaryNodes id path :=
  hs.mono h.dictionaryNodes_le

theorem alone (D : Dictionary N Char) : (Environment.alone N).Publishes D := fun _ r => refl r

end Published

/-- The registries of a new transducer. -/
theorem GeneralizedWfst.wellFormed_newRegistries {N R : Type} {D : Dictionary N Char} {src : GeneralizedWfst N R}
    (hsrc : src.dictionary = D.provider) (owner : Nat) : (src.newRegistries owner).WellFormed D := by
  have hroot : src.dictionary.root = D.root := by rw [hsrc, Dictionary.provider]
  refine ⟨?_, ?_, ?_, ?_, ?_, ?_⟩
  · have hnodes : (src.newRegistries owner).dictionaryNodes = DictionaryNodeRegistry.new D.root := by
      rw [Registries.dictionaryNodes, newRegistries, hroot, DictionaryNodeRegistry.new_eq, DictionaryNodeRegistry.new_eq,
        Interner.mapValues_push]
      rfl
    rw [hnodes]
    exact DictionaryNodeRegistry.wellFormed_new
  · intro product id
    by_cases h : product = StateRegistry.startState
    · cases id <;> simp [newRegistries, StateRegistry.new, StateRegistry.productId, StateRegistry.get, h]
    · cases id <;> simp [newRegistries, StateRegistry.new, StateRegistry.productId, StateRegistry.get, List.lookup_cons,
        beq_false_of_ne h, Ne.symm h]
  · intro chain first h
    simp [newRegistries, StateRegistry.new, StateRegistry.chainId] at h
  · intro id emit h
    cases id <;> simp [newRegistries, StateRegistry.new, StateRegistry.get] at h
  · intro chain first h
    simp [newRegistries, StateRegistry.new, StateRegistry.chainId] at h
  · simp [newRegistries, StateRegistry.new, StateRegistry.len, u32Max]

/-! ### Steps that publish nothing -/

section Quiet
open ExpansionBudget
variable {N : Type} {α β γ : Type} {p : Registries N → Prop} {limits : GeneralizedWfstLimits} {u : Nat}

/-- The error is one that the source reports. -/
def Reported (e : ExpansionError) (_ : ExpansionState N) : Prop := ∀ message, e ≠ .panicked message

/-- `m` does not write to the registries and does not panic. -/
def Quiet (m : ExpansionM N α) : Prop :=
  ∀ p : Registries N → Prop, Effect.Triple (fun s => p s.registries) m (fun _ s => p s.registries) Reported

namespace Quiet
variable {m : ExpansionM N α} {f : α → ExpansionM N β}

theorem pure {a : α} : Quiet (Pure.pure a : ExpansionM N α) := fun _ => .pure fun _ h => h

theorem fail {e : ExpansionError} (he : ∀ message, e ≠ .panicked message) : Quiet (Effect.fail e : ExpansionM N α) := fun _ =>
  .fail fun _ _ => he

theorem read {g : ExpansionState N → α} : Quiet (Effect.read g) := fun _ => .read fun _ h => h

theorem update {g : ExpansionState N → ExpansionState N} (h : ∀ s, (g s).registries = s.registries) : Quiet (Effect.update g) :=
  fun _ => .update fun s hs => by rwa [h s]

theorem orFail {e : ExpansionError} {o : Option α} (he : ∀ message, e ≠ .panicked message) :
    Quiet (Effect.orFail e o : ExpansionM N α) := by
  cases o with
  | some a => exact pure
  | none => exact fail he

theorem bind (h : Quiet m) (hf : ∀ a, Quiet (f a)) : Quiet (m >>= f) := fun p => (h p).bind fun a => hf a p

theorem answer {g : Nat → α} : Quiet (answer g : ExpansionM N α) :=
  read.bind fun _ => (update fun _ => by rfl).bind fun _ => .pure

variable (env : Environment N)

theorem checkCancelled : Quiet (checkCancelled env) := by
  refine answer.bind fun reason => ?_
  cases reason with
  | none => exact .pure
  | some reason => exact .fail (by simp)

theorem checkSource : Quiet (checkSource env) := by
  refine answer.bind fun fault => ?_
  cases fault with
  | none => exact .pure
  | some fault => exact .fail (by simp)

theorem tryReserve {context : String} : Quiet (tryReserve env context) := by
  refine answer.bind fun reserved => ?_
  cases reserved with
  | true => exact .pure
  | false => exact .fail (by simp)

theorem expansionFailure {r : Except GeneralizedWfstError Unit} : Quiet (expansionFailure r : ExpansionM N Unit) := by
  cases r with
  | ok => exact .pure
  | error e => exact .fail (by simp)

theorem chargeWork : Quiet (chargeWork env limits u) := by
  refine (checkCancelled env).bind fun _ => read.bind fun work => ?_
  split
  · exact .fail (by simp)
  · exact (update fun _ => by rfl).bind fun _ => expansionFailure

theorem chargePath : Quiet (chargePath env limits) := by
  refine (checkCancelled env).bind fun _ => read.bind fun paths => ?_
  split
  · exact .fail (by simp)
  · exact (update fun _ => by rfl).bind fun _ => expansionFailure

end Quiet

/-- What is read under a lock is what the registries hold then. -/
theorem readShared_spec {env : Environment N} {f : Registries N → α} (hp : ∀ {tick r}, p r → p (env.clones tick r))
    {E : ExpansionError → ExpansionState N → Prop} :
    Effect.Triple (fun s => p s.registries) (readShared env f) (fun a s => p s.registries ∧ a = f s.registries) E :=
  Effect.Triple.bind (Q := fun _ s => p s.registries) (.update fun _ hs => hp hs) fun _ => .read fun _ hs => ⟨hs, rfl⟩

/-- Only other clones write to the registries while `m` runs, and `m` does not panic. -/
def Shares (D : Dictionary N Char) (m : ExpansionM N α) : Prop :=
  ∀ p : Registries N → Prop, (∀ {r r'}, Published D r r' → p r → p r') →
    Effect.Triple (fun s => p s.registries) m (fun _ s => p s.registries) Reported

theorem Quiet.shares {D : Dictionary N Char} {m : ExpansionM N α} (h : Quiet m) : Shares D m := fun p _ => h p

namespace Shares
variable {D : Dictionary N Char} {m : ExpansionM N α} {f : α → ExpansionM N β} {env : Environment N}

theorem readShared (henv : env.Publishes D) {g : Registries N → α} : Shares D (readShared env g) := fun _ hp =>
  (readShared_spec fun hr => hp (henv _ _) hr).post fun _ _ hs => hs.1

theorem bind (h : Shares D m) (hf : ∀ a, Shares D (f a)) : Shares D (m >>= f) := fun p hp => (h p hp).bind fun a => hf a p hp

theorem loop {turn : β → ExpansionM N (β ⊕ α)} (h : ∀ b, Shares D (turn b)) (fuel : Nat) (b : β) :
    Shares D (Effect.loop .outOfFuel turn fuel b) := by
  intro p hp
  refine Effect.Triple.loop (I := fun _ _ (s : ExpansionState N) => p s.registries) ?_ ?_ fuel b
  · intro b s _ message h
    cases h
  · intro fuel b
    refine (h b p hp).post fun r s hs => ?_
    cases r <;> exact hs

end Shares
end Quiet
end Duallity
