import Duallity.Generalized.Sharing

/-! Batches of product states and emission chains. While a batch is built its ids are computed from lengths; they are the ids
    that the states get when the batch is committed. -/

namespace Duallity
namespace StateRegistry
variable {r r' : StateRegistry} {state : RegisteredState} {states : List RegisteredState} {id : Nat}

@[simp] theorem idToState_insertState : (r.insertState id state).idToState = r.idToState ++ [state] := by
  cases state with
  | product product => rfl
  | emit emit =>
    simp only [insertState]
    split <;> rfl

theorem get_mono (h : r.idToState <+: r'.idToState) (hget : r.get id = some state) : r'.get id = some state := by
  obtain ⟨rest, hrest⟩ := h
  rw [get, ← hrest, List.getElem?_append_left (List.getElem?_eq_some_iff.mp hget).1]
  exact hget

theorem lt_len_of_get (hget : r.get id = some state) : id < r.len := (List.getElem?_eq_some_iff.mp hget).1

/-- A state is an old one, or one of those that have been appended. -/
theorem get_append (h : r'.idToState = r.idToState ++ states) :
    r'.get id = if id < r.len then r.get id else states[id - r.len]? := by
  rw [get, h]
  split
  · rename_i hlt
    exact List.getElem?_append_left hlt
  · rename_i hle
    exact List.getElem?_append_right (Nat.le_of_not_lt hle)

theorem commitPrepared_append (states' : List RegisteredState) :
    r.commitPrepared (states ++ states') = (r.commitPrepared states).bind fun r' => r'.commitPrepared states' :=
  List.foldlM_append

theorem commitPrepared_singleton (h : r.len < u32Max) : r.commitPrepared [state] = some (r.insertState r.len state) := by
  simp [commitPrepared, nextStateId, h]

/-- The later positions of chains get ids, and nothing else is recorded. -/
theorem commitPrepared_tail (htail : ∀ state ∈ states, ∃ emit, state = .emit emit ∧ emit.position ≠ 1)
    (hlen : r.len + states.length ≤ u32Max) : r.commitPrepared states = some { r with idToState := r.idToState ++ states } := by
  induction states generalizing r with
  | nil => simp [commitPrepared]
  | cons state states ih =>
    obtain ⟨emit, rfl, hposition⟩ := htail _ List.mem_cons_self
    rw [List.length_cons] at hlen
    rw [← List.singleton_append, commitPrepared_append, commitPrepared_singleton (by omega), Option.bind_some, insertState,
      if_neg hposition, ih fun state hstate => htail state (List.mem_cons_of_mem _ hstate)]
    · simp
    · simp only [len, List.length_append, List.length_singleton] at hlen ⊢
      omega

/-! ### What growth keeps -/

theorem WellFormed.chainId_mono (h : r.WellFormed) (h' : r'.WellFormed) (hgrows : r.idToState <+: r'.idToState)
    {chain : EmissionChain} {first : Nat} (hid : r.chainId chain = some first) : r'.chainId chain = some first := by
  have hget := get_mono hgrows (h.chain_get hid 1 (Nat.le_refl 1) (h.target hid).1)
  obtain ⟨-, -, first', hid', heq⟩ := h'.chain_of_get hget
  dsimp only at hid' heq
  have hpos := (h.target hid).1
  rw [hid']
  congr 1
  omega

/-! ### Committing -/

/-- A product that is not registered gets the next id. -/
theorem WellFormed.insertProduct (h : r.WellFormed) {product : ProductState} (hnew : r.productId product = none)
    (hlen : r.len < u32Max) : (r.insertState r.len (.product product)).WellFormed := by
  have hget : ∀ id, (r.insertState r.len (.product product)).get id = if id < r.len then r.get id else [.product product][id - r.len]? :=
    fun id => get_append idToState_insertState
  have hold : ∀ {id state}, r.get id = some state → (r.insertState r.len (.product product)).get id = some state := by
    intro id state hid
    rw [hget, if_pos (lt_len_of_get hid), hid]
  refine ⟨fun {product' id} => ?_, fun {chain first} hid position hpos hlt => hold (h.chain_get hid position hpos hlt),
    fun {id emit} hid => ?_, fun {chain first} hid => ?_, ?_⟩
  · have hlookup : (r.insertState r.len (.product product)).productId product' =
        if product' = product then some r.len else r.productId product' := by
      simp only [insertState, productId, List.lookup_cons]
      by_cases heq : product' = product <;> simp [heq, beq_false_of_ne]
    rw [hlookup, hget]
    by_cases hlt : id < r.len
    · rw [if_pos hlt, ← h.product_iff]
      split
      · rename_i heq
        rw [heq, hnew]
        simp only [Option.some.injEq, reduceCtorEq, iff_false]
        omega
      · rfl
    · rw [if_neg hlt]
      have hnone : r.get id = none := List.getElem?_eq_none (Nat.le_of_not_lt hlt)
      have hother : r.productId product' ≠ some id := by
        rw [Ne, h.product_iff, hnone]
        simp
      by_cases hid : id = r.len
      · simp only [hid, Nat.sub_self, List.getElem?_cons_zero, Option.some.injEq, RegisteredState.product.injEq]
        by_cases heq : product' = product
        · simp [heq]
        · rw [hid] at hother
          simp [heq, hother, Ne.symm heq]
      · rw [List.getElem?_eq_none (by simp; omega)]
        split <;> simp [hother, Ne.symm hid]
  · rw [hget] at hid
    split at hid
    · exact h.chain_of_get hid
    · rename_i hle
      have := List.mem_of_getElem? hid
      simp at this
  · obtain ⟨hwidth, product', htarget⟩ := h.target hid
    exact ⟨hwidth, product', hold htarget⟩
  · simp only [len, idToState_insertState, List.length_append, List.length_singleton] at hlen ⊢
    omega

end StateRegistry

/-- States keep their ids. -/
theorem Published.get {N : Type} {D : Dictionary N Char} {r r' : Registries N} {id : Nat} {state : RegisteredState} (h : Published D r r')
    (hget : r.states.get id = some state) : r'.states.get id = some state := StateRegistry.get_mono h.states_prefix hget

namespace StateBatch
variable {chain : EmissionChain} {first position : Nat}

theorem length_chainStates : (chainStates chain first chain.width).length = chain.width - 1 := by simp [chainStates]

theorem getElem?_chainStates {index : Nat} (h : index + 1 < chain.width) :
    (chainStates chain first chain.width)[index]? = some (.emit ⟨chain, index + 1, chain.next first (index + 1)⟩) := by
  rw [chainStates, List.getElem?_map, List.getElem?_range' (by omega)]
  simp only [Option.map_some, Option.some.injEq, RegisteredState.emit.injEq, EmitState.mk.injEq, true_and]
  exact ⟨by omega, by rw [EmissionChain.next]; simp only [Nat.one_mul, Nat.add_comm 1 index]⟩

theorem mem_chainStates {state : RegisteredState} (h : state ∈ chainStates chain first chain.width) :
    ∃ position, 1 ≤ position ∧ position < chain.width ∧ state = .emit ⟨chain, position, chain.next first position⟩ := by
  obtain ⟨position, hposition, rfl⟩ := List.mem_map.mp h
  rw [List.mem_range'_1] at hposition
  exact ⟨position, hposition.1, by omega, rfl⟩

end StateBatch

namespace StateRegistry
open StateBatch
variable {r : StateRegistry} {chain : EmissionChain}

/-- The registry with the states of a chain appended. -/
def withChain (r : StateRegistry) (chain : EmissionChain) : StateRegistry :=
  { r with chainToId := (chain, r.len) :: r.chainToId, idToState := r.idToState ++ chainStates chain r.len chain.width }

theorem commitPrepared_chainStates (hwidth : 1 < chain.width) (hlen : r.len + (chain.width - 1) ≤ u32Max) :
    r.commitPrepared (chainStates chain r.len chain.width) = some (r.withChain chain) := by
  obtain ⟨width, hw⟩ : ∃ width, chain.width = width + 2 := ⟨chain.width - 2, by omega⟩
  have hcons : chainStates chain r.len chain.width = .emit ⟨chain, 1, chain.next r.len 1⟩ ::
      (List.range' 2 width).map fun position => .emit ⟨chain, position, chain.next r.len position⟩ := by
    have hcount : width + 2 - 1 = width + 1 := rfl
    rw [chainStates, hw, hcount, List.range'_succ, List.map_cons]
    simp only [EmissionChain.next, hw]
  have htail : ∀ state ∈ (List.range' 2 width).map fun position => RegisteredState.emit ⟨chain, position, chain.next r.len position⟩,
      ∃ emit, state = .emit emit ∧ emit.position ≠ 1 := by
    intro state hstate
    obtain ⟨position, hposition, rfl⟩ := List.mem_map.mp hstate
    rw [List.mem_range'_1] at hposition
    exact ⟨_, rfl, by dsimp only; omega⟩
  rw [withChain, hcons, ← List.singleton_append, commitPrepared_append, commitPrepared_singleton (by omega), Option.bind_some,
    commitPrepared_tail htail]
  · simp [insertState]
  · simp only [len, idToState_insertState, List.length_append, List.length_singleton, List.length_map, List.length_range'] at hlen ⊢
    omega

/-- A chain that is not registered gets the next ids for its positions. -/
theorem WellFormed.withChain (h : r.WellFormed) (hnew : r.chainId chain = none) (hwidth : 1 < chain.width)
    (htarget : ∃ product, r.get chain.target = some (.product product)) (hlen : r.len + (chain.width - 1) ≤ u32Max) :
    (r.withChain chain).WellFormed := by
  have hget : ∀ id, (r.withChain chain).get id = if id < r.len then r.get id else (chainStates chain r.len chain.width)[id - r.len]? :=
    fun id => get_append rfl
  have hold : ∀ {id state}, r.get id = some state → (r.withChain chain).get id = some state := by
    intro id state hid
    rw [hget, if_pos (lt_len_of_get hid), hid]
  have hlookup : ∀ chain', (r.withChain chain).chainId chain' = if chain' = chain then some r.len else r.chainId chain' := by
    intro chain'
    simp only [StateRegistry.withChain, chainId, List.lookup_cons]
    by_cases heq : chain' = chain <;> simp [heq, beq_false_of_ne]
  have hmono : ∀ {chain' first}, r.chainId chain' = some first → (r.withChain chain).chainId chain' = some first := by
    intro chain' first hid
    rw [hlookup, if_neg, hid]
    rintro rfl
    rw [hnew] at hid
    cases hid
  refine ⟨fun {product id} => ?_, fun {chain' first} hid position hpos hlt => ?_, fun {id emit} hid => ?_, fun {chain' first} hid => ?_, ?_⟩
  · have hproduct : (r.withChain chain).productId product = r.productId product := rfl
    rw [hproduct, h.product_iff, hget]
    split
    · rfl
    · rename_i hge
      have hnone : r.get id = none := List.getElem?_eq_none (Nat.le_of_not_lt hge)
      refine ⟨fun hid => (by rw [hnone] at hid; cases hid), fun hid => ?_⟩
      obtain ⟨position, -, -, heq⟩ := mem_chainStates (List.mem_of_getElem? hid)
      cases heq
  · rw [hlookup] at hid
    split at hid
    · rename_i heq
      obtain rfl := Option.some.inj hid
      rw [heq] at hlt ⊢
      have hindex : r.len + position - 1 - r.len + 1 = position := by omega
      rw [hget, if_neg (by omega), getElem?_chainStates (by omega), hindex]
    · exact hold (h.chain_get hid position hpos hlt)
  · rw [hget] at hid
    split at hid
    · obtain ⟨hpos, hlt, first, hfirst, heq⟩ := h.chain_of_get hid
      exact ⟨hpos, hlt, first, hmono hfirst, heq⟩
    · rename_i hge
      have hlt := (List.getElem?_eq_some_iff.mp hid).1
      rw [length_chainStates] at hlt
      rw [getElem?_chainStates (by omega)] at hid
      cases hid
      refine ⟨by dsimp only; omega, by dsimp only; omega, r.len, ?_, ?_⟩
      · rw [hlookup, if_pos rfl]
      · dsimp only
        omega
  · rw [hlookup] at hid
    split at hid
    · rename_i heq
      obtain ⟨product, hproduct⟩ := htarget
      rw [heq]
      exact ⟨hwidth, product, hold hproduct⟩
    · obtain ⟨hwidth', product, hproduct⟩ := h.target hid
      exact ⟨hwidth', product, hold hproduct⟩
  · simp only [len, StateRegistry.withChain, List.length_append, length_chainStates] at hlen ⊢
    exact hlen

end StateRegistry

/-! ### Building a batch -/

/-- `r'` is the registry that a commit of the batch to `r` leaves; the batch knows the ids of its states already. -/
structure StateBatch.Prepares (batch : StateBatch) (r r' : StateRegistry) : Prop where
  committed : r.commitPrepared batch.states = some r'
  wellFormed : r'.WellFormed
  states : r'.idToState = r.idToState ++ batch.states
  products : ∀ product, (r.productId product).or (batch.products.lookup product) = r'.productId product
  chains : ∀ chain, (r.chainId chain).or (batch.chains.lookup chain) = r'.chainId chain

namespace StateBatch
open ExpansionBudget StateRegistry
variable {N : Type} {env : Environment N} {batch : StateBatch} {r r' : StateRegistry} {limit : Nat} {p : Registries N → Prop}

/-- A key that is new to both lists. -/
theorem or_lookup_cons {κ : Type} [DecidableEq κ] {known : κ → Option Nat} {added all : List (κ × Nat)} {key : κ} (id : Nat)
    (h : ∀ key, (known key).or (added.lookup key) = all.lookup key) (hnew : all.lookup key = none) (key' : κ) :
    (known key').or (((key, id) :: added).lookup key') = ((key, id) :: all).lookup key' := by
  by_cases heq : key' = key
  · have hknown : known key = none := (Option.or_eq_none_iff.mp ((h key).trans hnew)).1
    simp [heq, hknown]
  · rw [Interner.lookup_cons_ne heq, Interner.lookup_cons_ne heq]
    exact h key'

theorem Prepares.new (h : r.WellFormed) : StateBatch.new.Prepares r r :=
  ⟨rfl, h, by simp [StateBatch.new], by simp [StateBatch.new], by simp [StateBatch.new]⟩

theorem Prepares.len_eq (h : batch.Prepares r r') : r'.len = r.len + batch.states.length := by
  rw [len, h.states, List.length_append]
  rfl

theorem Prepares.grows (h : batch.Prepares r r') : r.idToState <+: r'.idToState := ⟨batch.states, h.states.symm⟩

/-- A count that passes is not zero, and its last id is not `NO_STATE`. -/
theorem checkedStateCount_fits (required : Nat) :
    Effect.Triple (fun s => p s.registries) (checkedStateCount required limit)
      (fun id s => p s.registries ∧ id + 1 = required ∧ required ≤ u32Max) Reported := by
  refine Effect.Triple.bind (Q := fun _ s => p s.registries) (Quiet.expansionFailure p) fun _ => .orFail ?_ fun _ s _ => by simp [Reported]
  intro id hid s hs
  by_cases hzero : required = 0
  · simp [hzero] at hid
  · rw [if_neg hzero, nextStateId, Option.ite_none_right_eq_some, Option.some.injEq] at hid
    exact ⟨hs, by omega, by omega⟩

theorem nextId_fits (batch : StateBatch) (r : StateRegistry) :
    Effect.Triple (fun s => p s.registries) (batch.nextId r limit)
      (fun id s => p s.registries ∧ id = r.len + batch.states.length ∧ id < u32Max) Reported := by
  refine Effect.Triple.bind_orFail_of (a := r.len + batch.states.length) (fun index hindex => (checkedAdd_eq_some.mp hindex).1)
    (fun s _ => by simp [Reported]) ?_
  refine Effect.Triple.bind_orFail_of (a := r.len + batch.states.length + 1)
    (fun required hrequired => (checkedAdd_eq_some.mp hrequired).1) (fun s _ => by simp [Reported]) ?_
  refine (checkedStateCount_fits _).post fun id s hs => ⟨hs.1, ?_⟩
  obtain ⟨-, heq, hle⟩ := hs
  omega

/-- A product joins the batch under the id it has or will have. -/
theorem product_fits (h : batch.Prepares r r') (state : ProductState) :
    Effect.Triple (fun s => p s.registries) (batch.product r state limit)
      (fun found s => p s.registries ∧ ∃ r'', found.1.Prepares r r'' ∧ r'.idToState <+: r''.idToState ∧
        r''.get found.2 = some (.product state)) Reported := by
  unfold StateBatch.product
  rw [h.products]
  cases hid : r'.productId state with
  | some id => exact .pure fun s hs => ⟨hs, r', h, List.prefix_rfl, h.wellFormed.product_iff.mp hid⟩
  | none =>
    refine Effect.Triple.bind (nextId_fits batch r) fun id => .of_fact fun ⟨hnext, hlt⟩ => .pure fun s hs => ⟨hs, ?_⟩
    rw [← h.len_eq] at hnext
    rw [hnext] at hlt ⊢
    have hnew := h.wellFormed.insertProduct hid hlt
    refine ⟨r'.insertState r'.len (.product state), ⟨?_, hnew, ?_, fun product => ?_, h.chains⟩, ?_, ?_⟩
    · rw [commitPrepared_append, h.committed, Option.bind_some, commitPrepared_singleton hlt]
    · rw [idToState_insertState, h.states, List.append_assoc]
    · exact or_lookup_cons r'.len h.products hid product
    · rw [idToState_insertState]
      exact List.prefix_append _ _
    · rw [get_append idToState_insertState]
      simp

/-- A chain joins the batch under the id that its first position has or will have. -/
theorem chain_fits (h : batch.Prepares r r') (chain : EmissionChain) (hwidth : 1 < chain.width)
    (htarget : ∃ product, r'.get chain.target = some (.product product)) :
    Effect.Triple (fun s => p s.registries) (batch.chain env r chain limit)
      (fun found s => p s.registries ∧ ∃ r'', found.1.Prepares r r'' ∧ r'.idToState <+: r''.idToState ∧
        r''.chainId chain = some found.2) Reported := by
  unfold StateBatch.chain
  have hmany : ¬max chain.input.length chain.output.length ≤ 1 := Nat.not_le.mpr hwidth
  dsimp only
  rw [if_neg hmany, h.chains]
  cases hid : r'.chainId chain with
  | some first => exact .pure fun s hs => ⟨hs, r', h, List.prefix_rfl, hid⟩
  | none =>
    refine Effect.Triple.bind (nextId_fits batch r) fun first => .of_fact fun ⟨hnext, _⟩ => ?_
    rw [← h.len_eq] at hnext
    rw [hnext]
    refine Effect.Triple.bind_orFail_of (a := r'.len + (chain.width - 1)) ?_ (fun s _ => by simp [Reported]) ?_
    · intro required hrequired
      simp only [Option.bind_eq_some_iff, checkedAdd_eq_some] at hrequired
      obtain ⟨base, ⟨hbase, -⟩, heq, -⟩ := hrequired
      rw [heq, hbase, h.len_eq, EmissionChain.width]
    refine Effect.Triple.bind (checkedStateCount_fits _) fun last => .of_fact fun ⟨_, hlen⟩ => ?_
    refine (Quiet.tryReserve env p).bind fun _ => .pure fun s hs => ⟨hs, r'.withChain chain, ⟨?_, ?_, ?_, h.products, ?_⟩, ?_, ?_⟩
    · rw [commitPrepared_append, h.committed, Option.bind_some]
      exact commitPrepared_chainStates hwidth hlen
    · exact h.wellFormed.withChain hid hwidth htarget hlen
    · rw [withChain, h.states, List.append_assoc]
      rfl
    · exact or_lookup_cons r'.len h.chains hid
    · exact List.prefix_append _ _
    · simp [chainId, withChain]

end StateBatch
end Duallity
