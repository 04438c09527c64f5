import Duallity.Generalized.Batches
import Duallity.Generalized.Budget

/-! What a commit retains. Its additions stay within the limits on retained nodes and states, and each product state it adds
    is the target of one of its arcs. -/

namespace Duallity

/-- What is retained stays within the limits, and each product state has its node, stands between characters of the query and
    costs no more than an expansion accepts. -/
structure Registries.Retains {N R : Type} (src : GeneralizedWfst N R) (r : Registries N) : Prop where
  product : ∀ {id product}, r.states.get id = some (.product product) → product.dictNodeId < r.nodes.size ∧
    GeneralizedOps.isCharBoundary src.query product.queryBytePos = true ∧ product.cost ≤ src.maxCost
  nodes_le : r.nodes.size ≤ src.limits.maxRetainedDictionaryNodes
  states_le : r.states.len ≤ src.limits.maxRetainedWfstStates

section Counting
open ExpansionBudget
variable {N : Type} {P : ExpansionState N → Prop} {p : Registries N → Prop} {env : Environment N} {required limit : Nat}

/-- A count that passes is within its limit. -/
theorem checkedStateCount_within : Effect.Triple P (StateBatch.checkedStateCount required limit)
    (fun _ s => P s ∧ required ≤ limit) fun _ _ => True :=
  Effect.Triple.bind (GeneralizedWfst.expansionFailure_requireAtMost (Q := fun s => P s ∧ required ≤ limit) (fun hle _ hs => ⟨hs, hle⟩)
    fun _ _ _ => trivial) fun _ => .orFail (fun _ _ _ hs => hs) fun _ _ _ => trivial

namespace StateBatch
variable {batch : StateBatch} {registry : StateRegistry}

theorem nextId_within : Effect.Triple P (batch.nextId registry limit)
    (fun _ s => P s ∧ registry.len + batch.states.length + 1 ≤ limit) fun _ _ => True := by
  refine Effect.Triple.bind_orFail_of (a := registry.len + batch.states.length) (fun _ h => (checkedAdd_eq_some.mp h).1)
    (fun _ _ => trivial) ?_
  exact Effect.Triple.bind_orFail_of (a := registry.len + batch.states.length + 1) (fun _ h => (checkedAdd_eq_some.mp h).1)
    (fun _ _ => trivial) checkedStateCount_within

/-- The states `added` join the batch, if there is room for them. -/
def Extends (registry : StateRegistry) (limit : Nat) (batch batch' : StateBatch) (added : List RegisteredState) : Prop :=
  batch'.states = batch.states ∨ batch'.states = batch.states ++ added ∧ registry.len + batch'.states.length ≤ limit

theorem product_extends (state : ProductState) : Effect.Triple P (batch.product registry state limit)
    (fun found s => P s ∧ Extends registry limit batch found.1 [.product state]) fun _ _ => True := by
  unfold StateBatch.product
  split
  · exact .pure fun _ hs => ⟨hs, Or.inl rfl⟩
  · refine nextId_within.bind fun id => .pure fun _ hs => ⟨hs.1, Or.inr ⟨rfl, ?_⟩⟩
    simpa [Nat.add_assoc] using hs.2

theorem chain_extends (chain : EmissionChain) : Effect.Triple (fun s => p s.registries) (batch.chain env registry chain limit)
    (fun found s => p s.registries ∧ ∃ first, Extends registry limit batch found.1 (chainStates chain first chain.width))
      fun _ _ => True := by
  unfold StateBatch.chain
  dsimp only
  split
  · exact .pure fun _ hs => ⟨hs, 0, Or.inl rfl⟩
  · split
    · exact .pure fun _ hs => ⟨hs, 0, Or.inl rfl⟩
    · refine nextId_within.bind fun first => ?_
      refine Effect.Triple.bind_orFail_of (a := registry.len + batch.states.length + (chain.width - 1)) ?_ (fun _ _ => trivial) ?_
      · intro required hrequired
        simp only [Option.bind_eq_some_iff, checkedAdd_eq_some] at hrequired
        obtain ⟨base, ⟨hbase, -⟩, heq, -⟩ := hrequired
        rw [heq, hbase, EmissionChain.width]
      · refine checkedStateCount_within.bind fun _ => .of_fact fun hle => Effect.Triple.pre (P := fun s => p s.registries) ?_ fun _ hs => hs.1
        refine Effect.Triple.bind (Q := fun _ s => p s.registries) ?_ fun _ => .pure fun _ hs => ⟨hs, first, Or.inr ⟨rfl, ?_⟩⟩
        · exact (Quiet.tryReserve env p).consequence (fun _ hs => hs) (fun _ _ hs => hs) fun _ _ _ => trivial
        · have hlength : (chainStates chain first (max chain.input.length chain.output.length)).length = chain.width - 1 :=
            length_chainStates
          rw [List.length_append, hlength, ← Nat.add_assoc]
          exact hle

end StateBatch
end Counting

namespace GeneralizedWfst
open ExpansionBudget
variable {N R : Type} {src : GeneralizedWfst N R} {env : Environment N} {r : Registries N} {resolved : List Nat}

/-- A staged node that is new is counted. -/
theorem reconcileNode_within (rec : Reconciliation N) (staged : StagedDictionaryNode N) :
    Effect.Triple (fun s => s.registries = r ∧ (r.nodes.size ≤ src.limits.maxRetainedDictionaryNodes →
        r.nodes.size + rec.additions.length ≤ src.limits.maxRetainedDictionaryNodes)) (src.reconcileNode env rec staged)
      (fun rec' s => s.registries = r ∧ (r.nodes.size ≤ src.limits.maxRetainedDictionaryNodes →
        r.nodes.size + rec'.additions.length ≤ src.limits.maxRetainedDictionaryNodes)) fun _ _ => True := by
  refine .of_fact fun hwithin => ?_
  have hquiet : ∀ {α : Type} {m : ExpansionM N α}, Quiet m → Effect.Triple (fun s => s.registries = r) m (fun _ s => s.registries = r)
      fun _ _ => True := fun h => (h fun r' => r' = r).consequence (fun _ hs => hs) (fun _ _ hs => hs) fun _ _ _ => trivial
  have hkeep : ∀ {α : Type} {e : ExpansionError} {o : Option α}, Effect.Triple (fun s : ExpansionState N => s.registries = r)
      (Effect.orFail e o) (fun _ s => s.registries = r) fun _ _ => True := .orFail (fun _ _ _ hs => hs) fun _ _ _ => trivial
  refine (hquiet (.chargeWork env)).bind fun _ => hkeep.bind fun parent => ?_
  refine Effect.Triple.bind_read (a := r.nodes) (fun s hs => by rw [hs]) ?_
  split
  · refine hkeep.bind fun canonical => ?_
    split <;> exact .pure fun s hs => ⟨hs, hwithin⟩
  · refine Effect.Triple.bind_orFail_of (a := r.nodes.size + rec.additions.length) (fun _ h => (checkedAdd_eq_some.mp h).1)
      (fun _ _ => trivial) ?_
    refine Effect.Triple.bind_orFail_of (a := r.nodes.size + rec.additions.length + 1) (fun _ h => (checkedAdd_eq_some.mp h).1)
      (fun _ _ => trivial) ?_
    refine Effect.Triple.bind (expansionFailure_requireAtMost (fun hle s (hs : s.registries = r) => And.intro hs hle) fun _ _ _ => trivial)
      fun _ => .of_fact fun hle => hkeep.bind fun id => .pure fun s hs => ⟨hs, fun _ => ?_⟩
    simpa [Nat.add_assoc] using hle

theorem reconcile_within (staged : List (StagedDictionaryNode N)) :
    Effect.Triple (fun s => s.registries = r) (staged.foldlM (src.reconcileNode env) ⟨[], [], [], [], []⟩)
      (fun rec s => s.registries = r ∧ (r.nodes.size ≤ src.limits.maxRetainedDictionaryNodes →
        r.nodes.size + rec.additions.length ≤ src.limits.maxRetainedDictionaryNodes)) fun _ _ => True :=
  (Effect.Triple.foldlM (I := fun _ rec (s : ExpansionState N) => s.registries = r ∧
    (r.nodes.size ≤ src.limits.maxRetainedDictionaryNodes → r.nodes.size + rec.additions.length ≤ src.limits.maxRetainedDictionaryNodes))
      fun _ x _ rec _ => reconcileNode_within rec x).pre fun _ hs => ⟨hs, fun h => h⟩

/-- The states of a batch are counted, and its products are the targets of the arcs `done`. -/
structure BatchWithin (src : GeneralizedWfst N R) (r : Registries N) (resolved : List Nat) (done : List PendingOperationArc)
    (batch : StateBatch) : Prop where
  len_le : r.states.len ≤ src.limits.maxRetainedWfstStates → r.states.len + batch.states.length ≤ src.limits.maxRetainedWfstStates
  product : ∀ product, .product product ∈ batch.states → ∃ arc ∈ done, resolvedNode arc.targetNode resolved = some product.dictNodeId ∧
    product.queryBytePos = arc.queryBytePos ∧ product.cost = arc.cost

theorem BatchWithin.extend {done done' : List PendingOperationArc} {batch batch' : StateBatch} {added : List RegisteredState}
    (h : BatchWithin src r resolved done batch) (hdone : ∀ arc ∈ done, arc ∈ done')
    (hextends : StateBatch.Extends r.states src.limits.maxRetainedWfstStates batch batch' added)
    (hadded : ∀ product, .product product ∈ added → ∃ arc ∈ done', resolvedNode arc.targetNode resolved = some product.dictNodeId ∧
      product.queryBytePos = arc.queryBytePos ∧ product.cost = arc.cost) : BatchWithin src r resolved done' batch' := by
  have hold : ∀ product, .product product ∈ batch.states → ∃ arc ∈ done', resolvedNode arc.targetNode resolved = some product.dictNodeId ∧
      product.queryBytePos = arc.queryBytePos ∧ product.cost = arc.cost := by
    intro product hproduct
    obtain ⟨arc, harc, hfits⟩ := h.product product hproduct
    exact ⟨arc, hdone arc harc, hfits⟩
  rcases hextends with heq | ⟨heq, hle⟩
  · exact ⟨heq ▸ h.len_le, heq ▸ hold⟩
  · refine ⟨fun _ => hle, fun product hproduct => ?_⟩
    rw [heq, List.mem_append] at hproduct
    exact hproduct.elim (hold product) (hadded product)

theorem batchArc_within {arc : PendingOperationArc} {done : List PendingOperationArc} {state : Nat}
    (acc : StateBatch × List GeneralizedTransition) :
    Effect.Triple (fun s => s.registries = r ∧ BatchWithin src r resolved done acc.1) (src.batchArc env state resolved acc arc)
      (fun acc s => s.registries = r ∧ BatchWithin src r resolved (done ++ [arc]) acc.1) fun _ _ => True := by
  refine .of_fact fun hwithin => ?_
  refine Effect.Triple.bind (Q := fun _ s => s.registries = r) ?_ fun _ => ?_
  · exact (Quiet.chargeWork env fun r' => r' = r).consequence (fun _ hs => hs) (fun _ _ hs => hs) fun _ _ _ => trivial
  refine Effect.Triple.bind_read (a := r.states) (fun s hs => by rw [hs]) ?_
  cases hnode : resolvedNode arc.targetNode resolved with
  | none => exact Effect.Triple.bind (Q := fun _ _ => False) (.fail fun _ _ => trivial) fun _ => .learn (fun _ h => h) False.elim
  | some node =>
    refine Effect.Triple.bind_orFail ((StateBatch.product_extends _).bind fun found => .of_fact fun hproduct => ?_)
    have hwithin₁ : BatchWithin src r resolved (done ++ [arc]) found.1 := by
      refine hwithin.extend (fun arc harc => List.mem_append_left _ harc) hproduct fun product hadded => ?_
      cases List.mem_singleton.mp hadded
      exact ⟨arc, List.mem_append_right _ (List.mem_singleton_self arc), hnode, rfl, rfl⟩
    refine Effect.Triple.bind (Q := fun found' s => s.registries = r ∧ BatchWithin src r resolved (done ++ [arc]) found'.1) ?_
      fun found' => .pure fun _ hs => hs
    unfold arcTarget
    split
    · exact .pure fun _ hs => ⟨hs, hwithin₁⟩
    · refine (StateBatch.chain_extends (p := fun r' => r' = r) _).post fun found' s hs => ?_
      obtain ⟨hs, first, hchain⟩ := hs
      refine ⟨hs, hwithin₁.extend (fun _ harc => harc) hchain fun product hadded => ?_⟩
      obtain ⟨position, -, -, heq⟩ := StateBatch.mem_chainStates hadded
      cases heq

theorem batchArcs_within (state : Nat) (arcs : List PendingOperationArc) :
    Effect.Triple (fun s => s.registries = r) (arcs.foldlM (src.batchArc env state resolved) (.new, []))
      (fun acc s => s.registries = r ∧ BatchWithin src r resolved arcs acc.1) fun _ _ => True := by
  let invariant (done : List PendingOperationArc) (acc : StateBatch × List GeneralizedTransition) (s : ExpansionState N) : Prop :=
    s.registries = r ∧ BatchWithin src r resolved done acc.1
  have hfold : Effect.Triple (invariant [] (.new, [])) (arcs.foldlM (src.batchArc env state resolved) (.new, [])) (invariant arcs)
      fun _ _ => True := .foldlM fun done arc _ acc _ => batchArc_within acc
  exact hfold.pre fun s hs => ⟨hs, fun h => h, fun _ h => by cases h⟩

end GeneralizedWfst
end Duallity
