import Duallity.Generalized.Batches
import Duallity.Generalized.Isolation
import Duallity.Generalized.Preparation
import Duallity.Generalized.Retention
import Duallity.Lib.ArcPath

/-! The chains that expansions commit. A run through the emission states of a chain reads and writes the labels that the first
    arc of its operation has left, and ends at the product state of the operation. -/

namespace Duallity

/-- What an emission state with the id `id` expands to. -/
def EmitState.expansion (emit : EmitState) (id : Nat) : CachedCharState :=
  ⟨[⟨id, emit.chain.input[emit.position]?, emit.chain.output[emit.position]?, emit.next, 0⟩], none⟩

/-- The arcs of emission states, none of them final, that lead to a product state. -/
inductive EmissionRun (r : StateRegistry) : Nat → List GeneralizedTransition → Nat → Prop
  | arrived {id product} : r.get id = some (.product product) → EmissionRun r id [] id
  | emit {id target emit arc ts} : r.get id = some (.emit emit) → emit.expansion id = ⟨[arc], none⟩ →
      EmissionRun r arc.target ts target → EmissionRun r id (arc :: ts) target

namespace StateRegistry
variable {r r' : StateRegistry} {chain chain' : EmissionChain} {first first' position position' id target : Nat}
  {ts : List GeneralizedTransition}

theorem weight_emissionRun (h : EmissionRun r id ts target) : ∀ t ∈ ts, t.weight = 0 := by
  induction h with
  | arrived => simp
  | emit _ hexpansion _ ih =>
    simp only [EmitState.expansion, Expansion.mk.injEq, List.cons.injEq, and_true] at hexpansion
    obtain rfl := hexpansion
    simpa using ih

/-- From a position of a registered chain the rest of its labels is read and written. -/
theorem WellFormed.emissionRun (h : r.WellFormed) (hid : r.chainId chain = some first) (hpos : 1 ≤ position)
    (hlt : position < chain.width) : ∃ ts, EmissionRun r (first + position - 1) ts chain.target ∧
      ArcPath.inputs ts = chain.input.drop position ∧ ArcPath.outputs ts = chain.output.drop position := by
  obtain ⟨-, product, htarget⟩ := h.target hid
  have hget := h.chain_get hid position hpos hlt
  generalize hn : chain.width - position = n
  induction n generalizing position with
  | zero => omega
  | succ n ih =>
    obtain ⟨ts, hrun, hinput, houtput⟩ : ∃ ts, EmissionRun r (chain.next first position) ts chain.target ∧
        ArcPath.inputs ts = chain.input.drop (position + 1) ∧ ArcPath.outputs ts = chain.output.drop (position + 1) := by
      unfold EmissionChain.next
      split
      · rename_i hlast
        have hinput : chain.input.length ≤ position + 1 := hlast ▸ Nat.le_max_left _ _
        have houtput : chain.output.length ≤ position + 1 := hlast ▸ Nat.le_max_right _ _
        exact ⟨[], .arrived htarget, (List.drop_eq_nil_of_le hinput).symm, (List.drop_eq_nil_of_le houtput).symm⟩
      · rename_i hmore
        exact ih (by omega) (by omega) (h.chain_get hid (position + 1) (by omega) (by omega)) (by omega)
    refine ⟨_ :: ts, .emit hget rfl hrun, ?_, ?_⟩
    · rw [List.drop_eq_getElem?_toList_append, ← hinput]
      rfl
    · rw [List.drop_eq_getElem?_toList_append, ← houtput]
      rfl

/-- Chains share states only with themselves. -/
theorem WellFormed.chain_position_inj (h : r.WellFormed) (hid : r.chainId chain = some first) (hid' : r.chainId chain' = some first')
    (hpos : 1 ≤ position) (hlt : position < chain.width) (hpos' : 1 ≤ position') (hlt' : position' < chain'.width) :
    first + position = first' + position' ↔ chain = chain' ∧ position = position' := by
  constructor
  · intro heq
    have hget := h.chain_get hid position hpos hlt
    have hget' := h.chain_get hid' position' hpos' hlt'
    rw [heq, hget', Option.some.injEq, RegisteredState.emit.injEq, EmitState.mk.injEq] at hget
    exact ⟨hget.1.symm, hget.2.1.symm⟩
  · rintro ⟨rfl, rfl⟩
    rw [Option.some.inj (hid.symm.trans hid')]

/-- An emission state belongs to a registered chain, and leads to the state after its position. -/
theorem WellFormed.chain_of_emit (h : r.WellFormed) {emit : EmitState} (hget : r.get id = some (.emit emit)) :
    emit.position < emit.chain.width ∧ ∃ first, r.chainId emit.chain = some first ∧ emit.next = emit.chain.next first emit.position := by
  obtain ⟨hpos, hlt, first, hfirst, hid⟩ := h.chain_of_get hget
  have hget' := h.chain_get hfirst emit.position hpos hlt
  rw [← hid, Nat.add_sub_cancel, hget, Option.some.injEq, RegisteredState.emit.injEq] at hget'
  exact ⟨hlt, first, hfirst, by rw [hget']⟩

/-- A registered id is not `NO_STATE`. -/
theorem WellFormed.lt_noState (h : r.WellFormed) {state : RegisteredState} (hget : r.get id = some state) : id < u32Max :=
  (lt_len_of_get hget).trans_le h.len_le

end StateRegistry

namespace GeneralizedWfst
open ExpansionBudget GeneralizedOps DictionaryNodeRegistry OperationMachine StateRegistry
variable {N R : Type} {D : Dictionary N Char} {src : GeneralizedWfst N R} {env : Environment N} {r r' : Registries N}
  {resolved : List Nat} {state : Nat}

/-! ### Batches of arcs -/

/-- An arc of a batch leads to its product state, at once or through its chain. -/
structure LeadsTo (r : StateRegistry) (resolved : List Nat) (state : Nat) (t : GeneralizedTransition) (arc : PendingOperationArc)
    (target : Nat) : Prop where
  source : t.source = state
  input : t.input = arc.input.head?
  output : t.output = arc.output.head?
  weight : t.weight = arc.weight
  product : ∃ node, resolvedNode arc.targetNode resolved = some node ∧
    r.get target = some (.product ⟨node, arc.queryBytePos, arc.cost⟩)
  chain : if max arc.input.length arc.output.length ≤ 1 then t.target = target
    else r.chainId ⟨arc.input, arc.output, target⟩ = some t.target

theorem LeadsTo.mono {states states' : StateRegistry} {t : GeneralizedTransition} {arc : PendingOperationArc} {target : Nat}
    (h : LeadsTo states resolved state t arc target) (hstates : states.WellFormed) (hstates' : states'.WellFormed)
    (hgrows : states.idToState <+: states'.idToState) : LeadsTo states' resolved state t arc target := by
  obtain ⟨node, hnode, hget⟩ := h.product
  refine { h with product := ⟨node, hnode, get_mono hgrows hget⟩, chain := ?_ }
  have hchain := h.chain
  split
  · rename_i hle
    rwa [if_pos hle] at hchain
  · rename_i hgt
    rw [if_neg hgt] at hchain
    exact hstates.chainId_mono hstates' hgrows hchain

/-- A turn of the loop over the arcs adds the transition of its arc. -/
theorem batchArc_fits {arc : PendingOperationArc} {done : List PendingOperationArc}
    (hresolved : ∃ node, resolvedNode arc.targetNode resolved = some node) (acc : StateBatch × List GeneralizedTransition) :
    Effect.Triple (fun s => s.registries = r ∧ ∃ states', acc.1.Prepares r.states states' ∧
        List.Forall₂ (fun t arc => ∃ target, LeadsTo states' resolved state t arc target) acc.2 done)
      (src.batchArc env state resolved acc arc)
      (fun acc s => s.registries = r ∧ ∃ states', acc.1.Prepares r.states states' ∧
        List.Forall₂ (fun t arc => ∃ target, LeadsTo states' resolved state t arc target) acc.2 (done ++ [arc])) Reported := by
  refine .learn (fun s hs => hs.2) fun ⟨states, hbatch, htransitions⟩ => Effect.Triple.pre (P := fun s => s.registries = r) ?_ fun s hs => hs.1
  let p : Registries N → Prop := fun r' => r' = r
  refine (Quiet.chargeWork env p).bind fun _ => ?_
  refine Effect.Triple.bind_read (a := r.states) (fun s hs => by rw [hs]) ?_
  obtain ⟨node, hnode⟩ := hresolved
  rw [hnode]
  refine Effect.Triple.bind_orFail ?_
  refine Effect.Triple.bind (StateBatch.product_fits hbatch ⟨node, arc.queryBytePos, arc.cost⟩) fun found =>
    .of_fact fun ⟨states₁, hbatch₁, hgrows₁, htarget⟩ => ?_
  obtain ⟨batch₁, target⟩ := found
  dsimp only at hbatch₁ htarget ⊢
  refine Effect.Triple.bind (Q := fun found s => p s.registries ∧ ∃ states₂, found.1.Prepares r.states states₂ ∧
    states₁.idToState <+: states₂.idToState ∧ (if max arc.input.length arc.output.length ≤ 1 then found.2 = target
      else states₂.chainId ⟨arc.input, arc.output, target⟩ = some found.2)) ?_ fun found => .pure fun s hs => ⟨hs.1, ?_⟩
  · unfold arcTarget
    split
    · exact .pure fun s hs => ⟨hs, states₁, hbatch₁, List.prefix_rfl, rfl⟩
    · rename_i hwidth
      exact StateBatch.chain_fits hbatch₁ ⟨arc.input, arc.output, target⟩ (Nat.lt_of_not_le hwidth) ⟨_, htarget⟩
  · obtain ⟨-, states₂, hbatch₂, hgrows₂, hchain⟩ := hs
    refine ⟨states₂, hbatch₂, List.rel_append ?_ ?_⟩
    · refine htransitions.imp fun t arc ⟨target, h⟩ => ⟨target, ?_⟩
      exact h.mono hbatch.wellFormed hbatch₂.wellFormed (hgrows₁.trans hgrows₂)
    · exact .cons ⟨target, rfl, rfl, rfl, rfl, ⟨node, hnode, get_mono hgrows₂ htarget⟩, hchain⟩ .nil

/-- The loop adds the transitions of all arcs. -/
theorem batchArcs_fits {arcs : List PendingOperationArc} (hr : r.states.WellFormed)
    (hresolved : ∀ arc ∈ arcs, ∃ node, resolvedNode arc.targetNode resolved = some node) :
    Effect.Triple (fun s => s.registries = r) (arcs.foldlM (src.batchArc env state resolved) (.new, []))
      (fun acc s => s.registries = r ∧ ∃ states', acc.1.Prepares r.states states' ∧
        List.Forall₂ (fun t arc => ∃ target, LeadsTo states' resolved state t arc target) acc.2 arcs) Reported := by
  let invariant (done : List PendingOperationArc) (acc : StateBatch × List GeneralizedTransition) (s : ExpansionState N) : Prop :=
    s.registries = r ∧ ∃ states', acc.1.Prepares r.states states' ∧
      List.Forall₂ (fun t arc => ∃ target, LeadsTo states' resolved state t arc target) acc.2 done
  have hfold : Effect.Triple (invariant [] (.new, [])) (arcs.foldlM (src.batchArc env state resolved) (.new, [])) (invariant arcs)
      Reported :=
    .foldlM fun done arc rest acc harcs => batchArc_fits (hresolved arc (by simp [harcs])) acc
  exact hfold.pre fun s hs => ⟨hs, r.states, .new hr, .nil⟩

/-! ### Transitions -/

/-- A transition of an operation: the run that starts with it reads and writes the labels of the operation, and ends at the
    product state `target` that the operation leads to. -/
structure Emits (src : GeneralizedWfst N R) (r : Registries N) (state : Nat) (t : GeneralizedTransition) (arc : OperationArc)
    (target : Nat) : Prop where
  source : t.source = state
  input : t.input = arc.input.head?
  output : t.output = arc.output.head?
  weight : t.weight = arc.weight
  lt_noState : t.target < u32Max
  product : ∃ node, r.states.get target = some (.product ⟨node, utf8Len (src.query.take arc.target.consumed), arc.target.cost⟩) ∧
    Spells r.dictionaryNodes node arc.target.spelled
  chain : if max arc.input.length arc.output.length ≤ 1 then t.target = target
    else r.states.chainId ⟨arc.input, arc.output, target⟩ = some t.target
  run : ∃ ts, EmissionRun r.states t.target ts target ∧ (∀ t ∈ ts, t.weight = 0) ∧
    ArcPath.inputs (t :: ts) = arc.input ∧ ArcPath.outputs (t :: ts) = arc.output

/-- The head of the labels, and what is left of them when there are no others. -/
theorem head_of_length_le {labels : List Char} (h : labels.length ≤ 1) : labels.head?.toList = labels := by
  cases labels with
  | nil => rfl
  | cons label labels =>
    obtain rfl : labels = [] := List.eq_nil_of_length_eq_zero (by simpa using h)
    rfl

/-- What a commit makes of a transition of its batch. -/
theorem LeadsTo.emits {steps : List (PendingDictionaryNode × Char × N)} {states : StateRegistry} {nodes : DictionaryNodeRegistry (Owned N)}
    {t : GeneralizedTransition} {staged : PendingOperationArc} {arc : OperationArc} {target : Nat}
    (h : LeadsTo states resolved state t staged target) (hfits : ArcFits src r steps staged arc) (hstates : states.WellFormed)
    (hresolve : ∀ node, resolvedNode staged.targetNode resolved = some node →
      ∀ path, Refers r steps staged.targetNode path → Spells (nodes.mapValues Owned.value) node path) :
    Emits src ⟨nodes, states⟩ state t arc target := by
  obtain ⟨node, hnode, hget⟩ := h.product
  rw [hfits.queryBytePos, hfits.cost] at hget
  have hchain := h.chain
  rw [hfits.input, hfits.output] at hchain
  have hinput : t.input = arc.input.head? := h.input.trans (by rw [hfits.input])
  have houtput : t.output = arc.output.head? := h.output.trans (by rw [hfits.output])
  obtain ⟨ts, hrun, hinputs, houtputs⟩ : ∃ ts, EmissionRun states t.target ts target ∧ ArcPath.inputs (t :: ts) = arc.input ∧
      ArcPath.outputs (t :: ts) = arc.output := by
    split at hchain
    · rename_i hle
      refine ⟨[], ?_, ?_, ?_⟩
      · rw [hchain]
        exact .arrived hget
      · simpa [ArcPath.inputs, hinput] using head_of_length_le ((Nat.le_max_left _ _).trans hle)
      · simpa [ArcPath.outputs, houtput] using head_of_length_le ((Nat.le_max_right _ _).trans hle)
    · rename_i hgt
      obtain ⟨ts, hrun, hinputs, houtputs⟩ := hstates.emissionRun hchain (Nat.le_refl 1) (Nat.lt_of_not_le hgt)
      have hhead : ∀ labels : List Char, labels.head?.toList ++ labels.drop 1 = labels := fun labels => by cases labels <;> rfl
      refine ⟨ts, hrun, ?_, ?_⟩
      · rw [ArcPath.inputs, List.flatMap_cons, hinput]
        exact (congrArg _ hinputs).trans (hhead arc.input)
      · rw [ArcPath.outputs, List.flatMap_cons, houtput]
        exact (congrArg _ houtputs).trans (hhead arc.output)
  have hlt : t.target < u32Max := by
    cases hrun with
    | arrived hget => exact hstates.lt_noState hget
    | emit hget => exact hstates.lt_noState hget
  exact ⟨h.source, hinput, houtput, h.weight.trans hfits.weight, hlt, ⟨node, hget, hresolve node hnode _ hfits.target⟩, hchain, ts, hrun,
    weight_emissionRun hrun, hinputs, houtputs⟩

/-! ### Commits -/

/-- What is staged of an expansion whose operations have the arcs `arcs`. -/
structure StagedFits (D : Dictionary N Char) (src : GeneralizedWfst N R) (arcs : List OperationArc) (pending : PendingExpansion N)
    (r : Registries N) : Prop where
  registries : r.WellFormed D
  steps : StepsFit D r pending.staging.steps
  arcs : List.Forall₂ (ArcFits src r pending.staging.steps) pending.arcs arcs

theorem StagedFits.mono {arcs : List OperationArc} {pending : PendingExpansion N} (h : StagedFits D src arcs pending r)
    (hr : Published D r r') : StagedFits D src arcs pending r' :=
  ⟨hr.wellFormed h.registries, h.steps.mono hr, h.arcs.imp fun _ _ harc => harc.mono hr⟩

/-- Publication adds what has been prepared. -/
theorem publish_fits {additions : List (DictionaryNodeKey × Owned N)} {states : List RegisteredState}
    {nodes : DictionaryNodeRegistry (Owned N)} {states' : StateRegistry} (hnodes : r.nodes.commitPrepared additions = some nodes)
    (hstates : r.states.commitPrepared states = some states') (E : ExpansionError → ExpansionState N → Prop) :
    Effect.Triple (fun s => s.registries = r) (publish additions states) (fun _ s => s.registries = ⟨nodes, states'⟩) E := by
  refine Effect.Triple.bind_read (a := some nodes) (fun s hs => by rw [hs, hnodes]) (Effect.Triple.bind_orFail ?_)
  refine Effect.Triple.bind (Q := fun _ s => s.registries = ⟨nodes, r.states⟩) (.update fun s hs => by rw [← hs]) fun _ => ?_
  refine Effect.Triple.bind_read (a := some states') (fun s hs => by rw [hs]; exact hstates) (Effect.Triple.bind_orFail ?_)
  exact .update fun s hs => by rw [hs]

/-- What relates the first list to the second and the second to the third. -/
theorem forall₂_comp {α β γ : Type} {P : α → β → Prop} {Q : β → γ → Prop} {S : α → γ → Prop} {xs : List α} {ys : List β} {zs : List γ}
    (hxs : List.Forall₂ P xs ys) (hzs : List.Forall₂ Q ys zs) (h : ∀ x y z, P x y → Q y z → S x z) : List.Forall₂ S xs zs := by
  induction hxs generalizing zs with
  | nil =>
    cases hzs
    exact .nil
  | cons hx _ ih =>
    cases hzs with
    | cons hz hzs => exact .cons (h _ _ _ hx hz) (ih hzs)

theorem exists_mem_of_forall₂ {α β : Type} {P : α → β → Prop} {xs : List α} {ys : List β} (h : List.Forall₂ P xs ys) {x : α}
    (hx : x ∈ xs) : ∃ y ∈ ys, P x y := by
  induction h with
  | nil => cases hx
  | cons hhead _ ih =>
    rcases List.mem_cons.mp hx with rfl | hx
    · exact ⟨_, List.mem_cons_self, hhead⟩
    · obtain ⟨y, hy, h⟩ := ih hx
      exact ⟨y, List.mem_cons_of_mem _ hy, h⟩

/-- What one clone does to the registries in the eyes of another that relies on what they retain. -/
structure Grows (D : Dictionary N Char) (src : GeneralizedWfst N R) (r r' : Registries N) : Prop where
  published : Published D r r'
  retains : r.WellFormed D → r.Retains src → r'.Retains src

theorem Grows.refl (r : Registries N) : Grows D src r r := ⟨.refl r, fun _ hr => hr⟩

theorem Grows.trans {r'' : Registries N} (h : Grows D src r r') (h' : Grows D src r' r'') : Grows D src r r'' :=
  ⟨h.published.trans h'.published, fun hr hretains => h'.retains (h.published.wellFormed hr) (h.retains hr hretains)⟩

theorem cost_le_of_mem_operationArcs {n : N} {point : ProductPoint} {arc : OperationArc} (hcost : point.cost ≤ src.maxCost)
    (harc : arc ∈ operationArcs D src n point) : arc.target.cost ≤ src.maxCost := by
  obtain ⟨prepared, -, harc⟩ := List.mem_flatMap.mp harc
  unfold appliedArcs at harc
  split at harc
  · cases harc
  · rename_i hfits
    obtain ⟨hweight, -⟩ := not_or.mp hfits
    dsimp only at harc
    split at harc
    · cases harc
    · obtain ⟨path, -, rfl⟩ := List.mem_map.mp harc
      dsimp only
      omega

/-- What a commit makes of the registries `r`, when the operations of the expansion have the arcs `arcs`. -/
structure Commits (D : Dictionary N Char) (src : GeneralizedWfst N R) (arcs : List OperationArc) (state : Nat) (finalWeight : Option ℚ)
    (r r' : Registries N) (value : CachedCharState) : Prop where
  grows : (∀ arc ∈ arcs, arc.target.cost ≤ src.maxCost) → Grows D src r r'
  published : Published D r r'
  wellFormed : r'.WellFormed D
  final : value.final? = finalWeight
  transitions : List.Forall₂ (fun t arc => ∃ target, Emits src r' state t arc target) value.arcs arcs

/-- What is added stays within the limits, and an added product is the target of an arc. -/
theorem retains_of_within {arcs : List OperationArc} {pending : PendingExpansion N} {rec : Reconciliation N} {batch : StateBatch}
    {nodes : DictionaryNodeRegistry (Owned N)} {states : StateRegistry} (hstaged : StagedFits D src arcs pending r)
    (hrec : Reconciled D r pending.staging.steps pending.staging.nodes rec nodes) (hprepares : batch.Prepares r.states states)
    (hnodes : r.nodes.size ≤ src.limits.maxRetainedDictionaryNodes →
      r.nodes.size + rec.additions.length ≤ src.limits.maxRetainedDictionaryNodes)
    (hbatch : BatchWithin src r rec.resolved pending.arcs batch) (hcost : ∀ arc ∈ arcs, arc.target.cost ≤ src.maxCost)
    (hr : r.Retains src) : Registries.Retains src ⟨nodes, states⟩ := by
  refine ⟨fun {id product} hget => ?_, ?_, ?_⟩
  · dsimp only at hget ⊢
    rw [get_append hprepares.states] at hget
    split at hget
    · obtain ⟨hnode, hposition, hproduct⟩ := hr.product hget
      exact ⟨hnode.trans_le (Interner.le_size hrec.nodes_le), hposition, hproduct⟩
    · obtain ⟨staged, hstagedArc, hnode, hpos, hproductCost⟩ := hbatch.product _ (List.mem_of_getElem? hget)
      obtain ⟨arc, harc, hfits⟩ := exists_mem_of_forall₂ hstaged.arcs hstagedArc
      refine ⟨?_, ?_, ?_⟩
      · obtain ⟨id, hid, hspells⟩ := hrec.resolve (by simpa [ExpansionStaging.steps] using hfits.target.bounded)
        obtain rfl := Option.some.inj (hid.symm.trans hnode)
        have hlt := hrec.wellFormed.lt_size (hspells _ hfits.target)
        rwa [Interner.size_mapValues] at hlt
      · rw [hpos, hfits.queryBytePos]
        exact isCharBoundary_take _ _
      · rw [hproductCost, hfits.cost]
        exact hcost arc harc
  · rw [hrec.size_eq]
    exact hnodes hr.nodes_le
  · have hlen : states.len = r.states.len + batch.states.length := hprepares.len_eq
    rw [hlen]
    exact hbatch.len_le hr.states_le

/-- A turn of the commit loop publishes the staged arcs, or leaves an equivalent staging to the next turn. -/
theorem commitTurn_fits (henv : env.Publishes D) {arcs : List OperationArc} (pending : PendingExpansion N) (p : Registries N → Prop)
    (hp : ∀ {tick r}, p r → p (env.clones tick r)) :
    Effect.Triple (fun s => StagedFits D src arcs pending s.registries ∧ p s.registries) (src.commitTurn env pending)
      (fun next s => Sum.elim
        (fun pending' => p s.registries ∧ pending'.state = pending.state ∧ pending'.finalWeight = pending.finalWeight ∧
          StagedFits D src arcs pending' s.registries)
        (fun value => ∃ r, p r ∧ Commits D src arcs pending.state pending.finalWeight r s.registries value) next)
      fun e s => Reported e s ∧ p s.registries := by
  let q : Registries N → Prop := fun r => StagedFits D src arcs pending r ∧ p r
  have hq : ∀ {tick r}, q r → q (env.clones tick r) := fun hr => ⟨hr.1.mono (henv _ _), hp hr.2⟩
  -- The registries under the lock.
  refine Effect.Triple.bind (Q := fun _ s => ∃ r, s.registries = r ∧ q r) ?_ fun _ => .of_exists fun r => .of_fact fun hr => ?_
  · have hlock := (Shares.readShared (g := fun _ => ()) henv (fun _ => True) fun _ _ => trivial).and
      (Isolated.readShared (g := fun _ => ()) q hq)
    exact hlock.consequence (fun _ hs => ⟨trivial, hs⟩) (fun _ s hs => ⟨s.registries, rfl, hs.2⟩) fun _ _ he => ⟨he.1, he.2.2⟩
  obtain ⟨hstaged, hr⟩ := hr
  have hstart : ∀ s : ExpansionState N, s.registries = r → s.registries = r ∧ p s.registries := fun s hs => ⟨hs, hs ▸ hr⟩
  have hquiet : ∀ {α : Type} {m : ExpansionM N α}, Quiet m → Isolated env m →
      Effect.Triple (fun s => s.registries = r) m (fun _ s => s.registries = r) fun e s => Reported e s ∧ p s.registries := by
    intro α m hq hi
    exact ((hq fun r' => r' = r).and (hi p hp)).consequence hstart (fun _ _ hs => hs.1) fun _ _ he => he
  have hreconcile := ((reconcile_fits hstaged.registries hstaged.steps).and (reconcile_within (r := r) pending.staging.nodes)).and
    (Isolated.foldlM (fun rec staged => Isolated.reconcileNode src env rec staged) _ p hp)
  refine Effect.Triple.bind (Q := fun rec s => s.registries = r ∧ (∃ nodes, Reconciled D r pending.staging.steps pending.staging.nodes rec nodes) ∧
      (r.nodes.size ≤ src.limits.maxRetainedDictionaryNodes →
        r.nodes.size + rec.additions.length ≤ src.limits.maxRetainedDictionaryNodes))
    (hreconcile.consequence (fun s hs => ⟨⟨hs, hs⟩, hs ▸ hr⟩) (fun _ _ hs => ⟨hs.1.1.1, hs.1.1.2, hs.1.2.2⟩) fun _ _ he => ⟨he.1.1, he.2⟩)
      fun rec => .of_fact fun hrec => ?_
  obtain ⟨⟨nodes, hrec⟩, hwithin⟩ := hrec
  split
  · -- The owners of some staged nodes are retired: the next turn has the same steps.
    refine (hquiet (.checkCancelled env) (.checkCancelled env)).bind fun _ =>
      (hquiet (.checkSource env) (.checkSource env)).bind fun _ => .pure fun s hs => ?_
    have hsteps : (⟨rec.staged, pending.staging.nodeByStep⟩ : ExpansionStaging N).steps = pending.staging.steps := hrec.staged
    refine ⟨hs ▸ hr, rfl, rfl, hs ▸ hstaged.registries, ?_, ?_⟩
    · rw [hs]
      exact hsteps ▸ hstaged.steps
    · rw [hs]
      exact hsteps ▸ hstaged.arcs
  · have hresolve : ∀ reference path, Refers r pending.staging.steps reference path →
        ∃ id, resolvedNode reference rec.resolved = some id ∧
          ∀ path, Refers r pending.staging.steps reference path → Spells (nodes.mapValues Owned.value) id path := by
      intro reference path hrefers
      exact hrec.resolve (by simpa [ExpansionStaging.steps] using hrefers.bounded)
    have hresolved : ∀ arc ∈ pending.arcs, ∃ id, resolvedNode arc.targetNode rec.resolved = some id := by
      intro arc harc
      obtain ⟨abstract, -, hfits⟩ := exists_mem_of_forall₂ hstaged.arcs harc
      obtain ⟨id, hid, -⟩ := hresolve _ _ hfits.target
      exact ⟨id, hid⟩
    have hbatch := ((batchArcs_fits hstaged.registries.states hresolved).and (batchArcs_within (r := r) pending.state pending.arcs)).and
      (Isolated.foldlM (fun acc arc => Isolated.batchArc src env pending.state rec.resolved acc arc) _ p hp)
    refine Effect.Triple.bind (Q := fun acc s => s.registries = r ∧ (∃ states', acc.1.Prepares r.states states' ∧
        List.Forall₂ (fun t arc => ∃ target, LeadsTo states' rec.resolved pending.state t arc target) acc.2 pending.arcs) ∧
          BatchWithin src r rec.resolved pending.arcs acc.1)
      (hbatch.consequence (fun s hs => ⟨⟨hs, hs⟩, hs ▸ hr⟩) (fun _ _ hs => ⟨hs.1.1.1, hs.1.1.2, hs.1.2.2⟩) fun _ _ he => ⟨he.1.1, he.2⟩)
        fun acc => .of_fact fun hacc => ?_
    obtain ⟨batch, transitions⟩ := acc
    obtain ⟨⟨states, hprepares, htransitions⟩, hbatchWithin⟩ := hacc
    refine (hquiet (.tryReserve env) (.tryReserve env)).bind fun _ => (hquiet (.tryReserve env) (.tryReserve env)).bind fun _ =>
      (hquiet (.checkCancelled env) (.checkCancelled env)).bind fun _ => (hquiet (.checkSource env) (.checkSource env)).bind fun _ => ?_
    refine Effect.Triple.bind (publish_fits hrec.committed hprepares.committed _) fun _ => .pure fun s hs => ?_
    have hwellFormed : (⟨nodes, states⟩ : Registries N).WellFormed D := ⟨hrec.wellFormed, hprepares.wellFormed⟩
    have hpublished : Published D r ⟨nodes, states⟩ := ⟨hrec.nodes_le, hprepares.grows, fun _ => hwellFormed⟩
    refine ⟨r, hr, ?_⟩
    rw [hs]
    refine ⟨fun hcost => ⟨hpublished, fun _ => retains_of_within hstaged hrec hprepares hwithin hbatchWithin hcost⟩, hpublished, hwellFormed,
      rfl, forall₂_comp htransitions hstaged.arcs fun t staged arc hleads hfits => ?_⟩
    obtain ⟨target, hleads⟩ := hleads
    refine ⟨target, hleads.emits hfits hprepares.wellFormed fun node hnode path hrefers => ?_⟩
    obtain ⟨id, hid, hspells⟩ := hresolve _ _ hrefers
    obtain rfl := Option.some.inj (hid.symm.trans hnode)
    exact hspells path hrefers

theorem commitExpansion_fits (henv : env.Publishes D) (arcs : List OperationArc) (pending : PendingExpansion N) (p : Registries N → Prop)
    (hp : ∀ {tick r}, p r → p (env.clones tick r)) :
    Effect.Triple (fun s => StagedFits D src arcs pending s.registries ∧ p s.registries) (src.commitExpansion env pending)
      (fun value s => ∃ r, p r ∧ Commits D src arcs pending.state pending.finalWeight r s.registries value)
      fun e s => Reported e s ∧ p s.registries := by
  refine (Effect.Triple.loop (I := fun _ (pending' : PendingExpansion N) (s : ExpansionState N) => (StagedFits D src arcs pending' s.registries ∧
    p s.registries) ∧ pending'.state = pending.state ∧ pending'.finalWeight = pending.finalWeight) ?_ ?_ _ _).pre fun s hs => ⟨hs, rfl, rfl⟩
  · exact fun _ s hs => ⟨by simp [Reported], hs.1.2⟩
  · intro fuel pending'
    refine .of_fact fun hkept => (commitTurn_fits henv pending' p hp).post fun next s hs => ?_
    rw [hkept.1, hkept.2] at hs
    cases next with
    | inl pending'' => exact ⟨⟨hs.2.2.2, hs.1⟩, hs.2.1, hs.2.2.1⟩
    | inr value => exact hs

/-! ### Expansions -/

/-- What a state expands to: its arc when it belongs to a chain, and otherwise the operations of its point. -/
def ExpandsTo (D : Dictionary N Char) (src : GeneralizedWfst N R) (r : Registries N) (state : Nat) (value : CachedCharState) : Prop :=
  (∃ emit, r.states.get state = some (.emit emit) ∧ value = emit.expansion state) ∨
  ∃ product base n position, r.states.get state = some (.product product) ∧ Spells r.dictionaryNodes product.dictNodeId base ∧
    D.node? base = some n ∧ position ≤ src.query.length ∧ product.queryBytePos = utf8Len (src.query.take position) ∧
    product.cost ≤ src.maxCost ∧ value.final? = src.productFinalWeight product n ∧
    List.Forall₂ (fun t arc => ∃ target, Emits src r state t arc target) value.arcs
      (operationArcs D src n ⟨base, position, product.cost⟩)

/-- What neither writes nor panics keeps what the other clones keep. -/
theorem quiet_fits {α : Type} {m : ExpansionM N α} (hquiet : Quiet m) (hisolated : Isolated env m) (q : Registries N → Prop)
    (hq : ∀ {tick r}, q r → q (env.clones tick r)) :
    Effect.Triple (fun s => q s.registries) m (fun _ s => q s.registries) fun e s => Reported e s ∧ q s.registries :=
  ((hquiet q).and (hisolated q hq)).consequence (fun _ hs => ⟨hs, hs⟩) (fun _ _ hs => hs.1) fun _ _ he => he

/-- What an expansion has staged when it does not have to stop. -/
def StagesFor (D : Dictionary N Char) (src : GeneralizedWfst N R) (state : Nat) (r : Registries N) : StagedExpansion N → Prop
  | .emitted value => ∃ emit, r.states.get state = some (.emit emit) ∧ value = emit.expansion state
  | .pending pending => ∃ product base n position, r.states.get state = some (.product product) ∧
      PendingFits D src state product base n position pending r

theorem stageExpansion_fits (hD : D.DistinctLabels) (hsrc : src.dictionary = D.provider) (henv : env.Publishes D)
    (hslots : src.SlotsFit) (state : Nat) (q : Registries N → Prop) (hq : ∀ {tick r}, q r → q (env.clones tick r))
    (hwellFormed : ∀ r, q r → r.WellFormed D) :
    Effect.Triple (fun s => q s.registries) (src.stageExpansion env state)
      (fun staged s => q s.registries ∧ StagesFor D src state s.registries staged) fun e s => Reported e s ∧ q s.registries := by
  refine (quiet_fits (.checkCancelled env) (.checkCancelled env) q hq).bind fun _ =>
    (quiet_fits (.checkSource env) (.checkSource env) q hq).bind fun _ => (readShared_spec hq).bind fun found => ?_
  refine Effect.Triple.bind (Q := fun registered s => q s.registries ∧ s.registries.states.get state = some registered) (.orFail ?_ ?_)
    fun registered => ?_
  · exact fun registered hfound s hs => ⟨hs.1, hs.2.symm.trans hfound⟩
  · exact fun _ s hs => ⟨by simp [Reported], hs.1⟩
  let q' : Registries N → Prop := fun r => q r ∧ r.states.get state = some registered
  have hq' : ∀ {tick r}, q' r → q' (env.clones tick r) := fun h => ⟨hq h.1, (henv _ _).get h.2⟩
  cases registered with
  | product product =>
    have hstage := (stageProductState_fits hD hsrc henv hslots state product).and (Isolated.stageProductState src state product q' hq')
    refine Effect.Triple.bind (hstage.consequence (fun s hs => ⟨hwellFormed _ hs.1, hs⟩) (fun _ _ hs => hs) fun _ _ he => ⟨he.1, he.2.1⟩)
      fun pending => .pure fun s hs => ?_
    obtain ⟨⟨base, n, position, hpending⟩, hstate⟩ := hs
    exact ⟨hstate.1, product, base, n, position, hstate.2, hpending⟩
  | emit emit =>
    have herror : ∀ (e : ExpansionError) (s : ExpansionState N), Reported e s ∧ q' s.registries → Reported e s ∧ q s.registries :=
      fun _ _ he => ⟨he.1, he.2.1⟩
    refine Effect.Triple.consequence (P := fun s => q' s.registries) ?_ (fun _ hs => hs) (fun _ _ hs => hs) herror
    refine (quiet_fits (.chargeWork env) (.chargeWork env) q' hq').bind fun _ =>
      (quiet_fits (.checkCancelled env) (.checkCancelled env) q' hq').bind fun _ =>
        (quiet_fits (.checkSource env) (.checkSource env) q' hq').bind fun _ => .pure fun s hs => ?_
    exact ⟨hs.1, emit, hs.2, rfl⟩

/-- An expansion returns what its state expands to, and grows registries that the other clones have published. An expansion that
    reports an error leaves them to those clones. -/
theorem tryComputeRegisteredState_fits (hD : D.DistinctLabels) (hsrc : src.dictionary = D.provider) (henv : env.Publishes D)
    (hslots : src.SlotsFit) (state : Nat) (p : Registries N → Prop) (hp : ∀ {tick r}, p r → p (env.clones tick r)) :
    Effect.Triple (fun s => s.registries.WellFormed D ∧ p s.registries) (src.tryComputeRegisteredState env state)
      (fun value s => (∃ r, p r ∧ Grows D src r s.registries) ∧ s.registries.WellFormed D ∧ ExpandsTo D src s.registries state value)
      fun e s => Reported e s ∧ p s.registries := by
  let q : Registries N → Prop := fun r => r.WellFormed D ∧ p r
  have hq : ∀ {tick r}, q r → q (env.clones tick r) := fun hr => ⟨(henv _ _).wellFormed hr.1, hp hr.2⟩
  have hstage := stageExpansion_fits hD hsrc henv hslots state q hq fun _ hr => hr.1
  refine Effect.Triple.bind (hstage.consequence (fun _ hs => hs) (fun _ _ hs => hs) fun _ _ he => ⟨he.1, he.2.2⟩) fun staged => ?_
  cases staged with
  | emitted value =>
    refine .pure fun s hs => ?_
    obtain ⟨⟨hr, hs⟩, emit, hget, rfl⟩ := hs
    exact ⟨⟨s.registries, hs, .refl _⟩, hr, Or.inl ⟨emit, hget, rfl⟩⟩
  | pending pending =>
    refine Effect.Triple.pre (P := fun s => ∃ product base n position, (q s.registries ∧ s.registries.states.get state = some (.product product) ∧
      Spells s.registries.dictionaryNodes product.dictNodeId base) ∧ PendingFits D src state product base n position pending s.registries) ?_
        fun s ⟨hs, product, base, n, position, hget, hfits⟩ => ⟨product, base, n, position, ⟨hs, hget, hfits.spells⟩, hfits⟩
    refine .of_exists fun product => .of_exists fun base => .of_exists fun n => .of_exists fun position => ?_
    let p' : Registries N → Prop := fun r => p r ∧ r.states.get state = some (.product product) ∧ Spells r.dictionaryNodes product.dictNodeId base
    have hp' : ∀ {tick r}, p' r → p' (env.clones tick r) := fun hr =>
      ⟨hp hr.1, (henv _ _).get hr.2.1, (henv _ _).spells hr.2.2⟩
    refine .learn (φ := ∃ r, PendingFits D src state product base n position pending r) (fun s hs => ⟨_, hs.2⟩) fun hfits => ?_
    obtain ⟨r, hpending⟩ := hfits
    refine (commitExpansion_fits henv (operationArcs D src n ⟨base, position, product.cost⟩) pending p' hp').consequence
      (fun s hs => ?_) (fun value s hs => ?_) fun _ _ he => ⟨he.1, he.2.1⟩
    · obtain ⟨⟨hs, hget, hspells⟩, hfits⟩ := hs
      exact ⟨⟨hfits.registries, hfits.staging.steps, hfits.arcs⟩, hs.2, hget, hspells⟩
    · obtain ⟨r, ⟨hs, hget, hspells⟩, hcommits⟩ := hs
      have hpublished := hcommits.published
      have harcs := hcommits.transitions
      rw [hpending.state] at harcs
      refine ⟨⟨r, hs, hcommits.grows fun arc harc => cost_le_of_mem_operationArcs hpending.cost_le harc⟩, hcommits.wellFormed, Or.inr ⟨product, base, n,
        position, hpublished.get hget, hpublished.spells hspells, hpending.node, hpending.position_le,
        hpending.queryBytePos, hpending.cost_le, hcommits.final.trans hpending.finalWeight, harcs⟩⟩

/-! ### Histories -/

/-- The registries after some expansions of this clone, whatever their outcome, and publications of others. -/
inductive Reached (D : Dictionary N Char) (src : GeneralizedWfst N R) (owner : Nat) : Registries N → Prop
  | new : Reached D src owner (src.newRegistries owner)
  | clones {before after : Registries N} : Reached D src owner before → Published D before after → Reached D src owner after
  | expansion {others : Environment N} {id : Nat} {s s' : ExpansionState N} {result : Except ExpansionError CachedCharState} :
      Reached D src owner s.registries → others.Publishes D → src.tryComputeRegisteredState others id s = (result, s') →
      Reached D src owner s'.registries

theorem published_tryComputeRegisteredState (hD : D.DistinctLabels) (hsrc : src.dictionary = D.provider) (henv : env.Publishes D)
    (hslots : src.SlotsFit) {s s' : ExpansionState N} (hs : s.registries.WellFormed D) {result : Except ExpansionError CachedCharState}
    (h : src.tryComputeRegisteredState env state s = (result, s')) : Published D s.registries s'.registries := by
  have hfits := tryComputeRegisteredState_fits hD hsrc henv hslots state (Published D s.registries) fun hr => hr.trans (henv _ _)
  cases result with
  | ok value =>
    obtain ⟨⟨r, hr, hgrows⟩, -⟩ := hfits.ok ⟨hs, .refl _⟩ h
    exact hr.trans hgrows.published
  | error e => exact (hfits.error ⟨hs, .refl _⟩ h).2

theorem Reached.wellFormed {owner : Nat} (hD : D.DistinctLabels) (hsrc : src.dictionary = D.provider) (hslots : src.SlotsFit)
    (h : Reached D src owner r) : r.WellFormed D := by
  induction h with
  | new => exact wellFormed_newRegistries hsrc owner
  | clones _ hpublished ih => exact hpublished.wellFormed ih
  | expansion _ henv hrun ih => exact (published_tryComputeRegisteredState hD hsrc henv hslots ih hrun).wellFormed ih

/-- After every history an expansion does not panic, grows the registries as the other clones rely on, and returns the arc of its
    chain or the transitions of its operations, each with a run of its labels to its product state. Chains share a state only when
    they are the same, and their positions have the ids that a commit gives them, none of them `NO_STATE`. -/
theorem emissionChains_faithful [DecidableEq R] {lib : OperationLibrary R} {query : List Char} {maxDistance owner : Nat}
    {operations : OperationSet R} {limits : GeneralizedWfstLimits} (hD : D.DistinctLabels)
    (h : tryNewWithLimits D.provider lib query maxDistance operations limits = .ok src) (henv : env.Publishes D)
    {s s' : ExpansionState N} (hs : Reached D src owner s.registries) {result : Except ExpansionError CachedCharState}
    (hrun : src.tryComputeRegisteredState env state s = (result, s')) :
    (∀ message, result ≠ .error (.panicked message)) ∧ Published D s.registries s'.registries ∧
    (∀ value, result = .ok value → ExpandsTo D src s'.registries state value) ∧
    (∀ chain first, s'.registries.states.chainId chain = some first → ∀ position, 1 ≤ position → position < chain.width →
      s'.registries.states.get (first + position - 1) = some (.emit ⟨chain, position, chain.next first position⟩) ∧
        first + position - 1 < u32Max) ∧
    ∀ chain first chain' first', s'.registries.states.chainId chain = some first → s'.registries.states.chainId chain' = some first' →
      ∀ position position', 1 ≤ position → position < chain.width → 1 ≤ position' → position' < chain'.width →
        (first + position = first' + position' ↔ chain = chain' ∧ position = position') := by
  obtain ⟨hsrc, -⟩ := arguments_eq h
  have hwellFormed := hs.wellFormed hD hsrc (slotsFit h)
  have hpublished := published_tryComputeRegisteredState hD hsrc henv (slotsFit h) hwellFormed hrun
  have hstates := (hpublished.wellFormed hwellFormed).states
  have hfits := tryComputeRegisteredState_fits hD hsrc henv (slotsFit h) state (fun _ => True) fun _ => trivial
  refine ⟨fun message hresult => ?_, hpublished, fun value hresult => ?_, fun chain first hid position hpos hlt => ?_,
    fun chain first chain' first' hid hid' position position' hpos hlt hpos' hlt' => ?_⟩
  · exact (hfits.error ⟨hwellFormed, trivial⟩ (hresult ▸ hrun)).1 message rfl
  · exact (hfits.ok ⟨hwellFormed, trivial⟩ (hresult ▸ hrun)).2.2
  · have hget := hstates.chain_get hid position hpos hlt
    exact ⟨hget, hstates.lt_noState hget⟩
  · exact hstates.chain_position_inj hid hid' hpos hlt hpos' hlt'

/-- A source over the word `ba` whose operation transposes two characters of the query `ab`. -/
def transposing : Except GeneralizedWfstError (GeneralizedWfst (List Char) Unit) :=
  tryNewWithLimits (trie [['b', 'a']]).provider wholeLibrary ['a', 'b'] 1 [⟨2, 2, 1, .adjacentTranspose⟩] ⟨9, 9, 9, 9, 9, 9, 9, 999⟩

theorem emissionChains_faithful_transposing : ∃ src value s', transposing = .ok src ∧
    src.tryComputeRegisteredState (.alone _) 0 (.fresh (src.newRegistries 0) 0) = (.ok value, s') ∧
    ExpandsTo (trie [['b', 'a']]).toDictionary src s'.registries 0 value := by
  have hsucceeds : (match transposing with
    | .ok src => (src.tryComputeRegisteredState (.alone _) 0 (.fresh (src.newRegistries 0) 0)).1.isOk
    | .error _ => false) = true := by decide +kernel
  cases h : transposing with
  | error e => simp [h] at hsucceeds
  | ok src =>
    rw [h] at hsucceeds
    rcases hrun : src.tryComputeRegisteredState (.alone _) 0 (.fresh (src.newRegistries 0) 0) with ⟨result, s'⟩
    cases result with
    | error e => simp [hrun, Except.isOk, Except.toBool] at hsucceeds
    | ok value =>
      have hfaithful := emissionChains_faithful (trie [['b', 'a']]).labels_nodup h (.alone _) (Reached.new : Reached _ src 0 _) hrun
      exact ⟨src, value, s', rfl, hrun, hfaithful.2.2.1 value rfl⟩

end GeneralizedWfst
end Duallity
