import Duallity.Generalized.Computation

/-! The resources of one expansion. Every way back to the head of a loop charges work before the work is done, so that an
    expansion ends within its budget whatever the provider and the other clones do. -/

namespace Duallity

namespace GeneralizedWfst
open ExpansionBudget
variable {N R : Type} {α β γ : Type} {limits : GeneralizedWfstLimits} {u v k : Nat}

/-! ### Charges -/

/-- At least `k` units have been charged, no limit is exceeded, and every edge and path has been charged for. -/
structure Charged (limits : GeneralizedWfstLimits) (k : Nat) (s : ExpansionState N) : Prop where
  le_work : k ≤ s.work
  work_le : s.work ≤ limits.maxWorkUnitsPerExpansion
  pulled_le : s.pulled ≤ s.work
  paths_le : s.paths ≤ limits.maxPathsPerExpansion
  retained_le : s.retained ≤ s.paths

/-- What a failing expansion leaves: no loop goes on, and the limits on edges and paths hold. -/
structure Stopped (limits : GeneralizedWfstLimits) (e : ExpansionError) (s : ExpansionState N) : Prop where
  ne_outOfFuel : e ≠ .outOfFuel
  pulled_le : s.pulled ≤ limits.maxWorkUnitsPerExpansion
  retained_le : s.retained ≤ limits.maxPathsPerExpansion

/-- `m` charges at least `u` units, or fails within the limits. -/
def Costs (limits : GeneralizedWfstLimits) (u : Nat) (m : ExpansionM N α) : Prop :=
  ∀ k, Effect.Triple (Charged limits k) m (fun _ => Charged limits (k + u)) (Stopped limits)

theorem Charged.mono {s : ExpansionState N} (h : Charged limits k s) (hle : u ≤ k) : Charged limits u s :=
  { h with le_work := hle.trans h.le_work }

theorem Charged.stopped {s : ExpansionState N} (h : Charged limits k s) {e : ExpansionError} (he : e ≠ .outOfFuel) :
    Stopped limits e s := ⟨he, h.pulled_le.trans h.work_le, h.retained_le.trans h.paths_le⟩

namespace Costs
variable {m : ExpansionM N α} {f : α → ExpansionM N β}

theorem mono (h : Costs limits v m) (hle : u ≤ v) : Costs limits u m := fun k =>
  (h k).post fun _ _ hs => hs.mono (Nat.add_le_add_left hle k)

theorem pure {a : α} : Costs limits 0 (Pure.pure a : ExpansionM N α) := fun _ => .pure fun _ h => h

theorem fail {e : ExpansionError} (he : e ≠ .outOfFuel) : Costs limits u (Effect.fail e : ExpansionM N α) := fun _ =>
  .fail fun _ h => h.stopped he

theorem read {g : ExpansionState N → α} : Costs limits 0 (Effect.read g) := fun _ => .read fun _ h => h

theorem orFail {e : ExpansionError} {o : Option α} (he : e ≠ .outOfFuel) : Costs limits 0 (Effect.orFail e o : ExpansionM N α) := by
  cases o with
  | some a => exact pure
  | none => exact fail he

theorem bind (h : Costs limits u m) (hf : ∀ a, Costs limits v (f a)) : Costs limits (u + v) (m >>= f) := fun k =>
  (h k).bind fun a => (hf a (k + u)).post fun _ _ hs => hs.mono (by omega)

/-- What comes after a computation does not give back what it has charged. -/
theorem followedBy (h : Costs limits u m) (hf : ∀ a, Costs limits 0 (f a)) : Costs limits u (m >>= f) := h.bind hf

theorem update {g : ExpansionState N → ExpansionState N} (h : ∀ k s, Charged limits k s → Charged limits k (g s)) :
    Costs limits 0 (Effect.update g) := fun k => .update fun s hs => h k s hs

theorem foldlM {xs : List γ} {step : β → γ → ExpansionM N β} {init : β} (h : ∀ b x, Costs limits u (step b x)) :
    Costs limits (u * xs.length) (xs.foldlM step init) := fun k =>
  (Effect.Triple.foldlM (I := fun done _ => Charged limits (k + u * done.length)) fun done x _ b _ =>
    (h b x _).post fun _ _ hs => hs.mono (by rw [List.length_append, List.length_singleton, Nat.mul_succ, ← Nat.add_assoc])).pre fun _ hs => hs.mono (by simp)

/-- A loop whose turns charge has enough turns. -/
theorem loop {turn : β → ExpansionM N (β ⊕ α)}
    (h : ∀ b k, Effect.Triple (Charged limits k) (turn b)
      (fun r => Charged limits (Sum.elim (fun _ => k + 1) (fun _ => k) r)) (Stopped limits)) (b : β) :
    Costs limits 0 (Effect.loop .outOfFuel turn (limits.maxWorkUnitsPerExpansion + 1) b) := by
  intro k
  refine (Effect.Triple.loop (I := fun fuel _ s => Charged limits (max k (limits.maxWorkUnitsPerExpansion + 1 - fuel)) s)
    ?_ ?_ _ b).pre fun s hs => hs.mono (by simp)
  · intro b s hs
    have := hs.le_work
    have := hs.work_le
    omega
  · intro fuel b
    refine (h b _).post fun r s hs => ?_
    cases r with
    | inl b => exact hs.mono (by simp only [Sum.elim_inl]; omega)
    | inr a => exact hs.mono (by simp)

end Costs

/-! ### What each step costs -/

section Steps
variable (src : GeneralizedWfst N R) (env : Environment N)

theorem costs_answer {f : Nat → α} : Costs limits 0 (answer f : ExpansionM N α) :=
  Costs.read.followedBy fun _ => (Costs.update fun _ _ hs => by exact ⟨hs.1, hs.2, hs.3, hs.4, hs.5⟩).followedBy fun _ => .pure

theorem costs_readShared {f : Registries N → α} : Costs limits 0 (readShared env f) :=
  (Costs.update fun _ _ hs => by exact ⟨hs.1, hs.2, hs.3, hs.4, hs.5⟩).followedBy fun _ => .read

theorem costs_checkCancelled : Costs limits 0 (checkCancelled env) := by
  refine costs_answer.followedBy fun reason => ?_
  cases reason with
  | none => exact .pure
  | some reason => exact .fail (by simp)

theorem costs_checkSource : Costs limits 0 (checkSource env) := by
  refine costs_answer.followedBy fun fault => ?_
  cases fault with
  | none => exact .pure
  | some fault => exact .fail (by simp)

theorem costs_tryReserve {context : String} : Costs limits 0 (tryReserve env context) := by
  refine costs_answer.followedBy fun reserved => ?_
  cases reserved with
  | true => exact .pure
  | false => exact .fail (by simp)

theorem expansionFailure_requireAtMost {resource : GeneralizedWfstResource} {required limit : Nat} {P Q : ExpansionState N → Prop}
    {E : ExpansionError → ExpansionState N → Prop} (hok : required ≤ limit → ∀ s, P s → Q s)
    (herror : limit < required → ∀ s, P s → E (.resourceExhausted (.limitExceeded resource limit required)) s) :
    Effect.Triple P (expansionFailure (requireAtMost resource required limit)) (fun _ => Q) E := by
  unfold requireAtMost
  by_cases hle : required ≤ limit
  · rw [if_pos hle]
    exact .pure (hok hle)
  · rw [if_neg hle]
    exact .fail (herror (Nat.lt_of_not_le hle))

/-- What is charged is spare until it is used. -/
theorem chargeWork_spec : Effect.Triple (Charged limits k) (chargeWork env limits u)
    (fun _ s => Charged limits (k + u) s ∧ s.pulled + u ≤ s.work) (Stopped limits) := by
  refine (costs_checkCancelled env k).bind fun _ => ?_
  refine Effect.Triple.bind (Q := fun work s => Charged limits k s ∧ work = s.work) (.read fun s hs => ⟨hs, rfl⟩) fun work => ?_
  split
  · exact .fail fun s hs => hs.1.stopped (by simp)
  · refine Effect.Triple.bind (Q := fun _ s => s.work = work + u ∧ Charged limits k { s with work }) (.update ?_) fun _ => ?_
    · intro s hs
      obtain ⟨hs, rfl⟩ := hs
      exact ⟨rfl, hs⟩
    · refine expansionFailure_requireAtMost ?_ ?_ <;> intro hle s hs <;> obtain ⟨hwork, hs⟩ := hs <;> have := hs.le_work <;>
        have := hs.pulled_le
      · exact ⟨⟨by simp_all, by simp_all, by simp_all; omega, hs.paths_le, hs.retained_le⟩, by simp_all⟩
      · exact ⟨by simp, hs.pulled_le.trans hs.work_le, hs.retained_le.trans hs.paths_le⟩

theorem costs_chargeWork : Costs limits u (chargeWork env limits u) := fun _ => (chargeWork_spec env).post fun _ _ hs => hs.1

theorem chargePath_spec : Effect.Triple (Charged limits k) (chargePath env limits)
    (fun _ s => Charged limits k s ∧ s.retained + 1 ≤ s.paths) (Stopped limits) := by
  refine (costs_checkCancelled env k).bind fun _ => ?_
  refine Effect.Triple.bind (Q := fun paths s => Charged limits k s ∧ paths = s.paths) (.read fun s hs => ⟨hs, rfl⟩) fun paths => ?_
  split
  · exact .fail fun s hs => hs.1.stopped (by simp)
  · refine Effect.Triple.bind (Q := fun _ s => s.paths = paths + 1 ∧ Charged limits k { s with paths }) (.update ?_) fun _ => ?_
    · intro s hs
      obtain ⟨hs, rfl⟩ := hs
      exact ⟨rfl, hs⟩
    · refine expansionFailure_requireAtMost ?_ ?_ <;> intro hle s hs <;> obtain ⟨hpaths, hs⟩ := hs <;> have := hs.retained_le
      · exact ⟨⟨hs.le_work, hs.work_le, hs.pulled_le, by simp_all, by simp_all; omega⟩, by simp_all⟩
      · exact ⟨by simp, hs.pulled_le.trans hs.work_le, hs.retained_le.trans hs.paths_le⟩

/-! ### The walk -/

theorem costs_retainPath : Costs src.limits 0 (src.retainPath env) := fun _ =>
  (chargePath_spec env).bind fun _ => .update fun _ hs =>
    ⟨hs.1.le_work, hs.1.work_le, hs.1.pulled_le, hs.1.paths_le, hs.2⟩

theorem pullEdge_spec (node : N) (owned : List (Char × N)) (k : Nat) :
    Effect.Triple (Charged src.limits k) (src.pullEdge env node owned)
      (fun r => Charged src.limits (Sum.elim (fun _ => k + 1) (fun _ => k) r)) (Stopped src.limits) := by
  refine (chargeWork_spec env).bind fun _ => ?_
  split
  · refine Effect.Triple.bind (Q := fun _ => Charged src.limits (k + 1)) (.update ?_) fun _ => ?_
    · intro s hs
      exact ⟨hs.1.le_work, hs.1.work_le, hs.2, hs.1.paths_le, hs.1.retained_le⟩
    · exact (costs_checkSource env (k + 1)).bind fun _ => .pure fun _ hs => hs
  · exact .pure fun s hs => hs.1.mono (Nat.le_add_right k 1)

theorem costs_boundedEdges (node : N) : Costs src.limits 1 (src.boundedEdges env node) :=
  (costs_chargeWork env).followedBy fun _ => (Costs.loop (src.pullEdge_spec env node) []).followedBy fun _ =>
    (costs_checkSource env).followedBy fun _ => .pure

theorem costs_registeredChild (parent : PendingDictionaryNode) (label : Char) :
    Costs limits 0 (registeredChild env parent label) := by
  unfold registeredChild
  split
  · exact costs_readShared env
  · exact .pure

theorem costs_stageChild (staging : ExpansionStaging N) (registered : Option Nat) (parent : PendingDictionaryNode) (label : Char)
    (node : N) : Costs limits 0 (staging.stageChild env registered parent label node) := by
  unfold ExpansionStaging.stageChild
  split
  · exact .pure
  · split
    · exact .pure
    · exact costs_answer.followedBy fun _ => .pure

theorem walkTurn_spec (width : Nat) (walk : PathWalk N) (k : Nat) :
    Effect.Triple (Charged src.limits k) (src.walkTurn env width walk)
      (fun r => Charged src.limits (Sum.elim (fun _ => k + 1) (fun _ => k) r)) (Stopped src.limits) := by
  unfold walkTurn
  split
  · exact .pure fun _ hs => hs
  · -- The turn is paid for before anything else happens.
    refine (costs_chargeWork env k).bind fun _ => ?_
    split
    · exact .pure fun _ hs => hs
    · refine (costs_registeredChild env _ _ (k + 1)).bind fun registered => ?_
      refine (costs_stageChild env _ _ _ _ _ (k + 1)).bind fun r => ?_
      dsimp only
      split
      · refine (src.costs_retainPath env (k + 1)).bind fun _ => ?_
        refine (costs_chargeWork env (k + 1)).bind fun _ => ?_
        exact .pure fun _ hs => hs.mono (Nat.le_add_right _ _)
      · refine (src.costs_boundedEdges env _ (k + 1)).bind fun _ => ?_
        exact .pure fun _ hs => hs.mono (Nat.le_add_right _ _)

theorem costs_dictionaryPathsExactChars (start width : Nat) (staging : ExpansionStaging N) :
    Costs src.limits 0 (src.dictionaryPathsExactChars env start width staging) := by
  refine (costs_readShared env).followedBy fun node => (Costs.orFail (by simp)).followedBy fun node => ?_
  split
  · exact (src.costs_retainPath env).followedBy fun _ => ((costs_chargeWork env).mono (Nat.zero_le _)).followedBy fun _ => .pure
  · exact ((src.costs_boundedEdges env node).mono (Nat.zero_le _)).followedBy fun _ => Costs.loop (src.walkTurn_spec env width) _

/-! ### Staging -/

theorem costs_querySegmentAt (queries : List (WidthCacheEntry QuerySegment)) (prepared : PreparedOperation) (queryBytePos : Nat) :
    Costs src.limits 0 (src.querySegmentAt env queries prepared queryBytePos) := by
  refine (Costs.orFail (by simp)).followedBy fun entry => ?_
  cases entry with
  | ready query => exact .pure
  | missing => exact .pure
  | uncomputed =>
    refine ((costs_chargeWork env).mono (Nat.zero_le _)).followedBy fun _ => ?_
    split <;> exact .pure

theorem costs_dictionaryPathsAt (pathsByWidth : List (WidthCacheEntry (List DictPath))) (staging : ExpansionStaging N)
    (prepared : PreparedOperation) (dictNodeId : Nat) :
    Costs src.limits 0 (src.dictionaryPathsAt env pathsByWidth staging prepared dictNodeId) := by
  refine (Costs.orFail (by simp)).followedBy fun entry => ?_
  cases entry with
  | ready paths => exact .pure
  | missing => exact .fail (by simp)
  | uncomputed => exact (src.costs_dictionaryPathsExactChars env _ _ _).followedBy fun _ => .pure

theorem costs_applyOperation (prepared : PreparedOperation) (operation : OperationType R) (query : QuerySegment) (cost : Nat)
    (arcs : List PendingOperationArc) (path : DictPath) :
    Costs src.limits 0 (src.applyOperation env prepared operation query cost arcs path) := by
  refine ((costs_chargeWork env).mono (Nat.zero_le _)).followedBy fun _ => ?_
  split
  · exact ((costs_chargeWork env).mono (Nat.zero_le _)).followedBy fun _ => .pure
  · exact .pure

theorem costs_stageOperation (product : ProductState) (progress : ExpansionProgress N) (prepared : PreparedOperation) :
    Costs src.limits 0 (src.stageOperation env product progress prepared) := by
  refine ((costs_chargeWork env).mono (Nat.zero_le _)).followedBy fun _ => ?_
  split
  · exact .pure
  · refine (src.costs_querySegmentAt env _ _ _).followedBy fun r => ?_
    dsimp only
    split
    · exact .pure
    · refine (src.costs_dictionaryPathsAt env _ _ _ _).followedBy fun r => (Costs.orFail (by simp)).followedBy fun operation => ?_
      refine Costs.followedBy (u := 0) ?_ fun arcs => .pure
      exact (Costs.foldlM fun arcs path => src.costs_applyOperation env _ _ _ _ arcs path).mono (Nat.zero_le _)

theorem costs_widthCache (τ : Type) (count : Nat) : Costs src.limits 0 (src.widthCache env τ count) :=
  ((costs_chargeWork env).mono (Nat.zero_le _)).followedBy fun _ => (costs_tryReserve env).followedBy fun _ => .pure

theorem costs_stageProductState (state : Nat) (product : ProductState) :
    Costs src.limits 0 (src.stageProductState env state product) := by
  refine (costs_readShared env).followedBy fun node => (Costs.orFail (by simp)).followedBy fun node => ?_
  split
  · exact .fail (by simp)
  · refine ((costs_chargeWork env).mono (Nat.zero_le _)).followedBy fun _ => (costs_checkSource env).followedBy fun _ => ?_
    refine (src.costs_widthCache env _ _).followedBy fun _ => (src.costs_widthCache env _ _).followedBy fun _ => ?_
    refine Costs.followedBy (u := 0) ?_ fun progress => ?_
    · exact (Costs.foldlM fun progress prepared => src.costs_stageOperation env product progress prepared).mono (Nat.zero_le _)
    · exact (costs_checkSource env).followedBy fun _ => (costs_checkCancelled env).followedBy fun _ => (costs_tryReserve env).followedBy fun _ => .pure

theorem costs_stageExpansion (state : Nat) : Costs src.limits 0 (src.stageExpansion env state) := by
  refine (costs_checkCancelled env).followedBy fun _ => (costs_checkSource env).followedBy fun _ => ?_
  refine (costs_readShared env).followedBy fun registered => (Costs.orFail (by simp)).followedBy fun registered => ?_
  cases registered with
  | product product => exact (src.costs_stageProductState env state product).followedBy fun _ => .pure
  | emit emit =>
    exact ((costs_chargeWork env).mono (Nat.zero_le _)).followedBy fun _ => (costs_checkCancelled env).followedBy fun _ =>
      (costs_checkSource env).followedBy fun _ => .pure

/-! ### Commits -/

theorem costs_reconcileNode (rec : Reconciliation N) (staged : StagedDictionaryNode N) :
    Costs src.limits 1 (src.reconcileNode env rec staged) := by
  refine (costs_chargeWork env).followedBy fun _ => (Costs.orFail (by simp)).followedBy fun parent => Costs.read.followedBy fun nodes => ?_
  split
  · refine (Costs.orFail (by simp)).followedBy fun canonical => ?_
    split <;> exact .pure
  · refine (Costs.orFail (by simp)).followedBy fun count => (Costs.orFail (by simp)).followedBy fun required => ?_
    refine Costs.followedBy (u := 0) ?_ fun _ => (Costs.orFail (by simp)).followedBy fun _ => .pure
    exact fun _ => expansionFailure_requireAtMost (fun _ _ hs => hs) fun _ _ hs => hs.stopped (by simp)

theorem costs_checkedStateCount (required limit : Nat) : Costs limits 0 (StateBatch.checkedStateCount required limit : ExpansionM N Nat) := by
  refine Costs.followedBy (u := 0) ?_ fun _ => Costs.orFail (by simp)
  exact fun _ => expansionFailure_requireAtMost (fun _ _ hs => hs) fun _ _ hs => hs.stopped (by simp)

theorem costs_nextId (batch : StateBatch) (registry : StateRegistry) (limit : Nat) :
    Costs limits 0 (batch.nextId registry limit : ExpansionM N Nat) :=
  (Costs.orFail (by simp)).followedBy fun _ => (Costs.orFail (by simp)).followedBy fun _ => costs_checkedStateCount _ _

theorem costs_product (batch : StateBatch) (registry : StateRegistry) (state : ProductState) (limit : Nat) :
    Costs limits 0 (batch.product registry state limit : ExpansionM N (StateBatch × Nat)) := by
  unfold StateBatch.product
  split
  · exact .pure
  · exact (costs_nextId batch registry limit).followedBy fun _ => .pure

theorem costs_chain (batch : StateBatch) (registry : StateRegistry) (chain : EmissionChain) (limit : Nat) :
    Costs limits 0 (batch.chain env registry chain limit) := by
  unfold StateBatch.chain
  dsimp only
  split
  · exact .pure
  · split
    · exact .pure
    · exact (costs_nextId batch registry limit).followedBy fun _ => (Costs.orFail (by simp)).followedBy fun _ =>
        (costs_checkedStateCount _ _).followedBy fun _ => (costs_tryReserve env).followedBy fun _ => .pure

theorem costs_batchArc (state : Nat) (resolved : List Nat) (acc : StateBatch × List GeneralizedTransition) (arc : PendingOperationArc) :
    Costs src.limits 0 (src.batchArc env state resolved acc arc) := by
  refine ((costs_chargeWork env).mono (Nat.zero_le _)).followedBy fun _ => Costs.read.followedBy fun registry => ?_
  refine (Costs.orFail (by simp)).followedBy fun dictNodeId => (costs_product _ _ _ _).followedBy fun r => ?_
  refine Costs.followedBy (u := 0) ?_ fun _ => .pure
  unfold arcTarget
  split
  · exact .pure
  · exact costs_chain env _ _ _ _

theorem costs_publish (additions : List (DictionaryNodeKey × Owned N)) (states : List RegisteredState) :
    Costs limits 0 (publish additions states) := by
  refine Costs.read.followedBy fun nodes => (Costs.orFail (by simp)).followedBy fun nodes => ?_
  refine (Costs.update fun _ _ hs => by exact ⟨hs.1, hs.2, hs.3, hs.4, hs.5⟩).followedBy fun _ => ?_
  refine Costs.read.followedBy fun states => (Costs.orFail (by simp)).followedBy fun states => ?_
  exact Costs.update fun _ _ hs => by exact ⟨hs.1, hs.2, hs.3, hs.4, hs.5⟩

/-- Each staged node is charged for, and a node is retired only when some are staged. -/
theorem reconcile_spec (nodes : List (StagedDictionaryNode N)) (k : Nat) :
    Effect.Triple (Charged src.limits k) (nodes.foldlM (src.reconcileNode env) ⟨[], [], [], [], []⟩)
      (fun rec s => Charged src.limits (k + nodes.length) s ∧ (nodes = [] → rec.retired = [])) (Stopped src.limits) := by
  refine (Effect.Triple.foldlM (I := fun done (rec : Reconciliation N) s =>
    Charged src.limits (k + done.length) s ∧ (done = [] → rec.retired = [])) fun done staged _ rec _ => ?_).pre fun s hs => ⟨hs, fun _ => rfl⟩
  refine ((src.costs_reconcileNode env rec staged (k + done.length)).pre fun s hs => hs.1).post fun _ s hs => ⟨?_, by simp⟩
  rw [List.length_append, List.length_singleton, ← Nat.add_assoc]
  exact hs

theorem commitTurn_spec (pending : PendingExpansion N) (k : Nat) :
    Effect.Triple (Charged src.limits k) (src.commitTurn env pending)
      (fun r => Charged src.limits (Sum.elim (fun _ => k + 1) (fun _ => k) r)) (Stopped src.limits) := by
  refine (costs_readShared env k).bind fun _ => (src.reconcile_spec env _ _).bind fun rec => ?_
  split
  · rename_i hretired
    refine Effect.Triple.bind (Q := fun _ => Charged src.limits (k + 1)) ?_ fun _ =>
      (costs_checkSource env (k + 1)).bind fun _ => .pure fun _ hs => hs
    refine (costs_checkCancelled env (k + 1)).pre fun s hs => hs.1.mono ?_
    -- A retired owner was staged, so the turn has charged for it.
    cases hnodes : pending.staging.nodes with
    | nil => simp [hs.2 hnodes] at hretired
    | cons => simp
  · refine Effect.Triple.bind (Q := fun _ => Charged src.limits k) ?_ fun acc => ?_
    · refine ((Costs.foldlM fun acc arc => src.costs_batchArc env pending.state rec.resolved acc arc) k).consequence ?_ ?_ ?_
      · exact fun s hs => hs.1.mono (Nat.le_add_right _ _)
      · exact fun _ s hs => hs.mono (Nat.le_add_right _ _)
      · exact fun _ _ he => he
    · refine (costs_tryReserve env k).bind fun _ => (costs_tryReserve env k).bind fun _ => ?_
      refine (costs_checkCancelled env k).bind fun _ => (costs_checkSource env k).bind fun _ => ?_
      exact (costs_publish _ _ k).bind fun _ => .pure fun _ hs => hs

theorem costs_commitExpansion (pending : PendingExpansion N) : Costs src.limits 0 (src.commitExpansion env pending) :=
  Costs.loop (src.commitTurn_spec env) pending

theorem costs_tryComputeRegisteredState (state : Nat) : Costs src.limits 0 (src.tryComputeRegisteredState env state) := by
  refine (src.costs_stageExpansion env state).followedBy fun staged => ?_
  cases staged with
  | emitted value => exact .pure
  | pending pending => exact src.costs_commitExpansion env pending

/-! ### Retries -/

/-- `m` charges `u` units when it succeeds. -/
def Spends (u : Nat) (m : ExpansionM N α) : Prop :=
  ∀ w, Effect.Triple (fun s => s.work = w) m (fun _ s => s.work = w + u) fun _ _ => True

namespace Spends
variable {m : ExpansionM N α} {f : α → ExpansionM N β}

theorem pure {a : α} : Spends 0 (Pure.pure a : ExpansionM N α) := fun _ => .pure fun _ h => h

theorem fail {e : ExpansionError} : Spends u (Effect.fail e : ExpansionM N α) := fun _ => .fail fun _ _ => trivial

theorem read {g : ExpansionState N → α} : Spends 0 (Effect.read g) := fun _ => .read fun _ h => h

theorem update {g : ExpansionState N → ExpansionState N} (h : ∀ s, (g s).work = s.work) : Spends 0 (Effect.update g) := fun _ =>
  .update fun s hs => (h s).trans hs

theorem orFail {e : ExpansionError} {o : Option α} : Spends 0 (Effect.orFail e o : ExpansionM N α) := by
  cases o with
  | some a => exact pure
  | none => exact fail

theorem bind (h : Spends u m) (hf : ∀ a, Spends v (f a)) : Spends (u + v) (m >>= f) := fun w =>
  (h w).bind fun a => (hf a (w + u)).post fun _ _ hs => hs.trans (Nat.add_assoc w u v)

theorem followedBy (h : Spends u m) (hf : ∀ a, Spends 0 (f a)) : Spends u (m >>= f) := h.bind hf

theorem answer {g : Nat → α} : Spends 0 (answer g : ExpansionM N α) :=
  read.followedBy fun _ => (update fun _ => by rfl).followedBy fun _ => .pure

theorem checkCancelled : Spends 0 (checkCancelled env) := by
  refine answer.followedBy fun reason => ?_
  cases reason with
  | none => exact .pure
  | some reason => exact .fail

theorem checkSource : Spends 0 (checkSource env) := by
  refine answer.followedBy fun fault => ?_
  cases fault with
  | none => exact .pure
  | some fault => exact .fail

theorem expansionFailure {r : Except GeneralizedWfstError Unit} : Spends 0 (expansionFailure r : ExpansionM N Unit) := by
  cases r with
  | ok => exact .pure
  | error e => exact .fail

theorem chargeWork : Spends u (chargeWork env limits u) := by
  intro w
  refine (checkCancelled env w).bind fun _ => ?_
  refine Effect.Triple.bind (Q := fun work s => s.work = w ∧ work = w) (.read fun s hs => ⟨hs, hs⟩) fun work => ?_
  split
  · exact .fail fun _ _ => trivial
  · refine Effect.Triple.bind (Q := fun _ s => s.work = w + u) (.update fun s hs => ?_) fun _ => expansionFailure (w + u)
    rw [hs.2]

end Spends

/-- A turn of the loop that resolves the staged nodes charges for its node and keeps it. -/
theorem spends_reconcileNode (rec : Reconciliation N) (staged : StagedDictionaryNode N) (w : Nat) :
    Effect.Triple (fun s => s.work = w) (src.reconcileNode env rec staged)
      (fun rec' s => s.work = w + 1 ∧ rec'.staged.length = rec.staged.length + 1) fun _ _ => True := by
  refine (Spends.chargeWork env w).bind fun _ => (Spends.orFail (w + 1)).bind fun parent => (Spends.read (w + 1)).bind fun nodes => ?_
  split
  · refine (Spends.orFail (w + 1)).bind fun canonical => ?_
    split <;> exact .pure fun s hs => ⟨hs, by simp⟩
  · refine (Spends.orFail (w + 1)).bind fun count => (Spends.orFail (w + 1)).bind fun required => ?_
    refine (Spends.expansionFailure (w + 1)).bind fun _ => (Spends.orFail (w + 1)).bind fun id => ?_
    exact .pure fun s hs => ⟨hs, by simp⟩

/-- A commit that starts over has charged for every staged node, and will charge for as many again. -/
theorem commitTurn_retry (pending : PendingExpansion N) (w : Nat) :
    Effect.Triple (fun s => s.work = w) (src.commitTurn env pending)
      (fun r s => ∀ pending', r = .inl pending' → s.work = w + pending.staging.nodes.length ∧
        pending'.staging.nodes.length = pending.staging.nodes.length) fun _ _ => True := by
  have hshared : Spends 0 (readShared env fun _ => ()) := (Spends.update fun _ => by rfl).followedBy fun _ => .read
  refine (hshared w).bind fun _ => ?_
  refine Effect.Triple.bind (Q := fun (rec : Reconciliation N) (s : ExpansionState N) =>
    s.work = w + pending.staging.nodes.length ∧ rec.staged.length = pending.staging.nodes.length) ?_ fun rec => ?_
  · refine (Effect.Triple.foldlM (I := fun done (rec : Reconciliation N) (s : ExpansionState N) =>
      s.work = w + done.length ∧ rec.staged.length = done.length) fun done staged _ rec _ => ?_).pre fun s hs => ⟨hs, rfl⟩
    intro s hs
    refine ⟨fun rec' s' hm => ?_, fun _ _ _ => trivial⟩
    obtain ⟨hwork, hlength⟩ := (src.spends_reconcileNode env rec staged _).ok hs.1 hm
    simp [hwork, hlength, hs.2, Nat.add_assoc]
  · split
    · refine .of_fact fun hlength => ?_
      refine (Spends.checkCancelled env _).bind fun _ => (Spends.checkSource env _).bind fun _ => .pure fun s hs pending' h => ?_
      cases h
      exact ⟨hs, hlength⟩
    · refine .bind .trivial fun acc => .bind .trivial fun _ => .bind .trivial fun _ => ?_
      refine .bind .trivial fun _ => .bind .trivial fun _ => .bind .trivial fun _ => .pure fun s _ pending' h => ?_
      cases h

end Steps

/-- Every expansion ends, whatever the provider, the operations and the other clones do: it pulls no more edges and keeps no
    more paths than the limits allow, a retry of its commit charges again for every staged node, and a successful expansion
    has charged no more work than the limit. -/
theorem expansion_ends (src : GeneralizedWfst N R) (env : Environment N) (state : Nat) (registries : Registries N) (tick : Nat) :
    (∀ r s, src.tryComputeRegisteredState env state (.fresh registries tick) = (r, s) →
      r ≠ .error .outOfFuel ∧ s.pulled ≤ src.limits.maxWorkUnitsPerExpansion ∧ s.retained ≤ src.limits.maxPathsPerExpansion ∧
        ∀ value, r = .ok value → s.work ≤ src.limits.maxWorkUnitsPerExpansion) ∧
    ∀ pending pending' s s', src.commitTurn env pending s = (.ok (.inl pending'), s') →
      s'.work = s.work + pending.staging.nodes.length ∧ pending'.staging.nodes.length = pending.staging.nodes.length := by
  refine ⟨fun r s h => ?_, fun pending pending' s s' h => (src.commitTurn_retry env pending s.work).ok rfl h _ rfl⟩
  have hcosts := src.costs_tryComputeRegisteredState env state 0
  have hfresh : Charged src.limits 0 (ExpansionState.fresh registries tick) :=
    ⟨Nat.zero_le _, Nat.zero_le _, Nat.le_refl _, Nat.zero_le _, Nat.le_refl _⟩
  cases r with
  | ok value =>
    have hs := hcosts.ok hfresh h
    exact ⟨by simp, hs.pulled_le.trans hs.work_le, hs.retained_le.trans hs.paths_le, fun _ _ => hs.work_le⟩
  | error e =>
    have hs := hcosts.error hfresh h
    exact ⟨by simpa using hs.ne_outOfFuel, hs.pulled_le, hs.retained_le, by simp⟩

end GeneralizedWfst
end Duallity
