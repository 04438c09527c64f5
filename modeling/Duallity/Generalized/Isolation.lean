import Duallity.Generalized.Sharing

/-! An expansion writes to the registries when it publishes, and nowhere before: whether it succeeds or fails, until then they
    are as the other clones leave them. -/

namespace Duallity
open ExpansionBudget

/-- `m` leaves the registries as other clones publish them in `env`, also when it fails. -/
def Isolated {N α : Type} (env : Environment N) (m : ExpansionM N α) : Prop :=
  ∀ p : Registries N → Prop, (∀ {tick r}, p r → p (env.clones tick r)) →
    Effect.Triple (fun s => p s.registries) m (fun _ s => p s.registries) fun _ s => p s.registries

namespace Isolated
variable {N α β γ : Type} {m : ExpansionM N α} {f : α → ExpansionM N β} {env : Environment N}

theorem pure {a : α} : Isolated env (Pure.pure a : ExpansionM N α) := fun _ _ => .pure fun _ h => h

theorem fail {e : ExpansionError} : Isolated env (Effect.fail e : ExpansionM N α) := fun _ _ => .fail fun _ h => h

theorem read {g : ExpansionState N → α} : Isolated env (Effect.read g) := fun _ _ => .read fun _ h => h

theorem update {g : ExpansionState N → ExpansionState N} (h : ∀ s, (g s).registries = s.registries) : Isolated env (Effect.update g) :=
  fun _ _ => .update fun s hs => by rwa [h s]

theorem orFail {e : ExpansionError} {o : Option α} : Isolated env (Effect.orFail e o : ExpansionM N α) := by
  cases o with
  | some a => exact pure
  | none => exact fail

theorem bind (h : Isolated env m) (hf : ∀ a, Isolated env (f a)) : Isolated env (m >>= f) := fun p hp => (h p hp).bind fun a => hf a p hp

theorem loop {turn : β → ExpansionM N (β ⊕ α)} (h : ∀ b, Isolated env (turn b)) (fuel : Nat) (b : β) :
    Isolated env (Effect.loop .outOfFuel turn fuel b) := by
  intro p hp
  refine Effect.Triple.loop (I := fun _ _ (s : ExpansionState N) => p s.registries) (fun _ _ hs => hs) (fun fuel b => ?_) fuel b
  refine (h b p hp).post fun r s hs => ?_
  cases r <;> exact hs

theorem foldlM {xs : List γ} {step : β → γ → ExpansionM N β} (h : ∀ b x, Isolated env (step b x)) (b : β) :
    Isolated env (xs.foldlM step b) := fun p hp =>
  Effect.Triple.foldlM (I := fun _ _ (s : ExpansionState N) => p s.registries) fun _ x _ acc _ => h acc x p hp

theorem answer {g : Nat → α} : Isolated env (answer g : ExpansionM N α) := read.bind fun _ => (update fun _ => by rfl).bind fun _ => pure

theorem readShared {g : Registries N → α} : Isolated env (readShared env g) := fun _ hp =>
  (readShared_spec hp).post fun _ _ hs => hs.1

theorem expansionFailure {r : Except GeneralizedWfstError Unit} : Isolated env (expansionFailure r : ExpansionM N Unit) := by
  cases r with
  | ok => exact pure
  | error e => exact fail

/-! ### Budget -/

section Budget
variable (env : Environment N) {limits : GeneralizedWfstLimits} {u : Nat}

theorem checkCancelled : Isolated env (checkCancelled env) := by
  refine answer.bind fun reason => ?_
  cases reason with
  | none => exact pure
  | some reason => exact fail

theorem checkSource : Isolated env (checkSource env) := by
  refine answer.bind fun fault => ?_
  cases fault with
  | none => exact pure
  | some fault => exact fail

theorem tryReserve {context : String} : Isolated env (tryReserve env context) := by
  refine answer.bind fun reserved => ?_
  cases reserved with
  | true => exact pure
  | false => exact fail

theorem chargeWork : Isolated env (chargeWork env limits u) := by
  refine (checkCancelled env).bind fun _ => read.bind fun work => ?_
  split
  · exact fail
  · exact (update fun _ => by rfl).bind fun _ => expansionFailure

theorem chargePath : Isolated env (chargePath env limits) := by
  refine (checkCancelled env).bind fun _ => read.bind fun paths => ?_
  split
  · exact fail
  · exact (update fun _ => by rfl).bind fun _ => expansionFailure

end Budget

/-! ### Staging -/

section Staging
variable {R : Type} (src : GeneralizedWfst N R)

theorem stageChild (env : Environment N) (staging : ExpansionStaging N) (registered : Option Nat) (parent : PendingDictionaryNode)
    (label : Char) (node : N) : Isolated env (staging.stageChild env registered parent label node) := by
  unfold ExpansionStaging.stageChild
  split
  · exact pure
  · split
    · exact pure
    · exact answer.bind fun _ => pure

theorem retainPath (env : Environment N) : Isolated env (src.retainPath env) := (chargePath env).bind fun _ => update fun _ => by rfl

theorem boundedEdges (env : Environment N) (node : N) : Isolated env (src.boundedEdges env node) := by
  refine (chargeWork env).bind fun _ => (loop (fun owned => ?_) _ _).bind fun _ => (checkSource env).bind fun _ => pure
  refine (chargeWork env).bind fun _ => ?_
  split
  · exact (update fun _ => by rfl).bind fun _ => (checkSource env).bind fun _ => pure
  · exact pure

theorem registeredChild (parent : PendingDictionaryNode) (label : Char) :
    Isolated env (GeneralizedWfst.registeredChild env parent label) := by
  unfold GeneralizedWfst.registeredChild
  cases parent with
  | registered id => exact readShared
  | staged index => exact pure

theorem walkTurn (width : Nat) (walk : PathWalk N) : Isolated env (src.walkTurn env width walk) := by
  unfold GeneralizedWfst.walkTurn
  split
  · exact pure
  · refine (chargeWork env).bind fun _ => ?_
    dsimp only
    split
    · exact pure
    · refine (registeredChild _ _).bind fun registered => (stageChild env _ _ _ _ _).bind fun staged => ?_
      split
      · exact (retainPath src env).bind fun _ => (chargeWork env).bind fun _ => pure
      · exact (boundedEdges src env _).bind fun _ => pure

theorem dictionaryPathsExactChars (start width : Nat) (staging : ExpansionStaging N) :
    Isolated env (src.dictionaryPathsExactChars env start width staging) := by
  refine readShared.bind fun _ => orFail.bind fun _ => ?_
  split
  · exact (retainPath src env).bind fun _ => (chargeWork env).bind fun _ => pure
  · exact (boundedEdges src env _).bind fun _ => loop (fun walk => walkTurn src width walk) _ _

theorem stageOperation (product : ProductState) (progress : ExpansionProgress N) (prepared : PreparedOperation) :
    Isolated env (src.stageOperation env product progress prepared) := by
  refine (chargeWork env).bind fun _ => ?_
  split
  · exact pure
  · refine bind ?_ fun found => ?_
    · refine orFail.bind fun entry => ?_
      split
      · exact pure
      · exact pure
      · refine (chargeWork env).bind fun _ => ?_
        split <;> exact pure
    · obtain ⟨queries, query?⟩ := found
      cases query? with
      | none => exact pure
      | some query =>
        refine bind ?_ fun found => orFail.bind fun operation => ?_
        · refine orFail.bind fun entry => ?_
          split
          · exact pure
          · exact fail
          · exact (dictionaryPathsExactChars src _ _ _).bind fun _ => pure
        · refine (foldlM (fun arcs path => (chargeWork env).bind fun _ => ?_) _).bind fun _ => pure
          split
          · exact (chargeWork env).bind fun _ => pure
          · exact pure

theorem stageProductState (state : Nat) (product : ProductState) :
    Isolated env (src.stageProductState env state product) := by
  refine readShared.bind fun _ => orFail.bind fun _ => ?_
  split
  · exact fail
  · have hcache : ∀ (τ : Type) (count : Nat), Isolated env (src.widthCache env τ count) := fun τ count =>
      (chargeWork env).bind fun _ => (tryReserve env).bind fun _ => pure
    refine (chargeWork env).bind fun _ => (checkSource env).bind fun _ => (hcache _ _).bind fun _ => (hcache _ _).bind fun _ => ?_
    refine (foldlM (fun progress prepared => stageOperation src product progress prepared) _).bind fun _ => ?_
    exact (checkSource env).bind fun _ => (checkCancelled env).bind fun _ => (tryReserve env).bind fun _ => pure

theorem stageExpansion (env : Environment N) (state : Nat) : Isolated env (src.stageExpansion env state) := by
  refine (checkCancelled env).bind fun _ => (checkSource env).bind fun _ => readShared.bind fun _ => orFail.bind fun registered => ?_
  cases registered with
  | product product => exact (stageProductState src state product).bind fun _ => pure
  | emit emit => exact (chargeWork env).bind fun _ => (checkCancelled env).bind fun _ => (checkSource env).bind fun _ => pure

end Staging

/-! ### Commit up to publication -/

theorem nextId (batch : StateBatch) (registry : StateRegistry) (limit : Nat) : Isolated env (batch.nextId registry limit : ExpansionM N Nat) :=
  orFail.bind fun _ => orFail.bind fun _ => expansionFailure.bind fun _ => orFail

section Commit
variable {R : Type} (src : GeneralizedWfst N R) (env : Environment N)

theorem reconcileNode (rec : Reconciliation N) (staged : StagedDictionaryNode N) : Isolated env (src.reconcileNode env rec staged) := by
  refine (chargeWork env).bind fun _ => orFail.bind fun parent => read.bind fun nodes => ?_
  split
  · refine orFail.bind fun canonical => ?_
    split <;> exact pure
  · exact orFail.bind fun count => orFail.bind fun required => expansionFailure.bind fun _ => orFail.bind fun id => pure

theorem batchArc (state : Nat) (resolved : List Nat) (acc : StateBatch × List GeneralizedTransition) (arc : PendingOperationArc) :
    Isolated env (src.batchArc env state resolved acc arc) := by
  refine (chargeWork env).bind fun _ => read.bind fun registry => orFail.bind fun node => bind ?_ fun found => bind ?_ fun found => pure
  · unfold StateBatch.product
    split
    · exact pure
    · exact (nextId _ _ _).bind fun _ => pure
  · unfold GeneralizedWfst.arcTarget
    split
    · exact pure
    · unfold StateBatch.chain
      dsimp only
      split
      · exact pure
      · split
        · exact pure
        · refine (nextId _ _ _).bind fun first => orFail.bind fun required => bind ?_ fun _ => (tryReserve env).bind fun _ => pure
          exact expansionFailure.bind fun _ => orFail

end Commit
end Isolated

/-! ### Publication -/

/-- The registries after publications of other clones in `env`, and of nobody else. -/
inductive LeftToClones {N : Type} (env : Environment N) (r : Registries N) : Registries N → Prop
  | refl : LeftToClones env r r
  | clones {tick : Nat} {r' : Registries N} : LeftToClones env r r' → LeftToClones env r (env.clones tick r')

section Publication
variable {N R : Type} (src : GeneralizedWfst N R) (env : Environment N) {p : Registries N → Prop}

/-- The two registries are written one after the other, and between them only a panic can occur. -/
theorem publish_error (additions : List (DictionaryNodeKey × Owned N)) (states : List RegisteredState) :
    Effect.Triple (fun _ => True) (GeneralizedWfst.publish additions states) (fun _ _ => True) fun e s => ¬Reported e s := by
  have hpanics : ∀ {α : Type} {o : Option α} {message : String},
      Effect.Triple (fun _ => True) (Effect.orFail (.panicked message) o : ExpansionM N α) (fun _ _ => True) fun e s => ¬Reported e s :=
    .orFail (fun _ _ _ _ => trivial) fun _ _ _ h => h _ rfl
  refine Effect.Triple.bind (Q := fun _ _ => True) (.read fun _ _ => trivial) fun _ => hpanics.bind fun _ => ?_
  refine Effect.Triple.bind (Q := fun _ _ => True) (.update fun _ _ => trivial) fun _ => ?_
  exact Effect.Triple.bind (Q := fun _ _ => True) (.read fun _ _ => trivial) fun _ => hpanics.bind fun _ => .update fun _ _ => trivial

/-- A turn of the commit loop that reports an error, or that leaves the commit to the next turn, publishes nothing. -/
theorem commitTurn_isolated (hp : ∀ {tick r}, p r → p (env.clones tick r)) (pending : PendingExpansion N) :
    Effect.Triple (fun s => p s.registries) (src.commitTurn env pending) (fun next s => ∀ pending', next = .inl pending' → p s.registries)
      fun e s => Reported e s → p s.registries := by
  have hreports : ∀ {α : Type} {m : ExpansionM N α}, Isolated env m → Effect.Triple (fun s => p s.registries) m (fun _ s => p s.registries)
      fun e s => Reported e s → p s.registries := fun h => (h p hp).consequence (fun _ hs => hs) (fun _ _ hs => hs) fun _ _ he _ => he
  refine (hreports .readShared).bind fun _ => (hreports (.foldlM (fun rec staged => .reconcileNode src env rec staged) _)).bind fun rec => ?_
  split
  · exact (hreports (.checkCancelled env)).bind fun _ => (hreports (.checkSource env)).bind fun _ => .pure fun _ hs _ _ => hs
  · refine (hreports (.foldlM (fun acc arc => .batchArc src env pending.state rec.resolved acc arc) _)).bind fun acc => ?_
    refine (hreports (.tryReserve env)).bind fun _ => (hreports (.tryReserve env)).bind fun _ =>
      (hreports (.checkCancelled env)).bind fun _ => (hreports (.checkSource env)).bind fun _ => ?_
    refine Effect.Triple.bind (Q := fun _ _ => True) ?_ fun _ => .pure fun _ _ _ h => by cases h
    exact (publish_error _ _).consequence (fun _ _ => trivial) (fun _ _ _ => trivial) fun _ _ he h => absurd h he

/-- An expansion that reports an error publishes nothing, whatever the registries hold. -/
theorem tryComputeRegisteredState_isolated (hp : ∀ {tick r}, p r → p (env.clones tick r)) (state : Nat) :
    Effect.Triple (fun s => p s.registries) (src.tryComputeRegisteredState env state) (fun _ _ => True)
      fun e s => Reported e s → p s.registries := by
  refine Effect.Triple.bind (Q := fun _ s => p s.registries) ?_ fun staged => ?_
  · exact (Isolated.stageExpansion src env state p hp).consequence (fun _ hs => hs) (fun _ _ hs => hs) fun _ _ he _ => he
  · cases staged with
    | emitted value => exact .pure fun _ _ => trivial
    | pending pending =>
      refine Effect.Triple.loop (I := fun _ _ (s : ExpansionState N) => p s.registries) (fun _ _ hs _ => hs) (fun fuel pending => ?_) _ _
      refine (commitTurn_isolated src env hp pending).post fun next s hs => ?_
      cases next with
      | inl pending' => exact hs pending' rfl
      | inr value => trivial

end Publication
end Duallity
