import Duallity.Generalized.Reconciliation
import Duallity.Generalized.OperationMachine
import Mathlib.Data.List.Forall2

/-! Preparation keeps the meaning of an operation set. The operations that do not fit the budget and the repeated ones are
    dropped, and an expansion finds the paths and the query segment of an operation in the slots of its widths. -/

namespace Duallity
namespace GeneralizedOps
variable {R : Type} [DecidableEq R] {scale : CostScale} {maxCost : Nat} {operations bounded : OperationSet R}

theorem map_fst_zip_sublist {α β : Type} (xs : List α) (ys : List β) : ((xs.zip ys).map Prod.fst).Sublist xs := by
  induction xs generalizing ys with
  | nil => simp
  | cons x xs ih =>
    cases ys with
    | nil => simp
    | cons y ys => simpa using ih ys

/-- The operations that are kept stand in their order, each once. -/
theorem boundedOperationSet_sublist (h : boundedOperationSet scale maxCost operations = some bounded) :
    bounded.Nodup ∧ bounded.Sublist operations := by
  obtain ⟨scaled, -, rfl⟩ := Option.map_eq_some_iff.mp h
  -- The fold appends operations of the pairs that it does not have.
  suffices hfold : ∀ (pairs : List (OperationType R × Nat)) (acc : OperationSet R), acc.Nodup →
      ∃ rest, pairs.foldl (fun bounded pair =>
        if pair.2 ≤ maxCost ∧ ¬bounded.any fun o => operationsHaveSameWfstSemantics o pair.1 then
          bounded ++ [pair.1]
        else bounded) acc = acc ++ rest ∧ (acc ++ rest).Nodup ∧ rest.Sublist (pairs.map Prod.fst) by
    obtain ⟨rest, heq, hnodup, hsub⟩ := hfold (operations.zip scaled) [] List.nodup_nil
    exact heq.symm ▸ ⟨hnodup, hsub.trans (map_fst_zip_sublist _ _)⟩
  intro pairs
  induction pairs with
  | nil => exact fun acc hacc => ⟨[], by simpa using hacc⟩
  | cons pair pairs ih =>
    intro acc hacc
    obtain ⟨operation, scaledWeight⟩ := pair
    rw [List.foldl_cons]
    dsimp only
    split
    · rename_i hadd
      have hnew : operation ∉ acc := by
        intro hmem
        refine hadd.2 (List.any_eq_true.mpr ⟨operation, hmem, ?_⟩)
        exact operationsHaveSameWfstSemantics_iff.mpr rfl
      have hacc' : (acc ++ [operation]).Nodup := by
        rw [List.nodup_append]
        refine ⟨hacc, List.nodup_singleton _, fun a ha b hb => ?_⟩
        rw [List.mem_singleton.mp hb]
        rintro rfl
        exact hnew ha
      obtain ⟨rest, heq, hnodup, hsub⟩ := ih (acc ++ [operation]) hacc'
      refine ⟨operation :: rest, ?_, ?_, hsub.cons_cons _⟩
      · rw [heq, List.append_assoc, List.singleton_append]
      · rwa [List.append_assoc, List.singleton_append] at hnodup
    · obtain ⟨rest, heq, hnodup, hsub⟩ := ih acc hacc
      exact ⟨rest, heq, hnodup, hsub.cons _⟩

end GeneralizedOps

namespace GeneralizedWfst
open ExpansionBudget GeneralizedOps DictionaryNodeRegistry OperationMachine
variable {N R : Type} {D : Dictionary N Char} {src : GeneralizedWfst N R} {env : Environment N} {r r' : Registries N}
  {base : List Char} {n : N} {start position cost : Nat}

/-! ### Staged arcs -/

/-- A staged arc is an arc of the abstract product, whose target is still a reference. -/
structure ArcFits (src : GeneralizedWfst N R) (r : Registries N) (steps : List (PendingDictionaryNode × Char × N))
    (staged : PendingOperationArc) (arc : OperationArc) : Prop where
  input : staged.input = arc.input
  output : staged.output = arc.output
  weight : staged.weight = arc.weight
  queryBytePos : staged.queryBytePos = utf8Len (src.query.take arc.target.consumed)
  cost : staged.cost = arc.target.cost
  target : Refers r steps staged.targetNode arc.target.spelled

/-- The query segment of a width, from a position on. -/
def segmentAt (src : GeneralizedWfst N R) (position width : Nat) : QuerySegment :=
  ⟨(src.query.drop position).take width, asBytes ((src.query.drop position).take width), utf8Len (src.query.take (position + width))⟩

/-- A slot of the query cache holds the segment of its width, once it holds anything. -/
def SegmentFits (src : GeneralizedWfst N R) (position width : Nat) : Option (WidthCacheEntry QuerySegment) → Prop
  | some .uncomputed => True
  | some .missing => src.query.length < position + width
  | some (.ready segment) => position + width ≤ src.query.length ∧ segment = src.segmentAt position width
  | none => False

/-- A slot of the path cache holds the paths of its width, once it holds anything. -/
def PathSlotFits (D : Dictionary N Char) (r : Registries N) (steps : List (PendingDictionaryNode × Char × N)) (base : List Char) (n : N)
    (width : Nat) : Option (WidthCacheEntry (List DictPath)) → Prop
  | some .uncomputed => True
  | some (.ready paths) => paths.map DictPath.output = D.labelledPaths n width ∧ ∀ path ∈ paths, PathFits r base steps path
  | some .missing | none => False

/-- Between two turns of the loop over the prepared operations, of which `done` have been applied. -/
structure ProgressFits (D : Dictionary N Char) (src : GeneralizedWfst N R) (start : Nat) (base : List Char) (n : N) (position cost : Nat)
    (done : List PreparedOperation) (progress : ExpansionProgress N) (r : Registries N) : Prop where
  registries : r.WellFormed D
  spells : Spells r.dictionaryNodes start base
  staging : StagingFits D r progress.staging
  queries : ∀ p ∈ src.preparedOperations, SegmentFits src position p.consumeY progress.queries[p.queryWidthSlot]?
  paths : ∀ p ∈ src.preparedOperations,
    PathSlotFits D r progress.staging.steps base n p.consumeX progress.pathsByWidth[p.sourceWidthSlot]?
  arcs : List.Forall₂ (ArcFits src r progress.staging.steps) progress.arcs
    (done.flatMap (appliedArcs D src n ⟨base, position, cost⟩))

section Stages
variable {steps steps' : List (PendingDictionaryNode × Char × N)} {done : List PreparedOperation} {progress : ExpansionProgress N}
  {p : PreparedOperation}

theorem ArcFits.mono {staged : PendingOperationArc} {arc : OperationArc} (h : ArcFits src r steps staged arc)
    (hr : Published D r r') : ArcFits src r' steps staged arc := { h with target := h.target.mono hr }

theorem ArcFits.extend {staged : PendingOperationArc} {arc : OperationArc} (h : ArcFits src r steps staged arc)
    (hsteps : steps <+: steps') : ArcFits src r steps' staged arc := { h with target := h.target.extend hsteps }

theorem PathSlotFits.mono {width : Nat} {entry : Option (WidthCacheEntry (List DictPath))} (h : PathSlotFits D r steps base n width entry)
    (hr : Published D r r') : PathSlotFits D r' steps base n width entry := by
  match entry with
  | some .uncomputed => trivial
  | some (.ready paths) => exact ⟨h.1, fun path hpath => (h.2 path hpath).mono hr⟩

theorem PathSlotFits.extend {width : Nat} {entry : Option (WidthCacheEntry (List DictPath))}
    (h : PathSlotFits D r steps base n width entry) (hsteps : steps <+: steps') : PathSlotFits D r steps' base n width entry := by
  match entry with
  | some .uncomputed => trivial
  | some (.ready paths) => exact ⟨h.1, fun path hpath => (h.2 path hpath).extend hsteps⟩

theorem ProgressFits.mono (h : ProgressFits D src start base n position cost done progress r) (hr : Published D r r') :
    ProgressFits D src start base n position cost done progress r' :=
  ⟨hr.wellFormed h.registries, hr.spells h.spells, h.staging.mono hr, h.queries, fun p hp => (h.paths p hp).mono hr,
    h.arcs.imp fun _ _ harc => harc.mono hr⟩

/-- A filled slot changes the entries of its own width only. -/
theorem segmentFits_set {entries : List (WidthCacheEntry QuerySegment)} {slot slot' width width' : Nat} {entry : WidthCacheEntry QuerySegment}
    (hslot : slot = slot' → width = width') (hfits : SegmentFits src position width' entries[slot']?)
    (hentry : SegmentFits src position width (some entry)) : SegmentFits src position width' (entries.set slot entry)[slot']? := by
  rw [List.getElem?_set]
  split
  · rename_i heq
    split
    · exact hslot heq ▸ hentry
    · rename_i hlt
      rw [List.getElem?_eq_none (by omega)] at hfits
      exact hfits
  · exact hfits

theorem pathSlotFits_set {entries : List (WidthCacheEntry (List DictPath))} {slot slot' width width' : Nat}
    {entry : WidthCacheEntry (List DictPath)} (hslot : slot = slot' → width = width')
    (hfits : PathSlotFits D r steps base n width' entries[slot']?) (hentry : PathSlotFits D r steps base n width (some entry)) :
    PathSlotFits D r steps base n width' (entries.set slot entry)[slot']? := by
  rw [List.getElem?_set]
  split
  · rename_i heq
    split
    · exact hslot heq ▸ hentry
    · rename_i hlt
      rw [List.getElem?_eq_none (by omega)] at hfits
      exact hfits
  · exact hfits

theorem querySegmentAt_fits (hslots : src.SlotsFit) (hp : p ∈ src.preparedOperations) (hposition : position ≤ src.query.length) :
    Effect.Triple (fun s => ProgressFits D src start base n position cost done progress s.registries)
      (src.querySegmentAt env progress.queries p (utf8Len (src.query.take position)))
      (fun found s => ProgressFits D src start base n position cost done { progress with queries := found.1 } s.registries ∧
        found.2 = if position + p.consumeY ≤ src.query.length then some (src.segmentAt position p.consumeY) else none)
      Reported := by
  refine .learn (fun s hs => hs.queries p hp) fun hentry => ?_
  unfold querySegmentAt
  match hget : progress.queries[p.queryWidthSlot]? with
  | none => simp [hget, SegmentFits] at hentry
  | some .missing =>
    rw [hget] at hentry
    exact .pure fun s hs => ⟨hs, by rw [if_neg (Nat.not_le.mpr hentry)]⟩
  | some (.ready segment) =>
    rw [hget] at hentry
    exact .pure fun s hs => ⟨hs, by rw [if_pos hentry.1, hentry.2]⟩
  | some .uncomputed =>
    refine (Quiet.chargeWork env (ProgressFits D src start base n position cost done progress)).bind fun _ => ?_
    rw [strSegment_take hposition]
    have hset : ∀ {s : ExpansionState N} {entry : WidthCacheEntry QuerySegment}, SegmentFits src position p.consumeY (some entry) →
        ProgressFits D src start base n position cost done progress s.registries →
        ProgressFits D src start base n position cost done { progress with queries := progress.queries.set p.queryWidthSlot entry } s.registries :=
      fun hfits hs => { hs with queries := fun p' hp' => segmentFits_set (hslots.consumeY_eq p hp p' hp') (hs.queries p' hp') hfits }
    by_cases hle : position + p.consumeY ≤ src.query.length
    · rw [if_pos hle]
      exact .pure fun s hs => ⟨hset ⟨hle, rfl⟩ hs, by rw [if_pos hle]; rfl⟩
    · rw [if_neg hle]
      exact .pure fun s hs => ⟨hset (Nat.lt_of_not_le hle) hs, by rw [if_neg hle]⟩

theorem dictionaryPathsAt_fits (hD : D.DistinctLabels) (hsrc : src.dictionary = D.provider) (henv : env.Publishes D)
    (hslots : src.SlotsFit) (hp : p ∈ src.preparedOperations) (hn : D.node? base = some n) :
    Effect.Triple (fun s => ProgressFits D src start base n position cost done progress s.registries)
      (src.dictionaryPathsAt env progress.pathsByWidth progress.staging p start)
      (fun found s => ProgressFits D src start base n position cost done
          { progress with pathsByWidth := found.1, staging := found.2.1 } s.registries ∧
        found.2.2.map DictPath.output = D.labelledPaths n p.consumeX ∧
        ∀ path ∈ found.2.2, PathFits s.registries base found.2.1.steps path) Reported := by
  unfold dictionaryPathsAt
  match hget : progress.pathsByWidth[p.sourceWidthSlot]? with
  | none =>
    refine .learn (φ := False) (fun s hs => ?_) False.elim
    simpa [hget, PathSlotFits] using hs.paths p hp
  | some .missing =>
    refine .learn (φ := False) (fun s hs => ?_) False.elim
    simpa [hget, PathSlotFits] using hs.paths p hp
  | some (.ready paths) =>
    refine .pure fun s hs => ⟨hs, ?_⟩
    simpa [hget, PathSlotFits] using hs.paths p hp
  | some .uncomputed =>
    let q := ProgressFits D src start base n position cost done progress
    have hshares : Effect.Triple (fun s => q s.registries) (src.dictionaryPathsExactChars env start p.consumeX progress.staging)
        (fun _ s => q s.registries) Reported :=
      Shares.dictionaryPathsExactChars henv start p.consumeX progress.staging q fun hr hs => hs.mono hr
    have hpaths := dictionaryPathsExactChars_fits hD hsrc henv start p.consumeX progress.staging hn
    have hboth : Effect.Triple (fun s => q s.registries) (src.dictionaryPathsExactChars env start p.consumeX progress.staging)
        (fun found s => q s.registries ∧ PathsFit D progress.staging.steps base p.consumeX n found s.registries) Reported :=
      (hshares.and hpaths).consequence (fun s hs => ⟨hs, hs.registries, hs.staging, hs.spells⟩) (fun _ _ h => h) fun _ _ he => he.1
    refine hboth.bind fun found => .pure fun s hs => ?_
    obtain ⟨hprogress, hfound⟩ := hs
    refine ⟨⟨hfound.registries, hprogress.spells, hfound.staging, hprogress.queries, fun p' hp' => ?_, ?_⟩, hfound.listed, hfound.paths⟩
    · exact pathSlotFits_set (hslots.consumeX_eq p hp p' hp') ((hprogress.paths p' hp').extend hfound.before_prefix)
        ⟨hfound.listed, hfound.paths⟩
    · exact hprogress.arcs.imp fun _ _ harc => harc.extend hfound.before_prefix

/-- What an operation makes of the paths of its width. -/
def pathArcs (src : GeneralizedWfst N R) (p : PreparedOperation) (operation : OperationType R) (base : List Char) (position cost : Nat)
    (paths : List (List Char)) : List OperationArc :=
  (paths.filter fun path => operationApplies src.library operation path (asBytes path) (src.segmentAt position p.consumeY).chars
    (src.segmentAt position p.consumeY).bytes).map fun path =>
      ⟨(src.segmentAt position p.consumeY).chars, path, p.weight, ⟨base ++ path, position + p.consumeY, cost + p.scaledWeight⟩⟩

theorem appliedArcs_eq {operation : OperationType R} (hoperation : src.operations[p.index]? = some operation)
    (hcost : ¬src.maxCost - cost < p.scaledWeight) (hle : position + p.consumeY ≤ src.query.length) :
    appliedArcs D src n ⟨base, position, cost⟩ p = pathArcs src p operation base position cost (D.labelledPaths n p.consumeX) := by
  rw [appliedArcs, if_neg (by simp only [not_or]; exact ⟨hcost, Nat.not_lt.mpr hle⟩), hoperation]
  rfl

theorem pathArcs_snoc {operation : OperationType R} {paths : List (List Char)} {path : List Char} :
    pathArcs src p operation base position cost (paths ++ [path]) =
      pathArcs src p operation base position cost paths ++ pathArcs src p operation base position cost [path] := by
  simp [pathArcs]

/-- A turn of the loop over the paths adds the arc of its path, if the operation applies. -/
theorem applyOperation_fits (operation : OperationType R) (path : DictPath) {known : List OperationArc}
    (steps : List (PendingDictionaryNode × Char × N)) (arcs : List PendingOperationArc) (q : Registries N → Prop) :
    Effect.Triple (fun s => q s.registries ∧ PathFits s.registries base steps path ∧
        List.Forall₂ (ArcFits src s.registries steps) arcs known)
      (src.applyOperation env p operation (src.segmentAt position p.consumeY) (cost + p.scaledWeight) arcs path)
      (fun arcs s => q s.registries ∧ List.Forall₂ (ArcFits src s.registries steps) arcs
        (known ++ pathArcs src p operation base position cost [path.output])) Reported := by
  refine .learn (fun s hs => hs.2.1.bytes) fun hbytes => ?_
  let q' : Registries N → Prop := fun r => q r ∧ PathFits r base steps path ∧ List.Forall₂ (ArcFits src r steps) arcs known
  refine (Quiet.chargeWork env q').bind fun _ => ?_
  rw [hbytes]
  split
  · rename_i happlies
    refine (Quiet.chargeWork env q').bind fun _ => .pure fun s hs => ⟨hs.1, List.rel_append hs.2.2 ?_⟩
    simp only [pathArcs, List.filter_singleton, happlies]
    exact .cons ⟨rfl, rfl, rfl, rfl, rfl, hs.2.1.target⟩ .nil
  · rename_i happlies
    refine .pure fun s hs => ⟨hs.1, ?_⟩
    simpa [pathArcs, List.filter_singleton, happlies] using hs.2.2

/-- A turn of the loop over the prepared operations stages the arcs of its operation. -/
theorem stageOperation_fits (hD : D.DistinctLabels) (hsrc : src.dictionary = D.provider) (henv : env.Publishes D) (hslots : src.SlotsFit)
    (hp : p ∈ src.preparedOperations) (hn : D.node? base = some n) (hposition : position ≤ src.query.length) :
    Effect.Triple (fun s => ProgressFits D src start base n position cost done progress s.registries)
      (src.stageOperation env ⟨start, utf8Len (src.query.take position), cost⟩ progress p)
      (fun progress s => ProgressFits D src start base n position cost (done ++ [p]) progress s.registries) Reported := by
  have hdone : (done ++ [p]).flatMap (appliedArcs D src n ⟨base, position, cost⟩) =
      done.flatMap (appliedArcs D src n ⟨base, position, cost⟩) ++ appliedArcs D src n ⟨base, position, cost⟩ p := by simp
  have hskip : ∀ {progress : ExpansionProgress N} {r}, appliedArcs D src n ⟨base, position, cost⟩ p = [] →
      ProgressFits D src start base n position cost done progress r →
      ProgressFits D src start base n position cost (done ++ [p]) progress r := by
    intro progress r hnil h
    refine { h with arcs := ?_ }
    rw [hdone, hnil, List.append_nil]
    exact h.arcs
  refine (Quiet.chargeWork env (ProgressFits D src start base n position cost done progress)).bind fun _ => ?_
  split
  · rename_i hcost
    exact .pure fun s hs => hskip (by rw [appliedArcs, if_pos (Or.inl hcost)]) hs
  · rename_i hcost
    refine (querySegmentAt_fits hslots hp hposition).bind fun found => .of_fact fun hfound => ?_
    obtain ⟨queries, query?⟩ := found
    dsimp only at hfound ⊢
    by_cases hle : position + p.consumeY ≤ src.query.length
    · rw [hfound, if_pos hle]
      dsimp only
      refine (dictionaryPathsAt_fits hD hsrc henv hslots hp hn).bind fun found => ?_
      obtain ⟨pathsByWidth, staging, paths⟩ := found
      dsimp only
      obtain ⟨operation, hoperation⟩ := hslots.operation p hp
      rw [hoperation]
      let q : Registries N → Prop := fun r => ProgressFits D src start base n position cost done
        ⟨queries, pathsByWidth, staging, progress.arcs⟩ r ∧ ∀ path ∈ paths, PathFits r base staging.steps path
      refine Effect.Triple.bind_orFail (Effect.Triple.pre (P := fun s => q s.registries ∧
        paths.map DictPath.output = D.labelledPaths n p.consumeX) (.of_fact fun hlisted => ?_) fun s hs => ⟨⟨hs.1, hs.2.2⟩, hs.2.1⟩)
      refine Effect.Triple.bind (Q := fun arcs s => q s.registries ∧ List.Forall₂ (ArcFits src s.registries staging.steps) arcs
        ((done ++ [p]).flatMap (appliedArcs D src n ⟨base, position, cost⟩))) ?_ fun arcs =>
          .pure fun s hs => { hs.1.1 with arcs := hs.2 }
      rw [hdone, appliedArcs_eq hoperation hcost hle, ← hlisted]
      refine (Effect.Triple.foldlM (I := fun taken arcs (s : ExpansionState N) => q s.registries ∧
        List.Forall₂ (ArcFits src s.registries staging.steps) arcs (done.flatMap (appliedArcs D src n ⟨base, position, cost⟩) ++
          pathArcs src p operation base position cost (taken.map DictPath.output))) fun taken path rest arcs hpaths => ?_).pre
            fun s hs => ⟨hs, by simpa [pathArcs] using hs.1.arcs⟩
      rw [List.map_append, List.map_singleton, pathArcs_snoc, ← List.append_assoc]
      refine (applyOperation_fits operation path staging.steps arcs q).pre fun s hs => ⟨hs.1, hs.1.2 path ?_, hs.2⟩
      simp [hpaths]
    · rw [hfound, if_neg hle]
      refine .pure fun s hs => hskip ?_ hs
      rw [appliedArcs, if_pos (Or.inr (Nat.lt_of_not_le hle))]

/-- What an expansion of a product state has staged before its commit: the arcs of a point of the abstract product. -/
structure PendingFits (D : Dictionary N Char) (src : GeneralizedWfst N R) (state : Nat) (product : ProductState) (base : List Char) (n : N)
    (position : Nat) (pending : PendingExpansion N) (r : Registries N) : Prop where
  registries : r.WellFormed D
  spells : Spells r.dictionaryNodes product.dictNodeId base
  node : D.node? base = some n
  position_le : position ≤ src.query.length
  queryBytePos : product.queryBytePos = utf8Len (src.query.take position)
  cost_le : product.cost ≤ src.maxCost
  staging : StagingFits D r pending.staging
  arcs : List.Forall₂ (ArcFits src r pending.staging.steps) pending.arcs (operationArcs D src n ⟨base, position, product.cost⟩)
  state : pending.state = state
  finalWeight : pending.finalWeight = src.productFinalWeight product n

/-- An expansion of a product state up to its commit stages the arcs of the abstract product. -/
theorem stageProductState_fits (hD : D.DistinctLabels) (hsrc : src.dictionary = D.provider) (henv : env.Publishes D)
    (hslots : src.SlotsFit) (state : Nat) (product : ProductState) :
    Effect.Triple (fun s => s.registries.WellFormed D) (src.stageProductState env state product)
      (fun pending s => ∃ base n position, PendingFits D src state product base n position pending s.registries) Reported := by
  let q (base : List Char) (r : Registries N) : Prop := r.WellFormed D ∧ Spells r.dictionaryNodes product.dictNodeId base
  refine Effect.Triple.bind (Q := fun found s => s.registries.WellFormed D ∧ ∀ n, found = some n →
    ∃ base, D.node? base = some n ∧ Spells s.registries.dictionaryNodes product.dictNodeId base) ?_ fun found => ?_
  · refine (readShared_spec fun hr => (henv _ _).wellFormed hr).post fun found s hs => ⟨hs.1, fun n hn => ?_⟩
    have hget : s.registries.dictionaryNodes.getNode product.dictNodeId = some n := Interner.value?_mapValues.trans (hs.2 ▸ hn)
    obtain ⟨base, hspells, hnode⟩ := hs.1.nodes.path_of_getNode hget
    exact ⟨base, hnode, hspells⟩
  cases found with
  | none => exact .fail fun s hs => by simp [Reported]
  | some n =>
    refine Effect.Triple.bind_orFail (Effect.Triple.pre (P := fun s => ∃ base, q base s.registries ∧ D.node? base = some n)
      (.of_exists fun base => .of_fact fun hn => ?_) fun s hs => ?_)
    case refine_2 =>
      obtain ⟨base, hn, hspells⟩ := hs.2 n rfl
      exact ⟨base, ⟨hs.1, hspells⟩, hn⟩
    split
    · exact .fail fun s hs => by simp [Reported]
    · rename_i hvalid
      rw [not_or, Bool.not_eq_false, Nat.not_lt] at hvalid
      obtain ⟨rest, hrest⟩ := Option.isSome_iff_exists.mp hvalid.1
      obtain ⟨position, hposition, hpos, -⟩ := getFrom?_eq_some.mp hrest
      refine (Quiet.chargeWork env (q base)).bind fun _ => (Quiet.checkSource env (q base)).bind fun _ => ?_
      refine Effect.Triple.bind_val (a := List.replicate src.sourceWidthSlotCount .uncomputed) ((Quiet.chargeWork env (q base)).bind
        fun _ => (Quiet.tryReserve env (q base)).bind fun _ => .pure fun s hs => ⟨hs, rfl⟩) ?_
      refine Effect.Triple.bind_val (a := List.replicate src.queryWidthSlotCount .uncomputed) ((Quiet.chargeWork env (q base)).bind
        fun _ => (Quiet.tryReserve env (q base)).bind fun _ => .pure fun s hs => ⟨hs, rfl⟩) ?_
      refine Effect.Triple.bind (Q := fun progress s =>
        ProgressFits D src product.dictNodeId base n position product.cost src.preparedOperations progress s.registries) ?_ fun progress => ?_
      · refine (Effect.Triple.foldlM (I := fun done progress (s : ExpansionState N) =>
          ProgressFits D src product.dictNodeId base n position product.cost done progress s.registries)
            fun done p rest progress hprepared => ?_).pre fun s hs => ⟨hs.1, hs.2, .new, ?_, ?_, .nil⟩
        · have hproduct : product = ⟨product.dictNodeId, utf8Len (src.query.take position), product.cost⟩ := by rw [← hpos]
          rw [hproduct]
          exact stageOperation_fits hD hsrc henv hslots (by simp [hprepared]) hn hposition
        · intro p hp
          simp [hslots.querySlot_lt p hp, SegmentFits]
        · intro p hp
          simp [hslots.sourceSlot_lt p hp, PathSlotFits]
      · let q' := ProgressFits D src product.dictNodeId base n position product.cost src.preparedOperations progress
        refine (Quiet.checkSource env q').bind fun _ => (Quiet.checkCancelled env q').bind fun _ => (Quiet.tryReserve env q').bind fun _ => ?_
        refine .pure fun s hs => ⟨base, n, position, ?_⟩
        exact ⟨hs.registries, hs.spells, hn, hposition, hpos, hvalid.2, hs.staging, hs.arcs, rfl, rfl⟩

end Stages

/-! ### Operations that are tried -/

/-- An operation with a dictionary path and a query segment. -/
structure Application (R : Type) where
  operation : OperationType R
  path : List Char
  segment : List Char

namespace Application

/-- The operation applies to its path and its segment. -/
def applies (src : GeneralizedWfst N R) (a : Application R) : Bool :=
  operationApplies src.library a.operation a.path (asBytes a.path) a.segment (asBytes a.segment)

/-- The arc of an operation that applies. -/
def arc (scale : CostScale) (p : ProductPoint) (a : Application R) : OperationArc :=
  ⟨a.segment, a.path, a.operation.weight,
    ⟨p.spelled ++ a.path, p.consumed + a.operation.consumeY, p.cost + (scale.toScaled a.operation.weight).getD 0⟩⟩

/-- An operation of the set that a point has the budget for, with a path below its node and the query segment after it. -/
structure Usable (D : Dictionary N Char) (src : GeneralizedWfst N R) (scale : CostScale) (operations : OperationSet R) (n : N)
    (p : ProductPoint) (a : Application R) : Prop where
  operation : a.operation ∈ operations
  cost : ∃ s, scale.toScaled a.operation.weight = some s ∧ p.cost + s ≤ src.maxCost
  path : a.path.length = a.operation.consumeX ∧ ∃ m, D.walk? n a.path = some m
  segment : a.segment.length = a.operation.consumeY ∧ a.segment <+: src.query.drop p.consumed

end Application

section Tries
variable {scale : CostScale} {operations : OperationSet R} {p : ProductPoint} {a : Application R}

/-- What is tried of one operation. -/
def triesOf (D : Dictionary N Char) (src : GeneralizedWfst N R) (scale : CostScale) (n : N) (p : ProductPoint) (o : OperationType R) :
    List (Application R) :=
  match scale.toScaled o.weight with
  | none => []
  | some s =>
    if src.maxCost - p.cost < s ∨ src.query.length < p.consumed + o.consumeY then []
    else (D.labelledPaths n o.consumeX).map fun path => ⟨o, path, (src.query.drop p.consumed).take o.consumeY⟩

/-- What is tried at a point. -/
def tries (D : Dictionary N Char) (src : GeneralizedWfst N R) (scale : CostScale) (n : N) (p : ProductPoint) : List (Application R) :=
  src.operations.flatMap (triesOf D src scale n p)

theorem mem_triesOf (hD : D.DistinctLabels) (hcost : p.cost ≤ src.maxCost) (hconsumed : p.consumed ≤ src.query.length) {o : OperationType R} :
    a ∈ triesOf D src scale n p o ↔ a.operation = o ∧ a.Usable D src scale [o] n p := by
  unfold triesOf
  constructor
  · intro h
    split at h
    · cases h
    · rename_i s hs
      split at h
      · cases h
      · rename_i hfits
        rw [not_or, Nat.not_lt, Nat.not_lt] at hfits
        obtain ⟨path, hpath, rfl⟩ := List.mem_map.mp h
        have hlength : ((src.query.drop p.consumed).take o.consumeY).length = o.consumeY := by
          rw [List.length_take, List.length_drop]
          omega
        exact ⟨rfl, List.mem_singleton_self o, ⟨s, hs, by omega⟩, hD.mem_labelledPaths.mp hpath, hlength, List.take_prefix _ _⟩
  · rintro ⟨rfl, h⟩
    obtain ⟨s, hs, hbudget⟩ := h.cost
    have hle : a.operation.consumeY ≤ src.query.length - p.consumed := by
      rw [← h.segment.1, ← List.length_drop]
      exact h.segment.2.length_le
    rw [hs]
    dsimp only
    rw [if_neg (by omega)]
    refine List.mem_map.mpr ⟨a.path, hD.mem_labelledPaths.mpr h.path, ?_⟩
    rw [← h.segment.1, ← List.prefix_iff_eq_take.mp h.segment.2]

theorem nodup_triesOf (hD : D.DistinctLabels) (o : OperationType R) : (triesOf D src scale n p o).Nodup := by
  unfold triesOf
  split
  · exact List.nodup_nil
  · split
    · exact List.nodup_nil
    · refine (hD.nodup_labelledPaths n o.consumeX).map fun path path' heq => ?_
      injection heq

/-- What is tried is what is usable. -/
theorem mem_tries (hD : D.DistinctLabels) (hcost : p.cost ≤ src.maxCost) (hconsumed : p.consumed ≤ src.query.length) :
    a ∈ tries D src scale n p ↔ a.Usable D src scale src.operations n p := by
  rw [tries, List.mem_flatMap]
  constructor
  · rintro ⟨o, ho, h⟩
    obtain ⟨rfl, husable⟩ := (mem_triesOf hD hcost hconsumed).mp h
    exact { husable with operation := ho }
  · intro h
    exact ⟨a.operation, h.operation, (mem_triesOf hD hcost hconsumed).mpr ⟨rfl, { h with operation := List.mem_singleton_self _ }⟩⟩

/-- Nothing is tried twice. -/
theorem nodup_tries (hD : D.DistinctLabels) (hcost : p.cost ≤ src.maxCost) (hconsumed : p.consumed ≤ src.query.length)
    (hnodup : src.operations.Nodup) : (tries D src scale n p).Nodup := by
  refine List.nodup_flatMap.mpr ⟨fun o _ => nodup_triesOf hD o, hnodup.imp fun hne => ?_⟩
  intro a ha ha'
  exact hne (((mem_triesOf hD hcost hconsumed).mp ha).1.symm.trans ((mem_triesOf hD hcost hconsumed).mp ha').1)

/-- The arcs of a point are those of the tries that apply. -/
theorem operationArcs_eq {prepared : List PreparedOperation} {kept : OperationSet R}
    (h : List.Forall₂ (fun p o => src.operations[p.index]? = some o ∧ p.consumeX = o.consumeX ∧ p.consumeY = o.consumeY ∧
      p.weight = o.weight ∧ scale.toScaled o.weight = some p.scaledWeight) prepared kept) :
    prepared.flatMap (appliedArcs D src n p) =
      ((kept.flatMap (triesOf D src scale n p)).filter (Application.applies src)).map (Application.arc scale p) := by
  induction h with
  | nil => rfl
  | @cons prepared o _ _ hhead _ ih =>
    obtain ⟨hindex, hx, hy, hw, hs⟩ := hhead
    rw [List.flatMap_cons, List.flatMap_cons, List.filter_append, List.map_append, ih]
    congr 1
    unfold appliedArcs triesOf
    rw [hs, hx, hy, hw, hindex]
    dsimp only
    split
    · rfl
    · rw [List.filter_map, List.map_map]
      refine List.map_congr_left fun path _ => ?_
      simp [Application.arc, hs]

theorem Application.Usable.mono {kept : OperationSet R} (h : a.Usable D src scale kept n p) (hkept : a.operation ∈ operations) :
    a.Usable D src scale operations n p := { h with operation := hkept }

/-- The source that is built from an operation set keeps its relation, and expands a product state by every usable operation
    of the set once, with the paths and the segment of its widths. -/
theorem preparation_exact [DecidableEq R] {lib : OperationLibrary R} {query : List Char} {maxDistance : Nat}
    {limits : GeneralizedWfstLimits} (hD : D.DistinctLabels)
    (h : tryNewWithLimits D.provider lib query maxDistance operations limits = .ok src) (henv : env.Publishes D) :
    ∃ scale, lib.costScaleFor operations = some scale ∧ scale.scaleBudget maxDistance = some src.maxCost ∧
      (src.operations.Nodup ∧ src.operations.Sublist operations ∧
        ∀ o, o ∈ src.operations ↔ o ∈ operations ∧ ∃ s ≤ src.maxCost, scale.toScaled o.weight = some s) ∧
      List.Forall₂ (fun p o => src.operations[p.index]? = some o ∧ p.consumeX = o.consumeX ∧ p.consumeY = o.consumeY ∧
        p.weight = o.weight ∧ scale.toScaled o.weight = some p.scaledWeight) src.preparedOperations src.operations ∧
      (∀ p ∈ src.preparedOperations, ∀ p' ∈ src.preparedOperations,
        (p.sourceWidthSlot = p'.sourceWidthSlot ↔ p.consumeX = p'.consumeX) ∧
        (p.queryWidthSlot = p'.queryWidthSlot ↔ p.consumeY = p'.consumeY)) ∧
      (∀ x y c, (machine D src).Accepts (.product OperationMachine.start) x y c ↔ x = query ∧ y ∈ D.words ∧
        ∃ d ≤ src.maxCost, Alignment.Align (Consumes lib scale operations) y x (c, d)) ∧
      (∀ y c, (machine D src).LeastWeight (.product OperationMachine.start) query y c ↔ y ∈ D.words ∧
        IsLeast {c | ∃ d ≤ src.maxCost, Alignment.Align (Consumes lib scale operations) y query (c, d)} c) ∧
      ∀ state product (s : ExpansionState N), s.registries.WellFormed D →
        (∀ e s', src.stageProductState env state product s = (.error e, s') → Reported e s') ∧
        ∀ pending (s' : ExpansionState N), src.stageProductState env state product s = (.ok pending, s') →
          ∃ base n position, PendingFits D src state product base n position pending s'.registries ∧
            ∃ tried : List (Application R), tried.Nodup ∧
              (∀ a, a ∈ tried ↔ a.Usable D src scale operations n ⟨base, position, product.cost⟩) ∧
              List.Forall₂ (ArcFits src s'.registries pending.staging.steps) pending.arcs
                ((tried.filter (Application.applies src)).map (Application.arc scale ⟨base, position, product.cost⟩)) := by
  obtain ⟨scale, hscale, hbudget, hbounded, hprepared⟩ := prepared_forall₂ h
  obtain ⟨scale', hscale', -, hsrc⟩ := preparedFrom h
  obtain rfl := Option.some.inj (hscale'.symm.trans hscale)
  obtain ⟨hdictionary, hlibrary, hquery⟩ := arguments_eq h
  obtain ⟨hnodup, hsublist⟩ := boundedOperationSet_sublist hbounded
  have hmem := (boundedOperationSet_spec hbounded).2
  have haccepts : ∀ x y c, (machine D src).Accepts (.product OperationMachine.start) x y c ↔ x = query ∧ y ∈ D.words ∧
      ∃ d ≤ src.maxCost, Alignment.Align (Consumes lib scale' operations) y x (c, d) := by
    intro x y c
    rw [accepts_iff hsrc hD, hlibrary, hquery]
  refine ⟨scale', hscale, hbudget, ⟨hnodup, hsublist, hmem⟩, hprepared, fun p hp p' hp' => slot_eq_iff h hp hp', haccepts, ?_, ?_⟩
  · intro y c
    exact Transducer.leastWeight_iff fun v => by rw [haccepts, eq_self, true_and]; rfl
  · intro state product s hs
    have hstage := stageProductState_fits hD hdictionary henv (slotsFit h) state product
    refine ⟨fun e s' hrun => hstage.error hs hrun, fun pending s' hrun => ?_⟩
    obtain ⟨base, n, position, hfits⟩ := hstage.ok hs hrun
    refine ⟨base, n, position, hfits, tries D src scale' n ⟨base, position, product.cost⟩, ?_, fun a => ?_, ?_⟩
    · exact nodup_tries hD hfits.cost_le hfits.position_le hnodup
    · rw [mem_tries hD hfits.cost_le hfits.position_le]
      refine ⟨fun ha => ha.mono ((hmem a.operation).mp ha.operation).1, fun ha => ha.mono ((hmem a.operation).mpr ⟨ha.operation, ?_⟩)⟩
      obtain ⟨d, hd, hle⟩ := ha.cost
      exact ⟨d, (Nat.le_add_left _ _).trans hle, hd⟩
    · rw [tries, ← operationArcs_eq hprepared]
      exact hfits.arcs

end Tries

/-- Whole weights, at a scale of one. -/
def wholeScale : CostScale where
  toScaled weight := if weight.den = 1 ∧ 0 ≤ weight.num then some weight.num.toNat else none
  scaleBudget budget := some budget

def wholeLibrary : OperationLibrary Unit := ⟨fun _ => true, fun _ => some wholeScale, fun _ _ _ => false⟩

def substitutions : OperationSet Unit := [⟨1, 1, 0, .equal⟩, ⟨1, 1, 1, .any⟩, ⟨1, 1, 1, .any⟩, ⟨1, 1, 5, .any⟩]

/-- The product of two words, with a repeated substitution and one that does not fit the budget. -/
def substituting : Except GeneralizedWfstError (GeneralizedWfst (List Char) Unit) :=
  tryNewWithLimits (trie [['b'], ['a', 'b']]).provider wholeLibrary ['a'] 1 substitutions ⟨9, 9, 9, 9, 9, 9, 9, 99⟩

/-- The weights that the start stages. -/
def stagedWeights (built : Except GeneralizedWfstError (GeneralizedWfst (List Char) Unit)) : Option (List ℚ) :=
  built.toOption.bind fun src =>
    (src.stageProductState (.alone _) 0 ⟨0, 0, 0⟩ (.fresh (src.newRegistries 0) 0)).1.toOption.map fun pending =>
      pending.arcs.map PendingOperationArc.weight

/-- Of the two operations that are kept, each is tried on `a` and on `b`, and the match does not apply to `b`. -/
theorem preparation_exact_substitutions : ∃ src pending s', substituting = .ok src ∧ src.operations.Nodup ∧
    (machine (trie [['b'], ['a', 'b']]).toDictionary src).Accepts (.product OperationMachine.start) ['a'] ['b'] 1 ∧
    src.stageProductState (.alone _) 0 ⟨0, 0, 0⟩ (.fresh (src.newRegistries 0) 0) = (.ok pending, s') ∧
    pending.arcs.map PendingOperationArc.weight = [0, 1, 1] ∧
    ∃ tried : List (Application Unit), tried.Nodup ∧ (tried.filter (Application.applies src)).length = 3 := by
  have hstaged : stagedWeights substituting = some [0, 1, 1] := by decide +kernel
  cases h : substituting with
  | error e =>
    rw [h] at hstaged
    cases hstaged
  | ok src =>
    rw [h] at hstaged
    simp only [stagedWeights, Except.toOption, Option.bind_some] at hstaged
    rcases hrun : src.stageProductState (.alone _) 0 ⟨0, 0, 0⟩ (.fresh (src.newRegistries 0) 0) with ⟨e | pending, s'⟩
    · rw [hrun] at hstaged
      cases hstaged
    · rw [hrun] at hstaged
      replace hstaged := Option.some.inj hstaged
      obtain ⟨scale, hscale, hbudget, ⟨hnodup, -⟩, -, -, haccepts, -, hstages⟩ :=
        preparation_exact (trie [['b'], ['a', 'b']]).labels_nodup h (.alone _)
      obtain rfl := Option.some.inj hscale
      have hcost : 1 = src.maxCost := Option.some.inj hbudget
      have hword : ['b'] ∈ (trie [['b'], ['a', 'b']]).words := ⟨['b'], by decide +kernel, by decide +kernel⟩
      have hwellFormed : (ExpansionState.fresh (src.newRegistries 0) 0).registries.WellFormed (trie [['b'], ['a', 'b']]).toDictionary :=
        wellFormed_newRegistries (arguments_eq h).1 0
      obtain ⟨base, n, position, -, tried, htried, -, harcs⟩ := (hstages 0 ⟨0, 0, 0⟩ _ hwellFormed).2 pending s' hrun
      refine ⟨src, pending, s', rfl, hnodup, (haccepts _ _ _).mpr ⟨rfl, hword, 1, hcost.le, ?_⟩, hrun, hstaged, tried, htried, ?_⟩
      · exact .single ⟨⟨1, 1, 1, .any⟩, by simp [substitutions], rfl, rfl, rfl, rfl, by decide +kernel⟩
      · have hlength := congrArg List.length hstaged
        rw [List.length_map] at hlength
        rw [← List.length_map (f := Application.arc wholeScale ⟨base, position, 0⟩), ← harcs.length_eq, hlength]
        rfl

end GeneralizedWfst
end Duallity
