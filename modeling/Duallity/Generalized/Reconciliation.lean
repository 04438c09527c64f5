import Duallity.Generalized.DictionaryPaths
import Duallity.TrieDictionary

/-! Reconciliation of staged nodes with the registry. Under the lock of a commit each staged node gets the id that its path
    has in the registry, or the next one. -/

namespace Duallity
namespace GeneralizedWfst
open ExpansionBudget DictionaryNodeRegistry
variable {N R : Type} {D : Dictionary N Char} {src : GeneralizedWfst N R} {env : Environment N} {r : Registries N}
  {steps : List (PendingDictionaryNode × Char × N)} {done : List (StagedDictionaryNode N)} {rec : Reconciliation N}
  {nodes : DictionaryNodeRegistry (Owned N)}

/-- The nodes `done` are resolved; `nodes` is the registry that a commit of the additions leaves. -/
structure Reconciled (D : Dictionary N Char) (r : Registries N) (steps : List (PendingDictionaryNode × Char × N))
    (done : List (StagedDictionaryNode N)) (rec : Reconciliation N) (nodes : DictionaryNodeRegistry (Owned N)) : Prop where
  committed : r.nodes.commitPrepared rec.additions = some nodes
  wellFormed : DictionaryNodeRegistry.WellFormed D (nodes.mapValues Owned.value)
  ids : ∀ key, (r.nodes.id? key).or (rec.newIds.lookup key) = nodes.id? key
  staged : rec.staged.map StagedDictionaryNode.step = done.map StagedDictionaryNode.step
  length_eq : rec.resolved.length = done.length
  resolved : ∀ index id path, rec.resolved[index]? = some id → Refers r steps (.staged index) path →
    Spells (nodes.mapValues Owned.value) id path

namespace Reconciled

theorem nodes_le (h : Reconciled D r steps done rec nodes) : r.nodes ≤ nodes := Interner.le_pushAll h.committed

theorem size_eq (h : Reconciled D r steps done rec nodes) : nodes.size = r.nodes.size + rec.additions.length :=
  Interner.size_pushAll h.committed

theorem initial (hr : r.WellFormed D) : Reconciled D r steps [] ⟨[], [], [], [], []⟩ r.nodes :=
  ⟨rfl, hr.nodes, by simp, rfl, rfl, by simp⟩

/-- A reference resolves to the id that its path will have. -/
theorem resolve (h : Reconciled D r steps done rec nodes) {reference : PendingDictionaryNode}
    (hbounded : (∃ id, reference = .registered id) ∨ ∃ index < done.length, reference = .staged index) :
    ∃ id, resolvedNode reference rec.resolved = some id ∧
      ∀ path, Refers r steps reference path → Spells (nodes.mapValues Owned.value) id path := by
  rcases hbounded with ⟨id, rfl⟩ | ⟨index, hlt, rfl⟩
  · refine ⟨id, rfl, fun path hpath => ?_⟩
    cases hpath with
    | registered hspells => exact hspells.mono (Interner.mapValues_mono Owned.value h.nodes_le)
  · have hlt' : index < rec.resolved.length := h.length_eq ▸ hlt
    exact ⟨rec.resolved[index], List.getElem?_eq_getElem hlt', fun path hpath =>
      h.resolved index _ path (List.getElem?_eq_getElem hlt') hpath⟩

/-- The owner that a commit leaves under an id. -/
theorem canonical (h : Reconciled D r steps done rec nodes) (id : Nat) :
    (r.nodes.getNode id).or ((rec.additions[id - r.nodes.size]?).map Prod.snd) = nodes.value? id := by
  by_cases hlt : id < r.nodes.size
  · obtain ⟨owned, howned⟩ := Interner.exists_value? hlt
    rw [Interner.le_value? h.nodes_le howned, getNode, howned, Option.some_or]
  · have hnone : r.nodes.value? id = none := by
      rw [← Option.not_isSome_iff_eq_none, Interner.value?_isSome]
      exact hlt
    rw [getNode, hnone, Option.none_or, Interner.value?_pushAll h.committed (Nat.le_of_not_lt hlt)]

/-- The ids of the nodes that were resolved before keep their paths, and the new id has the path of the new node. -/
theorem resolved_snoc (h : Reconciled D r steps done rec nodes) {nodes' : DictionaryNodeRegistry N} {staged : StagedDictionaryNode N}
    {id' : Nat} (hindex : steps[done.length]? = some staged.step) (hle : nodes.mapValues Owned.value ≤ nodes')
    (hid : ∀ path, Refers r steps staged.parent path → Spells nodes' id' (path ++ [staged.label])) :
    ∀ index id path, (rec.resolved ++ [id'])[index]? = some id → Refers r steps (.staged index) path → Spells nodes' id path := by
  intro index id path hget hpath
  rcases Nat.lt_or_ge index rec.resolved.length with hlt | hge
  · rw [List.getElem?_append_left hlt] at hget
    exact (h.resolved index id path hget hpath).mono hle
  · have heq : index = done.length := by
      have := (List.getElem?_eq_some_iff.mp hget).1
      simp [h.length_eq] at this hge
      omega
    rw [heq, ← h.length_eq, List.getElem?_concat_length, Option.some.injEq] at hget
    cases hpath with
    | staged hindex' hparent =>
      rw [heq, hindex, Option.some.injEq, StagedDictionaryNode.step, Prod.mk.injEq, Prod.mk.injEq] at hindex'
      obtain ⟨rfl, rfl, rfl⟩ := hindex'
      exact hget ▸ hid _ hparent

/-- One more node is resolved, to an id that its path has already. -/
theorem known (h : Reconciled D r steps done rec nodes) {staged staged' : StagedDictionaryNode N} {id : Nat}
    {retired : List (Owned N)} (hindex : steps[done.length]? = some staged.step) (hstep : staged'.step = staged.step)
    (hid : ∀ path, Refers r steps staged.parent path → Spells (nodes.mapValues Owned.value) id (path ++ [staged.label])) :
    Reconciled D r steps (done ++ [staged])
      { rec with resolved := rec.resolved ++ [id], staged := rec.staged ++ [staged'], retired } nodes := by
  refine ⟨h.committed, h.wellFormed, h.ids, by simp [h.staged, hstep], by simp [h.length_eq], ?_⟩
  exact h.resolved_snoc hindex le_rfl hid

/-- One more node is resolved, to the next id. -/
theorem fresh (h : Reconciled D r steps done rec nodes) {staged : StagedDictionaryNode N} {parent : Nat} {m : N}
    (hindex : steps[done.length]? = some staged.step) (hnone : nodes.id? (.child parent staged.label) = none)
    (hparent : getNode (nodes.mapValues Owned.value) parent = some m) (hstep : D.step? m staged.label = some staged.node.value)
    (hspells : ∀ path, Refers r steps staged.parent path → Spells (nodes.mapValues Owned.value) parent path)
    (hsize : nodes.size ≤ u32Max) :
    Reconciled D r steps (done ++ [staged])
      { resolved := rec.resolved ++ [nodes.size], additions := rec.additions ++ [(.child parent staged.label, staged.node)],
        newIds := (.child parent staged.label, nodes.size) :: rec.newIds, staged := rec.staged ++ [staged],
        retired := rec.retired } (Interner.push nodes (.child parent staged.label) staged.node hnone) := by
  have hid : nextRegistryId nodes.size = some nodes.size := if_pos hsize
  have hkeys : (r.nodes.id? (.child parent staged.label)).or (rec.newIds.lookup (.child parent staged.label)) = none :=
    (h.ids _).trans hnone
  have hnone' : (nodes.mapValues Owned.value).id? (.child parent staged.label) = none := hnone
  have hpush : (Interner.push nodes (.child parent staged.label) staged.node hnone).mapValues Owned.value =
      Interner.push (nodes.mapValues Owned.value) (.child parent staged.label) staged.node.value hnone' := Interner.mapValues_push
  refine ⟨Interner.pushAll_snoc h.committed hnone hid, ?_, ?_, by simp [h.staged], by simp [h.length_eq], ?_⟩
  · rw [hpush]
    refine h.wellFormed.push hparent hstep hnone' ?_
    rw [Interner.size_mapValues, u32Count]
    exact Nat.lt_succ_of_le hsize
  · intro key
    rw [Interner.id?_push]
    by_cases heq : key = .child parent staged.label
    · rw [heq, (Option.or_eq_none_iff.mp hkeys).1, List.lookup_cons_self, if_pos rfl, Option.none_or]
    · rw [Interner.lookup_cons_ne heq, if_neg heq]
      exact h.ids key
  · rw [hpush]
    refine h.resolved_snoc hindex (Interner.le_push _) fun path hpath => ?_
    refine .child ((hspells path hpath).mono (Interner.le_push _)) ?_
    rw [Interner.id?_push_self hnone', Interner.size_mapValues]

end Reconciled

/-- A turn of the loop that resolves the staged nodes, under the lock. -/
theorem reconcileNode_fits (hr : StepsFit D r steps) {staged : StagedDictionaryNode N} (hindex : steps[done.length]? = some staged.step)
    (rec : Reconciliation N) :
    Effect.Triple (fun s => s.registries = r ∧ ∃ nodes, Reconciled D r steps done rec nodes) (src.reconcileNode env rec staged)
      (fun rec s => s.registries = r ∧ ∃ nodes, Reconciled D r steps (done ++ [staged]) rec nodes) Reported := by
  refine Effect.Triple.of_fact fun hreconciled => ?_
  obtain ⟨nodes, hrec⟩ := hreconciled
  obtain ⟨hbounded, path, hpath, hnode⟩ := hr _ _ _ _ hindex
  obtain ⟨parent, hparent, hspells⟩ := hrec.resolve hbounded
  obtain ⟨m, hm, hget⟩ := hrec.wellFormed.node (hspells path hpath)
  rw [Dictionary.node?_snoc, hm, Option.bind_some] at hnode
  refine (Quiet.chargeWork env (· = r)).bind fun _ => ?_
  rw [hparent]
  refine Effect.Triple.bind_orFail (Effect.Triple.bind_read (a := r.nodes) (fun s hs => by rw [hs]) ?_)
  rw [hrec.ids]
  cases hid : nodes.id? (.child parent staged.label) with
  | some id =>
    -- The path has an id: the registered owner takes the place of the staged one.
    obtain ⟨m', child, -, hm', hchild, hgetChild⟩ := hrec.wellFormed.child_edge hid
    obtain rfl := Option.some.inj (hm'.symm.trans hget)
    obtain rfl := Option.some.inj (hchild.symm.trans hnode)
    obtain ⟨canonical, hcanonical, hvalue⟩ := Option.map_eq_some_iff.mp (Interner.value?_mapValues.symm.trans hgetChild)
    dsimp only
    rw [hrec.canonical, hcanonical]
    refine Effect.Triple.bind_orFail ?_
    have hknownPath := fun path' hpath' => (hspells path' hpath').child hid
    split
    · exact .pure fun s hs => ⟨hs, nodes, hrec.known hindex rfl hknownPath⟩
    · refine .pure fun s hs => ⟨hs, nodes, hrec.known hindex ?_ hknownPath⟩
      simp [StagedDictionaryNode.step, hvalue]
  | none =>
    refine Effect.Triple.bind_orFail_of (a := nodes.size) (fun count hcount => ?_) (fun _ _ => by simp [Reported]) ?_
    · rw [hrec.size_eq, (checkedAdd_eq_some.mp hcount).1]
    · refine (Quiet.orFail (by simp) (· = r)).bind fun required => (Quiet.expansionFailure (· = r)).bind fun _ => ?_
      refine Effect.Triple.bind (Q := fun id s => s.registries = r ∧ id = nodes.size ∧ nodes.size ≤ u32Max) ?_ fun id => ?_
      · refine .orFail (fun id hid s hs => ⟨hs, ?_⟩) fun _ _ _ => by simp [Reported]
        rw [nextRegistryId, Option.ite_none_right_eq_some] at hid
        exact ⟨(Option.some.inj hid.2).symm, hid.1⟩
      · refine .of_fact fun hnext => .pure fun s hs => ⟨hs, Interner.push nodes _ staged.node hid, ?_⟩
        obtain ⟨rfl, hsize⟩ := hnext
        exact hrec.fresh hindex hid hget hnode hspells hsize

/-- Under the lock every staged node is resolved, or an error is reported. -/
theorem reconcile_fits (hr : r.WellFormed D) {staged : List (StagedDictionaryNode N)}
    (hsteps : StepsFit D r (staged.map StagedDictionaryNode.step)) :
    Effect.Triple (fun s => s.registries = r) (staged.foldlM (src.reconcileNode env) ⟨[], [], [], [], []⟩)
      (fun rec s => s.registries = r ∧ ∃ nodes, Reconciled D r (staged.map StagedDictionaryNode.step) staged rec nodes) Reported := by
  refine (Effect.Triple.foldlM (I := fun done rec (s : ExpansionState N) => s.registries = r ∧
    ∃ nodes, Reconciled D r (staged.map StagedDictionaryNode.step) done rec nodes) fun done x rest rec hstaged => ?_).pre
    fun s hs => ⟨hs, r.nodes, .initial hr⟩
  refine reconcileNode_fits hsteps ?_ rec
  rw [List.getElem?_map, hstaged, List.getElem?_append_right (Nat.le_refl _)]
  simp

/-- The paths of one width below a registered node, each once, with targets that a commit resolves to the ids of the nodes
    they lead to; other clones may publish before any step. -/
theorem dictionaryPaths_complete (hD : D.DistinctLabels) (hsrc : src.dictionary = D.provider) (henv : env.Publishes D)
    {s : ExpansionState N} (hregistries : s.registries.WellFormed D) {staging : ExpansionStaging N}
    (hstaging : StagingFits D s.registries staging) {start : Nat} {base : List Char}
    (hstart : Spells s.registries.dictionaryNodes start base) (width : Nat) :
    (∀ e s', src.dictionaryPathsExactChars env start width staging s = (.error e, s') → ∀ message, e ≠ .panicked message) ∧
    ∀ paths (staging' : ExpansionStaging N) (s' : ExpansionState N), src.dictionaryPathsExactChars env start width staging s = (.ok (paths, staging'), s') →
      ∃ n, D.node? base = some n ∧ (paths.map DictPath.output).Nodup ∧
        (∀ labels, labels ∈ paths.map DictPath.output ↔ labels.length = width ∧ ∃ m, D.walk? n labels = some m) ∧
        (∀ path ∈ paths, path.bytes = GeneralizedOps.asBytes path.output) ∧
        s'.registries.WellFormed D ∧ StagingFits D s'.registries staging' ∧ staging.steps <+: staging'.steps ∧
        (∀ index (staged : StagedDictionaryNode N), staging'.nodes[index]? = some staged →
          (∃ id < s'.registries.nodes.size, staged.parent = .registered id) ∨ ∃ earlier < index, staged.parent = .staged earlier) ∧
        ∀ (env' : Environment N) (staged : List (StagedDictionaryNode N)) (s₁ s₂ : ExpansionState N) (rec : Reconciliation N),
          Published D s'.registries s₁.registries →
          staging'.steps <+: staged.map StagedDictionaryNode.step →
          StepsFit D s₁.registries (staged.map StagedDictionaryNode.step) →
          staged.foldlM (src.reconcileNode env') ⟨[], [], [], [], []⟩ s₁ = (.ok rec, s₂) →
          rec.staged.map StagedDictionaryNode.step = staged.map StagedDictionaryNode.step ∧
          ∃ nodes, s₂.registries.nodes.commitPrepared rec.additions = some nodes ∧
            ∀ path ∈ paths, ∃ id m, resolvedNode path.targetNode rec.resolved = some id ∧ D.walk? n path.output = some m ∧
              Spells (nodes.mapValues Owned.value) id (base ++ path.output) ∧ (nodes.getNode id).map Owned.value = some m := by
  obtain ⟨n, hn, -⟩ := hregistries.nodes.node hstart
  have hpre := And.intro hregistries (And.intro hstaging hstart)
  have hpaths := dictionaryPathsExactChars_fits hD hsrc henv start width staging hn
  refine ⟨fun e s' h => hpaths.error hpre h, fun paths staging' s' h => ?_⟩
  have hfits := hpaths.ok hpre h
  refine ⟨n, hn, ?_, fun labels => ?_, fun path hpath => (hfits.paths path hpath).bytes, hfits.registries, hfits.staging,
    hfits.before_prefix, ?_, ?_⟩
  · rw [hfits.listed]
    exact hD.nodup_labelledPaths n width
  · rw [hfits.listed]
    exact hD.mem_labelledPaths
  · intro index staged hindex
    obtain ⟨hparent, path, hpath, -⟩ := hfits.staging.steps index staged.parent staged.label staged.node.value (by
      simp [ExpansionStaging.steps, hindex, StagedDictionaryNode.step])
    refine hparent.imp_left fun hregistered => ?_
    obtain ⟨id, hid⟩ := hregistered
    refine ⟨id, ?_, hid⟩
    rw [hid] at hpath
    cases hpath with
    | registered hspells =>
      have := hfits.registries.nodes.lt_size hspells
      rwa [Registries.dictionaryNodes, Interner.size_mapValues] at this
  · intro env' staged s₁ s₂ rec hpublished hprefix hsteps hrun
    obtain ⟨hsame, nodes, hrec⟩ := Effect.Triple.ok (reconcile_fits (hpublished.wellFormed hfits.registries) hsteps) rfl hrun
    refine ⟨hrec.staged, nodes, by rw [hsame]; exact hrec.committed, fun path hpath => ?_⟩
    have hrefers : Refers s₁.registries _ path.targetNode (base ++ path.output) :=
      ((hfits.paths path hpath).target.mono hpublished).extend hprefix
    obtain ⟨id, hid, hspells⟩ := hrec.resolve (by simpa using hrefers.bounded)
    obtain ⟨m, hm, hget⟩ := hrec.wellFormed.node (hspells _ hrefers)
    rw [Dictionary.node?_append, hn, Option.bind_some] at hm
    exact ⟨id, m, hid, hm, hspells _ hrefers, Interner.value?_mapValues.symm.trans hget⟩

/-- A transducer over the trie of the words `ws` without operations. -/
def overTrie (ws : List (List Char)) (limits : GeneralizedWfstLimits) : GeneralizedWfst (List Char) Unit where
  dictionary := (trie ws).provider
  library := ⟨fun _ => true, fun _ => none, fun _ _ _ => false⟩
  query := []
  operations := []
  preparedOperations := []
  sourceWidthSlotCount := 0
  queryWidthSlotCount := 0
  maxCost := 0
  limits := limits

theorem dictionaryPaths_complete_trie : ∃ paths staging s, (overTrie [['a'], ['b']] ⟨9, 9, 9, 9, 9, 9, 9, 99⟩).dictionaryPathsExactChars
    (.alone _) 0 1 .new (.fresh ((overTrie [['a'], ['b']] ⟨9, 9, 9, 9, 9, 9, 9, 99⟩).newRegistries 0) 0) = (.ok (paths, staging), s) ∧
    (paths.map DictPath.output).Nodup ∧ ['a'] ∈ paths.map DictPath.output := by
  have hsucceeds : ((overTrie [['a'], ['b']] ⟨9, 9, 9, 9, 9, 9, 9, 99⟩).dictionaryPathsExactChars (.alone _) 0 1 .new
    (.fresh ((overTrie [['a'], ['b']] ⟨9, 9, 9, 9, 9, 9, 9, 99⟩).newRegistries 0) 0)).1.isOk = true := by decide +kernel
  rcases hrun : (overTrie [['a'], ['b']] ⟨9, 9, 9, 9, 9, 9, 9, 99⟩).dictionaryPathsExactChars (.alone _) 0 1 .new
    (.fresh ((overTrie [['a'], ['b']] ⟨9, 9, 9, 9, 9, 9, 9, 99⟩).newRegistries 0) 0) with ⟨r, s⟩
  cases r with
  | error e => simp [hrun, Except.isOk, Except.toBool] at hsucceeds
  | ok found =>
    obtain ⟨n, hn, hnodup, hlisted, -⟩ := (dictionaryPaths_complete (trie [['a'], ['b']]).labels_nodup rfl (.alone _)
      (wellFormed_newRegistries rfl 0) .new .root 1).2 _ _ _ hrun
    obtain rfl := Option.some.inj hn
    refine ⟨found.1, found.2, s, rfl, hnodup, (hlisted _).mpr ⟨rfl, ['a'], ?_⟩⟩
    decide +kernel

end GeneralizedWfst
end Duallity
