import Duallity.Generalized.Sharing

/-! The dictionary paths of one width. The walk keeps registered and staged nodes apart, and other clones may register the
    parents of staged nodes while it goes on: what a reference stands for is a path from the root, which no registration
    changes. -/

namespace Duallity
open DictionaryNodeRegistry

/-! ### References -/

section Staging
variable {N : Type} {D : Dictionary N Char} {r r' : Registries N}

/-- A staged node, whoever owns it: its parent, the label below it and the node. -/
def StagedDictionaryNode.step (staged : StagedDictionaryNode N) : PendingDictionaryNode × Char × N :=
  (staged.parent, staged.label, staged.node.value)

def ExpansionStaging.steps (staging : ExpansionStaging N) : List (PendingDictionaryNode × Char × N) :=
  staging.nodes.map StagedDictionaryNode.step

/-- The path from the root that a reference stands for. -/
inductive Refers (r : Registries N) (steps : List (PendingDictionaryNode × Char × N)) :
    PendingDictionaryNode → List Char → Prop
  | registered {id : Nat} {path : List Char} : Spells r.dictionaryNodes id path → Refers r steps (.registered id) path
  | staged {index : Nat} {parent : PendingDictionaryNode} {label : Char} {node : N} {path : List Char} :
      steps[index]? = some (parent, label, node) → Refers r steps parent path → Refers r steps (.staged index) (path ++ [label])

/-- Each staged node is the child of a registered node or of one staged before it. -/
def StepsFit (D : Dictionary N Char) (r : Registries N) (steps : List (PendingDictionaryNode × Char × N)) : Prop :=
  ∀ index parent label node, steps[index]? = some (parent, label, node) →
    ((∃ id, parent = .registered id) ∨ ∃ earlier < index, parent = .staged earlier) ∧
    ∃ path, Refers r steps parent path ∧ D.node? (path ++ [label]) = some node

structure StagingFits (D : Dictionary N Char) (r : Registries N) (staging : ExpansionStaging N) : Prop where
  steps : StepsFit D r staging.steps
  lookup : ∀ parent label reference, staging.nodeByStep.lookup (parent, label) = some reference →
    ∃ index node, reference = .staged index ∧ staging.steps[index]? = some (parent, label, node)

variable {steps steps' : List (PendingDictionaryNode × Char × N)} {reference parent : PendingDictionaryNode} {path : List Char}
  {staging : ExpansionStaging N} {label : Char} {node : N}

theorem Refers.mono (h : Refers r steps reference path) (hr : Published D r r') : Refers r' steps reference path := by
  induction h with
  | registered hs => exact .registered (hr.spells hs)
  | staged hindex _ ih => exact .staged hindex ih

theorem Refers.extend (h : Refers r steps reference path) (hsteps : steps <+: steps') : Refers r steps' reference path := by
  induction h with
  | registered hs => exact .registered hs
  | staged hindex _ ih =>
    obtain ⟨rest, rfl⟩ := hsteps
    exact .staged (by rw [List.getElem?_append_left (List.getElem?_eq_some_iff.mp hindex).1]; exact hindex) ih

theorem StepsFit.mono (h : StepsFit D r steps) (hr : Published D r r') : StepsFit D r' steps := by
  intro index parent label node hindex
  obtain ⟨hparent, path, hpath, hnode⟩ := h index parent label node hindex
  exact ⟨hparent, path, hpath.mono hr, hnode⟩

theorem StagingFits.mono (h : StagingFits D r staging) (hr : Published D r r') : StagingFits D r' staging :=
  ⟨h.steps.mono hr, h.lookup⟩

theorem StagingFits.new : StagingFits D r .new := by
  refine ⟨?_, ?_⟩
  · intro index parent label node h
    simp [ExpansionStaging.steps, ExpansionStaging.new] at h
  · intro parent label reference h
    simp [ExpansionStaging.new] at h

theorem StepsFit.snoc (h : StepsFit D r steps) (hparent : (∃ id, parent = .registered id) ∨ ∃ earlier < steps.length, parent = .staged earlier)
    (hpath : Refers r steps parent path) (hnode : D.node? (path ++ [label]) = some node) :
    StepsFit D r (steps ++ [(parent, label, node)]) := by
  intro index parent' label' node' hindex
  rcases Nat.lt_trichotomy index steps.length with hlt | rfl | hgt
  · rw [List.getElem?_append_left hlt] at hindex
    obtain ⟨hparent', path', hpath', hnode'⟩ := h _ _ _ _ hindex
    exact ⟨hparent', path', hpath'.extend (List.prefix_append _ _), hnode'⟩
  · simp only [List.getElem?_concat_length, Option.some.injEq, Prod.mk.injEq] at hindex
    obtain ⟨rfl, rfl, rfl⟩ := hindex
    exact ⟨hparent, path, hpath.extend (List.prefix_append _ _), hnode⟩
  · rw [List.getElem?_eq_none (by simpa using hgt)] at hindex
    cases hindex

/-- A reference is registered, or it is one of those that have been staged. -/
theorem Refers.bounded (h : Refers r steps reference path) :
    (∃ id, reference = .registered id) ∨ ∃ earlier < steps.length, reference = .staged earlier := by
  cases h with
  | registered hs => exact Or.inl ⟨_, rfl⟩
  | staged hindex _ => exact Or.inr ⟨_, (List.getElem?_eq_some_iff.mp hindex).1, rfl⟩

theorem Quiet.stageChild (env : Environment N) (staging : ExpansionStaging N) (registered : Option Nat)
    (parent : PendingDictionaryNode) (label : Char) (node : N) : Quiet (staging.stageChild env registered parent label node) := by
  unfold ExpansionStaging.stageChild
  split
  · exact .pure
  · split
    · exact .pure
    · exact Quiet.answer.bind fun _ => .pure

/-- A child gets the id it has, the reference it has been staged under, or a new reference. -/
theorem stageChild_spec (env : Environment N) (staging : ExpansionStaging N) (registered : Option Nat)
    (parent : PendingDictionaryNode) (hnode : D.node? (path ++ [label]) = some node) :
    Effect.Triple (fun s => StagingFits D s.registries staging ∧ Refers s.registries staging.steps parent path ∧
        ∀ id, registered = some id → Spells s.registries.dictionaryNodes id (path ++ [label]))
      (staging.stageChild env registered parent label node)
      (fun c s => StagingFits D s.registries c.1 ∧ staging.steps <+: c.1.steps ∧
        Refers s.registries c.1.steps c.2 (path ++ [label])) Reported := by
  unfold ExpansionStaging.stageChild
  split
  · rename_i id
    exact .pure fun s hs => ⟨hs.1, List.prefix_rfl, .registered (hs.2.2 id rfl)⟩
  · split
    · rename_i reference hlookup
      refine .pure fun s hs => ⟨hs.1, List.prefix_rfl, ?_⟩
      obtain ⟨index, node', rfl, hindex⟩ := hs.1.lookup _ _ _ hlookup
      exact .staged hindex hs.2.1
    · refine (Quiet.answer fun r => StagingFits D r staging ∧ Refers r staging.steps parent path).pre
        (fun s hs => ⟨hs.1, hs.2.1⟩) |>.bind fun owner => .pure fun s hs => ?_
      obtain ⟨hs, hpath⟩ := hs
      have hsteps : ExpansionStaging.steps ⟨staging.nodes ++ [⟨parent, label, ⟨owner, node⟩⟩],
          ((parent, label), .staged staging.nodes.length) :: staging.nodeByStep⟩ = staging.steps ++ [(parent, label, node)] := by
        simp [ExpansionStaging.steps, StagedDictionaryNode.step]
      have hlength : staging.steps.length = staging.nodes.length := by simp [ExpansionStaging.steps]
      have hlast : (staging.steps ++ [(parent, label, node)])[staging.nodes.length]? = some (parent, label, node) := by
        rw [← hlength, List.getElem?_concat_length]
      refine ⟨⟨?_, ?_⟩, ?_, ?_⟩
      · rw [hsteps]
        exact hs.steps.snoc hpath.bounded hpath hnode
      · intro parent' label' reference h
        rw [hsteps]
        by_cases heq : (parent', label') = (parent, label)
        · obtain ⟨rfl, rfl⟩ := Prod.mk.inj heq
          simp only [List.lookup_cons_self, Option.some.injEq] at h
          exact ⟨_, _, h.symm, hlast⟩
        · rw [List.lookup_cons, beq_false_of_ne heq] at h
          obtain ⟨index, node', rfl, hindex⟩ := hs.lookup _ _ _ h
          exact ⟨index, node', rfl, by rw [List.getElem?_append_left (List.getElem?_eq_some_iff.mp hindex).1]; exact hindex⟩
      · rw [hsteps]
        exact List.prefix_append _ _
      · rw [hsteps]
        exact .staged hlast (hpath.extend (List.prefix_append _ _))

end Staging

/-! ### The walk -/

namespace GeneralizedWfst
open ExpansionBudget GeneralizedOps
variable {N R : Type} {D : Dictionary N Char} {r r' : Registries N} {base : List Char} {width : Nat}

/-- The paths that a frame still has to list, when the buffer holds `output`. -/
def pendingPaths (D : Dictionary N Char) (width : Nat) (output : List Char) (frame : PathFrame N) : List (List Char) :=
  frame.edges.flatMap fun e =>
    (D.labelledPaths e.2 (width - frame.outputLen - 1)).map fun rest => output.take frame.outputLen ++ e.1 :: rest

/-- A frame is at the node that the labels it keeps of the buffer lead to from the path `base`. -/
structure FrameFits (D : Dictionary N Char) (r : Registries N) (base : List Char) (width : Nat)
    (steps : List (PendingDictionaryNode × Char × N)) (output : List Char) (frame : PathFrame N) : Prop where
  lt_width : frame.outputLen < width
  le_length : frame.outputLen ≤ output.length
  byteLen_eq : frame.byteLen = (asBytes (output.take frame.outputLen)).length
  parent : Refers r steps frame.parent (base ++ output.take frame.outputLen)
  edges : ∃ n, D.node? (base ++ output.take frame.outputLen) = some n ∧ frame.edges <:+ D.edges n

/-- A listed path has the bytes of its labels, and its target stands for where they lead from `base`. -/
structure PathFits (r : Registries N) (base : List Char) (steps : List (PendingDictionaryNode × Char × N)) (path : DictPath) : Prop where
  bytes : path.bytes = asBytes path.output
  target : Refers r steps path.targetNode (base ++ path.output)

/-- Between two turns of the walk over the paths below `n`. -/
structure WalkFits (D : Dictionary N Char) (r : Registries N)
    (before : List (PendingDictionaryNode × Char × N)) (base : List Char) (width : Nat) (n : N) (walk : PathWalk N) : Prop where
  registries : r.WellFormed D
  staging : StagingFits D r walk.staging
  before_prefix : before <+: walk.staging.steps
  bytes : walk.bytes = asBytes walk.output
  frames : ∀ frame ∈ walk.stack, FrameFits D r base width walk.staging.steps walk.output frame
  nested : walk.stack.Pairwise fun upper lower => lower.outputLen ≤ upper.outputLen
  paths : ∀ path ∈ walk.paths, PathFits r base walk.staging.steps path
  listed : walk.paths.map DictPath.output ++ walk.stack.flatMap (pendingPaths D width walk.output) = D.labelledPaths n width

section Walk
variable {before steps steps' : List (PendingDictionaryNode × Char × N)} {output v : List Char} {frame below : PathFrame N} {n node : N}
  {walk : PathWalk N} {stack : List (PathFrame N)}

theorem FrameFits.mono (h : FrameFits D r base width steps output frame) (hr : Published D r r') :
    FrameFits D r' base width steps output frame := { h with parent := h.parent.mono hr }

theorem FrameFits.extend (h : FrameFits D r base width steps output frame) (hsteps : steps <+: steps') :
    FrameFits D r base width steps' output frame := { h with parent := h.parent.extend hsteps }

theorem PathFits.mono {path : DictPath} (h : PathFits r base steps path) (hr : Published D r r') : PathFits r' base steps path :=
  { h with target := h.target.mono hr }

theorem PathFits.extend {path : DictPath} (h : PathFits r base steps path) (hsteps : steps <+: steps') :
    PathFits r base steps' path := { h with target := h.target.extend hsteps }

theorem WalkFits.mono (h : WalkFits D r before base width n walk) (hr : Published D r r') : WalkFits D r' before base width n walk :=
  { h with
    registries := hr.wellFormed h.registries
    staging := h.staging.mono hr
    frames := fun frame hframe => (h.frames frame hframe).mono hr
    paths := fun path hpath => (h.paths path hpath).mono hr }

/-- What a frame keeps of the buffer is not changed by turns of the frames above it. -/
theorem take_buffer {upper : Nat} (hle : below.outputLen ≤ upper) (hupper : upper ≤ output.length) :
    (output.take upper ++ v).take below.outputLen = output.take below.outputLen := by
  have hlength : (output.take upper).length = upper := by simpa using hupper
  rw [List.take_append_of_le_length (by rw [hlength]; exact hle), List.take_take, Nat.min_eq_left hle]

theorem FrameFits.truncate {upper : Nat} (h : FrameFits D r base width steps output below) (hle : below.outputLen ≤ upper)
    (hupper : upper ≤ output.length) : FrameFits D r base width steps (output.take upper ++ v) below := by
  have htake := take_buffer (v := v) hle hupper
  refine ⟨h.lt_width, ?_, ?_, ?_, ?_⟩
  · simp
    omega
  · rw [htake]
    exact h.byteLen_eq
  · rw [htake]
    exact h.parent
  · rw [htake]
    exact h.edges

theorem pendingPaths_truncate {upper : Nat} (hle : below.outputLen ≤ upper) (hupper : upper ≤ output.length) :
    pendingPaths D width (output.take upper ++ v) below = pendingPaths D width output below := by
  unfold pendingPaths
  rw [take_buffer hle hupper]

theorem take_asBytes (h : FrameFits D r base width steps output frame) :
    (asBytes output).take frame.byteLen = asBytes (output.take frame.outputLen) := by
  have happend : asBytes output = asBytes (output.take frame.outputLen) ++ asBytes (output.drop frame.outputLen) := by
    rw [← asBytes_append, List.take_append_drop]
  rw [happend, h.byteLen_eq, List.take_left']
  rfl

/-- The frames below the one that takes a turn. -/
theorem WalkFits.lower (h : WalkFits D r before base width n walk) (hstack : walk.stack = frame :: stack) (hsteps : walk.staging.steps <+: steps) :
    (∀ lower ∈ stack, FrameFits D r base width steps (walk.output.take frame.outputLen ++ v) lower) ∧
    stack.flatMap (pendingPaths D width (walk.output.take frame.outputLen ++ v)) =
      stack.flatMap (pendingPaths D width walk.output) := by
  have hnested := h.nested
  rw [hstack, List.pairwise_cons] at hnested
  have hframe := h.frames frame (by simp [hstack])
  refine ⟨?_, ?_⟩
  · intro lower hlower
    exact ((h.frames lower (by simp [hstack, hlower])).truncate (hnested.1 lower hlower) hframe.le_length).extend hsteps
  · exact List.flatMap_congr fun lower hlower => pendingPaths_truncate (hnested.1 lower hlower) hframe.le_length

/-- A frame without edges is left. -/
theorem WalkFits.leave (h : WalkFits D r before base width n walk) (hstack : walk.stack = frame :: stack) (hedges : frame.edges = []) :
    WalkFits D r before base width n { walk with stack, output := walk.output.take frame.outputLen, bytes := walk.bytes.take frame.byteLen } := by
  have hnested := h.nested
  have hlisted := h.listed
  have hframe := h.frames frame (by simp [hstack])
  obtain ⟨hlower, hpending⟩ := h.lower (v := []) hstack List.prefix_rfl
  rw [List.append_nil] at hlower hpending
  rw [hstack] at hnested hlisted
  refine ⟨h.registries, h.staging, h.before_prefix, ?_, hlower, hnested.of_cons, h.paths, ?_⟩
  · rw [h.bytes]
    exact take_asBytes hframe
  · rw [← hlisted, List.flatMap_cons, hpending]
    simp [pendingPaths, hedges]

/-- The turn that follows an edge, up to what it does with the child. -/
structure Entered (D : Dictionary N Char) (r : Registries N) (before : List (PendingDictionaryNode × Char × N)) (base : List Char)
    (width : Nat) (n : N) (walk : PathWalk N) (stack : List (PathFrame N)) (output : List Char) (steps : List (PendingDictionaryNode × Char × N)) (node : N) : Prop where
  registries : r.WellFormed D
  before_prefix : before <+: steps
  frames : ∀ frame ∈ stack, FrameFits D r base width steps output frame
  nested : stack.Pairwise fun upper lower => lower.outputLen ≤ upper.outputLen
  lower : ∀ frame ∈ stack, frame.outputLen < output.length
  paths : ∀ path ∈ walk.paths, PathFits r base steps path
  leads : D.node? (base ++ output) = some node
  length_le : output.length ≤ width
  listed : walk.paths.map DictPath.output ++ ((D.labelledPaths node (width - output.length)).map (output ++ ·) ++
    stack.flatMap (pendingPaths D width output)) = D.labelledPaths n width

/-- The same when the child has a reference. -/
structure ChildFits (D : Dictionary N Char) (before : List (PendingDictionaryNode × Char × N)) (base : List Char) (width : Nat) (n : N) (walk : PathWalk N) (stack : List (PathFrame N))
    (output : List Char) (bytes : List UInt8) (node : N) (child : ExpansionStaging N × PendingDictionaryNode) (r : Registries N) :
    Prop where
  staging : StagingFits D r child.1
  refers : Refers r child.1.steps child.2 (base ++ output)
  bytes_eq : bytes = asBytes output
  entered : Entered D r before base width n walk stack output child.1.steps node

theorem WalkFits.enter (hD : D.DistinctLabels) (h : WalkFits D r before base width n walk) (hstack : walk.stack = frame :: stack) {label : Char}
    {edges : List (Char × N)} (hedges : frame.edges = (label, node) :: edges) (hsteps : walk.staging.steps <+: steps) :
    Entered D r before base width n walk ({ frame with edges } :: stack) (walk.output.take frame.outputLen ++ [label]) steps node := by
  have hnested := h.nested
  have hlisted := h.listed
  have hframe := h.frames frame (by simp [hstack])
  have hlength : (walk.output.take frame.outputLen).length = frame.outputLen := by simpa using hframe.le_length
  obtain ⟨hlower, hpending⟩ := h.lower (v := [label]) hstack hsteps
  obtain ⟨m, hm, hsuffix⟩ := hframe.edges
  rw [hedges] at hsuffix
  have hmem : (label, node) ∈ D.edges m := hsuffix.subset List.mem_cons_self
  rw [hstack, List.pairwise_cons] at hnested
  have htop : FrameFits D r base width steps (walk.output.take frame.outputLen ++ [label]) { frame with edges } := by
    have htrunc := (hframe.extend hsteps).truncate (v := [label]) (Nat.le_refl frame.outputLen) hframe.le_length
    refine ⟨htrunc.lt_width, htrunc.le_length, htrunc.byteLen_eq, htrunc.parent, ?_⟩
    obtain ⟨m', hm', hsuffix'⟩ := htrunc.edges
    exact ⟨m', hm', (List.suffix_cons _ _).trans (hedges ▸ hsuffix')⟩
  refine ⟨h.registries, h.before_prefix.trans hsteps, ?_, ?_, ?_, fun path hpath => (h.paths path hpath).extend hsteps, ?_, ?_, ?_⟩
  · intro f hf
    rcases List.mem_cons.mp hf with rfl | hf
    · exact htop
    · exact hlower f hf
  · exact List.pairwise_cons.mpr hnested
  · intro f hf
    rw [List.length_append, hlength, List.length_singleton, Nat.lt_succ_iff]
    rcases List.mem_cons.mp hf with rfl | hf
    · exact Nat.le_refl _
    · exact hnested.1 f hf
  · rw [← List.append_assoc, Dictionary.node?_snoc, hm, Option.bind_some]
    exact hD.step?_eq_some.mpr ⟨label, hmem, rfl⟩
  · rw [List.length_append, hlength]
    exact hframe.lt_width
  · rw [← hlisted, hstack, List.flatMap_cons, List.flatMap_cons, hpending]
    congr 1
    rw [← List.append_assoc]
    congr 1
    have htake : (walk.output.take frame.outputLen ++ [label]).take frame.outputLen = walk.output.take frame.outputLen :=
      take_buffer (Nat.le_refl frame.outputLen) hframe.le_length
    unfold pendingPaths
    dsimp only
    rw [htake, hedges, List.flatMap_cons, List.length_append, hlength, List.length_singleton, Nat.sub_sub]
    congr 1
    refine List.map_congr_left fun rest _ => ?_
    simp

/-- A child at the full width ends a path. -/
theorem Entered.list {output : List Char} {staging : ExpansionStaging N} {child : PendingDictionaryNode}
    (h : Entered D r before base width n walk stack output staging.steps node) (hstaging : StagingFits D r staging)
    (hchild : Refers r staging.steps child (base ++ output)) (hwidth : output.length = width) :
    WalkFits D r before base width n ⟨stack, output, asBytes output, staging, walk.paths ++ [⟨child, output, asBytes output⟩]⟩ := by
  refine ⟨h.registries, hstaging, h.before_prefix, rfl, h.frames, h.nested, ?_, ?_⟩
  · intro path hpath
    rcases List.mem_append.mp hpath with hpath | hpath
    · exact h.paths path hpath
    · rw [List.mem_singleton.mp hpath]
      exact ⟨rfl, hchild⟩
  · rw [← h.listed, hwidth, Nat.sub_self]
    simp [Dictionary.labelledPaths]

/-- Any other child gets a frame. -/
theorem Entered.descend {output : List Char} {staging : ExpansionStaging N} {child : PendingDictionaryNode}
    (h : Entered D r before base width n walk stack output staging.steps node) (hstaging : StagingFits D r staging)
    (hchild : Refers r staging.steps child (base ++ output)) (hwidth : output.length ≠ width) :
    WalkFits D r before base width n
      ⟨⟨child, D.edges node, output.length, (asBytes output).length⟩ :: stack, output, asBytes output, staging, walk.paths⟩ := by
  have hlt : output.length < width := Nat.lt_of_le_of_ne h.length_le hwidth
  refine ⟨h.registries, hstaging, h.before_prefix, rfl, ?_, ?_, h.paths, ?_⟩
  · intro f hf
    rcases List.mem_cons.mp hf with rfl | hf
    · refine ⟨hlt, Nat.le_refl _, ?_, ?_, ?_⟩
      · rw [List.take_length]
      · rw [List.take_length]
        exact hchild
      · rw [List.take_length]
        exact ⟨node, h.leads, List.suffix_rfl⟩
    · exact h.frames f hf
  · exact List.pairwise_cons.mpr ⟨fun f hf => Nat.le_of_lt (h.lower f hf), h.nested⟩
  · rw [← h.listed, List.flatMap_cons]
    congr 2
    obtain ⟨rest, hrest⟩ : ∃ rest, width - output.length = rest + 1 := ⟨width - output.length - 1, by omega⟩
    simp only [pendingPaths, hrest, Dictionary.labelledPaths, List.map_flatMap, List.map_map, List.take_length, Nat.add_sub_cancel]
    rfl

end Walk

/-! ### What a walk returns -/

section Triples

theorem Quiet.retainPath (src : GeneralizedWfst N R) (env : Environment N) : Quiet (src.retainPath env) :=
  (Quiet.chargePath env).bind fun _ => Quiet.update fun _ => by rfl

variable {src : GeneralizedWfst N R} {env : Environment N} {n : N} {p : Registries N → Prop}
  {before : List (PendingDictionaryNode × Char × N)}

theorem Shares.boundedEdges (src : GeneralizedWfst N R) (env : Environment N) (node : N) : Shares D (src.boundedEdges env node) := by
  refine (Quiet.chargeWork env).shares.bind fun _ => Shares.bind (.loop (fun owned => ?_) _ _) fun _ =>
    (Quiet.checkSource env).shares.bind fun _ => Quiet.pure.shares
  refine (Quiet.chargeWork env).shares.bind fun _ => ?_
  split
  · exact (Quiet.update fun _ => by rfl).shares.bind fun _ => (Quiet.checkSource env).shares.bind fun _ => Quiet.pure.shares
  · exact Quiet.pure.shares

theorem Shares.registeredChild (henv : env.Publishes D) (parent : PendingDictionaryNode) (label : Char) :
    Shares D (registeredChild env parent label) := by
  unfold GeneralizedWfst.registeredChild
  split
  · exact .readShared henv
  · exact Quiet.pure.shares

theorem Shares.walkTurn (henv : env.Publishes D) (width : Nat) (walk : PathWalk N) : Shares D (src.walkTurn env width walk) := by
  unfold GeneralizedWfst.walkTurn
  split
  · exact Quiet.pure.shares
  · refine (Quiet.chargeWork env).shares.bind fun _ => ?_
    split
    · exact Quiet.pure.shares
    · refine (Shares.registeredChild henv _ _).bind fun _ => (Quiet.stageChild env _ _ _ _ _).shares.bind fun _ => ?_
      dsimp only
      split
      · exact (Quiet.retainPath src env).shares.bind fun _ => (Quiet.chargeWork env).shares.bind fun _ => Quiet.pure.shares
      · exact (Shares.boundedEdges src env _).bind fun _ => Quiet.pure.shares

/-- Whatever other clones keep, the walk keeps. -/
theorem Shares.dictionaryPathsExactChars (henv : env.Publishes D) (start width : Nat) (staging : ExpansionStaging N) :
    Shares D (src.dictionaryPathsExactChars env start width staging) := by
  refine (Shares.readShared henv).bind fun _ => (Quiet.orFail (by simp)).shares.bind fun _ => ?_
  split
  · exact (Quiet.retainPath src env).shares.bind fun _ => (Quiet.chargeWork env).shares.bind fun _ => Quiet.pure.shares
  · exact (Shares.boundedEdges src env _).bind fun _ => .loop (fun walk => Shares.walkTurn henv width walk) _ _

/-- The edges of a node are all pulled, or an error is reported. -/
theorem boundedEdges_fits (hsrc : src.dictionary = D.provider) (node : N) (p : Registries N → Prop) :
    Effect.Triple (fun s => p s.registries) (src.boundedEdges env node) (fun edges s => p s.registries ∧ edges = D.edges node)
      Reported := by
  refine (Quiet.chargeWork env p).bind fun _ => ?_
  refine Effect.Triple.bind (Q := fun edges s => p s.registries ∧ edges = D.edges node) ?_ fun edges => ?_
  · refine (Effect.Triple.loop (I := fun _ owned s => p s.registries ∧ owned <+: D.edges node) ?_ ?_ _ _).pre
      fun s hs => ⟨hs, List.nil_prefix⟩
    · intro _ _ _ _ h
      cases h
    · intro _ owned
      refine .of_fact fun ⟨rest, hrest⟩ => (Quiet.chargeWork env p).bind fun _ => ?_
      have hnext : src.dictionary.nextEdge node owned.length = rest.head? := by
        rw [hsrc, Dictionary.provider]
        dsimp only
        rw [← hrest, List.getElem?_append_right (Nat.le_refl _), Nat.sub_self, List.head?_eq_getElem?]
      rw [hnext]
      cases rest with
      | nil => exact .pure fun s hs => ⟨hs, by simpa using hrest⟩
      | cons edge rest =>
        refine (Quiet.update (fun _ => by rfl) p).bind fun _ => (Quiet.checkSource env p).bind fun _ => .pure fun s hs => ?_
        exact ⟨hs, rest, by simpa using hrest⟩
  · refine .of_fact fun hedges => (Quiet.checkSource env p).bind fun _ => .pure fun s hs => ⟨hs, hedges⟩

/-- A registered child has the id of its path. -/
theorem registeredChild_fits (henv : env.Publishes D) {steps : List (PendingDictionaryNode × Char × N)}
    {parent : PendingDictionaryNode} {path : List Char} (label : Char) (hp : ∀ {r r'}, Published D r r' → p r → p r')
    (hparent : ∀ r, p r → Refers r steps parent path) :
    Effect.Triple (fun s => p s.registries) (registeredChild env parent label)
      (fun registered s => p s.registries ∧
        ∀ id, registered = some id → Spells s.registries.dictionaryNodes id (path ++ [label])) Reported := by
  unfold registeredChild
  cases parent with
  | registered parent =>
    refine (readShared_spec fun hr => hp (henv _ _) hr).post fun registered s hs => ⟨hs.1, fun id h => ?_⟩
    cases hparent s.registries hs.1 with
    | registered hspells => exact hspells.child (hs.2.symm.trans h)
  | staged index => exact .pure fun s hs => ⟨hs, by simp⟩

/-- What a walk returns: all paths below `n`, over a staging that has grown. -/
structure PathsFit (D : Dictionary N Char) (before : List (PendingDictionaryNode × Char × N)) (base : List Char) (width : Nat) (n : N)
    (found : List DictPath × ExpansionStaging N) (r : Registries N) : Prop where
  registries : r.WellFormed D
  staging : StagingFits D r found.2
  before_prefix : before <+: found.2.steps
  paths : ∀ path ∈ found.1, PathFits r base found.2.steps path
  listed : found.1.map DictPath.output = D.labelledPaths n width

theorem stageChild_fits (hD : D.DistinctLabels) {walk : PathWalk N} {frame : PathFrame N} {stack : List (PathFrame N)} {label : Char}
    {node : N} {edges : List (Char × N)} (hstack : walk.stack = frame :: stack) (hedges : frame.edges = (label, node) :: edges)
    (registered : Option Nat) :
    Effect.Triple (fun s => WalkFits D s.registries before base width n walk ∧ ∀ id, registered = some id →
        Spells s.registries.dictionaryNodes id (base ++ walk.output.take frame.outputLen ++ [label]))
      (walk.staging.stageChild env registered frame.parent label node)
      (fun child s => ChildFits D before base width n walk ({ frame with edges } :: stack) (walk.output.take frame.outputLen ++ [label])
        (walk.bytes.take frame.byteLen ++ String.utf8EncodeChar label) node child s.registries) Reported := by
  intro s hs
  have hframe := hs.1.frames frame (by simp [hstack])
  have hnode := (hs.1.enter hD hstack hedges List.prefix_rfl).leads
  rw [← List.append_assoc] at hnode
  have hchild := (Quiet.stageChild env walk.staging registered frame.parent label node fun r => WalkFits D r before base width n walk).and
    (stageChild_spec env walk.staging registered frame.parent hnode)
  have hpre := And.intro hs.1 (And.intro hs.1.staging (And.intro hframe.parent hs.2))
  refine ⟨fun child s' hm => ?_, fun e s' hm => (hchild.error hpre hm).1⟩
  obtain ⟨hwalk, hstaging, hsteps, hrefers⟩ := hchild.ok hpre hm
  rw [List.append_assoc] at hrefers
  refine ⟨hstaging, hrefers, ?_, hwalk.enter hD hstack hedges hsteps⟩
  rw [asBytes_append, hs.1.bytes, take_asBytes hframe]
  simp [asBytes]

/-- A turn of the walk keeps what holds between its turns, whatever other clones register meanwhile. -/
theorem walkTurn_fits (hD : D.DistinctLabels) (hsrc : src.dictionary = D.provider) (henv : env.Publishes D) (walk : PathWalk N) :
    Effect.Triple (fun s => WalkFits D s.registries before base width n walk) (src.walkTurn env width walk)
      (fun next s => Sum.elim (fun walk => WalkFits D s.registries before base width n walk)
        (fun found => PathsFit D before base width n found s.registries) next) Reported := by
  unfold walkTurn
  cases hstack : walk.stack with
  | nil =>
    refine .pure fun s hs => ⟨hs.registries, hs.staging, hs.before_prefix, hs.paths, ?_⟩
    simpa [hstack] using hs.listed
  | cons frame stack =>
    refine (Quiet.chargeWork env fun r => WalkFits D r before base width n walk).bind fun _ => ?_
    cases hedges : frame.edges with
    | nil => exact .pure fun s hs => hs.leave hstack hedges
    | cons edge edges =>
      obtain ⟨label, node⟩ := edge
      have hmem : frame ∈ walk.stack := by simp [hstack]
      refine (registeredChild_fits (p := fun r => WalkFits D r before base width n walk) henv label (fun hr hs => hs.mono hr)
        fun r hs => (hs.frames frame hmem).parent).bind fun registered => ?_
      refine (stageChild_fits hD hstack hedges registered).bind fun child => ?_
      dsimp only
      split
      · rename_i hwidth
        refine (Quiet.retainPath src env (ChildFits D before base width n walk _ _ _ node child)).bind fun _ => ?_
        refine (Quiet.chargeWork env (ChildFits D before base width n walk _ _ _ node child)).bind fun _ => .pure fun s hs => ?_
        rw [Sum.elim_inl, hs.bytes_eq]
        exact hs.entered.list hs.staging hs.refers hwidth
      · rename_i hwidth
        refine (boundedEdges_fits hsrc node (ChildFits D before base width n walk _ _ _ node child)).bind fun childEdges => ?_
        refine .of_fact fun hedges => .pure fun s hs => ?_
        rw [Sum.elim_inl, hs.bytes_eq, hedges]
        exact hs.entered.descend hs.staging hs.refers hwidth

/-- The node that is read under an id is the one that its path leads to. -/
theorem dictionaryNode_fits (henv : env.Publishes D) (hn : D.node? base = some n) (id : Nat) (p : Registries N → Prop)
    (hp : ∀ {r r'}, Published D r r' → p r → p r') (hid : ∀ r, p r → r.WellFormed D ∧ Spells r.dictionaryNodes id base) :
    Effect.Triple (fun s => p s.registries) (dictionaryNode env id) (fun found s => p s.registries ∧ found = some n) Reported := by
  refine (readShared_spec fun hr => hp (henv _ _) hr).post fun found s hs => ⟨hs.1, ?_⟩
  obtain ⟨hwellFormed, hspells⟩ := hid s.registries hs.1
  obtain ⟨n', hn', hget⟩ := hwellFormed.nodes.node hspells
  obtain rfl := Option.some.inj (hn'.symm.trans hn)
  rw [hs.2, ← hget]
  exact Interner.value?_mapValues.symm

/-- The paths of one width below a registered node. -/
theorem dictionaryPathsExactChars_fits (hD : D.DistinctLabels) (hsrc : src.dictionary = D.provider) (henv : env.Publishes D)
    (start width : Nat) (staging : ExpansionStaging N) (hn : D.node? base = some n) :
    Effect.Triple (fun s => s.registries.WellFormed D ∧ StagingFits D s.registries staging ∧
        Spells s.registries.dictionaryNodes start base)
      (src.dictionaryPathsExactChars env start width staging)
      (fun found s => PathsFit D staging.steps base width n found s.registries) Reported := by
  let p : Registries N → Prop := fun r => r.WellFormed D ∧ StagingFits D r staging ∧ Spells r.dictionaryNodes start base
  have hp : ∀ {r r'}, Published D r r' → p r → p r' := fun hr hs => ⟨hr.wellFormed hs.1, hs.2.1.mono hr, hr.spells hs.2.2⟩
  refine (dictionaryNode_fits henv hn start p hp fun r hs => ⟨hs.1, hs.2.2⟩).bind_val (Effect.Triple.bind_orFail ?_)
  split
  · rename_i hwidth
    refine (Quiet.retainPath src env p).bind fun _ => (Quiet.chargeWork env p).bind fun _ => .pure fun s hs => ?_
    refine ⟨hs.1, hs.2.1, List.prefix_rfl, ?_, by simp [hwidth, Dictionary.labelledPaths]⟩
    intro path hpath
    rw [List.mem_singleton.mp hpath]
    exact ⟨rfl, .registered (by simpa using hs.2.2)⟩
  · rename_i hwidth
    refine (boundedEdges_fits hsrc n p).bind_val ?_
    refine (Effect.Triple.loop (I := fun _ walk s => WalkFits D s.registries staging.steps base width n walk)
      (fun _ _ _ => by simp [Reported]) (fun _ walk => walkTurn_fits hD hsrc henv walk) _ _).pre fun s hs => ?_
    refine ⟨hs.1, hs.2.1, List.prefix_rfl, rfl, ?_, by simp, by simp, ?_⟩
    · intro frame hframe
      obtain rfl := List.mem_singleton.mp hframe
      refine ⟨Nat.pos_of_ne_zero hwidth, by simp, by simp [asBytes], ?_, n, by simpa using hn, List.suffix_rfl⟩
      exact .registered (by simpa using hs.2.2)
    · obtain ⟨rest, rfl⟩ := Nat.exists_eq_succ_of_ne_zero hwidth
      simp [pendingPaths, Dictionary.labelledPaths]
      rfl

end Triples
end GeneralizedWfst
end Duallity
