import Duallity.Bindings.ResourceEdges
import Duallity.Dictionary

/-! Nodes of a foreign dictionary (`ResourceNode` in bindings.rs). A callback that fails records its status and gives the caller
    a fallback: no edge, or not final. Work that is checked in a scope ends with the first status recorded in it. -/

namespace Duallity

/-- What a caller gets, and the status that a failed callback has recorded. -/
abbrev Reply (α : Type) : Type := α × Option VtStatus

/-- The answer of `node_is_final`. -/
structure FlagResponse where
  status : Option VtStatus
  result : Nat

/-- The answer of `node_transition`. -/
structure TransitionResponse where
  status : Option VtStatus
  child : Nat
  found : Nat

/-! ### Checked work -/

namespace FaultFrames
variable {α : Type}

/-- Work of a provider that records `faults` and computes `result`, in a scope of its own. -/
def withChecked (s : FaultFrames) (provider : Nat) (faults : List VtStatus) (result : Except VtStatus α) :
    FaultFrames × Except VtStatus α :=
  let scope := s.nextCell
  let s := s.run (.enter provider :: faults.map (.record provider))
  (s.step (.drop scope), (s.check scope).elim result .error)

variable {s : FaultFrames} {provider : Nat} {faults : List VtStatus} {result : Except VtStatus α}

theorem routed_map_record {scope : Nat} (h : sinks provider s.frames = [scope]) :
    routed scope s (faults.map (.record provider)) = faults := by
  induction faults generalizing s with
  | nil => rfl
  | cons fault faults ih =>
    have hframes := (frames_record s provider fault).1
    rw [List.map_cons, routed, ih (hframes ▸ h)]
    simp [h]

theorem frames_map_record : (s.run (faults.map (.record provider))).frames = s.frames ∧
    (s.run (faults.map (.record provider))).nextCell = s.nextCell := by
  induction faults generalizing s with
  | nil => exact ⟨rfl, rfl⟩
  | cons fault faults ih =>
    obtain ⟨hframes, hnext⟩ := frames_record s provider fault
    rw [List.map_cons, run_cons, ih.1, ih.2]
    exact ⟨hframes, hnext⟩

/-- The first fault of the work is reported, whatever scopes enclose it. -/
theorem withChecked_snd (h : WellFormed s) : (s.withChecked provider faults result).2 = faults.head?.elim result .error := by
  have hsinks : sinks provider (s.step (.enter provider)).frames = [s.nextCell] := by simp [step, push, sinks]
  have hfresh : (s.step (.enter provider)).check s.nextCell = none := h.fresh _ le_rfl
  simp only [withChecked, run_cons]
  rw [check_run, hfresh, Option.none_or, routed_map_record hsinks]

theorem withChecked_fst (h : WellFormed s) : WellFormed (s.withChecked provider faults result).1 ∧
    (s.withChecked provider faults result).1.frames = s.frames := by
  have hrun : WellFormed (s.run (.enter provider :: faults.map (.record provider))) := h.run _
  refine ⟨hrun.step (.drop s.nextCell), ?_⟩
  have hframes : (s.run (.enter provider :: faults.map (.record provider))).frames = ⟨.provider provider, s.nextCell⟩ :: s.frames := by
    rw [run_cons, frames_map_record.1]
    rfl
  simp [withChecked, step, drop, hframes]

end FaultFrames

/-! ### Edges -/

namespace ResourceEdges
variable {len : Nat} {provider : Nat → EdgeResponse} {it it' : ResourceEdges} {items : List (Char × Nat)} {p : EdgePull}

/-- Pull edges until there are no more, at most `fuel` of them. -/
def collect (len : Nat) (provider : Nat → EdgeResponse) : Nat → ResourceEdges → Reply (List (Char × Nat))
  | 0, _ => ([], none)
  | fuel + 1, it =>
    let (p, it) := it.next len provider
    match p.item with
    | none => ([], p.fault)
    | some edge =>
      let rest := collect len provider fuel it
      (edge :: rest.1, rest.2)

/-- Pull edges until one has the label (`find_map`), at most `fuel` of them. -/
def findMap (len : Nat) (provider : Nat → EdgeResponse) (label : Char) : Nat → ResourceEdges → Reply (Option Nat)
  | 0, _ => (none, none)
  | fuel + 1, it =>
    let (p, it) := it.next len provider
    match p.item with
    | none => (none, p.fault)
    | some (edge, node) => if edge = label then (some node, none) else findMap len provider label fuel it

/-- The edge that is found is the first one with the label that would be collected; the search meets the fault of the collection
    otherwise. -/
theorem findMap_eq {label : Char} {fuel : Nat} : findMap len provider label fuel it =
    ((collect len provider fuel it).1.find? fun e => e.1 = label).elim (none, (collect len provider fuel it).2)
      fun e => (some e.2, none) := by
  induction fuel generalizing it with
  | zero => rfl
  | succ fuel ih =>
    rcases hstep : it.next len provider with ⟨⟨item, fault, read⟩, it'⟩
    cases item with
    | none => simp [findMap, collect, hstep]
    | some edge =>
      by_cases hlabel : edge.1 = label
      · simp [findMap, collect, hstep, hlabel]
      · simp [findMap, collect, hstep, hlabel, ih]

/-- The callbacks answer from the edges of a node, as far as they answer. -/
def Serves (provider : Nat → EdgeResponse) (edges : List (Char × Nat)) : Prop :=
  ∀ calls, (∀ call < calls, (provider call).status = some .ok) →
    (∃ served, served <+: edges ∧ List.Forall₂ Reads (pages provider calls) served) ∧
      ∀ call < calls, (provider call).total = edges.length

/-- While the iterator records no fault, all callbacks have answered. -/
theorem status_next (hstep : it.next len provider = (p, it')) (hfault : p.fault = none)
    (hok : ∀ call < it.calls, (provider call).status = some .ok) : ∀ call < it'.calls, (provider call).status = some .ok := by
  have htake : ∀ {it : ResourceEdges}, (it.takeEdge).2.calls = it.calls := by
    intro it
    unfold takeEdge
    split <;> rfl
  unfold next at hstep
  split at hstep
  · cases hstep
    exact hok
  by_cases hconsumed : it.index = it.written
  · rw [if_pos hconsumed] at hstep
    by_cases htotal : it.total = some it.offset
    · rw [if_pos htotal] at hstep
      cases hstep
      exact hok
    · rw [if_neg htotal] at hstep
      simp only at hstep
      by_cases hstatus : (provider it.calls).status.getD .providerError ≠ .ok
      · rw [if_pos hstatus] at hstep
        cases hstep
        cases hfault
      have hanswered : (provider it.calls).status = some .ok := by
        cases hs : (provider it.calls).status with
        | none => simp [hs] at hstatus
        | some status => simpa [hs] using hstatus
      have hcalls : it'.calls = it.calls + 1 := by
        rw [if_neg hstatus] at hstep
        split at hstep
        · cases hstep
          rfl
        split at hstep
        · cases hstep
          rfl
        split at hstep
        · cases hstep
          rfl
        · have hit := congrArg (fun step => step.2.calls) hstep
          exact hit.symm.trans htake
      intro call hcall
      rw [hcalls] at hcall
      rcases Nat.lt_succ_iff_lt_or_eq.mp hcall with hcall | rfl
      · exact hok call hcall
      · exact hanswered
  · rw [if_neg hconsumed] at hstep
    have hit := congrArg (fun step => step.2.calls) hstep
    rw [← show it.takeEdge.2.calls = it'.calls from hit, htake]
    exact hok

theorem reads_unique : Relator.RightUnique Reads := by
  intro edge item item' h h'
  exact Prod.ext (Option.some.inj (h.1.symm.trans h'.1)) (h.2.symm.trans h'.2)

/-- What is collected is a part of the edges that are served; it is all of them when no fault is recorded. -/
theorem collect_serves {edges : List (Char × Nat)} (hserves : Serves provider edges) {fuel : Nat} (h : Inv provider it items)
    (hdone : it.done = false) (hok : ∀ call < it.calls, (provider call).status = some .ok)
    (hfuel : maxUnicodeScalarEdges < items.length + fuel) :
    items ++ (collect len provider fuel it).1 <+: edges ∧
      ((collect len provider fuel it).2 = none → items ++ (collect len provider fuel it).1 = edges) := by
  induction fuel generalizing it items with
  | zero => exact absurd h.items_length_le_max (Nat.not_le_of_lt hfuel)
  | succ fuel ih =>
    rcases hstep : it.next len provider with ⟨p, it'⟩
    obtain ⟨-, houtcome⟩ := h.next hdone hstep
    cases houtcome with
    | yielded item hitem hfault hdone' hinv' =>
      have hfuel' : maxUnicodeScalarEdges < (items ++ [item]).length + fuel := by
        rw [List.length_append, List.length_singleton]
        omega
      have hrest := ih hinv' hdone' (status_next hstep hfault hok) hfuel'
      simpa [collect, hstep, hitem] using hrest
    | complete hitem hfault hdone' hcalls htotal hedges =>
      obtain ⟨⟨served, hprefix, hserved⟩, hclaimed⟩ := hserves it'.calls (status_next hstep hfault hok)
      obtain rfl : served = items := List.right_unique_forall₂' reads_unique hserved hedges
      have hlength : served.length = edges.length := (htotal 0 hcalls).symm.trans (hclaimed 0 hcalls)
      have heq : served = edges := hprefix.eq_of_length hlength
      simp [collect, hstep, hitem, heq]
    | faulted hitem hfault hdone' =>
      obtain ⟨⟨served, hprefix, hserved⟩, -⟩ := hserves it.calls hok
      obtain ⟨read, hread, hpages⟩ := h.fetched
      have hitems : items <+: edges := by
        have hflip := (hpages ▸ hserved).flip
        obtain rfl := List.right_unique_forall₂' reads_unique (List.forall₂_take_append _ _ _ hflip).flip hread
        exact (List.take_prefix _ _).trans hprefix
      obtain ⟨status, hstatus⟩ := Option.isSome_iff_exists.mp hfault
      simpa [collect, hstep, hitem, hstatus] using hitems

end ResourceEdges

/-! ### Nodes -/

/-- The replies to the questions that the crate asks about nodes. -/
structure NodeReplies (N U : Type) where
  edges : N → Reply (List (U × N))
  isFinal : N → Reply Bool
  hasEdge : N → U → Reply Bool
  edgeCount : N → Reply (Option Nat)

namespace NodeReplies
variable {N U : Type}

/-- What a caller takes the dictionary for. -/
def dictionary (replies : NodeReplies N U) (root : N) : Dictionary N U where
  root := root
  edges n := (replies.edges n).1
  isFinal n := (replies.isFinal n).1
  hasEdge n u := (replies.hasEdge n u).1
  edgeCount n := (replies.edgeCount n).1

/-- The status that `edges().next()` records. -/
def firstEdgeFault (replies : NodeReplies N U) (n : N) : Option VtStatus :=
  if (replies.edges n).1.isEmpty then (replies.edges n).2 else none

/-- Replies without a fault are those of the dictionary, and the edges before a fault are edges of it. -/
structure Serve (replies : NodeReplies N U) (D : Dictionary N U) : Prop where
  prefix_edges : ∀ n, (replies.edges n).1 <+: D.edges n
  edges : ∀ n, (replies.edges n).2 = none → (replies.edges n).1 = D.edges n
  isFinal : ∀ n, (replies.isFinal n).2 = none → (replies.isFinal n).1 = D.isFinal n
  hasEdge : ∀ n u, (replies.hasEdge n u).2 = none → (replies.hasEdge n u).1 = D.hasEdge n u
  edgeCount : ∀ n, (replies.edgeCount n).2 = none → (replies.edgeCount n).1 = D.edgeCount n

/-- No reply records a fault. -/
structure Answer (replies : NodeReplies N U) : Prop where
  edges : ∀ n, (replies.edges n).2 = none
  isFinal : ∀ n, (replies.isFinal n).2 = none
  hasEdge : ∀ n u, (replies.hasEdge n u).2 = none
  edgeCount : ∀ n, (replies.edgeCount n).2 = none

end NodeReplies

/-- The callbacks of a provider at one time, of which it may leave `node_transition` out, and what the default methods of the node
    trait make of them. -/
structure ProviderAnswers where
  nodeIsFinal : Nat → FlagResponse
  nodeTransition : Option (Nat → Char → TransitionResponse)
  nodeEdges : Nat → Nat → EdgeResponse
  hasEdge : Nat → Char → Reply Bool
  edgeCount : Nat → Reply (Option Nat)

namespace ResourceNode

def isFinal (response : FlagResponse) : Reply Bool :=
  let status := response.status.getD .providerError
  if status ≠ .ok then (false, some status)
  else
    match response.result with
    | 0 => (false, none)
    | 1 => (true, none)
    | _ => (false, some .providerError)

/-- Without the callback, `transition` looks through the edges. -/
def transition (len : Nat) (callback : Option TransitionResponse) (provider : Nat → EdgeResponse) (label : Char) : Reply (Option Nat) :=
  match callback with
  | none => ResourceEdges.findMap len provider label (ResourceEdges.maxUnicodeScalarEdges + 1) (.expandedEdges fun _ => ⟨0, 0⟩)
  | some response =>
    let status := response.status.getD .providerError
    if status ≠ .ok then (none, some status)
    else
      match response.found with
      | 0 => (none, none)
      | 1 => (some response.child, none)
      | _ => (none, some .providerError)

/-- All that `edges` yields, with pages of `len` entries. -/
def edges (len : Nat) (provider : Nat → EdgeResponse) : Reply (List (Char × Nat)) :=
  ResourceEdges.collect len provider (ResourceEdges.maxUnicodeScalarEdges + 1) (.expandedEdges fun _ => ⟨0, 0⟩)

end ResourceNode

namespace ProviderAnswers

def transition (len : Nat) (answers : ProviderAnswers) (n : Nat) (label : Char) : Reply (Option Nat) :=
  ResourceNode.transition len (answers.nodeTransition.map fun callback => callback n label) (answers.nodeEdges n) label

def replies (len : Nat) (answers : ProviderAnswers) : NodeReplies Nat Char where
  edges n := ResourceNode.edges len (answers.nodeEdges n)
  isFinal n := ResourceNode.isFinal (answers.nodeIsFinal n)
  hasEdge := answers.hasEdge
  edgeCount := answers.edgeCount

/-- A callback that answers does so from an immutable dictionary. -/
structure Serve (answers : ProviderAnswers) (D : Dictionary Nat Char) : Prop where
  nodeIsFinal : ∀ n, (answers.nodeIsFinal n).status = some .ok → (answers.nodeIsFinal n).result ≤ 1 →
    (answers.nodeIsFinal n).result = (D.isFinal n).toNat
  nodeTransition : ∀ callback ∈ answers.nodeTransition, ∀ n c, (callback n c).status = some .ok →
    ((callback n c).found = 1 → (c, (callback n c).child) ∈ D.edges n) ∧ ((callback n c).found = 0 → ∀ m, (c, m) ∉ D.edges n)
  nodeEdges : ∀ n, ResourceEdges.Serves (answers.nodeEdges n) (D.edges n)
  edgeCount : ∀ n, (answers.edgeCount n).2 = none → (answers.edgeCount n).1 = D.edgeCount n

/-- The default `has_edge` of the node trait: whether there is a transition. -/
def HasEdgeDefault (len : Nat) (answers : ProviderAnswers) : Prop :=
  ∀ n c, answers.hasEdge n c = ((answers.transition len n c).1.isSome, (answers.transition len n c).2)

variable {len : Nat} {answers : ProviderAnswers} {D : Dictionary Nat Char} {n : Nat} {label : Char}

theorem status_eq_ok {status : Option VtStatus} (h : ¬status.getD .providerError ≠ .ok) : status = some .ok := by
  cases status with
  | none => simp at h
  | some status => simpa using h

/-- What is collected of the edges is a part of them, and all of them when no fault is recorded. -/
theorem Serve.edges (h : answers.Serve D) : (ResourceNode.edges len (answers.nodeEdges n)).1 <+: D.edges n ∧
    ((ResourceNode.edges len (answers.nodeEdges n)).2 = none → (ResourceNode.edges len (answers.nodeEdges n)).1 = D.edges n) :=
  ResourceEdges.collect_serves (h.nodeEdges n) (ResourceEdges.inv_expandedEdges fun _ => ⟨0, 0⟩) rfl
    (fun call hcall => absurd hcall (Nat.not_lt_zero _)) (by simp)

/-- A child that is found is in the dictionary, and without a fault no child is missed, with the callback and without it. -/
theorem Serve.transition (h : answers.Serve D) : (∀ m, (answers.transition len n label).1 = some m → (label, m) ∈ D.edges n) ∧
    (answers.transition len n label = (none, none) → ∀ m, (label, m) ∉ D.edges n) := by
  unfold ProviderAnswers.transition ResourceNode.transition
  cases hcallback : answers.nodeTransition with
  | none =>
    obtain ⟨hitems, hall⟩ : (ResourceNode.edges len (answers.nodeEdges n)).1 <+: D.edges n ∧ _ := h.edges
    dsimp only [Option.map_none]
    rw [ResourceEdges.findMap_eq]
    change (∀ m, Prod.fst (((ResourceNode.edges len (answers.nodeEdges n)).1.find? fun e => e.1 = label).elim _ _) = some m → _) ∧
      (((ResourceNode.edges len (answers.nodeEdges n)).1.find? fun e => e.1 = label).elim _ _ = (none, none) → _)
    cases hfind : (ResourceNode.edges len (answers.nodeEdges n)).1.find? fun e => e.1 = label with
    | none =>
      refine ⟨nofun, ?_⟩
      intro hfault m hm
      rw [← hall (congrArg Prod.snd hfault)] at hm
      simpa using List.find?_eq_none.mp hfind _ hm
    | some e =>
      refine ⟨?_, nofun⟩
      intro m hm
      cases hm
      obtain rfl : e.1 = label := by simpa using List.find?_some hfind
      exact hitems.subset (List.mem_of_find?_eq_some hfind)
  | some callback =>
    dsimp only [Option.map_some]
    split
    · exact ⟨nofun, nofun⟩
    · rename_i hstatus
      obtain ⟨hfound, hnone⟩ := h.nodeTransition callback hcallback n label (status_eq_ok hstatus)
      split
      · rename_i hresult
        exact ⟨nofun, fun _ => hnone hresult⟩
      · rename_i hresult
        refine ⟨?_, nofun⟩
        intro m hm
        cases hm
        exact hfound hresult
      · exact ⟨nofun, nofun⟩

/-- The default `has_edge` answers from the edges of the dictionary. -/
theorem Serve.hasEdge (h : answers.Serve D) (hdefault : answers.HasEdgeDefault len) (hfault : (answers.hasEdge n label).2 = none) :
    (answers.hasEdge n label).1 = true ↔ ∃ m, (label, m) ∈ D.edges n := by
  obtain ⟨hfound, hnone⟩ : (∀ m, (answers.transition len n label).1 = some m → (label, m) ∈ D.edges n) ∧ _ := h.transition
  rw [hdefault] at hfault ⊢
  cases hchild : (answers.transition len n label).1 with
  | none => simpa using hnone (Prod.ext hchild hfault)
  | some m => simpa using ⟨m, hfound m hchild⟩

theorem Serve.isFinal (h : answers.Serve D) (hfault : (ResourceNode.isFinal (answers.nodeIsFinal n)).2 = none) :
    (ResourceNode.isFinal (answers.nodeIsFinal n)).1 = D.isFinal n := by
  have hfinal := h.nodeIsFinal n
  unfold ResourceNode.isFinal at hfault ⊢
  dsimp only at hfault ⊢
  split at hfault
  · cases hfault
  rename_i hstatus
  rw [if_neg hstatus]
  split at hfault
  · rename_i hresult
    have heq := hfinal (status_eq_ok hstatus) (by omega)
    cases hD : D.isFinal n <;> simp_all
  · rename_i hresult
    have heq := hfinal (status_eq_ok hstatus) (by omega)
    cases hD : D.isFinal n <;> simp_all
  · cases hfault

theorem Serve.replies (h : answers.Serve D) (hdefault : answers.HasEdgeDefault len)
    (hhas : ∀ n c, D.hasEdge n c = true ↔ ∃ m, (c, m) ∈ D.edges n) : (answers.replies len).Serve D where
  prefix_edges _ := h.edges.1
  edges _ := h.edges.2
  isFinal _ := h.isFinal
  hasEdge n c hfault := Bool.eq_iff_iff.mpr ((h.hasEdge hdefault hfault).trans (hhas n c).symm)
  edgeCount := h.edgeCount

end ProviderAnswers
end Duallity
