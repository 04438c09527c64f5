import Mathlib.Data.List.Induction
import Mathlib.Data.List.Nodup

/-! Fault scopes (`fault_scope.rs`). The frames of a thread are a stack, from which scopes may be dropped in any order. A
    fault goes to the innermost frame that is a computation or a frame of its provider, and from a computation also to the
    nearest enclosing frame of the provider, unless an older computation lies between. -/

namespace Duallity

/-- The statuses of `vinary_tree_interop` that the bindings name, and the others by number. -/
inductive VtStatus
  | ok
  | invalidArgument
  | unsupported
  | closed
  | limitExceeded
  | ioError
  | providerError
  | other (raw : Nat)
deriving DecidableEq, Repr

inductive Boundary
  | provider (id : Nat)
  | computation
deriving DecidableEq, Repr

/-- A frame and the cell that its scope shares with it. -/
structure Frame where
  boundary : Boundary
  fault : Nat
deriving DecidableEq, Repr

/-- The frames of a thread, the newest first, and what the cells hold. -/
structure FaultFrames where
  frames : List Frame
  cells : Nat → Option VtStatus
  nextCell : Nat

/-- `drop` also stands for a drop while the thread unwinds. -/
inductive FaultAction
  | enter (provider : Nat)
  | computation
  | record (provider : Nat) (status : VtStatus)
  | drop (scope : Nat)
deriving DecidableEq, Repr

namespace FaultFrames

def new : FaultFrames := ⟨[], fun _ => none, 0⟩

def push (s : FaultFrames) (boundary : Boundary) : FaultFrames :=
  { s with frames := ⟨boundary, s.nextCell⟩ :: s.frames, nextCell := s.nextCell + 1 }

/-- What the scope reports: `none` is no fault. -/
def check (s : FaultFrames) (scope : Nat) : Option VtStatus := s.cells scope

/-- The enclosing frame of a provider, unless an older computation comes first. -/
def enclosing (provider : Nat) : List Frame → List Nat
  | [] => []
  | outer :: frames =>
    match outer.boundary with
    | .computation => []
    | .provider id => if id = provider then [outer.fault] else enclosing provider frames

/-- The cells that receive a fault of a provider. -/
def sinks (provider : Nat) : List Frame → List Nat
  | [] => []
  | frame :: frames =>
    match frame.boundary with
    | .computation => frame.fault :: enclosing provider frames
    | .provider id => if id = provider then [frame.fault] else sinks provider frames

/-- A fault without a sink panics: there is no result. -/
def record (s : FaultFrames) (provider : Nat) (status : VtStatus) : Option FaultFrames :=
  if sinks provider s.frames = [] then none
  else some { s with
    cells := (sinks provider s.frames).foldl
      (fun cells sink => if (cells sink).isNone then Function.update cells sink (some status) else cells) s.cells }

def drop (s : FaultFrames) (scope : Nat) : FaultFrames :=
  { s with frames := s.frames.eraseP fun frame => frame.fault = scope }

/-- A panic leaves the frames to the drops of the unwinding thread. -/
def step (s : FaultFrames) : FaultAction → FaultFrames
  | .enter provider => s.push (.provider provider)
  | .computation => s.push .computation
  | .record provider status => (s.record provider status).getD s
  | .drop scope => s.drop scope

def run (s : FaultFrames) (actions : List FaultAction) : FaultFrames := actions.foldl step s

/-! ### Routing -/

/-- A computation, or a frame of the provider. -/
def Catches (provider : Nat) (frame : Frame) : Prop := frame.boundary = .computation ∨ frame.boundary = .provider provider

/-- Which frames a fault of a provider goes to. -/
inductive RoutedTo (provider : Nat) (frames : List Frame) : Nat → Prop
  | innermost {newer older : List Frame} {frame : Frame} : frames = newer ++ frame :: older →
      (∀ f ∈ newer, ¬Catches provider f) → Catches provider frame → RoutedTo provider frames frame.fault
  | enclosing {newer between older : List Frame} {computation frame : Frame} :
      frames = newer ++ computation :: (between ++ frame :: older) → (∀ f ∈ newer, ¬Catches provider f) →
      computation.boundary = .computation → (∀ f ∈ between, ¬Catches provider f) →
      frame.boundary = .provider provider → RoutedTo provider frames frame.fault

section Routing
variable {provider scope : Nat} {frames : List Frame}

theorem mem_enclosing : scope ∈ enclosing provider frames ↔ ∃ between frame older, frames = between ++ frame :: older ∧
    (∀ f ∈ between, ¬Catches provider f) ∧ frame.boundary = .provider provider ∧ frame.fault = scope := by
  induction frames with
  | nil => simp [enclosing]
  | cons outer frames ih =>
    have hcons : (∃ between frame older, outer :: frames = between ++ frame :: older ∧
        (∀ f ∈ between, ¬Catches provider f) ∧ frame.boundary = .provider provider ∧ frame.fault = scope) ↔
        (outer.boundary = .provider provider ∧ outer.fault = scope) ∨ ¬Catches provider outer ∧
          ∃ between frame older, frames = between ++ frame :: older ∧ (∀ f ∈ between, ¬Catches provider f) ∧
            frame.boundary = .provider provider ∧ frame.fault = scope := by
      refine ⟨?_, ?_⟩
      · intro ⟨between, frame, older, heq, hbetween, hboundary, hfault⟩
        cases between with
        | nil =>
          cases heq
          exact Or.inl ⟨hboundary, hfault⟩
        | cons f between =>
          cases heq
          exact Or.inr ⟨hbetween _ List.mem_cons_self, between, frame, older, rfl,
            fun f hf => hbetween f (List.mem_cons_of_mem _ hf), hboundary, hfault⟩
      · intro h
        rcases h with ⟨hboundary, hfault⟩ | ⟨houter, between, frame, older, rfl, hbetween, hboundary, hfault⟩
        · exact ⟨[], outer, frames, rfl, by simp, hboundary, hfault⟩
        · exact ⟨outer :: between, frame, older, rfl, List.forall_mem_cons.mpr ⟨houter, hbetween⟩, hboundary, hfault⟩
    rw [hcons, ← ih, enclosing, Catches]
    split
    · rename_i hboundary
      simp [hboundary]
    · rename_i id hboundary
      by_cases hid : id = provider
      · simp [hboundary, hid, eq_comm]
      · simp [hboundary, hid]

/-- The cells that receive a fault are those of the frames it is routed to. -/
theorem mem_sinks : scope ∈ sinks provider frames ↔ RoutedTo provider frames scope := by
  induction frames with
  | nil =>
    refine ⟨fun h => absurd h List.not_mem_nil, ?_⟩
    intro h
    cases h with
    | innermost heq => simp at heq
    | enclosing heq => simp at heq
  | cons frame frames ih =>
    by_cases hcatches : Catches provider frame
    · rcases hcatches with hboundary | hboundary
      · simp only [sinks, hboundary, List.mem_cons, mem_enclosing]
        refine ⟨?_, ?_⟩
        · intro h
          rcases h with rfl | ⟨between, outer, older, rfl, hbetween, hprovider, rfl⟩
          · exact .innermost (List.nil_append _).symm (by simp) (Or.inl hboundary)
          · exact .enclosing (List.nil_append _).symm (by simp) hboundary hbetween hprovider
        · intro h
          cases h with
          | @innermost newer older f heq hnewer hf =>
            cases newer with
            | nil =>
              cases heq
              exact Or.inl rfl
            | cons g newer =>
              cases heq
              exact absurd (Or.inl hboundary) (hnewer _ List.mem_cons_self)
          | @enclosing newer between older c f heq hnewer hc hbetween hf =>
            cases newer with
            | nil =>
              cases heq
              exact Or.inr ⟨between, f, older, rfl, hbetween, hf, rfl⟩
            | cons g newer =>
              cases heq
              exact absurd (Or.inl hboundary) (hnewer _ List.mem_cons_self)
      · simp only [sinks, hboundary, if_true, List.mem_singleton]
        refine ⟨?_, ?_⟩
        · rintro rfl
          exact .innermost (List.nil_append _).symm (by simp) (Or.inr hboundary)
        · intro h
          cases h with
          | @innermost newer older f heq hnewer hf =>
            cases newer with
            | nil =>
              cases heq
              rfl
            | cons g newer =>
              cases heq
              exact absurd (Or.inr hboundary) (hnewer _ List.mem_cons_self)
          | @enclosing newer between older c f heq hnewer hc hbetween hf =>
            cases newer with
            | nil =>
              cases heq
              cases hc.symm.trans hboundary
            | cons g newer =>
              cases heq
              exact absurd (Or.inr hboundary) (hnewer _ List.mem_cons_self)
    · have hsinks : sinks provider (frame :: frames) = sinks provider frames := by
        rw [sinks]
        split
        · rename_i hboundary
          exact absurd (Or.inl hboundary) hcatches
        · rename_i id hboundary
          refine if_neg ?_
          rintro rfl
          exact hcatches (Or.inr hboundary)
      rw [hsinks, ih]
      refine ⟨?_, ?_⟩
      · intro h
        cases h with
        | @innermost newer older f heq hnewer hf =>
          exact .innermost (by rw [heq, ← List.cons_append]) (List.forall_mem_cons.mpr ⟨hcatches, hnewer⟩) hf
        | @enclosing newer between older c f heq hnewer hc hbetween hf =>
          exact .enclosing (by rw [heq, ← List.cons_append]) (List.forall_mem_cons.mpr ⟨hcatches, hnewer⟩) hc
            hbetween hf
      · intro h
        cases h with
        | @innermost newer older f heq hnewer hf =>
          cases newer with
          | nil =>
            cases heq
            exact absurd hf hcatches
          | cons g newer =>
            cases heq
            exact .innermost rfl (fun f hf => hnewer f (List.mem_cons_of_mem _ hf)) hf
        | @enclosing newer between older c f heq hnewer hc hbetween hf =>
          cases newer with
          | nil =>
            cases heq
            exact absurd (Or.inl hc) hcatches
          | cons g newer =>
            cases heq
            exact .enclosing rfl (fun f hf => hnewer f (List.mem_cons_of_mem _ hf)) hc hbetween hf

end Routing

/-! ### One action -/

section Step
variable {s s' : FaultFrames} {provider scope : Nat} {status : VtStatus}

theorem foldl_cells (sinks : List Nat) (cells : Nat → Option VtStatus) (scope : Nat) :
    sinks.foldl (fun cells sink => if (cells sink).isNone then Function.update cells sink (some status) else cells) cells
      scope = (cells scope).or (if scope ∈ sinks then some status else none) := by
  induction sinks generalizing cells with
  | nil => simp
  | cons sink sinks ih =>
    rw [List.foldl_cons, ih]
    by_cases heq : scope = sink
    · subst heq
      cases hcell : cells scope <;> simp [hcell]
    · cases hcell : cells sink <;> simp [heq]

/-- A recorded fault is the first one of the scopes it is routed to that have none, and of no other scope. -/
theorem cells_record (s : FaultFrames) (provider : Nat) (status : VtStatus) (scope : Nat) :
    (s.step (.record provider status)).cells scope =
      (s.cells scope).or (if scope ∈ sinks provider s.frames then some status else none) := by
  rw [step, record]
  split
  · rename_i hnil
    rw [Option.getD_none, hnil, if_neg List.not_mem_nil, Option.or_none]
  · rw [Option.getD_some]
    exact foldl_cells _ _ _

theorem frames_record (s : FaultFrames) (provider : Nat) (status : VtStatus) :
    (s.step (.record provider status)).frames = s.frames ∧ (s.step (.record provider status)).nextCell = s.nextCell := by
  rw [step, record]
  split
  · exact ⟨rfl, rfl⟩
  · exact ⟨rfl, rfl⟩

/-- Frames have cells of their own, and a cell that no scope has had is empty. -/
structure WellFormed (s : FaultFrames) : Prop where
  nodup : (s.frames.map Frame.fault).Nodup
  lt : ∀ f ∈ s.frames, f.fault < s.nextCell
  fresh : ∀ cell, s.nextCell ≤ cell → s.cells cell = none

theorem wellFormed_new : WellFormed new := ⟨List.nodup_nil, by simp [new], fun _ _ => rfl⟩

theorem WellFormed.push (h : WellFormed s) (boundary : Boundary) : WellFormed (s.push boundary) := by
  refine ⟨?_, ?_, fun cell hcell => h.fresh cell (Nat.le_of_succ_le hcell)⟩
  · refine List.nodup_cons.mpr ⟨?_, h.nodup⟩
    intro hmem
    obtain ⟨f, hf, heq⟩ := List.mem_map.mp hmem
    exact absurd (h.lt f hf) (heq ▸ Nat.lt_irrefl _)
  · intro f hf
    rcases List.mem_cons.mp hf with rfl | hf
    · exact Nat.lt_succ_self _
    · exact Nat.lt_succ_of_lt (h.lt f hf)

theorem lt_of_mem_sinks (h : WellFormed s) (hmem : scope ∈ sinks provider s.frames) : scope < s.nextCell := by
  cases mem_sinks.mp hmem with
  | innermost heq => exact h.lt _ (by rw [heq]; simp)
  | enclosing heq => exact h.lt _ (by rw [heq]; simp)

theorem WellFormed.step (h : WellFormed s) (action : FaultAction) : WellFormed (s.step action) := by
  cases action with
  | enter provider => exact h.push _
  | computation => exact h.push _
  | record provider status =>
    obtain ⟨hframes, hnext⟩ := frames_record s provider status
    refine ⟨hframes ▸ h.nodup, by rw [hframes, hnext]; exact h.lt, ?_⟩
    intro cell hcell
    rw [hnext] at hcell
    rw [cells_record, h.fresh cell hcell, Option.none_or, if_neg]
    intro hmem
    exact absurd (lt_of_mem_sinks h hmem) (Nat.not_lt_of_le hcell)
  | drop scope =>
    refine ⟨h.nodup.sublist (List.eraseP_sublist.map _), ?_, h.fresh⟩
    intro f hf
    exact h.lt f (List.mem_of_mem_eraseP hf)

theorem WellFormed.run (h : WellFormed s) (actions : List FaultAction) : WellFormed (s.run actions) := by
  induction actions generalizing s with
  | nil => exact h
  | cons action actions ih => exact ih (h.step action)

/-- A dropped scope is the only one that leaves the frames. -/
theorem WellFormed.frames_drop (h : WellFormed s) (scope : Nat) :
    (s.drop scope).frames = s.frames.filter fun f => f.fault ≠ scope := by
  show s.frames.eraseP _ = _
  have hnodup := h.nodup
  generalize s.frames = frames at hnodup
  induction frames with
  | nil => rfl
  | cons f frames ih =>
    obtain ⟨hf, hnodup⟩ := List.nodup_cons.mp hnodup
    by_cases heq : f.fault = scope
    · rw [List.eraseP_cons_of_pos (by simp [heq]), List.filter_cons_of_neg (by simp [heq]), List.filter_eq_self.mpr]
      intro g hg
      rw [decide_eq_true_eq, ← heq]
      rintro hgf
      exact hf (List.mem_map.mpr ⟨g, hg, hgf⟩)
    · rw [List.eraseP_cons_of_neg (by simp [heq]), List.filter_cons_of_pos (by simp [heq]), ih hnodup]

end Step

/-! ### Runs -/

section Runs
variable {s : FaultFrames} {provider scope : Nat} {status : VtStatus} {action : FaultAction} {actions : List FaultAction}

/-- The faults that the actions record while they are routed to the scope. -/
def routed (scope : Nat) (s : FaultFrames) : List FaultAction → List VtStatus
  | [] => []
  | action :: actions =>
    (match action with
      | .record provider status => if scope ∈ sinks provider s.frames then [status] else []
      | _ => []) ++ routed scope (s.step action) actions

theorem run_cons : s.run (action :: actions) = (s.step action).run actions := rfl

theorem run_append {actions' : List FaultAction} : s.run (actions ++ actions') = (s.run actions).run actions' :=
  List.foldl_append

/-- A scope reports the first fault that has been routed to it. -/
theorem check_run (s : FaultFrames) (actions : List FaultAction) (scope : Nat) :
    (s.run actions).check scope = (s.check scope).or (routed scope s actions).head? := by
  induction actions generalizing s with
  | nil => simp [run, routed]
  | cons action actions ih =>
    rw [run_cons, ih]
    cases action with
    | record provider status =>
      rw [check, cells_record, routed, Option.or_assoc]
      by_cases hmem : scope ∈ sinks provider s.frames
      · simp [hmem, check]
      · simp [hmem, check]
    | enter provider => rfl
    | computation => rfl
    | drop scope => rfl

/-- The scope that an action enters, when the next cell is free. -/
def entersScope : FaultAction → Bool
  | .enter _ => true
  | .computation => true
  | _ => false

/-- When the actions drop none of the scopes of `s`, the frames of `s` stay, with frames of newer scopes on them. -/
theorem exists_newer_frames (hold : ∀ scope, .drop scope ∈ actions → s.nextCell ≤ scope) (h : WellFormed s) :
    ∃ newer, (s.run actions).frames = newer ++ s.frames ∧ ∀ f ∈ newer, ∃ before action after,
      actions = before ++ action :: after ∧ entersScope action = true ∧ f.fault = (s.run before).nextCell ∧
      .drop f.fault ∉ after := by
  induction actions using List.reverseRecOn with
  | nil => exact ⟨[], rfl, by simp⟩
  | append_singleton actions action ih =>
    obtain ⟨newer, hframes, hnewer⟩ := ih fun scope hscope => hold scope (List.mem_append_left _ hscope)
    have hrun : s.run (actions ++ [action]) = (s.run actions).step action := by
      rw [run_append]
      rfl
    have hwf := h.run actions
    rw [hrun]
    -- Frames that stay were entered by the same action as before.
    have hkeep : ∀ f ∈ newer, action ≠ .drop f.fault → ∃ before action' after, actions ++ [action] = before ++ action' :: after ∧
        entersScope action' = true ∧ f.fault = (s.run before).nextCell ∧ .drop f.fault ∉ after := by
      intro f hf hne
      obtain ⟨before, action', after, rfl, henters, hfault, hdrop⟩ := hnewer f hf
      refine ⟨before, action', after ++ [action], by simp, henters, hfault, ?_⟩
      intro hmem
      rcases List.mem_append.mp hmem with hmem | hmem
      · exact hdrop hmem
      · exact hne (List.mem_singleton.mp hmem).symm
    have hpush : ∀ boundary, entersScope action = true → (∀ f : Frame, action ≠ .drop f.fault) → ∀ f ∈ ⟨boundary, (s.run actions).nextCell⟩ :: newer,
        ∃ before action' after, actions ++ [action] = before ++ action' :: after ∧ entersScope action' = true ∧
          f.fault = (s.run before).nextCell ∧ .drop f.fault ∉ after := by
      intro boundary henters hne f hf
      rcases List.mem_cons.mp hf with rfl | hf
      · exact ⟨actions, action, [], rfl, henters, rfl, List.not_mem_nil⟩
      · exact hkeep f hf (hne f)
    cases action with
    | record provider status =>
      refine ⟨newer, by rw [(frames_record _ provider status).1, hframes], ?_⟩
      intro f hf
      exact hkeep f hf (by simp)
    | enter provider => exact ⟨_ :: newer, by rw [List.cons_append, ← hframes]; rfl, hpush _ rfl (by simp)⟩
    | computation => exact ⟨_ :: newer, by rw [List.cons_append, ← hframes]; rfl, hpush _ rfl (by simp)⟩
    | drop scope =>
      have hle := hold scope (by simp)
      refine ⟨newer.filter fun f => f.fault ≠ scope, ?_, ?_⟩
      · show ((s.run actions).drop scope).frames = _
        have holder : (s.frames.filter fun f => f.fault ≠ scope) = s.frames := by
          refine List.filter_eq_self.mpr ?_
          intro f hf
          exact decide_eq_true (Nat.ne_of_lt (Nat.lt_of_lt_of_le (h.lt f hf) hle))
        rw [hwf.frames_drop, hframes, List.filter_append, holder]
      · intro f hf
        obtain ⟨hf, hne⟩ := List.mem_filter.mp hf
        refine hkeep f hf ?_
        rintro heq
        cases heq
        simp at hne

/-- Once the scopes that the actions enter have been dropped again, the frames are those of before. -/
theorem frames_run_of_dropped (h : WellFormed s) (hold : ∀ scope, .drop scope ∈ actions → s.nextCell ≤ scope)
    (hdropped : ∀ before action after, actions = before ++ action :: after → entersScope action = true →
      .drop (s.run before).nextCell ∈ after) : (s.run actions).frames = s.frames := by
  obtain ⟨newer, hframes, hnewer⟩ := exists_newer_frames hold h
  cases newer with
  | nil => exact hframes
  | cons f newer =>
    obtain ⟨before, action, after, hactions, henters, hfault, hdrop⟩ := hnewer f List.mem_cons_self
    exact absurd (hfault ▸ hdropped before action after hactions henters) hdrop

/-- No two frames share a cell. -/
theorem WellFormed.frame_unique (h : WellFormed s) {f g : Frame} (hf : f ∈ s.frames) (hg : g ∈ s.frames)
    (heq : f.fault = g.fault) : f = g := List.inj_on_of_nodup_map h.nodup hf hg heq

/-- A fault under a newer computation does not reach an older one. -/
theorem check_older_computation (h : WellFormed s) {newer between older : List Frame} {computation outer : Frame}
    (hframes : s.frames = newer ++ computation :: (between ++ outer :: older)) (hc : computation.boundary = .computation)
    (ho : outer.boundary = .computation) :
    (s.step (.record provider status)).check outer.fault = s.check outer.fault := by
  rw [check, cells_record, if_neg, Option.or_none, check]
  intro hmem
  have hrouted := mem_sinks.mp hmem
  have hin : outer ∈ s.frames := by simp [hframes]
  generalize hscope : outer.fault = scope at hrouted
  cases hrouted with
  | @innermost newer' older' frame heq hnewer _ =>
    have hframe : outer = frame := h.frame_unique hin (by simp [heq]) hscope
    subst hframe
    -- The frame occurs once, so what is newer than it is the same in both splittings.
    have hnodup : (newer ++ computation :: between ++ outer :: older).Nodup := by
      have := List.Nodup.of_map _ h.nodup
      rw [hframes] at this
      simpa using this
    obtain ⟨-, -, hdisjoint⟩ := List.nodup_append.mp hnodup
    have hnewer' : outer ∉ newer ++ computation :: between := fun hmem =>
      hdisjoint outer hmem outer List.mem_cons_self rfl
    have holder' : outer ∉ older := (List.nodup_cons.mp (List.nodup_append.mp hnodup).2.1).1
    have hsplit : newer ++ computation :: between ++ outer :: older = newer' ++ outer :: older' := by
      rw [← heq, hframes]
      simp
    obtain ⟨rfl, -, -⟩ := (List.append_cons_inj_of_notMem hnewer' holder').mp hsplit
    exact hnewer computation (by simp) (Or.inl hc)
  | @enclosing newer' between' older' c frame heq _ _ _ hprovider =>
    have hframe : outer = frame := h.frame_unique hin (by simp [heq]) hscope
    subst hframe
    cases ho.symm.trans hprovider

/-- A fault does not reach a scope of another provider. -/
theorem check_other_provider (h : WellFormed s) {frame : Frame} {other : Nat} (hmem : frame ∈ s.frames)
    (hframe : frame.boundary = .provider other) (hother : other ≠ provider) :
    (s.step (.record provider status)).check frame.fault = s.check frame.fault := by
  rw [check, cells_record, if_neg, Option.or_none, check]
  intro hsink
  have hrouted := mem_sinks.mp hsink
  generalize hscope : frame.fault = scope at hrouted
  cases hrouted with
  | @innermost newer older f heq _ hcatches =>
    obtain rfl : frame = f := h.frame_unique hmem (by simp [heq]) hscope
    rcases hcatches with hboundary | hboundary
    · cases hframe.symm.trans hboundary
    · cases hframe.symm.trans hboundary
      exact hother rfl
  | @enclosing newer between older c f heq _ _ _ hprovider =>
    obtain rfl : frame = f := h.frame_unique hmem (by simp [heq]) hscope
    cases hframe.symm.trans hprovider
    exact hother rfl

/-- Faults stay in their scopes. In every run the status of a scope is the first of the faults routed to it, and a fault
    changes neither a computation that is older than another one nor a scope of another provider. When the scopes that
    actions enter have been dropped, in whatever order, the frames are as before. -/
theorem scopes_isolated (actions : List FaultAction) :
    (∀ scope, (new.run actions).check scope = (routed scope new actions).head?) ∧
    (∀ provider scope frames, scope ∈ sinks provider frames ↔ RoutedTo provider frames scope) ∧
    (∀ provider status newer computation between outer older,
      (new.run actions).frames = newer ++ computation :: (between ++ outer :: older) →
      computation.boundary = .computation → outer.boundary = .computation →
      ((new.run actions).step (.record provider status)).check outer.fault = (new.run actions).check outer.fault) ∧
    (∀ provider status, ∀ frame ∈ (new.run actions).frames, ∀ other, frame.boundary = .provider other → other ≠ provider →
      ((new.run actions).step (.record provider status)).check frame.fault = (new.run actions).check frame.fault) ∧
    ∀ actions', (∀ scope, .drop scope ∈ actions' → (new.run actions).nextCell ≤ scope) →
      (∀ before action after, actions' = before ++ action :: after → entersScope action = true →
        .drop ((new.run actions).run before).nextCell ∈ after) →
      ((new.run actions).run actions').frames = (new.run actions).frames := by
  have h := wellFormed_new.run actions
  refine ⟨?_, fun _ _ _ => mem_sinks, ?_, ?_, ?_⟩
  · intro scope
    rw [check_run]
    exact Option.none_or
  · intro provider status newer computation between outer older hframes hc ho
    exact check_older_computation h hframes hc ho
  · intro provider status frame hmem other hframe hother
    exact check_other_provider h hmem hframe hother
  · intro actions' hold hdropped
    exact frames_run_of_dropped h hold hdropped

/-- Two computations under a scope of provider 1. -/
theorem scopes_isolated_nested :
    (new.run [.enter 1, .computation, .record 1 .ioError]).check 0 = some .ioError ∧
    ((new.run [.enter 1, .computation, .computation]).step (.record 1 .ioError)).check 1 = none ∧
    ((new.run [.enter 1, .computation, .computation]).step (.record 2 .ioError)).check 0 = none ∧
    ((new.run [.enter 1]).run [.computation, .record 2 .closed, .drop 1]).frames = [⟨.provider 1, 0⟩] := by
  obtain ⟨-, -, holder, hother, -⟩ := scopes_isolated [.enter 1, .computation, .computation]
  refine ⟨?_, ?_, ?_, ?_⟩
  · rw [(scopes_isolated [.enter 1, .computation, .record 1 .ioError]).1]
    rfl
  · exact holder 1 .ioError [] ⟨.computation, 2⟩ [] ⟨.computation, 1⟩ [⟨.provider 1, 0⟩] rfl rfl rfl
  · exact hother 2 .ioError ⟨.provider 1, 0⟩ (by decide) 1 rfl (by decide)
  · obtain ⟨-, -, -, -, hframes⟩ := scopes_isolated [.enter 1]
    refine hframes [.computation, .record 2 .closed, .drop 1] ?_ ?_
    · intro scope hscope
      have hone : scope = 1 := by simpa using hscope
      rw [hone]
      decide
    · intro before action after heq henters
      match before, heq with
      | [], heq =>
        cases heq
        decide
      | [_], heq =>
        cases heq
        cases henters
      | [_, _], heq =>
        cases heq
        cases henters
      | _ :: _ :: _ :: _, heq => simp at heq

end Runs

end FaultFrames
end Duallity
