import Mathlib.Data.Set.Card
import Duallity.Phonetic.Successors

/-! The registration of state sets. Missing targets are gathered by key and registered once each, which gives every target the id
    under its key. -/

namespace Duallity.PhoneticNfaWfst
variable {W : PhoneticNfaWfst} {r r' : NfaStateRegistry} {stateSet key : List Nat} {q : Nat}

/-! ### Registries -/

/-- The state sets that reading candidates leads to. -/
inductive Reachable (W : PhoneticNfaWfst) : Set Nat → Prop
  | initial : Reachable W W.nfa.automaton.initial
  | next {stateSet : List Nat} {c : Char} : Reachable W {q | q ∈ stateSet} → c ∈ (W.candidates stateSet).ordered →
      (W.nfa.automaton.next {q | q ∈ stateSet} c).Nonempty → Reachable W (W.nfa.automaton.next {q | q ∈ stateSet} c)

/-- Each state set is stored under its key, with its finality. -/
structure WellFormed (W : PhoneticNfaWfst) (r : NfaStateRegistry) : Prop where
  size_le : r.size ≤ u32Count
  start : ∃ v, r.value? 0 = some v ∧ {q | q ∈ v.stateSet} = W.nfa.automaton.initial
  nodup : ∀ {i v}, r.value? i = some v → v.stateSet.Nodup
  id : ∀ {i v}, r.value? i = some v → r.id? (stateSetToKey v.stateSet) = some i
  isFinal : ∀ {i v}, r.value? i = some v → v.isFinal = W.nfa.canReachFinalThroughEndAnchors v.stateSet
  reachable : ∀ {i v}, r.value? i = some v → W.Reachable {q | q ∈ v.stateSet}

theorem mem_stateSetToKey : q ∈ stateSetToKey stateSet ↔ q ∈ stateSet := List.mem_insertionSort _

/-- What is stored under a key has its states. -/
theorem WellFormed.value_of_id (hr : WellFormed W r) {i : Nat} (h : r.id? key = some i) :
    ∃ v, r.value? i = some v ∧ stateSetToKey v.stateSet = key := by
  obtain ⟨v, hv⟩ := Interner.exists_value? (Interner.id?_lt h)
  exact ⟨v, hv, Interner.id?_injective (hr.id hv) h⟩

/-- A state set that can be registered. -/
structure Sets (W : PhoneticNfaWfst) (target : List Nat × List Nat × Bool) : Prop where
  nodup : target.1.Nodup
  key : target.2.1 = stateSetToKey target.1
  isFinal : target.2.2 = W.nfa.canReachFinalThroughEndAnchors target.1
  reachable : W.Reachable {q | q ∈ target.1}

theorem WellFormed.register (hr : WellFormed W r) {target : List Nat × List Nat × Bool} (ht : Sets W target) :
    WellFormed W (r.getOrCreateWithKey target.1 target.2.1 target.2.2).1 := by
  unfold NfaStateRegistry.getOrCreateWithKey
  rcases Interner.register_cases u32Count r target.2.1 ⟨target.1, target.2.2⟩ with h | ⟨hk, hlt, h⟩
  · rw [h]
    exact hr
  · rw [h]
    have hvalue : ∀ {i v}, (Interner.push r target.2.1 ⟨target.1, target.2.2⟩ hk).value? i = some v →
        r.value? i = some v ∨ i = r.size ∧ v = ⟨target.1, target.2.2⟩ := by
      intro i v hv
      by_cases hi : i < r.size
      · obtain ⟨v', hv'⟩ := Interner.exists_value? hi
        cases (Interner.value?_push_of_some hv').symm.trans hv
        exact .inl hv'
      · have hsize := Interner.lt_of_value? hv
        rw [Interner.size_push] at hsize
        have heq : i = r.size := by omega
        subst heq
        cases Interner.value?_push_self.symm.trans hv
        exact .inr ⟨rfl, rfl⟩
    refine ⟨?_, ?_, ?_, ?_, ?_, ?_⟩
    · rw [Interner.size_push]
      exact hlt
    · obtain ⟨v, hv, hset⟩ := hr.start
      exact ⟨v, Interner.value?_push_of_some hv, hset⟩
    · intro i v hv
      rcases hvalue hv with hv | ⟨-, rfl⟩
      · exact hr.nodup hv
      · exact ht.nodup
    · intro i v hv
      rcases hvalue hv with hv | ⟨rfl, rfl⟩
      · exact Interner.id?_push_of_some (hr.id hv)
      · exact ht.key ▸ Interner.id?_push_self hk
    · intro i v hv
      rcases hvalue hv with hv | ⟨-, rfl⟩
      · exact hr.isFinal hv
      · exact ht.isFinal
    · intro i v hv
      rcases hvalue hv with hv | ⟨-, rfl⟩
      · exact hr.reachable hv
      · exact ht.reachable

/-- A registration in sequence returns the ids under the keys; a key without one is offered none. -/
theorem registerTargets_spec (hr : WellFormed W r) (targets : List (List Nat × List Nat × Bool)) (ht : ∀ t ∈ targets, Sets W t) :
    WellFormed W (registerTargets targets r).1 ∧ r ≤ (registerTargets targets r).1 ∧
      (registerTargets targets r).2 = targets.map (fun t => (registerTargets targets r).1.id? t.2.1) ∧
      ∀ t ∈ targets, (registerTargets targets r).1.candidate u32Count t.2.1 = (registerTargets targets r).1.id? t.2.1 := by
  induction targets generalizing r with
  | nil => exact ⟨hr, le_rfl, rfl, nofun⟩
  | cons t targets ih =>
    obtain ⟨hhead, htail⟩ := List.forall_mem_cons.mp ht
    have hle : r ≤ (r.getOrCreateWithKey t.1 t.2.1 t.2.2).1 := Interner.le_register
    have hsnd : (r.getOrCreateWithKey t.1 t.2.1 t.2.2).2 = r.candidate u32Count t.2.1 := Interner.register_snd
    have hid : ∀ i, r.candidate u32Count t.2.1 = some i → (r.getOrCreateWithKey t.1 t.2.1 t.2.2).1.id? t.2.1 = some i :=
      fun i hi => Interner.id?_register hi
    obtain ⟨hr', hle', hids, hcandidates⟩ := ih (hr.register hhead) htail
    show WellFormed W (registerTargets targets (r.getOrCreateWithKey t.1 t.2.1 t.2.2).1).1 ∧ _ ≤ _ ∧
      (r.getOrCreateWithKey t.1 t.2.1 t.2.2).2 :: (registerTargets targets (r.getOrCreateWithKey t.1 t.2.1 t.2.2).1).2 = _ ∧ _
    rw [show registerTargets (t :: targets) r = ((registerTargets targets (r.getOrCreateWithKey t.1 t.2.1 t.2.2).1).1, _) from rfl]
    generalize hlast : (registerTargets targets (r.getOrCreateWithKey t.1 t.2.1 t.2.2).1).1 = last at hr' hle' hids hcandidates
    -- The id that was returned is the one that the key keeps; a full registry stays full.
    have hkey : last.id? t.2.1 = r.candidate u32Count t.2.1 ∧ last.candidate u32Count t.2.1 = last.id? t.2.1 := by
      cases hcandidate : r.candidate u32Count t.2.1 with
      | some i =>
        have hlastId := Interner.le_id? hle' (hid i hcandidate)
        exact ⟨hlastId, (Interner.candidate_of_some hlastId).trans hlastId.symm⟩
      | none =>
        have hnone := Interner.candidate_eq_none_mono (hle.trans hle') hcandidate hr'.size_le
        have hlastId : last.id? t.2.1 = none := by
          cases hk : last.id? t.2.1 with
          | none => rfl
          | some j => cases (Interner.candidate_of_some hk).symm.trans hnone
        exact ⟨hlastId, hnone.trans hlastId.symm⟩
    refine ⟨hr', hle.trans hle', ?_, ?_⟩
    · rw [List.map_cons, hids, hsnd, hkey.1]
    · intro u hu
      rcases List.mem_cons.mp hu with rfl | hu
      · exact hkey.2
      · exact hcandidates u hu

/-! ### Missing targets -/

/-- The distinct targets are those of the missing ones so far, and each of these has a use of its own. -/
structure Gathers (W : PhoneticNfaWfst) (done : List MissingTarget) (m : UniqueMissing) : Prop where
  lookup : ∀ k j, m.indexByKey.lookup k = some j → ∃ S b, m.targets[j]? = some (S, k, b)
  target : ∀ t ∈ m.targets, ∃ u ∈ done, t = (u.stateSet, u.key, W.nfa.canReachFinalThroughEndAnchors u.stateSet)
  used : ∀ u ∈ done, ∃ j, (u.index, j) ∈ m.uses
  use : ∀ n j, (n, j) ∈ m.uses → ∃ u ∈ done, u.index = n ∧ ∃ S b, m.targets[j]? = some (S, u.key, b)

theorem Gathers.addMissing {done : List MissingTarget} {m : UniqueMissing} (h : Gathers W done m) (u : MissingTarget) :
    Gathers W (done ++ [u]) (W.addMissing m u) := by
  have hlast : u ∈ done ++ [u] := List.mem_append_right _ List.mem_cons_self
  unfold PhoneticNfaWfst.addMissing
  split
  · rename_i j hj
    refine ⟨h.lookup, ?_, ?_, ?_⟩
    · intro t ht
      obtain ⟨v, hv, heq⟩ := h.target t ht
      exact ⟨v, List.mem_append_left _ hv, heq⟩
    · intro v hv
      rcases List.mem_append.mp hv with hv | hv
      · obtain ⟨i, hi⟩ := h.used v hv
        exact ⟨i, List.mem_append_left _ hi⟩
      · rw [List.mem_singleton.mp hv]
        exact ⟨j, List.mem_append_right _ List.mem_cons_self⟩
    · intro n i hi
      rcases List.mem_append.mp hi with hi | hi
      · obtain ⟨v, hv, hn, htarget⟩ := h.use n i hi
        exact ⟨v, List.mem_append_left _ hv, hn, htarget⟩
      · cases List.mem_singleton.mp hi
        exact ⟨u, hlast, rfl, h.lookup _ _ hj⟩
  · have hget : ∀ {i : Nat} {t}, m.targets[i]? = some t →
        (m.targets ++ [(u.stateSet, u.key, W.nfa.canReachFinalThroughEndAnchors u.stateSet)])[i]? = some t := by
      intro i t hi
      rw [List.getElem?_append_left (List.getElem?_eq_some_iff.mp hi).1]
      exact hi
    have hnew : (m.targets ++ [(u.stateSet, u.key, W.nfa.canReachFinalThroughEndAnchors u.stateSet)])[m.targets.length]? =
        some (u.stateSet, u.key, W.nfa.canReachFinalThroughEndAnchors u.stateSet) := List.getElem?_concat_length
    refine ⟨?_, ?_, ?_, ?_⟩
    · intro k i hi
      rw [List.lookup_cons] at hi
      split at hi
      · rename_i heq
        cases hi
        rw [eq_of_beq heq]
        exact ⟨_, _, hnew⟩
      · obtain ⟨S, b, ht⟩ := h.lookup k i hi
        exact ⟨S, b, hget ht⟩
    · intro t ht
      rcases List.mem_append.mp ht with ht | ht
      · obtain ⟨v, hv, heq⟩ := h.target t ht
        exact ⟨v, List.mem_append_left _ hv, heq⟩
      · exact ⟨u, hlast, List.mem_singleton.mp ht⟩
    · intro v hv
      rcases List.mem_append.mp hv with hv | hv
      · obtain ⟨i, hi⟩ := h.used v hv
        exact ⟨i, List.mem_append_left _ hi⟩
      · rw [List.mem_singleton.mp hv]
        exact ⟨_, List.mem_append_right _ List.mem_cons_self⟩
    · intro n i hi
      rcases List.mem_append.mp hi with hi | hi
      · obtain ⟨v, hv, hn, S, b, htarget⟩ := h.use n i hi
        exact ⟨v, List.mem_append_left _ hv, hn, S, b, hget htarget⟩
      · cases List.mem_singleton.mp hi
        exact ⟨u, hlast, rfl, _, _, hnew⟩

theorem gathers_foldl (missing : List MissingTarget) : Gathers W missing (missing.foldl W.addMissing ⟨[], [], []⟩) := by
  induction missing using List.reverseRecOn with
  | nil => exact ⟨nofun, nofun, nofun, nofun⟩
  | append_singleton missing u ih =>
    rw [List.foldl_append]
    exact ih.addMissing u

/-- Filling puts the id that its index stands for into each used place. -/
theorem getElem?_fillTargets {ids : List (Option Nat)} (g : Nat → Option Nat) (uses : List (Nat × Nat))
    (huses : ∀ n j, (n, j) ∈ uses → (ids[j]?).join = g n) (resolved : List (Char × Option Nat)) (n : Nat) :
    (fillTargets ids resolved uses)[n]? =
      (resolved[n]?).map fun (c, v) => (c, if n ∈ uses.map Prod.fst then (g n).or v else v) := by
  induction uses generalizing resolved with
  | nil =>
    rw [show fillTargets ids resolved [] = resolved from rfl]
    simp
  | cons use uses ih =>
    obtain ⟨i, j⟩ := use
    have hhead := huses i j List.mem_cons_self
    have htail := ih fun n j h => huses n j (List.mem_cons_of_mem _ h)
    rw [fillTargets, List.foldl_cons]
    dsimp only
    rw [hhead]
    cases hg : g i with
    | none =>
      refine (htail resolved).trans (congrArg (fun f => (resolved[n]?).map f) (funext fun (c, v) => ?_))
      rw [List.map_cons]
      by_cases hn : n = i
      · subst hn
        simp [hg]
      · simp only [List.mem_cons, hn, false_or]
    | some id =>
      refine (htail _).trans ?_
      rw [List.getElem?_modify, Option.map_eq_map, Option.map_map]
      refine congrArg (fun f => (resolved[n]?).map f) (funext fun (c, v) => ?_)
      rw [List.map_cons]
      by_cases hn : n = i
      · subst hn
        simp [hg]
      · simp only [Function.comp_apply, List.mem_cons, hn, Ne.symm hn, if_false, false_or]

theorem mem_missingTargets {pending : List (Char × List Nat × List Nat)} (u : MissingTarget) : u ∈ missingTargets r pending ↔
    ∃ c, pending[u.index]? = some (c, u.stateSet, u.key) ∧ r.id? u.key = none := by
  unfold missingTargets
  rw [List.mem_filterMap]
  constructor
  · rintro ⟨⟨⟨c, stateSet, key⟩, index⟩, hmem, h⟩
    obtain ⟨hnone, h⟩ := Option.ite_none_left_eq_some.mp h
    cases h
    exact ⟨c, List.mem_zipIdx_iff_getElem?.mp hmem, Option.not_isSome_iff_eq_none.mp hnone⟩
  · rintro ⟨c, hget, hnone⟩
    refine ⟨((c, u.stateSet, u.key), u.index), List.mem_zipIdx_iff_getElem?.mpr hget, ?_⟩
    dsimp only
    rw [hnone]
    rfl

/-- The targets that had no id in `r₀` are registered in what it has grown to. Each target gets the id under its key; one without an
    id is offered none. -/
theorem fill_spec {r₀ : NfaStateRegistry} (hle₀ : r₀ ≤ r) (hr : WellFormed W r) (pending : List (Char × List Nat × List Nat))
    (hp : ∀ t ∈ pending, Sets W (t.2.1, t.2.2, W.nfa.canReachFinalThroughEndAnchors t.2.1)) {m : UniqueMissing}
    (hm : m = (missingTargets r₀ pending).foldl W.addMissing ⟨[], [], []⟩) :
    WellFormed W (registerTargets m.targets r).1 ∧ r ≤ (registerTargets m.targets r).1 ∧
      fillTargets (registerTargets m.targets r).2 (pending.map fun t => (t.1, r₀.id? t.2.2)) m.uses =
        pending.map (fun t => (t.1, (registerTargets m.targets r).1.id? t.2.2)) ∧
      ∀ t ∈ pending, (registerTargets m.targets r).1.candidate u32Count t.2.2 = (registerTargets m.targets r).1.id? t.2.2 := by
  have hgathers : Gathers W (missingTargets r₀ pending) m := hm ▸ gathers_foldl _
  have hmissing : ∀ u, u ∈ missingTargets r₀ pending ↔
      ∃ c, pending[u.index]? = some (c, u.stateSet, u.key) ∧ r₀.id? u.key = none := mem_missingTargets
  have htargets : ∀ t ∈ m.targets, Sets W t := by
    intro t ht
    obtain ⟨u, hu, rfl⟩ := hgathers.target t ht
    obtain ⟨c, hc, -⟩ := (hmissing u).mp hu
    exact hp _ (List.mem_of_getElem? hc)
  obtain ⟨hr', hle, hids, hcandidates⟩ := registerTargets_spec hr m.targets htargets
  rw [hids]
  generalize (registerTargets m.targets r).1 = r' at hr' hle hcandidates ⊢
  have hle₀' := hle₀.trans hle
  -- A place is used when its target is missing, and stands for the target with its key.
  have huse : ∀ n j, (n, j) ∈ m.uses → ∃ t b, pending[n]? = some t ∧ r₀.id? t.2.2 = none ∧ ∃ S, m.targets[j]? = some (S, t.2.2, b) := by
    intro n j h
    obtain ⟨u, hu, rfl, S, b, htarget⟩ := hgathers.use n j h
    obtain ⟨c, hget, hnone⟩ := (hmissing u).mp hu
    exact ⟨_, b, hget, hnone, S, htarget⟩
  have hused : ∀ n t, pending[n]? = some t → r₀.id? t.2.2 = none → ∃ j, (n, j) ∈ m.uses := fun n t hget hnone =>
    hgathers.used ⟨n, t.2.1, t.2.2⟩ ((hmissing _).mpr ⟨t.1, hget, hnone⟩)
  refine ⟨hr', hle, ?_, ?_⟩
  · refine List.ext_getElem? fun n => ?_
    rw [getElem?_fillTargets (fun n => (pending[n]?).bind fun t => r'.id? t.2.2)]
    · rw [List.getElem?_map, List.getElem?_map]
      cases hget : pending[n]? with
      | none => rfl
      | some t =>
        refine congrArg (fun v => some (t.1, v)) ?_
        split
        · rename_i hmem
          obtain ⟨⟨n', j⟩, hj, rfl⟩ := List.mem_map.mp hmem
          obtain ⟨t', b, hget', hnone, -⟩ := huse _ j hj
          cases hget.symm.trans hget'
          rw [hnone, Option.or_none]
          rfl
        · rename_i hmem
          cases hid : r₀.id? t.2.2 with
          | none =>
            obtain ⟨j, hj⟩ := hused n t hget hid
            exact absurd (List.mem_map_of_mem hj) hmem
          | some i => exact (Interner.le_id? hle₀' hid).symm
    · intro n j hj
      obtain ⟨t, b, hget, -, S, htarget⟩ := huse n j hj
      rw [List.getElem?_map, htarget, hget]
      rfl
  · intro t ht
    cases hid : r₀.id? t.2.2 with
    | some i =>
      have hid' := Interner.le_id? hle₀' hid
      exact (Interner.candidate_of_some hid').trans hid'.symm
    | none =>
      obtain ⟨n, hget⟩ := List.getElem?_of_mem ht
      obtain ⟨j, hj⟩ := hused n t hget hid
      obtain ⟨t', b, hget', -, S, htarget⟩ := huse n j hj
      cases hget.symm.trans hget'
      exact hcandidates _ (List.mem_of_getElem? htarget)

/-- Each target gets the id under its key; one without an id is offered none. -/
theorem resolve_spec (hr : WellFormed W r) (pending : List (Char × List Nat × List Nat))
    (hp : ∀ t ∈ pending, Sets W (t.2.1, t.2.2, W.nfa.canReachFinalThroughEndAnchors t.2.1)) :
    WellFormed W (W.resolveTransitionTargets r pending).1 ∧ r ≤ (W.resolveTransitionTargets r pending).1 ∧
      (W.resolveTransitionTargets r pending).2 =
        pending.map (fun t => (t.1, (W.resolveTransitionTargets r pending).1.id? t.2.2)) ∧
      ∀ t ∈ pending, (W.resolveTransitionTargets r pending).1.candidate u32Count t.2.2 =
        (W.resolveTransitionTargets r pending).1.id? t.2.2 := by
  unfold resolveTransitionTargets
  dsimp only
  split
  · rename_i hempty
    have hsome : ∀ t ∈ pending, r.id? t.2.2 ≠ none := by
      intro t ht hnone
      obtain ⟨n, hn⟩ := List.getElem?_of_mem ht
      have hmem := (mem_missingTargets ⟨n, t.2.1, t.2.2⟩).mpr ⟨t.1, hn, hnone⟩
      rw [List.isEmpty_iff.mp hempty] at hmem
      cases hmem
    refine ⟨hr, le_rfl, rfl, ?_⟩
    intro t ht
    obtain ⟨i, hi⟩ := Option.ne_none_iff_exists'.mp (hsome t ht)
    exact (Interner.candidate_of_some hi).trans hi.symm
  · exact fill_spec le_rfl hr pending hp rfl

end Duallity.PhoneticNfaWfst
