import Mathlib.Data.Set.Insert
import Mathlib.Data.List.Basic

/-! Leases in custody. Calls are logged, the latest first; a call may use a lease, and the last one of a lease ends it. Each lease that
    has been opened is owned until it ends, and ends when it is owned no more. -/

namespace Custody
variable {κ ι : Type*} (lease? : κ → Option ι) (ends : κ → Bool)

def Ended (log : List κ) (i : ι) : Prop := ∃ c ∈ log, ends c = true ∧ lease? c = some i

/-- No call uses a lease that has ended, not even to end it again. -/
def Orderly : List κ → Prop
  | [] => True
  | c :: log => (∀ i, lease? c = some i → ¬Ended lease? ends log i) ∧ Orderly log

/-- Some leases cannot be ended, so that nothing is done when they are owned no more. -/
structure Kept (log : List κ) (opened owned endable : Set ι) : Prop where
  orderly : Orderly lease? ends log
  used_opened : ∀ {c i}, c ∈ log → lease? c = some i → i ∈ opened
  owned_opened : owned ⊆ opened
  live : ∀ {i}, i ∈ owned → ¬Ended lease? ends log i
  ended : ∀ {i}, i ∈ opened → i ∉ owned → i ∈ endable → Ended lease? ends log i

variable {lease? : κ → Option ι} {ends : κ → Bool} {log newer older : List κ} {c : κ} {i : ι} {opened owned endable : Set ι}

theorem ended_cons : Ended lease? ends (c :: log) i ↔ ends c = true ∧ lease? c = some i ∨ Ended lease? ends log i := by
  simp [Ended]

theorem Orderly.of_append (h : Orderly lease? ends (newer ++ older)) : Orderly lease? ends older := by
  induction newer with
  | nil => exact h
  | cons c newer ih => exact ih h.2

/-- A lease that has ended is not used again. -/
theorem Orderly.not_used_after (h : Orderly lease? ends (newer ++ c :: older)) (hends : ends c = true) (hlease : lease? c = some i) :
    ∀ d ∈ newer, lease? d ≠ some i := by
  induction newer with
  | nil => simp
  | cons d newer ih =>
    obtain ⟨hhead, htail⟩ := h
    intro d' hd'
    rcases List.mem_cons.mp hd' with rfl | hd'
    · exact fun hd => hhead i hd ⟨c, List.mem_append_right _ List.mem_cons_self, hends, hlease⟩
    · exact ih htail d' hd'

theorem kept_nil : Kept lease? ends [] ∅ ∅ endable := ⟨trivial, by simp, Set.empty_subset _, by simp, by simp⟩

/-- A call that ends nothing uses what is owned. -/
theorem Kept.use (h : Kept lease? ends log opened owned endable) (hends : ends c = false) (hlease : ∀ i, lease? c = some i → i ∈ owned) :
    Kept lease? ends (c :: log) opened owned endable := by
  refine ⟨⟨fun i hi => h.live (hlease i hi), h.orderly⟩, ?_, h.owned_opened, ?_, ?_⟩
  · intro d i hd hi
    rcases List.mem_cons.mp hd with rfl | hd
    · exact h.owned_opened (hlease i hi)
    · exact h.used_opened hd hi
  · intro i hi
    simpa [ended_cons, hends] using h.live hi
  · intro i hi hnot hendable
    exact ended_cons.mpr (Or.inr (h.ended hi hnot hendable))

theorem Kept.use_all {calls : List κ} (h : Kept lease? ends log opened owned endable) (hcalls : ∀ c ∈ calls, ends c = false)
    (hlease : ∀ c ∈ calls, ∀ i, lease? c = some i → i ∈ owned) : Kept lease? ends (calls ++ log) opened owned endable := by
  induction calls with
  | nil => exact h
  | cons c calls ih =>
    obtain ⟨hhead, htail⟩ := List.forall_mem_cons.mp hcalls
    obtain ⟨hhead', htail'⟩ := List.forall_mem_cons.mp hlease
    exact (ih htail htail').use hhead hhead'

/-- A lease that is opened is owned at first. -/
theorem Kept.open {endable' : Set ι} (h : Kept lease? ends log opened owned endable) (hi : i ∉ opened)
    (hendable : ∀ j ∈ opened, j ∈ endable' → j ∈ endable) : Kept lease? ends log (insert i opened) (insert i owned) endable' := by
  refine ⟨h.orderly, fun hc hlease => Set.mem_insert_of_mem _ (h.used_opened hc hlease), Set.insert_subset_insert h.owned_opened, ?_, ?_⟩
  · intro j hj
    rcases Set.mem_insert_iff.mp hj with rfl | hj
    · rintro ⟨c, hc, -, hlease⟩
      exact hi (h.used_opened hc hlease)
    · exact h.live hj
  · intro j hj hnot hj'
    obtain ⟨hne, hnot⟩ := not_or.mp fun h => hnot (Set.mem_insert_iff.mpr h)
    have hj := (Set.mem_insert_iff.mp hj).resolve_left hne
    exact h.ended hj hnot (hendable j hj hj')

/-- The last owner ends the lease. -/
theorem Kept.end (h : Kept lease? ends log opened (insert i owned) endable) (hi : i ∉ owned) (hends : ends c = true)
    (hlease : lease? c = some i) : Kept lease? ends (c :: log) opened owned endable := by
  have howned : ∀ {j}, lease? c = some j → j = i := fun hj => Option.some.inj (hj.symm.trans hlease)
  refine ⟨⟨fun j hj => h.live (howned hj ▸ Set.mem_insert _ _), h.orderly⟩, ?_, (Set.subset_insert _ _).trans h.owned_opened, ?_, ?_⟩
  · intro d j hd hj
    rcases List.mem_cons.mp hd with rfl | hd
    · exact howned hj ▸ h.owned_opened (Set.mem_insert _ _)
    · exact h.used_opened hd hj
  · intro j hj hended
    rcases ended_cons.mp hended with ⟨-, hj'⟩ | hended
    · exact hi (howned hj' ▸ hj)
    · exact h.live (Set.mem_insert_of_mem _ hj) hended
  · intro j hj hnot hendable
    by_cases heq : j = i
    · exact ended_cons.mpr (Or.inl ⟨hends, heq ▸ hlease⟩)
    · exact ended_cons.mpr (Or.inr (h.ended hj (fun h => (Set.mem_insert_iff.mp h).elim heq hnot) hendable))

/-- A lease that cannot be ended is given up. -/
theorem Kept.giveUp (h : Kept lease? ends log opened (insert i owned) endable) (hi : i ∉ endable) :
    Kept lease? ends log opened owned endable := by
  refine ⟨h.orderly, h.used_opened, (Set.subset_insert _ _).trans h.owned_opened, fun hj => h.live (Set.mem_insert_of_mem _ hj), ?_⟩
  intro j hj hnot hendable
  refine h.ended hj (fun h => ?_) hendable
  rcases Set.mem_insert_iff.mp h with rfl | h
  · exact hi hendable
  · exact hnot h

end Custody
