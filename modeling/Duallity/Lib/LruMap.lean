import Mathlib.Data.List.Nodup
import Mathlib.Data.List.Perm.Basic

/-! Maps that remember how recently their keys were used, and that are trimmed to a size by forgetting the keys that
    were used least recently. -/

/-- The entries, the least recently used first; a key occurs once. -/
structure LruMap (κ ν : Type*) [DecidableEq κ] where
  entries : List (κ × ν)
  nodup : (entries.map Prod.fst).Nodup

namespace LruMap
variable {κ ν : Type*} [DecidableEq κ]

def empty : LruMap κ ν := ⟨[], List.nodup_nil⟩

def get (m : LruMap κ ν) (k : κ) : Option ν := m.entries.lookup k

def size (m : LruMap κ ν) : Nat := m.entries.length

/-- Make `v` the value of `k`, which becomes the most recent key. -/
def put (m : LruMap κ ν) (k : κ) (v : ν) : LruMap κ ν where
  entries := m.entries.filter (fun e => e.1 ≠ k) ++ [(k, v)]
  nodup := by
    rw [List.map_append, List.map_singleton, List.nodup_append]
    refine ⟨m.nodup.sublist (List.filter_sublist.map _), List.nodup_singleton k, ?_⟩
    intro a ha b hb
    obtain ⟨e, he, rfl⟩ := List.mem_map.mp ha
    rw [List.mem_singleton.mp hb]
    exact of_decide_eq_true (List.mem_filter.mp he).2

/-- A key that is present becomes the most recent one. -/
def touch (m : LruMap κ ν) (k : κ) : LruMap κ ν :=
  match m.get k with
  | some v => m.put k v
  | none => m

/-- Forget the least recent keys, until there are at most `limit`. -/
def trim (m : LruMap κ ν) (limit : Nat) : LruMap κ ν where
  entries := m.entries.drop (m.size - limit)
  nodup := m.nodup.sublist ((List.drop_sublist _ _).map _)

/-- The keys that `trim` forgets, in the order in which it does. -/
def victims (m : LruMap κ ν) (limit : Nat) : List κ := (m.entries.take (m.size - limit)).map Prod.fst

section Lemmas
variable {m : LruMap κ ν} {k k' : κ} {v : ν} {limit : Nat}

theorem lookup_eq_some_iff {entries : List (κ × ν)} (h : (entries.map Prod.fst).Nodup) :
    entries.lookup k = some v ↔ (k, v) ∈ entries := by
  induction entries with
  | nil => simp
  | cons e entries ih =>
    obtain ⟨k', v'⟩ := e
    obtain ⟨hnot, hnodup⟩ := List.nodup_cons.mp h
    rw [List.lookup_cons, List.mem_cons, Prod.mk.injEq]
    by_cases heq : k = k'
    · subst heq
      rw [beq_self_eq_true]
      refine ⟨fun h => Or.inl ⟨rfl, (Option.some.inj h).symm⟩, ?_⟩
      intro h
      rcases h with ⟨-, rfl⟩ | h
      · rfl
      · exact absurd (List.mem_map_of_mem (f := Prod.fst) h) hnot
    · rw [beq_false_of_ne heq]
      simp only [ih hnodup, heq, false_and, false_or]

/-- The entry of a key can be put in front. -/
theorem perm_cons_filter {entries : List (κ × ν)} (h : (entries.map Prod.fst).Nodup) (hmem : (k, v) ∈ entries) :
    entries.Perm ((k, v) :: entries.filter fun e => e.1 ≠ k) := by
  have hnodup : entries.Nodup := List.Nodup.of_map _ h
  refine (List.perm_ext_iff_of_nodup hnodup ?_).mpr ?_
  · exact List.nodup_cons.mpr ⟨by simp, hnodup.filter _⟩
  · intro e
    rw [List.mem_cons, List.mem_filter, decide_eq_true_eq]
    refine ⟨?_, ?_⟩
    · intro he
      by_cases hk : e.1 = k
      · exact Or.inl (List.inj_on_of_nodup_map h he hmem hk)
      · exact Or.inr ⟨he, hk⟩
    · intro he
      rcases he with rfl | ⟨he, -⟩
      · exact hmem
      · exact he

theorem get_eq_some_iff : m.get k = some v ↔ (k, v) ∈ m.entries := lookup_eq_some_iff m.nodup

theorem mem_put {e : κ × ν} : e ∈ (m.put k v).entries ↔ e ∈ m.entries ∧ e.1 ≠ k ∨ e = (k, v) := by
  simp [put]

theorem get_put_self : (m.put k v).get k = some v := get_eq_some_iff.mpr (mem_put.mpr (Or.inr rfl))

theorem get_put_of_ne (h : k' ≠ k) : (m.put k v).get k' = m.get k' := by
  refine Option.ext ?_
  intro w
  rw [get_eq_some_iff, get_eq_some_iff, mem_put]
  simp [h]

theorem get_touch : (m.touch k).get k' = m.get k' := by
  unfold touch
  split
  · rename_i v hv
    by_cases h : k' = k
    · subst h
      rw [get_put_self, hv]
    · exact get_put_of_ne h
  · rfl

theorem size_trim_le : (m.trim limit).size ≤ limit := by
  show (m.entries.drop (m.entries.length - limit)).length ≤ limit
  rw [List.length_drop]
  omega

theorem trim_of_size_le (h : m.size ≤ limit) : m.trim limit = m := by
  cases m
  unfold trim size at *
  simp only [Nat.sub_eq_zero_of_le h, List.drop_zero]

/-- A touch changes the order only. -/
theorem perm_touch (m : LruMap κ ν) (k : κ) : (m.touch k).entries.Perm m.entries := by
  unfold touch
  split
  · rename_i v hv
    exact List.perm_append_comm.trans (perm_cons_filter m.nodup (get_eq_some_iff.mp hv)).symm
  · exact List.Perm.refl _

theorem size_touch : (m.touch k).size = m.size := (perm_touch m k).length_eq

theorem size_put_of_get (h : (m.get k).isSome) : (m.put k v).size = m.size := by
  obtain ⟨w, hw⟩ := Option.isSome_iff_exists.mp h
  show (m.entries.filter (fun e => e.1 ≠ k) ++ [(k, v)]).length = m.entries.length
  rw [(perm_cons_filter m.nodup (get_eq_some_iff.mp hw)).length_eq, List.length_append, List.length_singleton,
    List.length_cons]

theorem put_of_get_none (m : LruMap κ ν) (v : ν) (h : m.get k = none) : (m.put k v).entries = m.entries ++ [(k, v)] := by
  show m.entries.filter _ ++ _ = _
  rw [List.filter_eq_self.mpr]
  intro e he
  rw [decide_eq_true_eq]
  rintro rfl
  cases h.symm.trans (get_eq_some_iff.mpr he)

theorem get_trim_eq_none (h : m.get k = none) : (m.trim limit).get k = none := by
  cases hget : (m.trim limit).get k with
  | none => rfl
  | some v =>
    have hmem : (k, v) ∈ m.entries := List.mem_of_mem_drop (get_eq_some_iff.mp hget)
    cases h.symm.trans (get_eq_some_iff.mpr hmem)

/-- A new key evicts what makes room for it. -/
theorem trim_put (h : m.get k = none) (hlimit : 1 ≤ limit) :
    ((m.put k v).trim limit).entries = ((m.trim (limit - 1)).put k v).entries := by
  rw [put_of_get_none _ v (get_trim_eq_none h)]
  show (m.put k v).entries.drop ((m.put k v).entries.length - limit) = m.entries.drop (m.entries.length - (limit - 1)) ++ _
  rw [put_of_get_none m v h, List.length_append, List.length_singleton,
    List.drop_append_of_le_length (by omega), show m.entries.length + 1 - limit = m.entries.length - (limit - 1) by omega]

theorem victims_put (h : m.get k = none) (hlimit : 1 ≤ limit) : (m.put k v).victims limit = m.victims (limit - 1) := by
  show ((m.put k v).entries.take ((m.put k v).entries.length - limit)).map Prod.fst = (m.entries.take _).map Prod.fst
  rw [put_of_get_none m v h, List.length_append, List.length_singleton, List.take_append_of_le_length (by omega),
    show m.entries.length + 1 - limit = m.entries.length - (limit - 1) by omega]
  rfl

/-- A value that is present after a trim was present before. -/
theorem get_of_get_trim (h : (m.trim limit).get k = some v) : m.get k = some v :=
  get_eq_some_iff.mpr (List.mem_of_mem_drop (get_eq_some_iff.mp h))

/-- The key that was put last stays. -/
theorem get_trim_put_self (h : 1 ≤ limit) : ((m.put k v).trim limit).get k = some v := by
  refine get_eq_some_iff.mpr ?_
  show (k, v) ∈ (m.entries.filter _ ++ [(k, v)]).drop ((m.entries.filter _ ++ [(k, v)]).length - limit)
  rw [List.length_append, List.length_singleton, List.drop_append_of_le_length (by omega)]
  exact List.mem_append_right _ List.mem_cons_self

/-- A map of one key has the last one put. -/
theorem get_trim_put_one : ((m.put k v).trim 1).get k' = if k' = k then some v else none := by
  have hentries : ((m.put k v).trim 1).entries = [(k, v)] := by
    show (m.entries.filter _ ++ [(k, v)]).drop ((m.entries.filter _ ++ [(k, v)]).length - 1) = _
    rw [List.length_append, List.length_singleton, Nat.add_sub_cancel]
    exact List.drop_left
  rw [get, hentries, List.lookup_cons, List.lookup_nil]
  by_cases h : k' = k
  · subst h
    rw [if_pos rfl, beq_self_eq_true]
  · rw [if_neg h, beq_false_of_ne h]

end Lemmas
end LruMap
