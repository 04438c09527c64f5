import Duallity.Lib.Interner

/-! Interning of values that are their own keys. A bounded vocabulary holds the first distinct ones, in order of their first
    occurrence, and is never changed by what came before. -/

namespace Interner
variable {κ : Type*} [DecidableEq κ]

/-- Intern one after the other, as far as there is room. -/
def internAll (limit : Nat) (r : Interner κ κ) (ks : List κ) : Interner κ κ := ks.foldl (fun r k => (r.register limit k k).1) r

/-- What is under an id is its key. -/
def OwnKeys (r : Interner κ κ) : Prop := ∀ {k i}, r.id? k = some i ↔ r.value? i = some k

variable {limit : Nat} {r : Interner κ κ} {k : κ} {i : Nat} {ks : List κ}

theorem ownKeys_empty : (empty : Interner κ κ).OwnKeys := by simp [OwnKeys, value?, id?, empty]

theorem OwnKeys.push (h : r.OwnKeys) {hk : r.id? k = none} : (r.push k k hk).OwnKeys := by
  intro k' i
  have hold : ∀ {i}, r.id? k' = some i ↔ r.value? i = some k' := h
  constructor
  · intro hid
    rw [id?_push] at hid
    split at hid
    · rename_i heq
      cases hid
      exact heq ▸ value?_push_self
    · exact value?_push_of_some (hold.mp hid)
  · intro hvalue
    have hlt : i < (r.push k k hk).size := lt_of_value? hvalue
    rw [size_push] at hlt
    rcases Nat.lt_succ_iff_lt_or_eq.mp hlt with hlt | rfl
    · obtain ⟨k'', hk''⟩ := exists_value? hlt
      have hvalue' : (r.push k k hk).value? i = some k'' := value?_push_of_some hk''
      cases hvalue'.symm.trans hvalue
      exact id?_push_of_some (hold.mpr hk'')
    · cases value?_push_self.symm.trans hvalue
      exact id?_push_self hk

theorem OwnKeys.register (h : r.OwnKeys) : (r.register limit k k).1.OwnKeys := by
  rcases register_cases limit r k k with heq | ⟨hk, -, heq⟩
  · rwa [heq]
  · rw [heq]
    exact h.push

theorem OwnKeys.internAll (h : r.OwnKeys) : (r.internAll limit ks).OwnKeys := by
  induction ks generalizing r with
  | nil => exact h
  | cons k ks ih => exact ih h.register

/-- Without room, nothing is interned. -/
theorem internAll_of_full (h : limit ≤ r.size) : r.internAll limit ks = r := by
  induction ks with
  | nil => rfl
  | cons k ks ih =>
    rcases register_cases limit r k k with heq | ⟨-, hlt, -⟩
    · exact (congrArg (fun r => r.internAll limit ks) heq).trans ih
    · exact absurd hlt (Nat.not_lt_of_le h)

/-- The id of a key is its index. -/
theorem OwnKeys.id?_eq (h : r.OwnKeys) : r.id? k = r.entries.idxOf? k := by
  cases hid : r.id? k with
  | none =>
    symm
    rw [List.idxOf?_eq_none_iff]
    intro hmem
    obtain ⟨i, hi⟩ := List.mem_iff_getElem?.mp hmem
    cases hid.symm.trans (h.mpr hi)
  | some i =>
    symm
    have hvalue : r.entries[i]? = some k := h.mp hid
    obtain ⟨hlt, hget⟩ := List.getElem?_eq_some_iff.mp hvalue
    refine List.idxOf?_eq_some_iff.mpr ⟨hlt, hget, fun j hj heq => ?_⟩
    have hid' : r.id? k = some j := h.mpr (List.getElem?_eq_some_iff.mpr ⟨hj.trans hlt, heq⟩)
    cases hid.symm.trans hid'
    exact absurd hj (Nat.lt_irrefl _)

theorem internAll_append {ls : List κ} : r.internAll limit (ks ++ ls) = (r.internAll limit ks).internAll limit ls := List.foldl_append

theorem le_internAll : r ≤ r.internAll limit ks := by
  induction ks generalizing r with
  | nil => exact le_rfl
  | cons k ks ih => exact le_register.trans ih

theorem size_internAll_le (h : r.size ≤ limit) : (r.internAll limit ks).size ≤ limit := by
  induction ks generalizing r with
  | nil => exact h
  | cons k ks ih => exact ih (size_register_le h)

/-- A key that was offered an id, or none, is in the same place ever after. -/
theorem id?_internAll (h : r.size ≤ limit) {ls : List κ} :
    (r.internAll limit (ks ++ k :: ls)).id? k = ((r.internAll limit ks).register limit k k).2 := by
  rw [internAll_append, register_snd]
  change (((r.internAll limit ks).register limit k k).1.internAll limit ls).id? k = _
  cases hid : (r.internAll limit ks).candidate limit k with
  | some i => exact le_id? le_internAll (id?_register hid)
  | none =>
    have hsize : (((r.internAll limit ks).register limit k k).1.internAll limit ls).size ≤ limit :=
      size_internAll_le (size_register_le (size_internAll_le h))
    have hnone := candidate_eq_none_mono (le_register.trans le_internAll) hid hsize
    exact (Option.or_eq_none_iff.mp hnone).1

theorem nodup_eraseDups : ks.eraseDups.Nodup := by
  induction ks using List.reverseRecOn with
  | nil => simp
  | append_singleton ks k ih =>
    rw [List.eraseDups_append]
    by_cases hk : k ∈ ks
    · simpa [List.removeAll, hk] using ih
    · have hne : ∀ a ∈ ks, ¬a = k := fun a ha heq => hk (heq ▸ ha)
      simpa [List.removeAll, hk, List.eraseDups_cons, List.nodup_append, ih] using hne

theorem entries_register (h : r.OwnKeys) : (r.register limit k k).1.entries =
    if k ∈ r.entries ∨ limit ≤ r.entries.length then r.entries else r.entries ++ [k] := by
  cases hid : r.id? k with
  | some i =>
    rw [register_of_some hid, if_pos (Or.inl (List.mem_of_getElem? (h.mp hid)))]
  | none =>
    have hnew : k ∉ r.entries := List.idxOf?_eq_none_iff.mp (h.id?_eq.symm.trans hid)
    rw [register_of_none hid]
    by_cases hroom : r.entries.length < limit
    · rw [if_neg (not_or.mpr ⟨hnew, Nat.not_le_of_lt hroom⟩), size, if_pos hroom]
      rfl
    · rw [if_pos (Or.inr (Nat.le_of_not_lt hroom)), size, if_neg hroom]

/-- A vocabulary holds the first distinct keys. -/
theorem entries_internAll : ((empty : Interner κ κ).internAll limit ks).entries = ks.eraseDups.take limit := by
  induction ks using List.reverseRecOn with
  | nil => simp [internAll, empty]
  | append_singleton ks k ih =>
    have hown : ((empty : Interner κ κ).internAll limit ks).OwnKeys := ownKeys_empty.internAll
    rw [internAll_append]
    refine (entries_register hown).trans ?_
    rw [ih, List.eraseDups_append]
    by_cases hk : k ∈ ks
    · have hremoved : [k].removeAll ks = [] := by simp [List.removeAll, hk]
      rw [hremoved, List.eraseDups_nil, List.append_nil]
      rcases Nat.le_total limit ks.eraseDups.length with hle | hle
      · rw [if_pos (Or.inr (by simpa using hle))]
      · rw [List.take_of_length_le hle, if_pos (Or.inl (by simpa using hk))]
    · have hremoved : [k].removeAll ks = [k] := by simp [List.removeAll, hk]
      have hnew : k ∉ ks.eraseDups.take limit := fun hmem => hk (by simpa using List.mem_of_mem_take hmem)
      have hsingle : [k].eraseDups = [k] := by simp [List.eraseDups_cons]
      rw [hremoved, hsingle]
      rcases Nat.lt_or_ge ks.eraseDups.length limit with hlt | hge
      · rw [List.take_of_length_le hlt.le, List.take_of_length_le (by simpa using hlt),
          if_neg (not_or.mpr ⟨by simpa using hk, Nat.not_le_of_lt hlt⟩)]
      · rw [List.take_append_of_le_length hge, if_pos (Or.inr (by simpa using hge))]

end Interner
