import Mathlib.Data.Set.Card

/-! Interning: an append-only table that gives each key a dense id, in order of first registration.
    A bounded table gives out ids below a limit only. -/

/-- The forward map from keys to ids and the values under the ids. Ids are dense and no id has two keys. -/
structure Interner (κ ν : Type*) [DecidableEq κ] where
  toId : List (κ × Nat)
  entries : List ν
  lt_length : ∀ {k i}, toId.lookup k = some i → i < entries.length
  injective : ∀ {k k' i}, toId.lookup k = some i → toId.lookup k' = some i → k = k'
  covered : ∀ i < entries.length, ∃ k, toId.lookup k = some i

namespace Interner
variable {κ ν : Type*} [DecidableEq κ]

def empty : Interner κ ν where
  toId := []
  entries := []
  lt_length h := by simp at h
  injective h := by simp at h
  covered i h := by simp at h

def id? (r : Interner κ ν) (k : κ) : Option Nat := r.toId.lookup k

def value? (r : Interner κ ν) (i : Nat) : Option ν := r.entries[i]?

def size (r : Interner κ ν) : Nat := r.entries.length

theorem lookup_cons_ne {k k' : κ} {i : Nat} {l : List (κ × Nat)} (h : k' ≠ k) :
    ((k, i) :: l).lookup k' = l.lookup k' := by
  rw [List.lookup_cons, beq_false_of_ne h]

/-- Append a value under a key that has no id yet. -/
def push (r : Interner κ ν) (k : κ) (v : ν) (hk : r.id? k = none) : Interner κ ν where
  toId := (k, r.size) :: r.toId
  entries := r.entries ++ [v]
  lt_length {k' i} h := by
    by_cases e : k' = k
    · subst e
      simp only [List.lookup_cons_self, Option.some.injEq] at h
      simp [← h, size]
    · rw [lookup_cons_ne e] at h
      exact Nat.lt_of_lt_of_le (r.lt_length h) (by simp)
  injective {k₁ k₂ i} h₁ h₂ := by
    by_cases e₁ : k₁ = k <;> by_cases e₂ : k₂ = k
    · rw [e₁, e₂]
    · subst e₁
      simp only [List.lookup_cons_self, Option.some.injEq] at h₁
      rw [lookup_cons_ne e₂] at h₂
      exact absurd (r.lt_length h₂) (by simp [← h₁, size])
    · subst e₂
      simp only [List.lookup_cons_self, Option.some.injEq] at h₂
      rw [lookup_cons_ne e₁] at h₁
      exact absurd (r.lt_length h₁) (by simp [← h₂, size])
    · rw [lookup_cons_ne e₁] at h₁
      rw [lookup_cons_ne e₂] at h₂
      exact r.injective h₁ h₂
  covered i h := by
    rcases Nat.lt_succ_iff_lt_or_eq.mp (by simpa using h) with h | rfl
    · obtain ⟨k', hk'⟩ := r.covered i h
      refine ⟨k', ?_⟩
      rwa [lookup_cons_ne]
      rintro rfl
      rw [id?, hk'] at hk
      cases hk
    · exact ⟨k, by simp [size]⟩

/-- The id that the next key without one receives. -/
def nextId (limit : Nat) (r : Interner κ ν) : Option Nat := if r.size < limit then some r.size else none

/-- The id that `register` would return for `k`. -/
def candidate (limit : Nat) (r : Interner κ ν) (k : κ) : Option Nat := (r.id? k).or (r.nextId limit)

/-- The id of `k`: the one it has, or the next one, under which `v` is then stored. -/
def register (limit : Nat) (r : Interner κ ν) (k : κ) (v : ν) : Interner κ ν × Option Nat :=
  match h : r.id? k with
  | some i => (r, some i)
  | none => if r.size < limit then (r.push k v h, some r.size) else (r, none)

/-- Push several values, each under a key that has no id yet; `nextId` is what the next size gives as an id. -/
def pushAll (nextId : Nat → Option Nat) (r : Interner κ ν) : List (κ × ν) → Option (Interner κ ν)
  | [] => some r
  | (k, v) :: xs =>
    match h : r.id? k with
    | some _ => none
    | none => (nextId r.size).bind fun _ => pushAll nextId (r.push k v h) xs

section Lookup
variable {r : Interner κ ν} {k k' : κ} {v : ν} {i : Nat}

theorem id?_lt (h : r.id? k = some i) : i < r.size := r.lt_length h

theorem id?_injective (h : r.id? k = some i) (h' : r.id? k' = some i) : k = k' := r.injective h h'

theorem exists_id? (h : i < r.size) : ∃ k, r.id? k = some i := r.covered i h

theorem value?_isSome : (r.value? i).isSome ↔ i < r.size := by simp [value?, size]

theorem exists_value? (h : i < r.size) : ∃ v, r.value? i = some v :=
  Option.isSome_iff_exists.mp (value?_isSome.mpr h)

theorem lt_of_value? (h : r.value? i = some v) : i < r.size := value?_isSome.mp (by simp [h])

@[simp] theorem id?_empty : (empty : Interner κ ν).id? k = none := rfl

@[simp] theorem size_empty : (empty : Interner κ ν).size = 0 := rfl

@[simp] theorem size_push {hk : r.id? k = none} : (r.push k v hk).size = r.size + 1 := by
  simp [push, size]

theorem id?_push {hk : r.id? k = none} :
    (r.push k v hk).id? k' = if k' = k then some r.size else r.id? k' := by
  by_cases h : k' = k
  · subst h; simp [push, id?]
  · simp [push, id?, lookup_cons_ne h, h]

theorem id?_push_self (hk : r.id? k = none) : (r.push k v hk).id? k = some r.size := by simp [id?_push]

theorem id?_push_of_some {hk : r.id? k = none} (h : r.id? k' = some i) : (r.push k v hk).id? k' = some i := by
  have : k' ≠ k := by rintro rfl; rw [hk] at h; cases h
  simp [id?_push, this, h]

theorem value?_push_self {hk : r.id? k = none} : (r.push k v hk).value? r.size = some v := by
  simp [push, value?, size]

theorem value?_push_of_some {v' : ν} {hk : r.id? k = none} (h : r.value? i = some v') :
    (r.push k v hk).value? i = some v' := by
  have := lt_of_value? h
  simp only [push, value?]
  rwa [List.getElem?_append_left this]

end Lookup

/-! ### Values -/

/-- The same ids with other values under them. -/
def mapValues {ν' : Type*} (f : ν → ν') (r : Interner κ ν) : Interner κ ν' where
  toId := r.toId
  entries := r.entries.map f
  lt_length h := by simpa using r.lt_length h
  injective := r.injective
  covered i h := r.covered i (by simpa using h)

section Values
variable {ν' : Type*} {f : ν → ν'} {r : Interner κ ν} {k : κ} {v : ν} {i : Nat}

@[simp] theorem id?_mapValues : (r.mapValues f).id? k = r.id? k := rfl

@[simp] theorem value?_mapValues : (r.mapValues f).value? i = (r.value? i).map f := by simp [mapValues, value?]

@[simp] theorem size_mapValues : (r.mapValues f).size = r.size := by simp [mapValues, size]

theorem mapValues_push {hk : r.id? k = none} : (r.push k v hk).mapValues f = (r.mapValues f).push k (f v) hk := by
  simp [mapValues, push, size]

end Values

/-! ### Counting -/

section Counting
variable {r : Interner κ ν} {k : κ} {S : Set κ}

/-- The keys that have an id. -/
def keys (r : Interner κ ν) : Set κ := {k | ∃ i, r.id? k = some i}

theorem ncard_keys (r : Interner κ ν) : r.keys.ncard = r.size ∧ r.keys.Finite := by
  have hex : ∀ i : Fin r.size, ∃ k, r.id? k = some i.val := fun i => exists_id? i.isLt
  choose key hkey using hex
  have hinj : Function.Injective key := by
    intro i j hij
    exact Fin.ext (Option.some.inj ((hkey i).symm.trans (hij ▸ hkey j)))
  have hrange : r.keys = key '' Set.univ := by
    ext k
    constructor
    · rintro ⟨i, hi⟩
      exact ⟨⟨i, id?_lt hi⟩, trivial, id?_injective (hkey ⟨i, id?_lt hi⟩) hi⟩
    · rintro ⟨i, -, rfl⟩
      exact ⟨i, hkey i⟩
  rw [hrange]
  exact ⟨by rw [Set.ncard_image_of_injective _ hinj, Set.ncard_univ, Nat.card_eq_fintype_card, Fintype.card_fin],
    Set.finite_univ.image _⟩

theorem size_le_ncard (hS : S.Finite) (h : r.keys ⊆ S) : r.size ≤ S.ncard :=
  (ncard_keys r).1 ▸ Set.ncard_le_ncard h hS

/-- A key without an id leaves room for it. -/
theorem size_lt_ncard (hS : S.Finite) (h : r.keys ⊆ S) (hk : k ∈ S) (hn : r.id? k = none) : r.size < S.ncard := by
  refine (ncard_keys r).1 ▸ Set.ncard_lt_ncard (Set.ssubset_iff_subset_ne.mpr ⟨h, ?_⟩) hS
  rintro rfl
  obtain ⟨i, hi⟩ := hk
  cases hn.symm.trans hi

theorem ncard_le_size (h : S ⊆ r.keys) : S.ncard ≤ r.size :=
  (ncard_keys r).1 ▸ Set.ncard_le_ncard h (ncard_keys r).2

end Counting

/-! ### Growth -/

/-- `r'` keeps every id of `r` with its meaning. -/
instance : LE (Interner κ ν) where
  le r r' := (∀ {k i}, r.id? k = some i → r'.id? k = some i) ∧ ∀ {i v}, r.value? i = some v → r'.value? i = some v

section Growth
variable {r r' r'' : Interner κ ν} {k : κ} {v : ν} {i : Nat}

theorem le_id? (h : r ≤ r') (hk : r.id? k = some i) : r'.id? k = some i := h.1 hk

theorem le_value? (h : r ≤ r') (hi : r.value? i = some v) : r'.value? i = some v := h.2 hi

instance : Preorder (Interner κ ν) where
  le_refl r := ⟨fun h => h, fun h => h⟩
  le_trans a b c h h' := ⟨fun hk => h'.1 (h.1 hk), fun hi => h'.2 (h.2 hi)⟩

theorem le_size (h : r ≤ r') : r.size ≤ r'.size := by
  by_contra hlt
  obtain ⟨v, hv⟩ := exists_value? (Nat.lt_of_not_le hlt)
  exact absurd (lt_of_value? (le_value? h hv)) (Nat.lt_irrefl _)

/-- A key that gets an id later gets one beyond those of before. -/
theorem id?_of_le (h : r ≤ r') (hk : r'.id? k = some i) : r.id? k = some i ∨ r.id? k = none ∧ r.size ≤ i := by
  by_cases hi : i < r.size
  · obtain ⟨k', hk'⟩ := exists_id? hi
    exact Or.inl (id?_injective hk (le_id? h hk') ▸ hk')
  · refine Or.inr ⟨?_, Nat.le_of_not_lt hi⟩
    cases h' : r.id? k with
    | none => rfl
    | some j =>
      rw [le_id? h h'] at hk
      cases hk
      exact absurd (id?_lt h') hi

theorem mapValues_mono {ν' : Type*} (f : ν → ν') (h : r ≤ r') : r.mapValues f ≤ r'.mapValues f := by
  refine ⟨h.1, ?_⟩
  intro i v hv
  rw [value?_mapValues] at hv ⊢
  rcases Option.map_eq_some_iff.mp hv with ⟨u, hu, rfl⟩
  rw [h.2 hu, Option.map_some]

theorem le_push (hk : r.id? k = none) : r ≤ r.push k v hk := ⟨id?_push_of_some, value?_push_of_some⟩

end Growth

/-! ### Registration -/

section Register
variable {limit : Nat} {r r' : Interner κ ν} {k : κ} {v : ν} {i : Nat}

theorem register_of_some (h : r.id? k = some i) : r.register limit k v = (r, some i) := by
  unfold register
  split
  · rename_i j hj
    rw [h] at hj
    cases hj
    rfl
  · rename_i hn
    rw [h] at hn
    cases hn

theorem register_of_none (h : r.id? k = none) :
    r.register limit k v = if r.size < limit then (r.push k v h, some r.size) else (r, none) := by
  unfold register
  split
  · rename_i j hj
    rw [h] at hj
    cases hj
  · rfl

theorem candidate_of_some (h : r.id? k = some i) : r.candidate limit k = some i := by simp [candidate, h]

theorem candidate_of_none (h : r.id? k = none) : r.candidate limit k = r.nextId limit := by simp [candidate, h]

/-- `candidate` says which id `register` returns. -/
theorem register_snd : (r.register limit k v).2 = r.candidate limit k := by
  cases h : r.id? k with
  | some i => rw [register_of_some h, candidate_of_some h]
  | none =>
    rw [register_of_none h, candidate_of_none h, nextId]
    split <;> rfl

theorem le_register : r ≤ (r.register limit k v).1 := by
  cases h : r.id? k with
  | some i => rw [register_of_some h]
  | none =>
    rw [register_of_none h]
    split
    · exact le_push h
    · exact le_rfl

/-- A registered key keeps the returned id. -/
theorem id?_register (h : r.candidate limit k = some i) : (r.register limit k v).1.id? k = some i := by
  cases hk : r.id? k with
  | some j =>
    rw [candidate_of_some hk] at h
    rw [register_of_some hk]
    exact h ▸ hk
  | none =>
    rw [candidate_of_none hk, nextId] at h
    split at h
    · rename_i hlt
      cases h
      rw [register_of_none hk, if_pos hlt]
      exact id?_push_self hk
    · cases h

/-- What a registration stores: nothing new, or the value under the next id. -/
theorem register_cases (limit : Nat) (r : Interner κ ν) (k : κ) (v : ν) : (r.register limit k v).1 = r ∨
    ∃ hk : r.id? k = none, r.size < limit ∧ (r.register limit k v).1 = r.push k v hk := by
  rcases Option.eq_none_or_eq_some (r.id? k) with h | ⟨i, h⟩
  · by_cases hlt : r.size < limit
    · exact Or.inr ⟨h, hlt, by rw [register_of_none h, if_pos hlt]⟩
    · exact Or.inl (by rw [register_of_none h, if_neg hlt])
  · exact Or.inl (by rw [register_of_some h])

/-- A registration adds no other key than its own. -/
theorem id?_of_register {k' : κ} {j : Nat} (h : (r.register limit k v).1.id? k' = some j) : r.id? k' = some j ∨ k' = k := by
  rcases register_cases limit r k v with heq | ⟨hk, -, heq⟩
  · rw [heq] at h
    exact .inl h
  · rw [heq, id?_push] at h
    split at h
    · exact .inr ‹_›
    · exact .inl h

/-- The id offered for a key never decreases while the table grows. -/
theorem candidate_mono {j : Nat} (h : r ≤ r') (hi : r.candidate limit k = some i)
    (hj : r'.candidate limit k = some j) : i ≤ j := by
  cases hk : r.id? k with
  | some i' =>
    rw [candidate_of_some hk] at hi
    rw [candidate_of_some (le_id? h hk)] at hj
    cases hi
    cases hj
    exact Nat.le_refl _
  | none =>
    rw [candidate_of_none hk, nextId] at hi
    split at hi <;> cases hi
    cases hk' : r'.id? k with
    | some j' =>
      rw [candidate_of_some hk'] at hj
      cases hj
      rcases id?_of_le h hk' with h' | ⟨-, hle⟩
      · rw [hk] at h'
        cases h'
      · exact hle
    | none =>
      rw [candidate_of_none hk', nextId] at hj
      split at hj <;> cases hj
      exact le_size h

/-- A key that is offered no id stays without one. -/
theorem candidate_eq_none_mono (h : r ≤ r') (hn : r.candidate limit k = none)
    (hb : r'.size ≤ limit) : r'.candidate limit k = none := by
  simp only [candidate, Option.or_eq_none_iff, nextId] at hn ⊢
  obtain ⟨hk, hfull⟩ := hn
  have hsize : ¬r.size < limit := by
    intro hlt
    rw [if_pos hlt] at hfull
    cases hfull
  have := le_size h
  refine ⟨?_, if_neg (by omega)⟩
  cases hk' : r'.id? k with
  | none => rfl
  | some j =>
    rcases id?_of_le h hk' with h' | ⟨-, hle⟩
    · rw [hk] at h'
      cases h'
    · have := id?_lt hk'
      omega

/-- What has been registered keeps the id that it was offered. -/
theorem candidate_of_register_le (h : r.candidate limit k = some i) (hle : (r.register limit k v).1 ≤ r') :
    r'.candidate limit k = some i := candidate_of_some (le_id? hle (id?_register h))

theorem size_register_le (h : r.size ≤ limit) : (r.register limit k v).1.size ≤ limit := by
  rcases register_cases limit r k v with heq | ⟨hk, hlt, heq⟩
  · rwa [heq]
  · rw [heq, size_push]
    exact hlt

/-- As long as there is room, each key has an id or is offered the next one. -/
theorem exists_candidate (h : r.size < limit) : ∃ i, r.candidate limit k = some i ∧ i ≤ r.size := by
  cases hk : r.id? k with
  | some i => exact ⟨i, candidate_of_some hk, (id?_lt hk).le⟩
  | none => exact ⟨r.size, (candidate_of_none hk).trans (if_pos h), le_rfl⟩

/-- A key that is offered an id later is offered none beyond it before. -/
theorem exists_candidate_le {j : Nat} (h : r ≤ r') (hb : r'.size ≤ limit) (hj : r'.candidate limit k = some j) :
    ∃ i ≤ j, r.candidate limit k = some i := by
  cases hi : r.candidate limit k with
  | none =>
    rw [candidate_eq_none_mono h hi hb] at hj
    cases hj
  | some i => exact ⟨i, candidate_mono h hi hj, rfl⟩

/-- While all keys with an id are in a set, each key of the set is offered an id below its size. -/
theorem exists_candidate_lt {S : Set κ} (hS : S.Finite) (h : r.keys ⊆ S) (hk : k ∈ S) (hlimit : S.ncard ≤ limit) :
    ∃ i < S.ncard, r.candidate limit k = some i := by
  cases hid : r.id? k with
  | some i => exact ⟨i, (id?_lt hid).trans_le (size_le_ncard hS h), candidate_of_some hid⟩
  | none =>
    have hlt := size_lt_ncard hS h hk hid
    refine ⟨r.size, hlt, ?_⟩
    rw [candidate_of_none hid, nextId, if_pos (hlt.trans_le hlimit)]

end Register

/-! ### Batches -/

section Batch
variable {nextId : Nat → Option Nat} {r r' : Interner κ ν} {k : κ} {v : ν} {i : Nat} {xs ys : List (κ × ν)}

theorem pushAll_cons (hk : r.id? k = none) (hid : nextId r.size = some i) :
    r.pushAll nextId ((k, v) :: xs) = (r.push k v hk).pushAll nextId xs := by
  rw [pushAll]
  split
  · rename_i j hj
    cases hk.symm.trans hj
  · rw [hid, Option.bind_some]

theorem of_pushAll_cons (h : r.pushAll nextId ((k, v) :: xs) = some r') :
    ∃ hk : r.id? k = none, (∃ i, nextId r.size = some i) ∧ (r.push k v hk).pushAll nextId xs = some r' := by
  rw [pushAll] at h
  split at h
  · cases h
  · rename_i hk
    rcases Option.bind_eq_some_iff.mp h with ⟨i, hi, h⟩
    exact ⟨hk, ⟨i, hi⟩, h⟩

theorem pushAll_append : r.pushAll nextId (xs ++ ys) = (r.pushAll nextId xs).bind fun r' => r'.pushAll nextId ys := by
  induction xs generalizing r with
  | nil => rfl
  | cons x xs ih =>
    rw [List.cons_append, pushAll, pushAll]
    split
    · rfl
    · simp only [ih, Option.bind_assoc]

theorem pushAll_snoc (h : r.pushAll nextId xs = some r') (hk : r'.id? k = none) (hid : nextId r'.size = some i) :
    r.pushAll nextId (xs ++ [(k, v)]) = some (r'.push k v hk) := by
  rw [pushAll_append, h, Option.bind_some, pushAll_cons hk hid, pushAll]

theorem entries_pushAll (h : r.pushAll nextId xs = some r') : r'.entries = r.entries ++ xs.map Prod.snd := by
  induction xs generalizing r with
  | nil =>
    cases h
    simp
  | cons x xs ih =>
    rcases of_pushAll_cons h with ⟨hk, -, h⟩
    rw [ih h]
    simp [push]

theorem size_pushAll (h : r.pushAll nextId xs = some r') : r'.size = r.size + xs.length := by
  rw [size, entries_pushAll h, List.length_append, List.length_map, size]

theorem le_pushAll (h : r.pushAll nextId xs = some r') : r ≤ r' := by
  induction xs generalizing r with
  | nil =>
    cases h
    exact le_rfl
  | cons x xs ih =>
    rcases of_pushAll_cons h with ⟨hk, -, h⟩
    exact (le_push hk).trans (ih h)

/-- The new values have the ids from the old size on. -/
theorem value?_pushAll (h : r.pushAll nextId xs = some r') (hi : r.size ≤ i) :
    r'.value? i = (xs[i - r.size]?).map Prod.snd := by
  rw [value?, entries_pushAll h, List.getElem?_append_right hi, List.getElem?_map, size]

end Batch

end Interner
