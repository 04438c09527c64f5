import Mathlib.Data.List.Basic
import Mathlib.Data.List.Destutter
import Mathlib.Data.List.Induction
import Mathlib.Data.List.Sort
import Mathlib.Data.Prod.Lex
import Mathlib.Order.Bounds.Basic
import Mathlib.Data.List.Nodup

/-! Lists reduced to one element for each key, of least weight. The elements are taken one after the other: the first of its
    key is appended, and a lighter one replaces the one that is there. -/

namespace LeastByKey
variable {ε κ ω : Type*} [LinearOrder ω] {key : ε → κ} {weight : ε → ω} {xs ys : List ε} {x y : ε} {i : Nat}

/-- The lighter element, `y` when both have the same weight. -/
def lower (weight : ε → ω) (x y : ε) : ε := if weight x < weight y then x else y

/-- `ys` has the keys of `xs`, each once, with elements of `xs` of least weight. -/
structure Reduces (key : ε → κ) (weight : ε → ω) (xs ys : List ε) : Prop where
  nodup : (ys.map key).Nodup
  sub : ∀ y ∈ ys, y ∈ xs
  least : ∀ x ∈ xs, ∃ y ∈ ys, key y = key x ∧ weight y ≤ weight x

theorem lower_cases (weight : ε → ω) (x y : ε) : (lower weight x y = x ∧ weight x < weight y) ∨ (lower weight x y = y ∧ weight y ≤ weight x) := by
  unfold lower
  split
  · exact Or.inl ⟨rfl, ‹_›⟩
  · exact Or.inr ⟨rfl, le_of_not_gt ‹_›⟩

theorem weight_lower_left : weight (lower weight x y) ≤ weight x := by
  rcases lower_cases weight x y with ⟨heq, -⟩ | ⟨heq, hle⟩
  · rw [heq]
  · rw [heq]
    exact hle

theorem weight_lower_right : weight (lower weight x y) ≤ weight y := by
  rcases lower_cases weight x y with ⟨heq, hlt⟩ | ⟨heq, -⟩
  · rw [heq]
    exact hlt.le
  · rw [heq]

theorem key_lower (hkey : key y = key x) : key (lower weight x y) = key x := by
  rcases lower_cases weight x y with ⟨heq, -⟩ | ⟨heq, -⟩
  · rw [heq]
  · rw [heq, hkey]

namespace Reduces

theorem nil : Reduces key weight [] [] := ⟨List.nodup_nil, nofun, nofun⟩

/-- An element of the result is the only one of its key. -/
theorem inj (h : Reduces key weight xs ys) (hx : x ∈ ys) (hy : y ∈ ys) (hkey : key x = key y) : x = y :=
  List.inj_on_of_nodup_map h.nodup hx hy hkey

theorem isLeast (h : Reduces key weight xs ys) (hy : y ∈ ys) : IsLeast {w | ∃ x ∈ xs, key x = key y ∧ weight x = w} (weight y) := by
  refine ⟨⟨y, h.sub y hy, rfl, rfl⟩, ?_⟩
  rintro w ⟨x, hx, hkey, rfl⟩
  obtain ⟨z, hz, hkey', hle⟩ := h.least x hx
  rw [h.inj hy hz (hkey'.trans hkey).symm]
  exact hle

theorem mem_keys_iff (h : Reduces key weight xs ys) {k : κ} : k ∈ ys.map key ↔ k ∈ xs.map key := by
  refine ⟨?_, ?_⟩
  · intro hk
    obtain ⟨y, hy, rfl⟩ := List.mem_map.mp hk
    exact List.mem_map_of_mem (h.sub y hy)
  · intro hk
    obtain ⟨x, hx, rfl⟩ := List.mem_map.mp hk
    obtain ⟨y, hy, hkey, -⟩ := h.least x hx
    exact hkey ▸ List.mem_map_of_mem hy

/-- The first element of its key is appended. -/
theorem push (h : Reduces key weight xs ys) (hnew : key x ∉ ys.map key) : Reduces key weight (xs ++ [x]) (ys ++ [x]) := by
  refine ⟨?_, ?_, ?_⟩
  · rw [List.map_append, List.map_singleton]
    exact List.nodup_append_comm.mp (List.nodup_cons.mpr ⟨hnew, h.nodup⟩)
  · intro y hy
    rcases List.mem_append.mp hy with hy | hy
    · exact List.mem_append_left _ (h.sub y hy)
    · exact List.mem_append_right _ hy
  · intro z hz
    rcases List.mem_append.mp hz with hz | hz
    · obtain ⟨y, hy, h⟩ := h.least z hz
      exact ⟨y, List.mem_append_left _ hy, h⟩
    · exact ⟨z, List.mem_append_right _ hz, rfl, le_rfl⟩

theorem map_key_lower (hi : ys[i]? = some y) (hkey : key y = key x) :
    (ys.modify i (lower weight x)).map key = ys.map key := by
  refine List.ext_getElem? ?_
  intro j
  rw [List.getElem?_map, List.getElem?_modify, List.getElem?_map]
  by_cases hij : i = j
  · subst hij
    rw [hi, Option.map_eq_map, Option.map_some, Option.map_some, Option.map_some, if_pos rfl, key_lower hkey, hkey]
  · simp [hij]

/-- Of two elements of one key, the lighter one stays. -/
theorem lower (h : Reduces key weight xs ys) (hi : ys[i]? = some y) (hkey : key y = key x) :
    Reduces key weight (xs ++ [x]) (ys.modify i (lower weight x)) := by
  have hget : ∀ j, (ys.modify i (LeastByKey.lower weight x))[j]? =
      (ys[j]?).map fun z => if i = j then LeastByKey.lower weight x z else z := fun j => List.getElem?_modify _ _ _ _
  have hat : LeastByKey.lower weight x y ∈ ys.modify i (LeastByKey.lower weight x) := by
    refine List.mem_of_getElem? (i := i) ?_
    rw [hget, hi, Option.map_some, if_pos rfl]
  refine ⟨?_, ?_, ?_⟩
  · rw [map_key_lower hi hkey]
    exact h.nodup
  · intro z hz
    obtain ⟨j, hj⟩ := List.getElem?_of_mem hz
    rw [hget] at hj
    obtain ⟨z₀, hz₀, rfl⟩ := Option.map_eq_some_iff.mp hj
    by_cases hij : i = j
    · rw [if_pos hij]
      rcases lower_cases weight x z₀ with ⟨heq, -⟩ | ⟨heq, -⟩
      · rw [heq]
        exact List.mem_append_right _ List.mem_cons_self
      · rw [heq]
        exact List.mem_append_left _ (h.sub _ (List.mem_of_getElem? hz₀))
    · rw [if_neg hij]
      exact List.mem_append_left _ (h.sub _ (List.mem_of_getElem? hz₀))
  · intro z hz
    rcases List.mem_append.mp hz with hz | hz
    · obtain ⟨w, hw, hkey', hle⟩ := h.least z hz
      obtain ⟨j, hj⟩ := List.getElem?_of_mem hw
      by_cases hij : i = j
      · subst hij
        cases hi.symm.trans hj
        exact ⟨_, hat, (key_lower hkey).trans (hkey.symm.trans hkey'), weight_lower_right.trans hle⟩
      · refine ⟨w, List.mem_of_getElem? (i := j) ?_, hkey', hle⟩
        rw [hget, hj, Option.map_some, if_neg hij]
    · rw [List.mem_singleton.mp hz]
      exact ⟨_, hat, key_lower hkey, weight_lower_left⟩

end Reduces

/-! ### Order -/

section Order
variable [BEq κ] [LawfulBEq κ] {l : List κ} {k : κ}

theorem eraseDups_snoc_of_mem (hk : k ∈ l) : (l ++ [k]).eraseDups = l.eraseDups := by
  simp [List.eraseDups_append, List.removeAll, hk]

theorem eraseDups_snoc_of_not_mem (hk : k ∉ l) : (l ++ [k]).eraseDups = l.eraseDups ++ [k] := by
  simp [List.eraseDups_append, List.removeAll, hk, List.eraseDups_cons]

theorem eraseDups_map {κ' : Type*} [BEq κ'] [LawfulBEq κ'] {f : κ → κ'} (hf : Function.Injective f) (l : List κ) :
    (l.map f).eraseDups = l.eraseDups.map f := by
  induction l using List.reverseRecOn with
  | nil => rfl
  | append_singleton l k ih =>
    rw [List.map_append, List.map_singleton]
    by_cases hk : k ∈ l
    · rw [eraseDups_snoc_of_mem (List.mem_map_of_mem hk), eraseDups_snoc_of_mem hk, ih]
    · rw [eraseDups_snoc_of_not_mem (fun h => hk ((List.mem_map_of_injective hf).mp h)), eraseDups_snoc_of_not_mem hk, ih,
        List.map_append, List.map_singleton]

/-- The keys stand in the order in which they occur first. -/
def InOrder (key : ε → κ) (xs ys : List ε) : Prop := ys.map key = (xs.map key).eraseDups

theorem InOrder.push (ho : InOrder key xs ys) (h : Reduces key weight xs ys) (hnew : key x ∉ ys.map key) :
    InOrder key (xs ++ [x]) (ys ++ [x]) := by
  rw [h.mem_keys_iff] at hnew
  rw [InOrder, List.map_append, List.map_append, List.map_singleton, eraseDups_snoc_of_not_mem hnew, ho]

theorem InOrder.lower (ho : InOrder key xs ys) (h : Reduces key weight xs ys) (hi : ys[i]? = some y) (hkey : key y = key x) :
    InOrder key (xs ++ [x]) (ys.modify i (lower weight x)) := by
  have hmem : key x ∈ xs.map key := by
    rw [← h.mem_keys_iff, ← hkey]
    exact List.mem_map_of_mem (List.mem_of_getElem? hi)
  rw [InOrder, Reduces.map_key_lower hi hkey, List.map_append, List.map_singleton, eraseDups_snoc_of_mem hmem, ho]

end Order

/-! ### Sorted lists -/

section Sorted
variable {κ : Type*} [LinearOrder κ] {key : ε → κ}

/-- Without repeated neighbours a sorted list grows strictly. -/
theorem sortedLT_destutter {l : List κ} (h : l.SortedLE) : (l.destutter (· ≠ ·)).SortedLT := by
  have hne := List.isChain_destutter (· ≠ ·) l
  have hle := (h.pairwise.sublist (List.destutter_sublist (· ≠ ·) l)).isChain
  rw [List.sortedLT_iff_isChain, List.isChain_iff_getElem]
  rw [List.isChain_iff_getElem] at hne hle
  exact fun i hi => lt_of_le_of_ne (hle i hi) (hne i hi)

/-- In a list that is sorted by key and then by weight, the first element of each run of a key is the lightest. -/
theorem reduces_destutter {R : ε → ε → Prop} [DecidableRel R] (hR : ∀ a b, R a b ↔ key a ≠ key b) {l : List ε}
    (hsorted : l.Pairwise fun a b => toLex (key a, weight a) ≤ toLex (key b, weight b)) :
    Reduces key weight l (l.destutter R) ∧ ((l.destutter R).map key).SortedLT := by
  have hkeys : ((l.destutter R).map key).SortedLT := by
    have hmap : (l.destutter R).map key = (l.map key).destutter (· ≠ ·) := List.map_destutter fun a _ b _ => hR a b
    rw [hmap]
    refine sortedLT_destutter (List.pairwise_map.mpr (hsorted.imp ?_)).sortedLE
    intro a b hab
    exact (Prod.Lex.toLex_le_toLex.mp hab).elim le_of_lt fun h => h.1.le
  refine ⟨⟨hkeys.nodup, (List.destutter_sublist R l).subset, ?_⟩, hkeys⟩
  -- The lightest of a run is carried along it.
  have hcons : ∀ (l : List ε) (a : ε), (a :: l).Pairwise (fun a b => toLex (key a, weight a) ≤ toLex (key b, weight b)) →
      ∀ x ∈ a :: l, ∃ y ∈ l.destutter' R a, key y = key x ∧ weight y ≤ weight x := by
    intro l
    induction l with
    | nil =>
      intro a _ x hx
      rw [List.mem_singleton.mp hx]
      exact ⟨a, List.mem_singleton_self a, rfl, le_rfl⟩
    | cons b l ih =>
      intro a hsorted x hx
      obtain ⟨ha, htail⟩ := List.pairwise_cons.mp hsorted
      rw [List.destutter'_cons]
      split
      · rcases List.mem_cons.mp hx with rfl | hx
        · exact ⟨x, List.mem_cons_self, rfl, le_rfl⟩
        · obtain ⟨y, hy, h⟩ := ih b htail x hx
          exact ⟨y, List.mem_cons_of_mem a hy, h⟩
      · rename_i hab
        have heq : key a = key b := not_not.mp ((hR a b).not.mp hab)
        have hle : weight a ≤ weight b := by
          rcases Prod.Lex.toLex_le_toLex.mp (ha b List.mem_cons_self) with hlt | ⟨-, hle⟩
          · exact absurd heq (ne_of_lt hlt)
          · exact hle
        have hrest : (a :: l).Pairwise fun a b => toLex (key a, weight a) ≤ toLex (key b, weight b) :=
          List.pairwise_cons.mpr ⟨fun c hc => ha c (List.mem_cons_of_mem b hc), htail.of_cons⟩
        rcases List.mem_cons.mp hx with rfl | hx
        · exact ih x hrest x List.mem_cons_self
        · rcases List.mem_cons.mp hx with rfl | hx
          · obtain ⟨y, hy, hkey, hle'⟩ := ih a hrest a List.mem_cons_self
            exact ⟨y, hy, hkey.trans heq, hle'.trans hle⟩
          · exact ih a hrest x (List.mem_cons_of_mem a hx)
  intro x hx
  cases l with
  | nil => cases hx
  | cons a l => exact hcons l a hsorted x hx

end Sorted

/-! ### Index maps -/

section Index
variable [BEq κ] {index : List (κ × Nat)}

/-- The map has the index of every key. -/
def Indexes (key : ε → κ) (index : List (κ × Nat)) (ys : List ε) : Prop :=
  ∀ k i, index.lookup k = some i ↔ ∃ y, ys[i]? = some y ∧ key y = k

theorem Indexes.nil : Indexes key ([] : List (κ × Nat)) [] := by
  intro k i
  simp

theorem Indexes.not_mem (h : Indexes key index ys) {k : κ} (hnone : index.lookup k = none) : k ∉ ys.map key := by
  intro hk
  obtain ⟨y, hy, hkey⟩ := List.mem_map.mp hk
  obtain ⟨i, hi⟩ := List.getElem?_of_mem hy
  cases hnone.symm.trans ((h k i).mpr ⟨y, hi, hkey⟩)

/-- Looking a key up is looking for the element that has it. -/
theorem Indexes.lookup_eq [DecidableEq κ] (h : Indexes key index ys) (k : κ) :
    index.lookup k = ys.findIdx? fun y => key y = k := by
  cases hfind : ys.findIdx? fun y => key y = k with
  | none =>
    refine Option.eq_none_iff_forall_ne_some.mpr ?_
    intro i hi
    obtain ⟨y, hy, hkey⟩ := (h k i).mp hi
    exact absurd hkey (of_decide_eq_false (List.findIdx?_eq_none_iff.mp hfind y (List.mem_of_getElem? hy)))
  | some i =>
    obtain ⟨hlt, hkey, -⟩ := List.findIdx?_eq_some_iff_getElem.mp hfind
    exact (h k i).mpr ⟨ys[i], List.getElem?_eq_getElem hlt, of_decide_eq_true hkey⟩

theorem Indexes.push [LawfulBEq κ] (h : Indexes key index ys) (hnone : index.lookup (key x) = none) :
    Indexes key ((key x, ys.length) :: index) (ys ++ [x]) := by
  intro k i
  rw [List.lookup_cons, List.getElem?_append]
  by_cases hk : k = key x
  · subst hk
    rw [beq_self_eq_true]
    refine ⟨?_, ?_⟩
    · intro hi
      cases hi
      exact ⟨x, by simp, rfl⟩
    · intro ⟨y, hy, hkey⟩
      split at hy
      · exact absurd (List.mem_map.mpr ⟨y, List.mem_of_getElem? hy, hkey⟩) (h.not_mem hnone)
      · rename_i hlt
        have hone := (List.getElem?_eq_some_iff.mp hy).1
        rw [List.length_singleton] at hone
        exact congrArg some (by omega)
  · rw [beq_false_of_ne hk]
    refine (h k i).trans ⟨?_, ?_⟩
    · intro ⟨y, hy, hkey⟩
      exact ⟨y, by rw [if_pos (List.getElem?_eq_some_iff.mp hy).1]; exact hy, hkey⟩
    · intro ⟨y, hy, hkey⟩
      split at hy
      · exact ⟨y, hy, hkey⟩
      · rw [List.mem_singleton.mp (List.mem_of_getElem? hy)] at hkey
        exact absurd hkey.symm hk

theorem Indexes.lower (h : Indexes key index ys) (hi : ys[i]? = some y) (hkey : key y = key x) :
    Indexes key index (ys.modify i (lower weight x)) := by
  intro k j
  have hmap := congrArg (fun l => l[j]?) (Reduces.map_key_lower hi hkey : (ys.modify i (LeastByKey.lower weight x)).map key = _)
  rw [h k j]
  simp only [List.getElem?_map] at hmap
  refine ⟨?_, ?_⟩
  · intro ⟨z, hz, hk⟩
    rw [hz] at hmap
    obtain ⟨z', hz', heq⟩ := Option.map_eq_some_iff.mp hmap
    exact ⟨z', hz', heq.trans hk⟩
  · intro ⟨z, hz, hk⟩
    rw [hz] at hmap
    obtain ⟨z', hz', heq⟩ := Option.map_eq_some_iff.mp hmap.symm
    exact ⟨z', hz', heq.trans hk⟩

end Index
end LeastByKey
