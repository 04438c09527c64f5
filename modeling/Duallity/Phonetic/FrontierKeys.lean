import Duallity.Lib.LeastByKey
import Duallity.Phonetic.Frontier
import Mathlib

/-! Canonical frontiers (`phonetic_state_support.rs`). Whatever function of the cost the bucket is, the canonical form is sorted
    by buckets and has the cheapest state of each, so it depends on the set of states alone, and its key on their buckets. -/

namespace Duallity
open LeastByKey

section Canonical
variable {costKey : ℚ → Int} {frontier frontier' : List ProductStateChar} {states states' : List NfaStateId} {a b : ProductStateChar}

/-! ### Sets of NFA states -/

theorem sortedLT_canonicalizeNfaStates (states : List NfaStateId) : (canonicalizeNfaStates states).SortedLT := by
  unfold canonicalizeNfaStates
  split
  · rename_i hchain
    exact hchain.sortedLT
  · exact sortedLT_destutter List.sortedLE_insertionSort

/-- The list of a set of NFA states is sorted, so it depends on the set. -/
theorem canonicalizeNfaStates_eq_iff : canonicalizeNfaStates states = canonicalizeNfaStates states' ↔
    {q | q ∈ states} = {q | q ∈ states'} := by
  constructor
  · intro heq
    ext q
    rw [Set.mem_ofPred_eq, Set.mem_ofPred_eq, ← mem_canonicalizeNfaStates, heq, mem_canonicalizeNfaStates]
  · intro hset
    refine (sortedLT_canonicalizeNfaStates states).eq_of_mem_iff (sortedLT_canonicalizeNfaStates states') ?_
    intro q
    rw [mem_canonicalizeNfaStates, mem_canonicalizeNfaStates]
    exact Set.ext_iff.mp hset q

theorem canonicalizeNfaStates_of_sorted (h : states.SortedLT) : canonicalizeNfaStates states = states := if_pos h.isChain

/-- A state with its NFA states in order. -/
def normalized (state : ProductStateChar) : ProductStateChar := { state with nfaStates := canonicalizeNfaStates state.nfaStates }

theorem canonicalizeProductFrontierBy_eq (costKey : ℚ → Int) (frontier : List ProductStateChar) :
    canonicalizeProductFrontierBy costKey frontier = if 1 < (frontier.map normalized).length then
      ((frontier.map normalized).insertionSort fun a b => frontierOrderBy costKey a ≤ frontierOrderBy costKey b).destutter
        fun a b => ¬productStatesShareKeyBy costKey b a
      else frontier.map normalized := rfl

/-! ### Sorting -/

/-- What states share that are merged. -/
def bucketKey (costKey : ℚ → Int) (state : ProductStateChar) : ℤ ×ₗ List NfaStateId :=
  toLex (costKey state.accumulatedCost, state.nfaStates)

theorem bucketKey_eq_iff : bucketKey costKey a = bucketKey costKey b ↔
    costKey a.accumulatedCost = costKey b.accumulatedCost ∧ a.nfaStates = b.nfaStates := by
  rw [bucketKey, bucketKey, toLex_inj, Prod.mk.injEq]

theorem frontierOrderBy_le_iff : frontierOrderBy costKey a ≤ frontierOrderBy costKey b ↔
    toLex (bucketKey costKey a, a.accumulatedCost) ≤ toLex (bucketKey costKey b, b.accumulatedCost) := by
  simp only [frontierOrderBy, bucketKey, Prod.Lex.toLex_le_toLex, Prod.Lex.toLex_lt_toLex, toLex_inj, Prod.mk.injEq]
  tauto

/-- The canonical form has the cheapest state of each bucket, in the order of the buckets. -/
theorem reduces_canonicalize (costKey : ℚ → Int) (frontier : List ProductStateChar) :
    Reduces (bucketKey costKey) ProductStateChar.accumulatedCost (frontier.map normalized) (canonicalizeProductFrontierBy costKey frontier) ∧
      ((canonicalizeProductFrontierBy costKey frontier).map (bucketKey costKey)).SortedLT := by
  rw [canonicalizeProductFrontierBy_eq]
  generalize frontier.map normalized = l
  split
  · have hsorted : (l.insertionSort fun a b => frontierOrderBy costKey a ≤ frontierOrderBy costKey b).Pairwise
        fun a b => frontierOrderBy costKey a ≤ frontierOrderBy costKey b := by
      have htotal : Std.Total fun a b => frontierOrderBy costKey a ≤ frontierOrderBy costKey b := ⟨fun a b => le_total _ _⟩
      have htrans : IsTrans _ fun a b => frontierOrderBy costKey a ≤ frontierOrderBy costKey b := ⟨fun a b c => le_trans⟩
      exact List.pairwise_insertionSort _ l
    have hdiffer : ∀ a b, ¬productStatesShareKeyBy costKey b a ↔ bucketKey costKey a ≠ bucketKey costKey b := by
      intro a b
      rw [productStatesShareKeyBy, ← bucketKey_eq_iff, eq_comm]
    obtain ⟨hreduces, hkeys⟩ := reduces_destutter hdiffer (hsorted.imp frontierOrderBy_le_iff.mp)
    refine ⟨⟨hreduces.nodup, ?_, ?_⟩, hkeys⟩
    · intro y hy
      exact (List.mem_insertionSort _).mp (hreduces.sub y hy)
    · intro x hx
      exact hreduces.least x ((List.mem_insertionSort _).mpr hx)
  · rename_i hlength
    cases l with
    | nil => exact ⟨.nil, List.Pairwise.nil.sortedLT⟩
    | cons a l =>
      cases l with
      | nil =>
        exact ⟨⟨List.nodup_singleton _, fun _ h => h, fun x hx => ⟨x, hx, rfl, le_rfl⟩⟩, (List.pairwise_singleton _ _).sortedLT⟩
      | cons b l => exact absurd (by simp) hlength

theorem sorted_of_mem_canonicalize (h : a ∈ canonicalizeProductFrontierBy costKey frontier) : a.nfaStates.SortedLT := by
  obtain ⟨state, _, rfl⟩ := List.mem_map.mp ((reduces_canonicalize costKey frontier).1.sub a h)
  exact sortedLT_canonicalizeNfaStates _

/-! ### Sets of states -/

/-- The states of a frontier, as sets of NFA states with costs. -/
def entries (frontier : List ProductStateChar) : Set (Set NfaStateId × ℚ) :=
  {e | ∃ state ∈ frontier, e = ({q | q ∈ state.nfaStates}, state.accumulatedCost)}

theorem normalized_eq_iff : normalized a = normalized b ↔
    ({q | q ∈ a.nfaStates}, a.accumulatedCost) = ({q | q ∈ b.nfaStates}, b.accumulatedCost) := by
  rw [normalized, normalized, ProductStateChar.mk.injEq, canonicalizeNfaStates_eq_iff, Prod.mk.injEq]

theorem mem_normalized (h : entries frontier = entries frontier') (ha : a ∈ frontier.map normalized) :
    a ∈ frontier'.map normalized := by
  obtain ⟨state, hstate, rfl⟩ := List.mem_map.mp ha
  have hmem : ({q | q ∈ state.nfaStates}, state.accumulatedCost) ∈ entries frontier' := h ▸ ⟨state, hstate, rfl⟩
  obtain ⟨state', hstate', heq⟩ := hmem
  rw [normalized_eq_iff.mpr heq]
  exact List.mem_map_of_mem hstate'

/-- The cheapest state of a bucket is the same in both canonical forms. -/
theorem mem_canonicalize (h : entries frontier = entries frontier') (ha : a ∈ canonicalizeProductFrontierBy costKey frontier) :
    a ∈ canonicalizeProductFrontierBy costKey frontier' := by
  obtain ⟨hreduces, -⟩ := reduces_canonicalize costKey frontier
  obtain ⟨hreduces', -⟩ := reduces_canonicalize costKey frontier'
  obtain ⟨b, hb, hkey, hle⟩ := hreduces'.least a (mem_normalized h (hreduces.sub a ha))
  obtain ⟨c, hc, hkey', hle'⟩ := hreduces.least b (mem_normalized h.symm (hreduces'.sub b hb))
  cases hreduces.inj hc ha (hkey'.trans hkey)
  have heq : a = b := by
    cases a
    cases b
    exact ProductStateChar.mk.injEq .. ▸ ⟨(bucketKey_eq_iff.mp hkey').2, le_antisymm hle' hle⟩
  exact heq ▸ hb

/-- The canonical form depends on the set of states alone, not on their order or on repetitions. -/
theorem canonicalize_eq_of_entries (h : entries frontier = entries frontier') :
    canonicalizeProductFrontierBy costKey frontier = canonicalizeProductFrontierBy costKey frontier' := by
  have hsorted : ∀ frontier, (canonicalizeProductFrontierBy costKey frontier).Pairwise
      fun a b => bucketKey costKey a < bucketKey costKey b :=
    fun frontier => List.pairwise_map.mp (reduces_canonicalize costKey frontier).2.pairwise
  have hperm : (canonicalizeProductFrontierBy costKey frontier).Perm (canonicalizeProductFrontierBy costKey frontier') := by
    refine (List.perm_ext_iff_of_nodup ?_ ?_).mpr fun a => ⟨mem_canonicalize h, mem_canonicalize h.symm⟩
    · exact (reduces_canonicalize costKey frontier).1.nodup.of_map _
    · exact (reduces_canonicalize costKey frontier').1.nodup.of_map _
  exact hperm.eq_of_pairwise (fun a b _ _ hab hba => absurd (hab.trans hba) (lt_irrefl _)) (hsorted _) (hsorted _)

theorem map_normalized_of_sorted (h : ∀ a ∈ frontier, a.nfaStates.SortedLT) : frontier.map normalized = frontier := by
  refine (List.map_congr_left ?_).trans (List.map_id frontier)
  intro a ha
  rw [normalized, canonicalizeNfaStates_of_sorted (h a ha)]
  rfl

/-- A canonical frontier is its own canonical form. -/
theorem canonicalize_idem : canonicalizeProductFrontierBy costKey (canonicalizeProductFrontierBy costKey frontier) =
    canonicalizeProductFrontierBy costKey frontier := by
  have hnormalized := map_normalized_of_sorted fun a (ha : a ∈ canonicalizeProductFrontierBy costKey frontier) =>
    sorted_of_mem_canonicalize ha
  have hkeys := List.pairwise_map.mp (reduces_canonicalize costKey frontier).2.pairwise
  generalize canonicalizeProductFrontierBy costKey frontier = l at hnormalized hkeys
  rw [canonicalizeProductFrontierBy_eq, hnormalized]
  split
  · have hsorted : l.Pairwise fun a b => frontierOrderBy costKey a ≤ frontierOrderBy costKey b := by
      refine hkeys.imp ?_
      intro a b hlt
      exact frontierOrderBy_le_iff.mpr (Prod.Lex.toLex_le_toLex.mpr (Or.inl hlt))
    have hchain : l.IsChain fun a b => ¬productStatesShareKeyBy costKey b a := by
      refine (hkeys.imp ?_).isChain
      intro a b hlt hshare
      exact absurd (bucketKey_eq_iff.mpr hshare) (ne_of_gt hlt)
    rw [hsorted.insertionSort_eq, List.destutter_of_isChain _ _ hchain]
  · rfl

/-! ### Keys -/

/-- What is prepared is the canonical form and its key. -/
theorem prepareStateBy_eq_some {prepared : List ProductStateChar} {key : List Nat} :
    ProductStateRegistry.prepareStateBy costKey frontier = some (prepared, key) ↔
      prepared = canonicalizeProductFrontierBy costKey frontier ∧ canonicalProductFrontierToKeyBy costKey prepared = some key := by
  rw [ProductStateRegistry.prepareStateBy, Option.map_eq_some_iff]
  constructor
  · rintro ⟨_, hkey, heq⟩
    cases heq
    exact ⟨rfl, hkey⟩
  · rintro ⟨rfl, hkey⟩
    exact ⟨key, hkey, rfl⟩

theorem length_canonicalizeNfaStates (states : List NfaStateId) : (canonicalizeNfaStates states).length = {q | q ∈ states}.ncard := by
  have hset : {q | q ∈ states} = ↑(canonicalizeNfaStates states).toFinset := by
    ext q
    rw [Set.mem_ofPred_eq, Finset.mem_coe, List.mem_toFinset, mem_canonicalizeNfaStates]
  rw [hset, Set.ncard_coe_finset, List.toFinset_card_of_nodup (sortedLT_canonicalizeNfaStates states).nodup]

/-- Every set of NFA states of a frontier is one of the canonical form's, and the other way round. -/
theorem forall_length_canonicalize {limit : Nat} : (∀ a ∈ canonicalizeProductFrontierBy costKey frontier, a.nfaStates.length ≤ limit) ↔
    ∀ a ∈ frontier, {q | q ∈ a.nfaStates}.ncard ≤ limit := by
  obtain ⟨hreduces, -⟩ := reduces_canonicalize costKey frontier
  constructor
  · intro h a ha
    obtain ⟨b, hb, hkey, -⟩ := hreduces.least _ (List.mem_map_of_mem ha)
    have hstates : b.nfaStates = canonicalizeNfaStates a.nfaStates := (bucketKey_eq_iff.mp hkey).2
    rw [← length_canonicalizeNfaStates, ← hstates]
    exact h b hb
  · intro h a ha
    obtain ⟨state, hstate, rfl⟩ := List.mem_map.mp (hreduces.sub a ha)
    rw [normalized, length_canonicalizeNfaStates]
    exact h state hstate

/-- A frontier has a key exactly when the number of each of its NFA state sets fits `u32`. -/
theorem exists_prepareStateBy_iff : (∃ prepared key, ProductStateRegistry.prepareStateBy costKey frontier = some (prepared, key)) ↔
    ∀ a ∈ frontier, {q | q ∈ a.nfaStates}.ncard ≤ u32Max := by
  simp only [prepareStateBy_eq_some, exists_and_left, exists_eq_left]
  rw [exists_key_iff, forall_length_canonicalize]

/-- Canonical forms with the same buckets have the same states, up to their costs. -/
theorem map_keyEntry_canonicalize (h : bucketsBy costKey frontier = bucketsBy costKey frontier') :
    (canonicalizeProductFrontierBy costKey frontier).map (keyEntry costKey) =
      (canonicalizeProductFrontierBy costKey frontier').map (keyEntry costKey) := by
  have hkeys : ∀ frontier, (canonicalizeProductFrontierBy costKey frontier).map (keyEntry costKey) =
      ((canonicalizeProductFrontierBy costKey frontier).map (bucketKey costKey)).map fun k => ((ofLex k).2, (ofLex k).1) := by
    intro frontier
    rw [List.map_map]
    rfl
  have hmem : ∀ {frontier frontier'}, bucketsBy costKey frontier = bucketsBy costKey frontier' →
      ∀ k ∈ (canonicalizeProductFrontierBy costKey frontier).map (bucketKey costKey),
        k ∈ (canonicalizeProductFrontierBy costKey frontier').map (bucketKey costKey) := by
    intro frontier frontier' h k hk
    obtain ⟨a, ha, rfl⟩ := List.mem_map.mp hk
    have hbucket : ({q | q ∈ a.nfaStates}, costKey a.accumulatedCost) ∈
        bucketsBy costKey (canonicalizeProductFrontierBy costKey frontier') := by
      rw [buckets_canonicalize, ← h, ← buckets_canonicalize]
      exact ⟨a, ha, rfl⟩
    obtain ⟨b, hb, heq⟩ := hbucket
    obtain ⟨hstates, hcost⟩ := Prod.mk.inj heq
    rw [← canonicalizeNfaStates_eq_iff, canonicalizeNfaStates_of_sorted (sorted_of_mem_canonicalize ha),
      canonicalizeNfaStates_of_sorted (sorted_of_mem_canonicalize hb)] at hstates
    rw [bucketKey_eq_iff.mpr ⟨hcost, hstates⟩]
    exact List.mem_map_of_mem hb
  rw [hkeys, hkeys, (reduces_canonicalize costKey frontier).2.eq_of_mem_iff (reduces_canonicalize costKey frontier').2
    fun k => ⟨hmem h k, hmem h.symm k⟩]

/-- The key is made of the entries alone. -/
theorem key_eq_of_entries (h : frontier.map (keyEntry costKey) = frontier'.map (keyEntry costKey)) :
    canonicalProductFrontierToKeyBy costKey frontier = canonicalProductFrontierToKeyBy costKey frontier' := by
  have hfold : ∀ frontier, canonicalProductFrontierToKeyBy costKey frontier =
      (frontier.map (keyEntry costKey)).foldlM (fun bytes entry => appendProductStateKeyParts bytes entry.1 entry.2) [] := by
    intro frontier
    rw [List.foldlM_map]
    rfl
  rw [hfold, hfold, h]

theorem prepareStateBy_snd (frontier : List ProductStateChar) : (ProductStateRegistry.prepareStateBy costKey frontier).map Prod.snd =
    canonicalProductFrontierToKeyBy costKey (canonicalizeProductFrontierBy costKey frontier) := by
  rw [ProductStateRegistry.prepareStateBy, Option.map_map]
  exact Option.map_id'

theorem key_of_buckets (h : bucketsBy costKey frontier = bucketsBy costKey frontier') :
    (ProductStateRegistry.prepareStateBy costKey frontier).map Prod.snd =
      (ProductStateRegistry.prepareStateBy costKey frontier').map Prod.snd := by
  rw [prepareStateBy_snd, prepareStateBy_snd]
  exact key_eq_of_entries (map_keyEntry_canonicalize h)

/-- The state that is kept for a bucket is the cheapest one. -/
theorem isLeast_canonicalize (ha : a ∈ canonicalizeProductFrontierBy costKey frontier) :
    IsLeast {c | ∃ b ∈ frontier, {q | q ∈ b.nfaStates} = {q | q ∈ a.nfaStates} ∧
      costKey b.accumulatedCost = costKey a.accumulatedCost ∧ b.accumulatedCost = c} a.accumulatedCost := by
  have hleast := (reduces_canonicalize costKey frontier).1.isLeast ha
  have hset : {c | ∃ b ∈ frontier, {q | q ∈ b.nfaStates} = {q | q ∈ a.nfaStates} ∧
      costKey b.accumulatedCost = costKey a.accumulatedCost ∧ b.accumulatedCost = c} =
      {c | ∃ b ∈ frontier.map normalized, bucketKey costKey b = bucketKey costKey a ∧ b.accumulatedCost = c} := by
    ext c
    have hstates : ∀ b : ProductStateChar, {q | q ∈ b.nfaStates} = {q | q ∈ a.nfaStates} ↔ (normalized b).nfaStates = a.nfaStates := by
      intro b
      rw [← canonicalizeNfaStates_eq_iff, canonicalizeNfaStates_of_sorted (sorted_of_mem_canonicalize ha)]
      rfl
    simp only [Set.mem_ofPred_eq, List.mem_map, exists_exists_and_eq_and, bucketKey_eq_iff, hstates, normalized]
    refine exists_congr fun b => and_congr_right fun _ => ?_
    tauto
  rw [hset]
  exact hleast

/-- A bucket has one state in the canonical form. -/
theorem existsUnique_canonicalize {bucket : Set NfaStateId × ℤ} (h : bucket ∈ bucketsBy costKey frontier) :
    ∃! a, a ∈ canonicalizeProductFrontierBy costKey frontier ∧
      bucket = ({q | q ∈ a.nfaStates}, costKey a.accumulatedCost) := by
  rw [← buckets_canonicalize] at h
  obtain ⟨a, ha, rfl⟩ := h
  refine ⟨a, ⟨ha, rfl⟩, ?_⟩
  intro b ⟨hb, heq⟩
  obtain ⟨hstates, hcost⟩ := Prod.mk.inj heq
  rw [← canonicalizeNfaStates_eq_iff, canonicalizeNfaStates_of_sorted (sorted_of_mem_canonicalize ha),
    canonicalizeNfaStates_of_sorted (sorted_of_mem_canonicalize hb)] at hstates
  exact (reduces_canonicalize costKey frontier).1.inj hb ha (bucketKey_eq_iff.mpr ⟨hcost.symm, hstates.symm⟩)

/-- Keys identify frontiers: whatever the buckets of the costs are, a frontier has a key exactly when the sizes of its sets of NFA
    states fit `u32`, what is stored under it is the canonical form, and frontiers have the same key exactly when they have the same
    sets of NFA states with buckets. Canonical forms do not change again and do not depend on order or repetition, and have the
    cheapest state of each bucket. -/
theorem frontier_keys (costKey : ℚ → Int) (hrange : ∀ c, i64Min ≤ costKey c ∧ costKey c ≤ i64Max) :
    (∀ frontier, (∃ prepared key, ProductStateRegistry.prepareStateBy costKey frontier = some (prepared, key)) ↔
      ∀ a ∈ frontier, {q | q ∈ a.nfaStates}.ncard ≤ u32Max) ∧
    (∀ frontier prepared key, ProductStateRegistry.prepareStateBy costKey frontier = some (prepared, key) →
      prepared = canonicalizeProductFrontierBy costKey frontier) ∧
    (∀ frontier frontier' prepared prepared' key key',
      ProductStateRegistry.prepareStateBy costKey frontier = some (prepared, key) →
      ProductStateRegistry.prepareStateBy costKey frontier' = some (prepared', key') →
      (key = key' ↔ bucketsBy costKey frontier = bucketsBy costKey frontier')) ∧
    (∀ frontier frontier', bucketsBy costKey frontier = bucketsBy costKey frontier' →
      (ProductStateRegistry.prepareStateBy costKey frontier).map Prod.snd =
        (ProductStateRegistry.prepareStateBy costKey frontier').map Prod.snd) ∧
    (∀ frontier, canonicalizeProductFrontierBy costKey (canonicalizeProductFrontierBy costKey frontier) =
      canonicalizeProductFrontierBy costKey frontier) ∧
    (∀ frontier frontier', entries frontier = entries frontier' →
      canonicalizeProductFrontierBy costKey frontier = canonicalizeProductFrontierBy costKey frontier') ∧
    ∀ frontier, (∀ a ∈ canonicalizeProductFrontierBy costKey frontier,
        IsLeast {c | ∃ b ∈ frontier, {q | q ∈ b.nfaStates} = {q | q ∈ a.nfaStates} ∧
          costKey b.accumulatedCost = costKey a.accumulatedCost ∧ b.accumulatedCost = c} a.accumulatedCost) ∧
      ∀ bucket ∈ bucketsBy costKey frontier, ∃! a, a ∈ canonicalizeProductFrontierBy costKey frontier ∧
        bucket = ({q | q ∈ a.nfaStates}, costKey a.accumulatedCost) := by
  refine ⟨fun _ => exists_prepareStateBy_iff, fun _ _ _ h => (prepareStateBy_eq_some.mp h).1, ?_, fun _ _ => key_of_buckets,
    fun _ => canonicalize_idem, fun _ _ => canonicalize_eq_of_entries, ?_⟩
  · intro frontier frontier' prepared prepared' key key' h h'
    constructor
    · rintro rfl
      obtain ⟨hbuckets, hkey⟩ := bucketsBy_of_prepareStateBy h
      obtain ⟨hbuckets', hkey'⟩ := bucketsBy_of_prepareStateBy h'
      exact hbuckets.symm.trans ((bucketsBy_of_key hrange hkey hkey').trans hbuckets')
    · intro hbuckets
      have heq := key_of_buckets hbuckets
      rw [h, h'] at heq
      exact Option.some.inj heq
  · exact fun frontier => ⟨fun a => isLeast_canonicalize, fun bucket => existsUnique_canonicalize⟩

/-- Two costs of one bucket, and a cost of another one. -/
theorem frontier_keys_order : ∃ key,
    ProductStateRegistry.prepareStateBy productCostKey [⟨[2, 1, 2], 1 / 5000000⟩, ⟨[1, 2], 0⟩] = some ([⟨[1, 2], 0⟩], key) ∧
      ProductStateRegistry.prepareStateBy productCostKey [⟨[1, 2], 0⟩] = some ([⟨[1, 2], 0⟩], key) ∧
      ∀ prepared, ProductStateRegistry.prepareStateBy productCostKey [⟨[1, 2], 1⟩] ≠ some (prepared, key) := by
  obtain ⟨hexists, hcanonical, hiff, -⟩ := frontier_keys productCostKey fun _ => productCostKey_range
  have hsize : {q : NfaStateId | q = 1 ∨ q = 2}.ncard ≤ u32Max :=
    (Set.ncard_insert_le 1 {2}).trans (by rw [Set.ncard_singleton]; decide)
  have hset : {q : NfaStateId | q = 2 ∨ q = 1 ∨ q = 2} = {q | q = 1 ∨ q = 2} := by
    ext q
    simp [or_left_comm]
  have hzero : productCostKey 5000000⁻¹ = productCostKey 0 := by decide +kernel
  have hone : productCostKey 1 ≠ productCostKey 0 := by decide +kernel
  obtain ⟨prepared, key, h⟩ := (hexists [⟨[2, 1, 2], 1 / 5000000⟩, ⟨[1, 2], 0⟩]).mpr (by simpa [hset] using hsize)
  obtain ⟨prepared', key', h'⟩ := (hexists [⟨[1, 2], 0⟩]).mpr (by simpa using hsize)
  have hkey : key = key' := (hiff _ _ _ _ _ _ h h').mpr (by simp [bucketsBy, hset, hzero])
  cases (hcanonical _ _ _ h).trans (by decide +kernel : _ = [⟨[1, 2], 0⟩])
  cases (hcanonical _ _ _ h').trans (by decide +kernel : _ = [⟨[1, 2], 0⟩])
  refine ⟨key, h, hkey ▸ h', ?_⟩
  intro prepared'' h''
  have hbuckets := (hiff _ _ _ _ _ _ h'' (hkey ▸ h')).mp rfl
  have hmem : ({q : NfaStateId | q ∈ [1, 2]}, productCostKey 1) ∈ bucketsBy productCostKey [⟨[1, 2], 0⟩] :=
    hbuckets ▸ ⟨⟨[1, 2], 1⟩, List.mem_singleton_self _, rfl⟩
  obtain ⟨state, hstate, heq⟩ := hmem
  cases List.mem_singleton.mp hstate
  exact hone (Prod.mk.inj heq).2

end Canonical
end Duallity
