import Mathlib.Data.List.Destutter
import Mathlib.Data.List.Lex
import Mathlib.Data.List.Sort
import Mathlib.Data.Prod.Lex
import Mathlib.Data.Rat.Floor
import Duallity.Lib.Interner
import Duallity.Lib.LittleEndian
import Duallity.StateEncoding

/-! Frontiers of the phonetic product automaton and the byte keys that they are interned under (`phonetic_state_support.rs`). -/

namespace Duallity

abbrev NfaStateId := Fin u32Count

instance : NeZero u32Count := ⟨by decide⟩

/-- The NFA states of a product state and what it has cost. -/
structure ProductStateChar where
  nfaStates : List NfaStateId
  accumulatedCost : ℚ
deriving DecidableEq, Repr

def nextPhoneticRegistryId (len : Nat) : Option Nat := if len ≤ u32Max then some len else none

def estimatedPhoneticProductStates (maxDistance : Nat) : Nat :=
  max (saturatingMul u32Max (saturatingAdd u32Max maxDistance 1) 1000) 10000

/-! ### Keys -/

def i64Max : Int := 9223372036854775807

def i64Min : Int := -9223372036854775808

def productCostKeyScale : ℚ := 1000000

/-- `f64::round`, which rounds halves away from zero. -/
def roundAway (x : ℚ) : Int := if 0 ≤ x then ⌊x + 1 / 2⌋ else -⌊-x + 1 / 2⌋

def productCostKey (cost : ℚ) : Int :=
  let scaled := roundAway (cost * productCostKeyScale)
  if 9223372036854775808 ≤ scaled then i64Max else if scaled ≤ -9223372036854775808 then i64Min else scaled

/-- `i64::to_le_bytes`. -/
def i64LeBytes (z : Int) : List Nat := leBytes 8 (z % 18446744073709551616).toNat

def appendProductStateKeyParts (bytes : List Nat) (nfaStates : List NfaStateId) (costKey : Int) : Option (List Nat) :=
  (nextPhoneticRegistryId nfaStates.length).map fun nfaStateCount =>
    bytes ++ leBytes 4 nfaStateCount ++ nfaStates.flatMap (fun s => leBytes 4 s.val) ++ i64LeBytes costKey

/-- `canonical_product_frontier_to_key`, with costs bucketed by `costKey`. -/
def canonicalProductFrontierToKeyBy (costKey : ℚ → Int) (frontier : List ProductStateChar) : Option (List Nat) :=
  frontier.foldlM (fun bytes state => appendProductStateKeyParts bytes state.nfaStates (costKey state.accumulatedCost)) []

def canonicalProductFrontierToKey (frontier : List ProductStateChar) : Option (List Nat) :=
  canonicalProductFrontierToKeyBy productCostKey frontier

/-! ### Canonical frontiers -/

def canonicalizeNfaStates (states : List NfaStateId) : List NfaStateId :=
  if states.IsChain (· < ·) then states else (states.insertionSort (· ≤ ·)).destutter (· ≠ ·)

section Bucketed
variable (costKey : ℚ → Int)

/-- What frontiers are sorted by: the cost key, the NFA states, the cost. -/
def frontierOrderBy (state : ProductStateChar) : ℤ ×ₗ (List NfaStateId ×ₗ ℚ) :=
  toLex (costKey state.accumulatedCost, toLex (state.nfaStates, state.accumulatedCost))

def productStatesShareKeyBy (left right : ProductStateChar) : Prop :=
  costKey left.accumulatedCost = costKey right.accumulatedCost ∧ left.nfaStates = right.nfaStates

instance : DecidableRel (productStatesShareKeyBy costKey) := fun _ _ => inferInstanceAs (Decidable (_ ∧ _))

/-- `canonicalize_product_frontier`, with costs bucketed by `costKey`. -/
def canonicalizeProductFrontierBy (frontier : List ProductStateChar) : List ProductStateChar :=
  let frontier := frontier.map fun state => { state with nfaStates := canonicalizeNfaStates state.nfaStates }
  if 1 < frontier.length then
    (frontier.insertionSort fun a b => frontierOrderBy costKey a ≤ frontierOrderBy costKey b).destutter
      fun a b => ¬productStatesShareKeyBy costKey b a
  else frontier

end Bucketed

def canonicalizeProductFrontier (frontier : List ProductStateChar) : List ProductStateChar :=
  canonicalizeProductFrontierBy productCostKey frontier

/-! ### Registry -/

abbrev ProductStateRegistry := Interner (List Nat) (List ProductStateChar)

namespace ProductStateRegistry

/-- `prepare_state`, with costs bucketed by `costKey`. -/
def prepareStateBy (costKey : ℚ → Int) (frontier : List ProductStateChar) : Option (List ProductStateChar × List Nat) :=
  let frontier := canonicalizeProductFrontierBy costKey frontier
  (canonicalProductFrontierToKeyBy costKey frontier).map fun key => (frontier, key)

def prepareState (frontier : List ProductStateChar) : Option (List ProductStateChar × List Nat) :=
  prepareStateBy productCostKey frontier

def registerPreparedStateWithKey (r : ProductStateRegistry) (frontier : List ProductStateChar) (key : List Nat) :
    ProductStateRegistry × Option Nat := r.register u32Count key frontier

def registerState (r : ProductStateRegistry) (frontier : List ProductStateChar) : ProductStateRegistry × Option Nat :=
  match prepareState frontier with
  | none => (r, none)
  | some (frontier, key) => r.registerPreparedStateWithKey frontier key

def new (initialFrontier : List ProductStateChar) : ProductStateRegistry := (registerState .empty initialFrontier).1

def candidateStateIdForKey (r : ProductStateRegistry) (key : List Nat) : Option Nat := r.candidate u32Count key

def getState (r : ProductStateRegistry) (id : Nat) : Option (List ProductStateChar) := r.value? id

theorem new_cases (initialFrontier : List ProductStateChar) : prepareState initialFrontier = none ∧ new initialFrontier = .empty ∨
    ∃ prepared key, prepareState initialFrontier = some (prepared, key) ∧
      new initialFrontier = Interner.push .empty key prepared Interner.id?_empty := by
  unfold new registerState
  cases h : prepareState initialFrontier with
  | none => exact .inl ⟨rfl, rfl⟩
  | some prepared =>
    refine .inr ⟨prepared.1, prepared.2, rfl, ?_⟩
    dsimp only
    rw [registerPreparedStateWithKey, Interner.register_of_none Interner.id?_empty,
      if_pos (by rw [Interner.size_empty]; decide)]

end ProductStateRegistry

/-! ### Buckets -/

/-- The states of a frontier with their cost buckets. -/
def bucketsBy (costKey : ℚ → Int) (frontier : List ProductStateChar) : Set (Set NfaStateId × ℤ) :=
  {b | ∃ state ∈ frontier, b = ({q | q ∈ state.nfaStates}, costKey state.accumulatedCost)}

def buckets (frontier : List ProductStateChar) : Set (Set NfaStateId × ℤ) := bucketsBy productCostKey frontier

section Buckets
variable {α β : Type*} {costKey : ℚ → Int} {frontier frontier' : List ProductStateChar} {key : List Nat}

/-- Of neighbours with the same key one is kept. -/
theorem mem_map_destutter [DecidableEq β] (k : α → β) {R : α → α → Prop} [DecidableRel R] (hR : ∀ a b, R a b ↔ k a ≠ k b) {l : List α} {x : β} :
    x ∈ (l.destutter R).map k ↔ x ∈ l.map k := by
  have hcons : ∀ (l : List α) (a : α), x ∈ (l.destutter' R a).map k ↔ x = k a ∨ x ∈ l.map k := by
    intro l
    induction l with
    | nil =>
      intro a
      simp
    | cons b l ih =>
      intro a
      rw [List.destutter'_cons]
      split
      · rw [List.map_cons, List.mem_cons, ih, List.map_cons, List.mem_cons]
      · rename_i hab
        have heq : k a = k b := not_not.mp ((hR a b).not.mp hab)
        rw [ih, List.map_cons, List.mem_cons, heq, or_self_left]
  cases l with
  | nil => rfl
  | cons a l =>
    rw [List.destutter_cons', hcons, List.map_cons, List.mem_cons]

theorem mem_canonicalizeNfaStates {states : List NfaStateId} {q : NfaStateId} : q ∈ canonicalizeNfaStates states ↔ q ∈ states := by
  unfold canonicalizeNfaStates
  split
  · exact Iff.rfl
  · have hmem := mem_map_destutter id (R := (· ≠ ·)) (fun _ _ => Iff.rfl) (l := states.insertionSort (· ≤ ·)) (x := q)
    rw [List.map_id, List.map_id] at hmem
    exact hmem.trans (List.mem_insertionSort _)

/-- What the key of a product state is made of. -/
def keyEntry (costKey : ℚ → Int) (state : ProductStateChar) : List NfaStateId × ℤ := (state.nfaStates, costKey state.accumulatedCost)

theorem buckets_eq_of_entries (h : ∀ x, x ∈ frontier.map (keyEntry costKey) ↔ x ∈ frontier'.map (keyEntry costKey)) :
    bucketsBy costKey frontier = bucketsBy costKey frontier' := by
  have hentries : ∀ frontier : List ProductStateChar,
      bucketsBy costKey frontier = {b | ∃ x ∈ frontier.map (keyEntry costKey), b = ({q | q ∈ x.1}, x.2)} := by
    intro frontier
    ext b
    simp [bucketsBy, keyEntry]
  rw [hentries, hentries]
  simp only [h]

/-- A frontier and its canonical form have the same buckets. -/
theorem buckets_canonicalize : bucketsBy costKey (canonicalizeProductFrontierBy costKey frontier) = bucketsBy costKey frontier := by
  have hstates : bucketsBy costKey (frontier.map fun state => { state with nfaStates := canonicalizeNfaStates state.nfaStates }) =
      bucketsBy costKey frontier := by
    ext b
    simp [bucketsBy, mem_canonicalizeNfaStates]
  refine Eq.trans ?_ hstates
  unfold canonicalizeProductFrontierBy
  dsimp only
  split
  · refine buckets_eq_of_entries fun x => ?_
    rw [mem_map_destutter (keyEntry costKey)]
    · simp only [List.mem_map, List.mem_insertionSort]
    · intro a b
      simp [productStatesShareKeyBy, keyEntry, eq_comm, and_comm]
  · rfl

theorem buckets_eq_empty : buckets frontier = ∅ ↔ frontier = [] := by
  constructor
  · intro h
    by_contra hne
    obtain ⟨state, hstate⟩ := List.exists_mem_of_ne_nil _ hne
    exact Set.notMem_empty _ (h ▸ ⟨state, hstate, rfl⟩ : ({q | q ∈ state.nfaStates}, productCostKey state.accumulatedCost) ∈ (∅ : Set _))
  · rintro rfl
    simp [buckets, bucketsBy]

/-! ### Injectivity of keys -/

def encodeEntry (costKey : ℚ → Int) (state : ProductStateChar) : List Nat :=
  leBytes 4 state.nfaStates.length ++ state.nfaStates.flatMap (fun s => leBytes 4 s.val) ++ i64LeBytes (costKey state.accumulatedCost)

theorem productCostKey_range {cost : ℚ} : i64Min ≤ productCostKey cost ∧ productCostKey cost ≤ i64Max := by
  unfold productCostKey
  dsimp only
  split
  · exact ⟨by decide, le_rfl⟩
  · split
    · exact ⟨le_rfl, by decide⟩
    · unfold i64Min i64Max
      omega

theorem i64LeBytes_injective {z z' : Int} (hz : i64Min ≤ z ∧ z ≤ i64Max) (hz' : i64Min ≤ z' ∧ z' ≤ i64Max)
    (h : i64LeBytes z = i64LeBytes z') : z = z' := by
  unfold i64Min i64Max at hz hz'
  have hmod := LittleEndian.leBytes_injective (by omega) (by omega) h
  omega

/-- A key is the encodings of the states in turn, whose numbers of NFA states fit `u32`. -/
theorem key_eq (h : canonicalProductFrontierToKeyBy costKey frontier = some key) :
    key = frontier.flatMap (encodeEntry costKey) ∧ ∀ state ∈ frontier, state.nfaStates.length ≤ u32Max := by
  suffices hfold : ∀ bytes, frontier.foldlM (fun bytes state =>
      appendProductStateKeyParts bytes state.nfaStates (costKey state.accumulatedCost)) bytes = some key →
      key = bytes ++ frontier.flatMap (encodeEntry costKey) ∧ ∀ state ∈ frontier, state.nfaStates.length ≤ u32Max from hfold [] h
  clear h
  induction frontier with
  | nil =>
    intro bytes h
    cases h
    exact ⟨by simp, nofun⟩
  | cons state frontier ih =>
    intro bytes h
    rw [List.foldlM_cons] at h
    obtain ⟨bytes', hbytes, h⟩ := Option.bind_eq_some_iff.mp h
    obtain ⟨count, hcount, rfl⟩ := Option.map_eq_some_iff.mp hbytes
    obtain ⟨hle, hcount⟩ := Option.ite_none_right_eq_some.mp hcount
    cases hcount
    obtain ⟨rfl, hrest⟩ := ih _ h
    exact ⟨by simp [encodeEntry], List.forall_mem_cons.mpr ⟨hle, hrest⟩⟩

/-- A frontier has a key exactly when the numbers of NFA states fit `u32`. -/
theorem exists_key_iff : (∃ key, canonicalProductFrontierToKeyBy costKey frontier = some key) ↔
    ∀ state ∈ frontier, state.nfaStates.length ≤ u32Max := by
  constructor
  · rintro ⟨key, hkey⟩
    exact (key_eq hkey).2
  · intro h
    suffices hfold : ∀ bytes, ∃ key, frontier.foldlM (fun bytes state =>
        appendProductStateKeyParts bytes state.nfaStates (costKey state.accumulatedCost)) bytes = some key from hfold []
    induction frontier with
    | nil => exact fun bytes => ⟨bytes, rfl⟩
    | cons state frontier ih =>
      intro bytes
      obtain ⟨hstate, hrest⟩ := List.forall_mem_cons.mp h
      obtain ⟨key, hkey⟩ := ih hrest _
      refine ⟨key, ?_⟩
      rw [List.foldlM_cons, appendProductStateKeyParts, nextPhoneticRegistryId, if_pos hstate]
      exact hkey

theorem encodeEntry_injective (hrange : ∀ c, i64Min ≤ costKey c ∧ costKey c ≤ i64Max) {state state' : ProductStateChar}
    {rest rest' : List Nat} (hle : state.nfaStates.length ≤ u32Max) (hle' : state'.nfaStates.length ≤ u32Max)
    (h : encodeEntry costKey state ++ rest = encodeEntry costKey state' ++ rest') :
    keyEntry costKey state = keyEntry costKey state' ∧ rest = rest' := by
  have hwidth : u32Max < 256 ^ 4 := by decide
  have hlen : ∀ states : List NfaStateId, (states.flatMap fun s => leBytes 4 s.val).length = states.length * 4 := by
    intro states
    simp [List.length_flatMap, List.map_const', List.sum_replicate]
  have hflat : ∀ states : List NfaStateId, (states.flatMap fun s => leBytes 4 s.val) = (states.map Fin.val).flatMap (leBytes 4) :=
    fun states => (List.flatMap_map _ _ states).symm
  simp only [encodeEntry, List.append_assoc] at h
  obtain ⟨hcount, h⟩ := List.append_inj h (by rw [LittleEndian.length_leBytes, LittleEndian.length_leBytes])
  have hlength := LittleEndian.leBytes_injective (hle.trans_lt hwidth) (hle'.trans_lt hwidth) hcount
  obtain ⟨hstates, h⟩ := List.append_inj h (by rw [hlen, hlen, hlength])
  obtain ⟨hcost, hrest⟩ := List.append_inj h (by simp [i64LeBytes])
  rw [hflat, hflat] at hstates
  have hbound : ∀ states : List NfaStateId, ∀ n ∈ states.map Fin.val, n < 256 ^ 4 := by
    intro states n hn
    obtain ⟨q, -, rfl⟩ := List.mem_map.mp hn
    exact q.isLt
  have hvals := LittleEndian.flatMap_leBytes_injective (hbound _) (hbound _) (by rw [List.length_map, List.length_map, hlength]) hstates
  refine ⟨Prod.ext ?_ ?_, hrest⟩
  · exact List.map_injective_iff.mpr Fin.val_injective hvals
  · exact i64LeBytes_injective (hrange _) (hrange _) hcost

/-- Frontiers with the same key have the same buckets. -/
theorem bucketsBy_of_key (hrange : ∀ c, i64Min ≤ costKey c ∧ costKey c ≤ i64Max)
    (h : canonicalProductFrontierToKeyBy costKey frontier = some key)
    (h' : canonicalProductFrontierToKeyBy costKey frontier' = some key) : bucketsBy costKey frontier = bucketsBy costKey frontier' := by
  obtain ⟨hkey, hle⟩ := key_eq h
  obtain ⟨hkey', hle'⟩ := key_eq h'
  have hentries : frontier.map (keyEntry costKey) = frontier'.map (keyEntry costKey) := by
    have heq := hkey.symm.trans hkey'
    clear h h' hkey hkey'
    induction frontier generalizing frontier' with
    | nil =>
      cases frontier' with
      | nil => rfl
      | cons state' frontier' => simp [encodeEntry, leBytes] at heq
    | cons state frontier ih =>
      cases frontier' with
      | nil => simp [encodeEntry, leBytes] at heq
      | cons state' frontier' =>
        obtain ⟨hhead, hle⟩ := List.forall_mem_cons.mp hle
        obtain ⟨hhead', hle'⟩ := List.forall_mem_cons.mp hle'
        obtain ⟨hentry, hrest⟩ := encodeEntry_injective hrange hhead hhead' heq
        rw [List.map_cons, List.map_cons, hentry, ih hle hle' hrest]
  exact buckets_eq_of_entries fun x => hentries ▸ Iff.rfl

theorem buckets_of_key (h : canonicalProductFrontierToKey frontier = some key)
    (h' : canonicalProductFrontierToKey frontier' = some key) : buckets frontier = buckets frontier' :=
  bucketsBy_of_key (fun _ => productCostKey_range) h h'

/-- The frontier that is stored has the buckets of the one that was prepared. -/
theorem bucketsBy_of_prepareStateBy {prepared : List ProductStateChar}
    (h : ProductStateRegistry.prepareStateBy costKey frontier = some (prepared, key)) :
    bucketsBy costKey prepared = bucketsBy costKey frontier ∧ canonicalProductFrontierToKeyBy costKey prepared = some key := by
  obtain ⟨key', hkey, heq⟩ := Option.map_eq_some_iff.mp h
  cases heq
  exact ⟨buckets_canonicalize, hkey⟩

theorem buckets_of_prepareState {prepared : List ProductStateChar} (h : ProductStateRegistry.prepareState frontier = some (prepared, key)) :
    buckets prepared = buckets frontier ∧ canonicalProductFrontierToKey prepared = some key :=
  bucketsBy_of_prepareStateBy h

end Buckets
end Duallity
