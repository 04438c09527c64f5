import Duallity.StateEncoding
import Mathlib.Data.Option.Basic

/-! The automaton states of the Levenshtein source and their ids (`state_source_support.rs`). A normal
    state is a query position and an edit cost; a continuation state waits for the second half of a
    transposition, a merge or a split. -/

namespace Duallity

/-- The feature flags of `liblevenshtein`'s `Algorithm`. -/
structure Algorithm where
  supportsTransposition : Bool
  supportsMergeSplit : Bool
deriving DecidableEq, Repr

namespace Algorithm

def standard : Algorithm := ⟨false, false⟩

end Algorithm

inductive AutomatonState
  | normal (queryPos editCost : Nat)
  | transposeSecond (queryPos editCost : Nat)
  | mergeSecond (queryPos editCost : Nat)
  | splitSecond (queryPos editCost : Nat)
deriving DecidableEq, Repr

namespace AutomatonState

def queryPos : AutomatonState → Nat
  | normal p _ | transposeSecond p _ | mergeSecond p _ | splitSecond p _ => p

def editCost : AutomatonState → Nat
  | normal _ d | transposeSecond _ d | mergeSecond _ d | splitSecond _ d => d

end AutomatonState

def saturatingU32 (value : Nat) : Nat := min value u32Max

def continuationStateKinds (algorithm : Algorithm) : Nat :=
  (if algorithm.supportsTransposition then 1 else 0) + if algorithm.supportsMergeSplit then 2 else 0

def transposeSecondSlot (algorithm : Algorithm) : Option Nat :=
  if algorithm.supportsTransposition then some 1 else none

def mergeSecondSlot (algorithm : Algorithm) : Option Nat :=
  if algorithm.supportsMergeSplit then some (1 + algorithm.supportsTransposition.toNat) else none

def splitSecondSlot (algorithm : Algorithm) : Option Nat := (mergeSecondSlot algorithm).map (· + 1)

structure LevenshteinStateCodec where
  queryLen : Nat
  maxDistance : Nat
  algorithm : Algorithm
deriving DecidableEq, Repr

namespace LevenshteinStateCodec
variable (codec : LevenshteinStateCodec)

def normalAutomatonStates : Nat := StateEncoding.boundedLevenshteinStates codec.queryLen codec.maxDistance

def maxAutomatonStates : Nat :=
  saturatingMul u32Max codec.normalAutomatonStates (1 + continuationStateKinds codec.algorithm)

def maxDistanceU32 : Nat := saturatingU32 codec.maxDistance

def automatonStride : Nat := max (saturatingAdd u32Max codec.maxDistanceU32 1) 1

def decodeProductState (state : Nat) : Option (Nat × Nat) := StateEncoding.decode state codec.maxAutomatonStates

def encodeProductState (dictNodeId automatonStateId : Nat) : Option Nat :=
  StateEncoding.tryEncode dictNodeId automatonStateId codec.maxAutomatonStates

def encodeTransitionTarget (dictNodeId : Nat) (automatonStateId : Option Nat) : Option Nat :=
  automatonStateId.bind (codec.encodeProductState dictNodeId)

def encodeAutomatonState (queryPos editCost : Nat) : Option Nat :=
  ((checkedMul u32Max queryPos codec.automatonStride).bind fun base => checkedAdd u32Max base editCost).filter
    (· < codec.normalAutomatonStates)

def encodeTransposeSecondState (queryPos editCost : Nat) : Option Nat :=
  ((codec.encodeAutomatonState queryPos editCost).bind (checkedAdd u32Max codec.normalAutomatonStates)).filter
    (· < codec.maxAutomatonStates)

def continuationState (slot queryPos editCost : Nat) : Option Nat :=
  ((checkedMul u32Max codec.normalAutomatonStates slot).bind fun base =>
    (codec.encodeAutomatonState queryPos editCost).bind (checkedAdd u32Max base)).filter
      (· < codec.maxAutomatonStates)

def encodeMergeSecondState (queryPos editCost : Nat) : Option Nat :=
  (mergeSecondSlot codec.algorithm).bind fun slot => codec.continuationState slot queryPos editCost

def encodeSplitSecondState (queryPos editCost : Nat) : Option Nat :=
  (splitSecondSlot codec.algorithm).bind fun slot => codec.continuationState slot queryPos editCost

def decodeAutomatonState (automatonStateId : Nat) : Option AutomatonState :=
  if codec.maxAutomatonStates ≤ automatonStateId then none
  else
    let normalStateId := automatonStateId % codec.normalAutomatonStates
    let queryPos := normalStateId / codec.automatonStride
    let editCost := normalStateId % codec.automatonStride
    if codec.queryLen < queryPos ∨ codec.maxDistance < editCost then none
    else
      let slot := automatonStateId / codec.normalAutomatonStates
      if slot = 0 then some (.normal queryPos editCost)
      else if transposeSecondSlot codec.algorithm = some slot then some (.transposeSecond queryPos editCost)
      else if mergeSecondSlot codec.algorithm = some slot then some (.mergeSecond queryPos editCost)
      else if splitSecondSlot codec.algorithm = some slot then some (.splitSecond queryPos editCost)
      else none

/-- The encoder of each kind of state. -/
def encodeState : AutomatonState → Option Nat
  | .normal p d => codec.encodeAutomatonState p d
  | .transposeSecond p d => codec.encodeTransposeSecondState p d
  | .mergeSecond p d => codec.encodeMergeSecondState p d
  | .splitSecond p d => codec.encodeSplitSecondState p d

/-- Each kind of state has a range of ids of its own, when the algorithm supports it. -/
def slot (algorithm : Algorithm) : AutomatonState → Option Nat
  | .normal _ _ => some 0
  | .transposeSecond _ _ => transposeSecondSlot algorithm
  | .mergeSecond _ _ => mergeSecondSlot algorithm
  | .splitSecond _ _ => splitSecondSlot algorithm

/-- A position in the query, a cost within the bound, and a kind that the algorithm has. -/
structure Valid (a : AutomatonState) : Prop where
  pos_le : a.queryPos ≤ codec.queryLen
  cost_le : a.editCost ≤ codec.maxDistance
  slot : (slot codec.algorithm a).isSome

theorem automatonStride_pos : 0 < codec.automatonStride := lt_of_lt_of_le Nat.one_pos (le_max_right _ _)

variable {codec} {a : AutomatonState} {p d s id : Nat}

theorem slot_transposeSecond {algorithm : Algorithm} :
    (slot algorithm (.transposeSecond p d)).isSome ↔ algorithm.supportsTransposition = true := by
  simp [slot, transposeSecondSlot]

theorem slot_mergeSecond {algorithm : Algorithm} :
    (slot algorithm (.mergeSecond p d)).isSome ↔ algorithm.supportsMergeSplit = true := by
  simp [slot, mergeSecondSlot]

theorem slot_splitSecond {algorithm : Algorithm} :
    (slot algorithm (.splitSecond p d)).isSome ↔ algorithm.supportsMergeSplit = true := by
  simp [slot, splitSecondSlot, mergeSecondSlot]

theorem encodeAutomatonState_eq_some : codec.encodeAutomatonState p d = some id ↔
    id = p * codec.automatonStride + d ∧ id < codec.normalAutomatonStates ∧ id ≤ u32Max := by
  unfold encodeAutomatonState
  simp only [Option.filter_eq_some_iff, Option.bind_eq_some_iff, checkedMul_eq_some, checkedAdd_eq_some,
    decide_eq_true_eq]
  constructor
  · rintro ⟨⟨_, ⟨rfl, -⟩, rfl, hle⟩, hlt⟩
    exact ⟨rfl, hlt, hle⟩
  · rintro ⟨rfl, hlt, hle⟩
    exact ⟨⟨_, ⟨rfl, by omega⟩, rfl, hle⟩, hlt⟩

theorem continuationState_eq_some : codec.continuationState s p d = some id ↔
    ∃ i, codec.encodeAutomatonState p d = some i ∧ id = codec.normalAutomatonStates * s + i ∧
      id < codec.maxAutomatonStates ∧ id ≤ u32Max := by
  unfold continuationState
  simp only [Option.filter_eq_some_iff, Option.bind_eq_some_iff, checkedMul_eq_some, checkedAdd_eq_some,
    decide_eq_true_eq]
  constructor
  · rintro ⟨⟨_, ⟨rfl, -⟩, i, hi, rfl, hle⟩, hlt⟩
    exact ⟨i, hi, rfl, hlt, hle⟩
  · rintro ⟨i, hi, rfl, hlt, hle⟩
    exact ⟨⟨_, ⟨rfl, by omega⟩, i, hi, rfl, hle⟩, hlt⟩

/-- A position beyond `u32` has no id, so the checked step to it loses nothing. -/
theorem checkedAdd_bind_encode {j : Nat} : ((checkedAdd u32Max p j).bind fun i => codec.encodeAutomatonState i d) =
    codec.encodeAutomatonState (p + j) d := by
  by_cases h : p + j ≤ u32Max
  · rw [checkedAdd, if_pos h, Option.bind_some]
  · rw [checkedAdd, if_neg h, Option.bind_none, eq_comm, Option.eq_none_iff_forall_ne_some]
    intro x hx
    obtain ⟨rfl, -, hle⟩ := encodeAutomatonState_eq_some.mp hx
    have := Nat.le_mul_of_pos_right (p + j) codec.automatonStride_pos
    omega

theorem pos_lt_of_encode (h : codec.encodeAutomatonState p d = some id) : p < usizeMax := by
  obtain ⟨rfl, -, hle⟩ := encodeAutomatonState_eq_some.mp h
  have := Nat.le_mul_of_pos_right p codec.automatonStride_pos
  unfold u32Max at hle
  unfold usizeMax
  omega

theorem pos_lt_of_continuationState (h : codec.continuationState s p d = some id) : p < usizeMax := by
  obtain ⟨_, hi, -⟩ := continuationState_eq_some.mp h
  exact pos_lt_of_encode hi

/-- The transposition states take the slot after the normal ones. -/
theorem encodeTransposeSecondState_eq : codec.encodeTransposeSecondState p d = codec.continuationState 1 p d := by
  ext id
  rw [continuationState_eq_some]
  unfold encodeTransposeSecondState
  simp only [Option.filter_eq_some_iff, Option.bind_eq_some_iff, checkedAdd_eq_some, decide_eq_true_eq, Nat.mul_one]
  constructor
  · rintro ⟨⟨i, hi, rfl, hle⟩, hlt⟩
    exact ⟨i, hi, rfl, hlt, hle⟩
  · rintro ⟨i, hi, rfl, hlt, hle⟩
    exact ⟨⟨i, hi, rfl, hle⟩, hlt⟩

theorem normalAutomatonStates_pos (codec : LevenshteinStateCodec) : 0 < codec.normalAutomatonStates := by
  simp only [normalAutomatonStates, StateEncoding.boundedLevenshteinStates, StateEncoding.saturatingNonzeroU32, u32Max]
  omega

theorem normalAutomatonStates_le (codec : LevenshteinStateCodec) : codec.normalAutomatonStates ≤ (codec.queryLen + 1) * (codec.maxDistance + 1) := by
  have hpos : 0 < (codec.queryLen + 1) * (codec.maxDistance + 1) := Nat.mul_pos (Nat.succ_pos _) (Nat.succ_pos _)
  have hmul : min (codec.queryLen + 1) usizeMax * min (codec.maxDistance + 1) usizeMax ≤
      (codec.queryLen + 1) * (codec.maxDistance + 1) := Nat.mul_le_mul (min_le_left _ _) (min_le_left _ _)
  simp only [normalAutomatonStates, StateEncoding.boundedLevenshteinStates, StateEncoding.saturatingNonzeroU32,
    saturatingAdd, saturatingMul]
  omega

theorem normalAutomatonStates_le_u32Max (codec : LevenshteinStateCodec) : codec.normalAutomatonStates ≤ u32Max := min_le_right _ _

theorem maxAutomatonStates_pos : 0 < codec.maxAutomatonStates := by
  have := normalAutomatonStates_pos codec
  have hmul : codec.normalAutomatonStates ≤
      codec.normalAutomatonStates * (1 + continuationStateKinds codec.algorithm) :=
    Nat.le_mul_of_pos_right _ (by omega)
  simp only [maxAutomatonStates, saturatingMul, u32Max]
  omega

/-- An id of a normal state determines its position and cost. -/
theorem divMod_of_encodeAutomatonState (h : codec.encodeAutomatonState p d = some id) (hd : d ≤ codec.maxDistance) :
    id / codec.automatonStride = p ∧ id % codec.automatonStride = d ∧ p ≤ codec.queryLen := by
  obtain ⟨hid, hlt, -⟩ := encodeAutomatonState_eq_some.mp h
  have hN := normalAutomatonStates_le codec
  have hU := normalAutomatonStates_le_u32Max codec
  by_cases hk : codec.maxDistance + 1 ≤ u32Max
  · have hstride : codec.automatonStride = codec.maxDistance + 1 := by
      simp only [automatonStride, maxDistanceU32, saturatingU32, saturatingAdd]
      omega
    rw [hstride] at hid ⊢
    have hdiv : id / (codec.maxDistance + 1) = p := by
      rw [hid, Nat.mul_comm, Nat.mul_add_div (by omega), Nat.div_eq_of_lt (by omega), Nat.add_zero]
    have hmod : id % (codec.maxDistance + 1) = d := by
      rw [hid, Nat.mul_comm, Nat.mul_add_mod, Nat.mod_eq_of_lt (by omega)]
    refine ⟨hdiv, hmod, ?_⟩
    rw [← hdiv]
    have hlt' : id < (codec.maxDistance + 1) * (codec.queryLen + 1) := by
      rw [Nat.mul_comm]
      exact hlt.trans_le hN
    exact Nat.lt_succ_iff.mp (Nat.div_lt_of_lt_mul hlt')
  · -- The stride saturates: only position 0 stays below the number of normal states.
    have hstride : codec.automatonStride = u32Max := by
      simp only [automatonStride, maxDistanceU32, saturatingU32, saturatingAdd, u32Max] at hk ⊢
      omega
    rw [hstride] at hid ⊢
    have hp : p = 0 := by
      rcases Nat.eq_zero_or_pos p with hp | hp
      · exact hp
      · have := Nat.le_mul_of_pos_left u32Max hp
        omega
    subst hp
    have hd' : id = d := by omega
    rw [hd'] at hlt ⊢
    exact ⟨Nat.div_eq_of_lt (by omega), Nat.mod_eq_of_lt (by omega), Nat.zero_le _⟩

theorem normalAutomatonStates_le_max : codec.normalAutomatonStates ≤ codec.maxAutomatonStates := by
  have hU := normalAutomatonStates_le_u32Max codec
  have hmul : codec.normalAutomatonStates ≤
      codec.normalAutomatonStates * (1 + continuationStateKinds codec.algorithm) :=
    Nat.le_mul_of_pos_right _ (by omega)
  exact le_min hmul hU

/-- What the encoders of the four kinds have in common. -/
theorem encodeState_eq_some (hs : slot codec.algorithm a = some s) : codec.encodeState a = some id ↔
    ∃ i, codec.encodeAutomatonState a.queryPos a.editCost = some i ∧ id = codec.normalAutomatonStates * s + i ∧
      id < codec.maxAutomatonStates ∧ id ≤ u32Max := by
  cases a with
  | normal p d =>
    cases hs
    simp only [encodeState, AutomatonState.queryPos, AutomatonState.editCost, Nat.mul_zero, Nat.zero_add]
    constructor
    · intro h
      obtain ⟨-, hlt, hle⟩ := encodeAutomatonState_eq_some.mp h
      exact ⟨id, h, rfl, hlt.trans_le normalAutomatonStates_le_max, hle⟩
    · rintro ⟨_, h, rfl, -⟩
      exact h
  | transposeSecond p d =>
    simp only [slot, transposeSecondSlot, Option.ite_none_right_eq_some] at hs
    obtain ⟨-, hs⟩ := hs
    cases hs
    rw [encodeState, encodeTransposeSecondState_eq]
    exact continuationState_eq_some
  | mergeSecond p d =>
    rw [encodeState, encodeMergeSecondState, show mergeSecondSlot codec.algorithm = some s from hs]
    exact continuationState_eq_some
  | splitSecond p d =>
    rw [encodeState, encodeSplitSecondState, show splitSecondSlot codec.algorithm = some s from hs]
    exact continuationState_eq_some

/-- The slots of an algorithm are distinct, and there are as many continuation slots as kinds. -/
theorem slot_le (hs : slot codec.algorithm a = some s) : s ≤ continuationStateKinds codec.algorithm := by
  obtain ⟨n, k, ⟨t, m⟩⟩ := codec
  cases a <;> cases t <;> cases m <;>
    simp [slot, transposeSecondSlot, mergeSecondSlot, splitSecondSlot, continuationStateKinds] at hs ⊢ <;> omega

/-- The state of a slot at a position and a cost. -/
theorem decode_slot (hs : slot codec.algorithm a = some s) :
    (if s = 0 then some (AutomatonState.normal a.queryPos a.editCost)
      else if transposeSecondSlot codec.algorithm = some s then some (.transposeSecond a.queryPos a.editCost)
      else if mergeSecondSlot codec.algorithm = some s then some (.mergeSecond a.queryPos a.editCost)
      else if splitSecondSlot codec.algorithm = some s then some (.splitSecond a.queryPos a.editCost)
      else none) = some a := by
  obtain ⟨n, k, ⟨t, m⟩⟩ := codec
  cases a <;> cases t <;> cases m <;>
    simp_all [slot, transposeSecondSlot, mergeSecondSlot, splitSecondSlot, AutomatonState.queryPos,
      AutomatonState.editCost] <;> subst hs <;> simp

/-- Decoding undoes encoding. -/
theorem decode_of_encodeState (h : codec.encodeState a = some id) (hcost : a.editCost ≤ codec.maxDistance)
    (hslot : (slot codec.algorithm a).isSome) : codec.decodeAutomatonState id = some a := by
  obtain ⟨s, hs⟩ := Option.isSome_iff_exists.mp hslot
  obtain ⟨i, hi, rfl, hmax, -⟩ := (encodeState_eq_some hs).mp h
  obtain ⟨hdiv, hmod, hpos⟩ := divMod_of_encodeAutomatonState hi hcost
  obtain ⟨-, hlt, -⟩ := encodeAutomatonState_eq_some.mp hi
  have hN := normalAutomatonStates_pos codec
  have hi' : (codec.normalAutomatonStates * s + i) % codec.normalAutomatonStates = i := by
    rw [Nat.mul_add_mod, Nat.mod_eq_of_lt hlt]
  have hs' : (codec.normalAutomatonStates * s + i) / codec.normalAutomatonStates = s := by
    rw [Nat.mul_add_div hN, Nat.div_eq_of_lt hlt, Nat.add_zero]
  simp only [decodeAutomatonState]
  rw [if_neg (by omega), hi', hdiv, hmod, if_neg (by omega), hs']
  exact decode_slot hs

/-- A decoded cost is below the saturating stride, so the next one does not saturate. -/
theorem cost_lt_of_decode (h : codec.decodeAutomatonState id = some a) : a.editCost < u32Max := by
  have hstride : codec.automatonStride ≤ u32Max := by
    simp only [automatonStride, saturatingAdd, u32Max]
    omega
  have hmod : id % codec.normalAutomatonStates % codec.automatonStride < u32Max :=
    (Nat.mod_lt _ codec.automatonStride_pos).trans_le hstride
  simp only [decodeAutomatonState, Option.ite_none_left_eq_some] at h
  obtain ⟨-, -, h⟩ := h
  split_ifs at h <;> cases h <;> exact hmod

theorem lt_max_of_decode (h : codec.decodeAutomatonState id = some a) : id < codec.maxAutomatonStates := by
  simp only [decodeAutomatonState, Option.ite_none_left_eq_some] at h
  omega

theorem valid_of_decode (h : codec.decodeAutomatonState id = some a) : codec.Valid a := by
  unfold decodeAutomatonState at h
  split at h
  · cases h
  · dsimp only at h
    split at h
    · cases h
    · rename_i hbounds
      push Not at hbounds
      split at h
      · cases h
        exact ⟨hbounds.1, hbounds.2, rfl⟩
      · split at h
        · rename_i hs
          cases h
          exact ⟨hbounds.1, hbounds.2, Option.isSome_iff_exists.mpr ⟨_, hs⟩⟩
        · split at h
          · rename_i hs
            cases h
            exact ⟨hbounds.1, hbounds.2, Option.isSome_iff_exists.mpr ⟨_, hs⟩⟩
          · split at h
            · rename_i hs
              cases h
              exact ⟨hbounds.1, hbounds.2, Option.isSome_iff_exists.mpr ⟨_, hs⟩⟩
            · cases h

theorem decodeProductState_zero : codec.decodeProductState 0 = some (0, 0) := by
  rw [decodeProductState, StateEncoding.decode, if_neg (Nat.pos_iff_ne_zero.mp maxAutomatonStates_pos), Nat.zero_div, Nat.zero_mod]

theorem decodeAutomatonState_zero : codec.decodeAutomatonState 0 = some (.normal 0 0) := by
  have hencode : codec.encodeState (.normal 0 0) = some 0 :=
    encodeAutomatonState_eq_some.mpr ⟨by rw [Nat.zero_mul], normalAutomatonStates_pos _, Nat.zero_le _⟩
  exact decode_of_encodeState hencode (Nat.zero_le _) rfl

/-- Every automaton state has an id of its own. -/
def Fits (codec : LevenshteinStateCodec) : Prop :=
  (codec.queryLen + 1) * (codec.maxDistance + 1) * (1 + continuationStateKinds codec.algorithm) ≤ u32Max

instance : Decidable codec.Fits := inferInstanceAs (Decidable (_ ≤ _))

/-- When all automaton states fit, every valid one is encoded. -/
theorem exists_encodeState (hfits : codec.Fits) (ha : codec.Valid a) : ∃ id, codec.encodeState a = some id := by
  obtain ⟨s, hs⟩ := Option.isSome_iff_exists.mp ha.slot
  have hle := ha.pos_le
  have hcost := ha.cost_le
  unfold Fits at hfits
  have hmul : (codec.queryLen + 1) * (codec.maxDistance + 1) ≤ u32Max :=
    le_trans (Nat.le_mul_of_pos_right _ (by omega)) hfits
  have hk : codec.maxDistance + 1 ≤ u32Max := le_trans (Nat.le_mul_of_pos_left _ (Nat.succ_pos _)) hmul
  have hstride : codec.automatonStride = codec.maxDistance + 1 := by
    simp only [automatonStride, maxDistanceU32, saturatingU32, saturatingAdd]
    omega
  have hN : codec.normalAutomatonStates = (codec.queryLen + 1) * (codec.maxDistance + 1) :=
    StateEncoding.boundedLevenshteinStates_of_le hmul
  have hM : codec.maxAutomatonStates =
      (codec.queryLen + 1) * (codec.maxDistance + 1) * (1 + continuationStateKinds codec.algorithm) := by
    rw [maxAutomatonStates, hN, saturatingMul_of_le hfits]
  have hlt : a.queryPos * (codec.maxDistance + 1) + a.editCost < (codec.queryLen + 1) * (codec.maxDistance + 1) := by
    have := Nat.mul_le_mul_right (codec.maxDistance + 1) hle
    have hsucc : (codec.queryLen + 1) * (codec.maxDistance + 1) =
        codec.queryLen * (codec.maxDistance + 1) + (codec.maxDistance + 1) := Nat.succ_mul _ _
    omega
  have hi : codec.encodeAutomatonState a.queryPos a.editCost =
      some (a.queryPos * (codec.maxDistance + 1) + a.editCost) :=
    encodeAutomatonState_eq_some.mpr ⟨by rw [hstride], by rw [hN]; exact hlt, by omega⟩
  have hslot : codec.normalAutomatonStates * s + (a.queryPos * (codec.maxDistance + 1) + a.editCost) <
      codec.maxAutomatonStates := by
    have hle := Nat.mul_le_mul_left ((codec.queryLen + 1) * (codec.maxDistance + 1))
      (Nat.add_le_add_left (slot_le hs) 1)
    rw [Nat.mul_add _ 1 s, Nat.mul_one] at hle
    rw [hM, hN]
    omega
  exact ⟨_, (encodeState_eq_some hs).mpr ⟨_, hi, rfl, hslot, by rw [hM] at hslot; omega⟩⟩

/-! ### Ranges -/

/-- The four kinds of states. -/
def kind : AutomatonState → Nat
  | .normal _ _ => 0
  | .transposeSecond _ _ => 1
  | .mergeSecond _ _ => 2
  | .splitSecond _ _ => 3

/-- The encoder of the transposition states is for the algorithms that have them; the other encoders check this themselves. -/
def Requested (algorithm : Algorithm) (a : AutomatonState) : Prop := kind a = 1 → algorithm.supportsTransposition = true

theorem slot_of_encodeState (hrequested : Requested codec.algorithm a) (h : codec.encodeState a = some id) :
    (slot codec.algorithm a).isSome := by
  cases a with
  | normal p d => rfl
  | transposeSecond p d => exact slot_transposeSecond.mpr (hrequested rfl)
  | mergeSecond p d =>
    obtain ⟨s, hs, -⟩ := Option.bind_eq_some_iff.mp h
    exact Option.isSome_iff_exists.mpr ⟨s, hs⟩
  | splitSecond p d =>
    obtain ⟨s, hs, -⟩ := Option.bind_eq_some_iff.mp h
    exact Option.isSome_iff_exists.mpr ⟨s, hs⟩

/-- Two kinds have two slots. -/
theorem slot_eq_iff {b : AutomatonState} {t : Nat} (ha : slot codec.algorithm a = some s) (hb : slot codec.algorithm b = some t) :
    s = t ↔ kind a = kind b := by
  constructor
  · rintro rfl
    have ha' := decode_slot ha
    have hb' := decode_slot hb
    cases a <;> cases b <;> first | rfl | (exfalso; split_ifs at ha' hb' <;> simp_all)
  · intro hkind
    have hslot : slot codec.algorithm a = slot codec.algorithm b := by
      cases a <;> cases b <;> first | rfl | cases hkind
    exact Option.some.inj (ha.symm.trans (hslot.trans hb))

/-- The ids of a slot make up a range of their own, below the number of states. -/
theorem range_of_encodeState (hs : slot codec.algorithm a = some s) (h : codec.encodeState a = some id) :
    codec.normalAutomatonStates * s ≤ id ∧ id < codec.normalAutomatonStates * (s + 1) ∧ id < codec.maxAutomatonStates ∧
      id ≤ u32Max := by
  obtain ⟨i, hi, rfl, hmax, hle⟩ := (encodeState_eq_some hs).mp h
  obtain ⟨-, hlt, -⟩ := encodeAutomatonState_eq_some.mp hi
  exact ⟨Nat.le_add_right _ _, by rw [Nat.mul_succ]; exact Nat.add_lt_add_left hlt _, hmax, hle⟩

/-- No divisor is zero, and what the code computes unchecked stays far below `u32::MAX`. -/
theorem codec_bounds (codec : LevenshteinStateCodec) : (0 < codec.normalAutomatonStates ∧ codec.normalAutomatonStates ≤ u32Max) ∧
    (0 < codec.maxAutomatonStates ∧ codec.maxAutomatonStates ≤ u32Max) ∧
    (0 < codec.automatonStride ∧ codec.automatonStride ≤ u32Max) ∧
    1 + continuationStateKinds codec.algorithm ≤ 4 ∧
    ∀ a s, slot codec.algorithm a = some s → s ≤ 3 := by
  have hkinds : continuationStateKinds codec.algorithm ≤ 3 := by
    unfold continuationStateKinds
    split <;> split <;> simp
  refine ⟨⟨normalAutomatonStates_pos codec, normalAutomatonStates_le_u32Max codec⟩, ⟨maxAutomatonStates_pos, min_le_right _ _⟩,
    ⟨codec.automatonStride_pos, ?_⟩, Nat.add_le_add_left hkinds 1, fun a s hs => (slot_le hs).trans hkinds⟩
  simp only [automatonStride, saturatingAdd, u32Max]
  omega

/-- What the encoders of automaton states and of composite states return decodes to what was encoded, whatever saturates; the
    kinds of states have disjoint ranges of ids, and no divisor is zero. -/
theorem encode_round_trip (codec : LevenshteinStateCodec) :
    (∀ a id, a.queryPos ≤ codec.queryLen → a.editCost ≤ codec.maxDistance → Requested codec.algorithm a →
      codec.encodeState a = some id → codec.decodeAutomatonState id = some a) ∧
    (∀ a b id id', Requested codec.algorithm a → Requested codec.algorithm b → codec.encodeState a = some id →
      codec.encodeState b = some id' → ∃ s t, (codec.normalAutomatonStates * s ≤ id ∧ id < codec.normalAutomatonStates * (s + 1)) ∧
        (codec.normalAutomatonStates * t ≤ id' ∧ id' < codec.normalAutomatonStates * (t + 1)) ∧
        id < codec.maxAutomatonStates ∧ id ≤ u32Max ∧ (s = t ↔ kind a = kind b)) ∧
    (∀ d i M id, StateEncoding.tryEncode d i M = some id → StateEncoding.decode id M = some (d, i) ∧ id ≤ u32Max) ∧
    (0 < codec.normalAutomatonStates ∧ codec.normalAutomatonStates ≤ u32Max) ∧
    (0 < codec.maxAutomatonStates ∧ codec.maxAutomatonStates ≤ u32Max) ∧
    (0 < codec.automatonStride ∧ codec.automatonStride ≤ u32Max) ∧
    1 + continuationStateKinds codec.algorithm ≤ 4 ∧
    ∀ a s, slot codec.algorithm a = some s → s ≤ 3 := by
  refine ⟨?_, ?_, ?_, codec_bounds codec⟩
  · intro a id _ hcost hrequested h
    exact decode_of_encodeState h hcost (slot_of_encodeState hrequested h)
  · intro a b id id' ha hb h h'
    obtain ⟨s, hs⟩ := Option.isSome_iff_exists.mp (slot_of_encodeState ha h)
    obtain ⟨t, ht⟩ := Option.isSome_iff_exists.mp (slot_of_encodeState hb h')
    obtain ⟨hle, hlt, hmax, hu32⟩ := range_of_encodeState hs h
    obtain ⟨hle', hlt', -, -⟩ := range_of_encodeState ht h'
    exact ⟨s, t, ⟨hle, hlt⟩, ⟨hle', hlt'⟩, hmax, hu32, slot_eq_iff hs ht⟩
  · intro d i M id h
    obtain ⟨-, rfl, hle⟩ := StateEncoding.tryEncode_eq_some.mp h
    exact ⟨StateEncoding.decode_of_tryEncode h, hle⟩

theorem encode_round_trip_split : decodeAutomatonState ⟨2, 1, ⟨true, true⟩⟩ 21 = some (.splitSecond 1 1) :=
  (encode_round_trip ⟨2, 1, ⟨true, true⟩⟩).1 (.splitSecond 1 1) 21 (by decide) (by decide) nofun (by decide)

/-- A transposition state gets an id of the merge states when the algorithm merges and does not transpose. -/
theorem transpose_decodes_to_merge : encodeState ⟨0, 0, ⟨false, true⟩⟩ (.transposeSecond 0 0) = some 1 ∧
    decodeAutomatonState ⟨0, 0, ⟨false, true⟩⟩ 1 = some (.mergeSecond 0 0) := by
  decide

end LevenshteinStateCodec
end Duallity
