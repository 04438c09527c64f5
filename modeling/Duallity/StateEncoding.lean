import Mathlib.Data.Nat.Basic
import Mathlib.Tactic.Linarith

/-! Composite state ids (`state_encoding` in lib.rs) and the checked and saturating arithmetic they use.
    A machine integer is a `Nat`; the bound of its type is explicit in each operation. -/

namespace Duallity

/-- `u32::MAX`. -/
def u32Max : Nat := 4294967295

/-- `usize::MAX` on a 64-bit target. -/
def usizeMax : Nat := 18446744073709551615

/-- `2^32`, the number of `u32` ids. -/
def u32Count : Nat := 4294967296

def checkedAdd (max a b : Nat) : Option Nat := if a + b ≤ max then some (a + b) else none

def checkedMul (max a b : Nat) : Option Nat := if a * b ≤ max then some (a * b) else none

def saturatingAdd (max a b : Nat) : Nat := min (a + b) max

def saturatingMul (max a b : Nat) : Nat := min (a * b) max

/-- A count that an `f64` holds exactly (`exact_usize_to_f64`): the weights of the model are the integers that
    the `f64` weights hold. -/
def boundedCountToF64 (value : Nat) : Option Nat := if value ≤ 9007199254740992 then some value else none

theorem checkedAdd_eq_some {max a b c : Nat} : checkedAdd max a b = some c ↔ c = a + b ∧ a + b ≤ max := by
  unfold checkedAdd
  split <;> simp [*, eq_comm]

theorem checkedMul_eq_some {max a b c : Nat} : checkedMul max a b = some c ↔ c = a * b ∧ a * b ≤ max := by
  unfold checkedMul
  split <;> simp [*, eq_comm]

theorem saturatingAdd_of_le {max a b : Nat} (h : a + b ≤ max) : saturatingAdd max a b = a + b := min_eq_left h

theorem saturatingAdd_one {max a : Nat} (h : a < max) : saturatingAdd max a 1 = a + 1 := saturatingAdd_of_le h

theorem saturatingMul_of_le {max a b : Nat} (h : a * b ≤ max) : saturatingMul max a b = a * b := min_eq_left h

theorem saturatingMul_le {max a b : Nat} : saturatingMul max a b ≤ max := min_le_right _ _

namespace StateEncoding

def tryEncode (dictNode automatonState maxAutomatonStates : Nat) : Option Nat :=
  if maxAutomatonStates = 0 ∨ maxAutomatonStates ≤ automatonState then none
  else (checkedMul u32Max dictNode maxAutomatonStates).bind fun base => checkedAdd u32Max base automatonState

def decode (stateId maxAutomatonStates : Nat) : Option (Nat × Nat) :=
  if maxAutomatonStates = 0 then none
  else some (stateId / maxAutomatonStates, stateId % maxAutomatonStates)

def saturatingNonzeroU32 (value : Nat) : Nat := min (max value 1) u32Max

def estimateAutomatonStates (queryLen maxDistance : Nat) : Nat :=
  let positions := saturatingAdd usizeMax queryLen 1
  let distances := saturatingAdd usizeMax (saturatingMul usizeMax maxDistance 2) 1
  saturatingNonzeroU32 (saturatingMul usizeMax positions distances)

def boundedLevenshteinStates (queryLen maxDistance : Nat) : Nat :=
  let positions := saturatingAdd usizeMax queryLen 1
  let costs := saturatingAdd usizeMax maxDistance 1
  saturatingNonzeroU32 (saturatingMul usizeMax positions costs)

variable {d a M s : Nat}

theorem tryEncode_eq_some : tryEncode d a M = some s ↔ a < M ∧ s = d * M + a ∧ d * M + a ≤ u32Max := by
  unfold tryEncode
  split
  · rename_i h
    constructor
    · intro h'
      cases h'
    · rintro ⟨ha, -, -⟩
      omega
  · rename_i h
    push Not at h
    simp only [Option.bind_eq_some_iff, checkedMul_eq_some, checkedAdd_eq_some]
    constructor
    · rintro ⟨_, ⟨rfl, -⟩, rfl, hle⟩
      exact ⟨h.2, rfl, hle⟩
    · rintro ⟨-, rfl, hle⟩
      exact ⟨_, ⟨rfl, by omega⟩, rfl, hle⟩

theorem tryEncode_isSome : (tryEncode d a M).isSome ↔ a < M ∧ d * M + a ≤ u32Max := by
  rw [Option.isSome_iff_exists]
  constructor
  · rintro ⟨s, h⟩
    obtain ⟨h1, -, h2⟩ := tryEncode_eq_some.mp h
    exact ⟨h1, h2⟩
  · rintro ⟨h1, h2⟩
    exact ⟨_, tryEncode_eq_some.mpr ⟨h1, rfl, h2⟩⟩

/-- What encodes at some components encodes at smaller ones. -/
theorem tryEncode_isSome_mono {d' a' : Nat} (h : (tryEncode d' a' M).isSome) (hd : d ≤ d') (ha : a ≤ a') :
    (tryEncode d a M).isSome := by
  rw [tryEncode_isSome] at h ⊢
  have := Nat.mul_le_mul_right M hd
  omega

/-- Decoding undoes encoding. -/
theorem decode_of_tryEncode (h : tryEncode d a M = some s) : decode s M = some (d, a) := by
  obtain ⟨ha, rfl, -⟩ := tryEncode_eq_some.mp h
  have hM : 0 < M := by omega
  have hdiv : (d * M + a) / M = d := by
    rw [Nat.add_comm, Nat.add_mul_div_right _ _ hM, Nat.div_eq_of_lt ha, Nat.zero_add]
  have hmod : (d * M + a) % M = a := by rw [Nat.mul_comm, Nat.mul_add_mod, Nat.mod_eq_of_lt ha]
  simp [decode, hdiv, hmod, Nat.pos_iff_ne_zero.mp hM]

/-- Encoding undoes decoding of an id that fits `u32`. -/
theorem tryEncode_of_decode (h : decode s M = some (d, a)) (hs : s ≤ u32Max) : tryEncode d a M = some s := by
  unfold decode at h
  split at h
  · cases h
  · cases h
    rename_i hM
    have hsum : s / M * M + s % M = s := by rw [Nat.mul_comm]; exact Nat.div_add_mod s M
    exact tryEncode_eq_some.mpr ⟨Nat.mod_lt _ (by omega), hsum.symm, by omega⟩

theorem boundedLevenshteinStates_of_le {n k : Nat} (h : (n + 1) * (k + 1) ≤ u32Max) :
    boundedLevenshteinStates n k = (n + 1) * (k + 1) := by
  have hn : n + 1 ≤ (n + 1) * (k + 1) := Nat.le_mul_of_pos_right _ (Nat.succ_pos _)
  have hk : k + 1 ≤ (n + 1) * (k + 1) := Nat.le_mul_of_pos_left _ (Nat.succ_pos _)
  have hu : u32Max ≤ usizeMax := by decide
  simp only [boundedLevenshteinStates, saturatingNonzeroU32]
  rw [saturatingAdd_of_le (by omega), saturatingAdd_of_le (by omega), saturatingMul_of_le (by omega),
    max_eq_left (by omega), min_eq_left h]

end StateEncoding
end Duallity
