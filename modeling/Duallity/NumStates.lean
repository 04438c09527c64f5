import Duallity.Lib.Interner
import Duallity.Lib.LazyGraph
import Duallity.Lib.SharedRuns
import Duallity.StateEncoding

/-! The number of states that the product automata report (lib.rs): a hint from the size of the dictionary, or the span of the
    ids registered so far, whichever is more. -/

namespace Duallity
open StateEncoding

def maxNumStatesHint : Nat := 1000000

def dictionaryProductStatesHint (dictionaryLen : Option Nat) (statesPerDictionaryNode : Nat) : Option Nat :=
  dictionaryLen.map fun dictSize => min (saturatingMul usizeMax dictSize statesPerDictionaryNode) maxNumStatesHint

def registeredProductStateIdSpan (registeredNodeCount statesPerDictionaryNode registeredStatesInLastNode : Nat) : Nat :=
  if registeredNodeCount = 0 ∨ registeredStatesInLastNode = 0 then 0
  else saturatingAdd usizeMax (saturatingMul usizeMax (registeredNodeCount - 1) statesPerDictionaryNode) registeredStatesInLastNode

def registeredDictionaryProductStatesHint (dictionaryLen : Option Nat) (registeredNodeCount statesPerDictionaryNode : Nat) :
    Option Nat :=
  let liveStateCount :=
    registeredProductStateIdSpan registeredNodeCount statesPerDictionaryNode statesPerDictionaryNode
  (dictionaryProductStatesHint (dictionaryLen.map fun dictSize => max dictSize registeredNodeCount) statesPerDictionaryNode).map
    fun estimatedStateCount => max estimatedStateCount liveStateCount

/-- The hint of the sources whose automaton states are interned. -/
def internedProductStatesHint (dictionaryLen : Option Nat) (registeredNodeCount statesPerDictionaryNode registeredStateCount : Nat) :
    Option Nat :=
  let liveStateIdSpan := registeredProductStateIdSpan registeredNodeCount statesPerDictionaryNode registeredStateCount
  (dictionaryProductStatesHint (dictionaryLen.map fun dictSize => max dictSize registeredNodeCount) statesPerDictionaryNode).map
    fun estimatedStateCount => max estimatedStateCount liveStateIdSpan

/-- An id whose components are registered is within the span, saturated or not: no `u32` reaches the end of `usize`. -/
theorem lt_registeredProductStateIdSpan {count M last state id aid : Nat} (hdecode : decode state M = some (id, aid))
    (hstate : state ≤ u32Max) (hid : id < count) (haid : aid < last) : state < registeredProductStateIdSpan count M last := by
  have hsum := (tryEncode_eq_some.mp (tryEncode_of_decode hdecode hstate)).2.1
  have hprod : id * M ≤ (count - 1) * M := Nat.mul_le_mul_right M (by omega)
  have hmax : u32Max < usizeMax := by decide
  unfold registeredProductStateIdSpan saturatingAdd saturatingMul
  rw [if_neg (by omega)]
  omega

/-- What validity is worth over every history of the turns that expansions take. -/
structure ValidityClosed {ρ α β ω : Type*} (S : LazySource ρ Nat α β ω) (turn : ρ → List (Arc Nat α β ω) → ρ → Prop) (initial : ρ)
    (start maxStates : Nat) (registered : ρ → Nat → Nat → Prop) (numStates : Option Nat → ρ → Nat) : Prop where
  expansion : ∀ {r r' state e}, state ≤ u32Max → S.expand r state = (r', some e) → Runs turn r e.arcs r'
  start : ∀ {out r}, Runs turn initial out r → S.valid r start
  target : ∀ {out r}, Runs turn initial out r → ∀ arc ∈ out, S.valid r arc.target ∧
    ∃ id aid, registered r id aid ∧ aid < maxStates ∧ arc.target = id * maxStates + aid
  kept : ∀ {out out' r r'}, Runs turn initial out r → Runs turn r out' r' → ∀ s, S.valid r s → S.valid r' s
  lt_numStates : ∀ {out r}, Runs turn initial out r → ∀ dictionaryLen s, S.valid r s → s < numStates dictionaryLen r

/-- It is enough to look at single turns. -/
theorem ValidityClosed.of_turns {ρ α β ω : Type*} [Preorder ρ] {S : LazySource ρ Nat α β ω}
    {turn : ρ → List (Arc Nat α β ω) → ρ → Prop} {initial : ρ} {start maxStates : Nat} {registered : ρ → Nat → Nat → Prop}
    {numStates : Option Nat → ρ → Nat}
    (hexpand : ∀ {r r' state e}, state ≤ u32Max → S.expand r state = (r', some e) → Runs turn r e.arcs r')
    (hle : ∀ {r out r'}, turn r out r' → r ≤ r') (hmono : ∀ {r r' s}, r ≤ r' → S.valid r s → S.valid r' s)
    (hregistered : ∀ {r r' id aid}, r ≤ r' → registered r id aid → registered r' id aid) (hstart : S.valid initial start)
    (htarget : ∀ {r out r'}, turn r out r' → ∀ arc ∈ out, S.valid r' arc.target ∧
      ∃ id aid, registered r' id aid ∧ aid < maxStates ∧ arc.target = id * maxStates + aid)
    (hspan : ∀ {r s dictionaryLen}, S.valid r s → s < numStates dictionaryLen r) :
    ValidityClosed S turn initial start maxStates registered numStates where
  expansion := hexpand
  start h := hmono (h.le hle) hstart
  target h := by
    refine h.forall_mem (P := fun r arc => S.valid r arc.target ∧
      ∃ id aid, registered r id aid ∧ aid < maxStates ∧ arc.target = id * maxStates + aid) hle ?_ htarget
    rintro r r' arc hgrow ⟨hvalid, id, aid, hid, haid, heq⟩
    exact ⟨hmono hgrow hvalid, id, aid, hregistered hgrow hid, haid, heq⟩
  kept _ h' s hs := hmono (h'.le hle) hs
  lt_numStates _ _ _ hs := hspan hs

section Interned
variable {κ ν κ' ν' α β ω : Type*} [DecidableEq κ] [DecidableEq κ'] {r r' : Interner κ ν × Interner κ' ν'} {id aid : Nat}

/-- A node and an automaton state of two registries. -/
def Registered (r : Interner κ ν × Interner κ' ν') (id aid : Nat) : Prop :=
  (∃ n, r.1.value? id = some n) ∧ ∃ v, r.2.value? aid = some v

theorem Registered.mono (h : Registered r id aid) (hle : r ≤ r') : Registered r' id aid := by
  obtain ⟨⟨n, hn⟩, v, hv⟩ := h
  exact ⟨⟨n, Interner.le_value? hle.1 hn⟩, v, Interner.le_value? hle.2 hv⟩

/-- A source over two registries that takes an id for valid when its components are registered. -/
theorem ValidityClosed.of_registries {S : LazySource (Interner κ ν × Interner κ' ν') Nat α β ω}
    {turn : Interner κ ν × Interner κ' ν' → List (Arc Nat α β ω) → Interner κ ν × Interner κ' ν' → Prop}
    {initial : Interner κ ν × Interner κ' ν'} {start M : Nat} {numStates : Option Nat → Interner κ ν × Interner κ' ν' → Nat}
    (hexpand : ∀ {r r' state e}, state ≤ u32Max → S.expand r state = (r', some e) → Runs turn r e.arcs r')
    (hle : ∀ {r out r'}, turn r out r' → r ≤ r')
    (hvalid : ∀ {r s}, S.valid r s ↔ s ≤ u32Max ∧ ∃ id aid, decode s M = some (id, aid) ∧ Registered r id aid)
    (hstart : S.valid initial start)
    (htarget : ∀ {r out r'}, turn r out r' → ∀ arc ∈ out, ∃ id aid, Registered r' id aid ∧ tryEncode id aid M = some arc.target)
    (hspan : ∀ {r dictionaryLen}, registeredProductStateIdSpan r.1.size M r.2.size ≤ numStates dictionaryLen r) :
    ValidityClosed S turn initial start M Registered numStates := by
  refine .of_turns hexpand hle ?_ (fun hle h => h.mono hle) hstart ?_ ?_
  · intro r r' s hgrow hs
    obtain ⟨hu, id, aid, hdecode, hregistered⟩ := hvalid.mp hs
    exact hvalid.mpr ⟨hu, id, aid, hdecode, hregistered.mono hgrow⟩
  · intro r out r' hturn arc harc
    obtain ⟨id, aid, hregistered, hencode⟩ := htarget hturn arc harc
    obtain ⟨haid, heq, hu⟩ := tryEncode_eq_some.mp hencode
    exact ⟨hvalid.mpr ⟨heq ▸ hu, id, aid, decode_of_tryEncode hencode, hregistered⟩, id, aid, hregistered, haid, heq⟩
  · intro r s dictionaryLen hs
    obtain ⟨hu, id, aid, hdecode, ⟨n, hn⟩, v, hv⟩ := hvalid.mp hs
    exact lt_of_lt_of_le
      (lt_registeredProductStateIdSpan hdecode hu (Interner.lt_of_value? hn) (Interner.lt_of_value? hv)) hspan

end Interned
end Duallity
