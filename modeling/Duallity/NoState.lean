import Duallity.Fzf.Paths
import Duallity.Generalized.Chains
import Duallity.Levenshtein.Validity
import Duallity.Phonetic.Validity
import Duallity.Universal.Expansion
import Duallity.Universal.PositionAutomaton
import Duallity.Universal.Validity
import Duallity.WallBreaker.Truncation

/-! Which inputs never lead to `NO_STATE`, which is `u32::MAX`. The Generalized registry stops one short of it. The ids of the
    other sources end before it as long as the dictionary has few enough label sequences, or WallBreaker's results few enough
    characters. -/

namespace Duallity
open DictionaryNodeRegistry StateEncoding

/-- A turn that expands one valid state. -/
inductive Expands {ρ σ α β ω : Type*} (S : LazySource ρ σ α β ω) : ρ → List (Arc σ α β ω) → ρ → Prop
  | expand {r r' : ρ} {s : σ} {e : Expansion σ α β ω} : S.valid r s → S.expand r s = (r', some e) → Expands S r e.arcs r'

/-- No history of turns returns a transition to `NO_STATE`. -/
def AvoidsNoState {ρ α β ω : Type*} (turn : ρ → List (Arc Nat α β ω) → ρ → Prop) (initial : ρ) : Prop :=
  ∀ out r, Runs turn initial out r → ∀ arc ∈ out, arc.target ≠ u32Max

/-- Expansions that are runs of turns return nothing else than turns do. -/
theorem AvoidsNoState.expands {ρ α β ω : Type*} {S : LazySource ρ Nat α β ω} {turn : ρ → List (Arc Nat α β ω) → ρ → Prop} {initial : ρ}
    (hexpand : ∀ {r r' s e}, S.valid r s → S.expand r s = (r', some e) → Runs turn r e.arcs r') (h : AvoidsNoState turn initial) :
    AvoidsNoState (Expands S) initial := by
  intro out r hrun
  refine h out r (hrun.bind fun {r out r'} hexpands => ?_)
  cases hexpands with
  | expand hvalid he => exact hexpand hvalid he

section Nodes
variable {ρ N U α β ω : Type} [CharUnit U] {D : Dictionary N U} {turn : ρ → List (Arc Nat α β ω) → ρ → Prop} {initial : ρ} {M : Nat}
  (nodes : ρ → DictionaryNodeRegistry N)

end Nodes

/-! ### Levenshtein -/

namespace LevenshteinStateSource
open LevenshteinStateCodec
variable {N U : Type} [CharUnit U] {D : FiniteDictionary N U} {q : List Char} {k : Nat} {algorithm : Algorithm}
  {r r' : DictionaryNodeRegistry N}

theorem Turn.wellFormed {out : List Transition} (h : Turn (sourceOf D q k algorithm) r out r') (hr : WellFormed D.toDictionary r) :
    WellFormed D.toDictionary r' := by
  cases h with
  | edge hle _ _ hn he =>
    exact wellFormed_followEdge hr (Interner.le_value? hle hn) (FiniteDictionary.step?_eq_some.mpr ⟨_, he, rfl⟩)
  | stay => exact hr

variable {n m : N} {c : Char} {id aid i d fromId : Nat}

section Last
variable (hlast : (sourceOf D q k algorithm).codec.decodeAutomatonState (u32Max % (sourceOf D q k algorithm).codec.maxAutomatonStates) =
    some (.normal i (d + 1)))
include hlast

variable (h : AvoidsNoState (Expands (sourceOf D q k algorithm).source) (sourceOf D q k algorithm).newRegistry)
include h

end Last

end LevenshteinStateSource

/-! ### Universal -/

namespace UniversalLevenshteinStateSource
variable {N U σ β κ : Type} [CharUnit U] [DecidableEq κ] {A : UniversalAutomaton σ β κ} {D : FiniteDictionary N U} {q : List Char}
  {k : Nat} {r r' : UniversalRegistries N σ κ}

theorem Turn.wellFormed {out : List UniversalTransition} (h : Turn (sourceOf A D q k) r out r') (hr : WellFormed (sourceOf A D q k) r) :
    WellFormed (sourceOf A D q k) r' := by
  cases h with
  | edges hle _ hn _ => exact wellFormed_followEdges _ _ hr (Interner.le_value? hle.1 hn)
  | skip => exact hr.skipQueryChar

end UniversalLevenshteinStateSource

/-! ### Phonetic -/

namespace PhoneticStateSource
variable {N U : Type} [CharUnit U] {D : FiniteDictionary N U} {A : ProductAutomatonChar} {k : Nat} {phoneticWeight editWeight : ℚ}
  {r r' : PhoneticRegistries N}

theorem Turn.wellFormed {out : List (Arc Nat Char Char ℚ)} (h : Turn (sourceOf D A k phoneticWeight editWeight) r out r')
    (hr : WellFormed (sourceOf D A k phoneticWeight editWeight) r) : WellFormed (sourceOf D A k phoneticWeight editWeight) r' := by
  cases h with
  | edges hle _ hn _ => exact hr.followEdges D.labels_nodup (Interner.le_value? hle.1 hn)

end PhoneticStateSource

/-! ### Fzf -/

namespace FzfStateSource
variable {N U : Type} [CharUnit U] {D : FiniteDictionary N U} {core : FzfCore} {r r' : FzfStateRegistry N} {state : Nat}
  {registered : RegisteredFzfState N} {arcs : List (Arc Nat Char Char Int)}

variable (hcore : core.WellFormed)
include hcore

/-- An expansion leads to registered states, and to each child that has an id at the end or could get one. -/
theorem expand_spec (hr : WellFormed (D.scored core) r) (hvalid : (sourceOf D core).source.valid r state) :
    ∃ r' e, (sourceOf D core).source.expand r state = (r', some e) ∧ WellFormed (D.scored core) r' ∧ r ≤ r' ∧
      (∀ arc ∈ e.arcs, arc.target < Interner.size r') ∧ ∀ s c m, r.get state = some s → (D.scored core).step? s c = some m →
        ∀ j, candidateId r' (.child state c) = some j → ∃ arc ∈ e.arcs, Interner.id? r' (.child state c) = some arc.target := by
  obtain ⟨s, hs⟩ := Option.isSome_iff_exists.mp hvalid.2
  obtain ⟨p, hp, -⟩ := hr.path_of_getNode hs
  obtain ⟨r', e, hcompute, hr', hle, -, harcs, -⟩ := computeRegisteredState_spec hcore hr hp
  refine ⟨r', e, expand_eq_compute hcompute, hr', hle, fun arc harc => ?_, fun s' c m hs' hm j hj => ?_⟩
  · obtain ⟨c, -, hspells, -⟩ := harcs arc harc
    exact hr'.lt_size hspells
  · rw [Dictionary.scored_step?, Option.map_eq_some_iff] at hm
    obtain ⟨child, hchild, -⟩ := hm
    obtain ⟨u, hu, rfl⟩ := FiniteDictionary.step?_eq_some.mp hchild
    rw [computeRegisteredState, hs'] at hcompute
    obtain ⟨⟨r₁, arcs⟩, hfollow, heq⟩ := Option.map_eq_some_iff.mp hcompute
    cases heq
    obtain ⟨-, -, -, hchildren⟩ := followEdges_ids _ hr.size_le hfollow
    obtain ⟨hid, arc, harc, -, -, rfl⟩ := hchildren _ hu j hj
    exact ⟨arc, harc, hid⟩

end FzfStateSource

/-! ### WallBreaker -/

namespace WallBreakerWfst
variable {src : WallBreakerWfst} {state : Nat}

end WallBreakerWfst

/-! ### Generalized -/

namespace GeneralizedWfst
variable {N R : Type} {D : Dictionary N Char} {src : GeneralizedWfst N R} {r : Registries N} {state : Nat}

/-- An emission state leads to the next position of its chain, or to its product state. -/
theorem next_lt_noState (hr : r.states.WellFormed) {emit : EmitState} (h : r.states.get state = some (.emit emit)) :
    emit.next < u32Max := by
  obtain ⟨hlt, first, hfirst, hnext⟩ := hr.chain_of_emit h
  rw [hnext, EmissionChain.next]
  split
  · obtain ⟨-, product, htarget⟩ := hr.target hfirst
    exact hr.lt_noState htarget
  · have hnextGet := hr.chain_get hfirst (emit.position + 1) (by omega) (by omega)
    exact hr.lt_noState hnextGet

theorem ExpandsTo.lt_noState {value : CachedCharState} (h : ExpandsTo D src r state value) (hr : r.WellFormed D) :
    ∀ arc ∈ value.arcs, arc.target < u32Max := by
  intro arc harc
  rcases h with ⟨emit, hget, rfl⟩ | ⟨product, base, n, position, -, -, -, -, -, -, -, harcs⟩
  · rw [EmitState.expansion, List.mem_singleton] at harc
    rw [harc]
    exact next_lt_noState hr.states hget
  · obtain ⟨_, -, target, hemits⟩ := exists_mem_of_forall₂ harcs harc
    exact hemits.lt_noState

end GeneralizedWfst

/-! ### All sources -/

section Sources
variable {N M U σ β κ R : Type} [CharUnit U] [DecidableEq κ] [DecidableEq R]

end Sources
end Duallity
