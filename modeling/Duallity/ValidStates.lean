import Duallity.Levenshtein.Validity
import Duallity.Phonetic.Validity
import Duallity.Universal.PositionAutomaton
import Duallity.Universal.Validity

/-! The valid states of the three product automata, whose clones share registries. -/

namespace Duallity
open LevenshteinStateSource UniversalLevenshteinStateSource PhoneticStateSource
variable {N U σ β κ : Type} [CharUnit U] [DecidableEq κ]

/-- After every history of turns the start and all returned targets are valid, what is valid stays so and is below the reported
    number of states, and targets refer to automaton states below the radix. -/
theorem valid_states_closed (dictionary : Dictionary N U) (query : List Char) (maxDistance : Nat) (algorithm : Algorithm)
    (automaton : UniversalAutomaton σ β κ) (product : ProductAutomatonChar) (phoneticWeight editWeight : ℚ)
    (hinitial : ∀ state ∈ product.initialFrontier, state.nfaStates.length ≤ u32Max) :
    (let src := withAlgorithm dictionary query maxDistance algorithm
     ValidityClosed src.source (LevenshteinStateSource.Turn src) src.newRegistry LevenshteinStateSource.start
        src.codec.maxAutomatonStates (LevenshteinStateSource.Registered src) fun dictionaryLen r => src.numStates r dictionaryLen) ∧
    (let src := UniversalLevenshteinStateSource.new automaton dictionary query maxDistance
     ValidityClosed src.source (UniversalLevenshteinStateSource.Turn src) (src.newRegistries maxDistance)
        UniversalLevenshteinStateSource.start src.maxAutomatonStates Registered fun dictionaryLen r => src.numStates r dictionaryLen) ∧
    (let src := fromValidatedWeights dictionary product maxDistance phoneticWeight editWeight
     ValidityClosed src.source (PhoneticStateSource.Turn src) src.newRegistries PhoneticStateSource.start src.maxProductStates
        Registered fun dictionaryLen r => src.numStates r dictionaryLen) :=
  ⟨LevenshteinStateSource.validityClosed dictionary query maxDistance algorithm,
    UniversalLevenshteinStateSource.validityClosed automaton dictionary query maxDistance,
    PhoneticStateSource.validityClosed dictionary product maxDistance phoneticWeight editWeight hinitial⟩

/-- The product of the literal `a`: a clone expands the start and returns a state, which another clone expands in turn. It is valid all
    the while and below the number of states. -/
theorem valid_states_closed_literal : ∃ r e e',
    literalSource.source.expand literalSource.newRegistries PhoneticStateSource.start = (literalRegistries, some e) ∧
    10001 ∈ e.arcs.map Arc.target ∧ literalSource.source.expand literalRegistries 10001 = (r, some e') ∧
    literalSource.source.valid literalRegistries 10001 ∧ literalSource.source.valid r 10001 ∧
    literalSource.source.valid r PhoneticStateSource.start ∧
    (∃ id, ∃ aid < literalSource.maxProductStates, Registered literalRegistries id aid ∧ 10001 = id * literalSource.maxProductStates + aid) ∧
    10001 < literalSource.numStates r none := by
  have hinitial : ∀ state ∈ literalProduct.initialFrontier, state.nfaStates.length ≤ u32Max := by decide
  have hclosed := (valid_states_closed (trie [['a']]).toDictionary ['a'] 0 .standard positionAutomaton literalProduct 0 1 hinitial).2.2
  have hfirst : (literalSource.expandState literalSource.newRegistries 0).2 = some ⟨[⟨0, some 'a', some 'a', 10001, 0⟩], none⟩ := by
    decide +kernel
  have hsecond : (literalSource.expandState literalRegistries 10001).2 = some ⟨[], some 0⟩ := by decide +kernel
  have hexpand : literalSource.source.expand literalSource.newRegistries PhoneticStateSource.start =
      (literalRegistries, some ⟨[⟨0, some 'a', some 'a', 10001, 0⟩], none⟩) := Prod.ext rfl hfirst
  have hexpand' : literalSource.source.expand literalRegistries 10001 =
      ((literalSource.expandState literalRegistries 10001).1, some ⟨[], some 0⟩) := Prod.ext rfl hsecond
  have hrun := hclosed.expansion (by decide) hexpand
  have hrun' := hclosed.expansion (by decide) hexpand'
  obtain ⟨hvalid, id, aid, hregistered, hlt, htarget⟩ := hclosed.target hrun _ List.mem_cons_self
  have hkept := hclosed.kept hrun hrun' _ hvalid
  exact ⟨_, _, _, hexpand, List.mem_cons_self, hexpand', hvalid, hkept, hclosed.start (hrun.trans hrun'), ⟨id, aid, hlt, hregistered, htarget⟩,
    hclosed.lt_numStates (hrun.trans hrun') none _ hkept⟩

end Duallity
