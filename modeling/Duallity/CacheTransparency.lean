import Duallity.Generalized.Wrapper
import Duallity.Reexpansion

/-! The caches of the wrappers cannot be noticed. -/

namespace Duallity

theorem PhoneticStateSource.idsFit_newRegistries {N U : Type} (src : PhoneticStateSource N U) : IdsFit src.newRegistries := by
  refine ⟨by simp [newRegistries, DictionaryNodeRegistry.size_new, u32Count], ?_⟩
  rcases ProductStateRegistry.new_cases src.product.initialFrontier with ⟨-, hnew⟩ | ⟨prepared, key, -, hnew⟩
  · simp [newRegistries, hnew]
  · simp [newRegistries, hnew, u32Count]

theorem UniversalLevenshteinStateSource.idsFit_newRegistries {N U σ β κ : Type} [DecidableEq κ]
    (src : UniversalLevenshteinStateSource N U σ β κ) (maxDistance : Nat) : IdsFit (src.newRegistries maxDistance) := by
  refine ⟨by simp [newRegistries, DictionaryNodeRegistry.size_new, u32Count], ?_⟩
  simp [newRegistries_states, u32Count]

/-- Whatever clones of a wrapper do before and after, a state that has been expanded is answered as it was then, from the cache
    or from another expansion. An expansion of a Generalized wrapper can fail again; the others cannot. -/
theorem cache_transparent {ι N U σ β κ R : Type} [DecidableEq ι] [CharUnit U] [DecidableEq κ] [DecidableEq R] (maxLruStates : Nat) :
    (∀ src : LevenshteinStateSource N U,
      CachedClones.Transparent src.charStateSource (.new src.newRegistry maxLruStates : CachedClones ι _ _) ∧
      CachedClones.Persistent src.charStateSource (.new src.newRegistry maxLruStates : CachedClones ι _ _)) ∧
    (∀ (src : UniversalLevenshteinStateSource N U σ β κ) (maxDistance : Nat),
      CachedClones.Transparent src.charStateSource (.new (src.newRegistries maxDistance) maxLruStates : CachedClones ι _ _) ∧
      CachedClones.Persistent src.charStateSource (.new (src.newRegistries maxDistance) maxLruStates : CachedClones ι _ _)) ∧
    (∀ src : PhoneticStateSource N U,
      CachedClones.Transparent src.charStateSource (.new src.newRegistries maxLruStates : CachedClones ι _ _) ∧
      CachedClones.Persistent src.charStateSource (.new src.newRegistries maxLruStates : CachedClones ι _ _)) ∧
    (∀ src : WallBreakerWfst,
      CachedClones.Transparent src.charStateSource (.new () maxLruStates : CachedClones ι _ _) ∧
      CachedClones.Persistent src.charStateSource (.new () maxLruStates : CachedClones ι _ _)) ∧
    ∀ {D : Dictionary N Char} {lib : OperationLibrary R} {query : List Char} {maxDistance : Nat} {operations : OperationSet R}
      {limits : GeneralizedWfstLimits} {src : GeneralizedWfst N R} (owner : Nat), D.DistinctLabels →
      GeneralizedWfst.tryNewWithLimits D.provider lib query maxDistance operations limits = .ok src →
      CachedClones.Transparent (src.charStateSource (Subtype.val : GeneralizedWfst.Others D src → Environment N))
        (src.newWrappers owner maxLruStates : CachedClones ι _ _) := by
  refine ⟨fun src => ?_, fun src maxDistance => ?_, fun src => ?_, fun src => ?_, fun {D lib query maxDistance operations limits src} owner hD h => ?_⟩
  · have hsize : src.newRegistry.size ≤ u32Count := by
      simp [LevenshteinStateSource.newRegistry, DictionaryNodeRegistry.size_new, u32Count]
    exact src.reexpands.transparent hsize maxLruStates
  · exact src.reexpands.transparent (src.idsFit_newRegistries maxDistance) maxLruStates
  · exact src.reexpands.transparent src.idsFit_newRegistries maxLruStates
  · exact src.reexpands.transparent trivial maxLruStates
  · obtain ⟨hsrc, -⟩ := GeneralizedWfst.arguments_eq h
    have hsettled := GeneralizedWfst.settled hD hsrc (GeneralizedWfst.slotsFit h)
    have hnew := GeneralizedWfst.consistent_newWrappers (ι := ι) h owner maxLruStates
    exact hnew.transparent hsettled

open GeneralizedWfst in
/-- A clone of the transposing source expands the start. Whatever clones call next, they answer what it has cached. -/
theorem cache_transparent_transposing : ∃ src, ∃ σ : CachedClones Bool (Registries (List Char)) ℚ, ∃ e, transposing = .ok src ∧
    (σ.caches true).get 0 = some e ∧ e.arcs ≠ [] ∧
    let alone := src.charStateSource (Subtype.val : Others (trie [['b', 'a']]).toDictionary src → Environment (List Char))
    ∀ after, CachedClones.Answers alone (σ.run alone after) 0 e := by
  have hsucceeds := ensuresStart_transposing
  unfold ensuresStart at hsucceeds
  cases h : transposing with
  | error e =>
    rw [h] at hsucceeds
    cases hsucceeds
  | ok src =>
    rw [h] at hsucceeds
    let others : Others (trie [['b', 'a']]).toDictionary src := ⟨.alone _, fun _ r => .refl r⟩
    rcases hrun : ((src.newWrappers 0 1 : CachedClones Bool _ _).run (src.charStateSource Subtype.val) []).ensureState
      (src.charStateSource Subtype.val) true others 0 with ⟨σ, result⟩
    obtain rfl : result = .ok .expandedNonempty := by
      have hresult := congrArg Prod.snd hrun
      exact hresult.symm.trans (Option.some.inj hsucceeds)
    obtain ⟨-, -, -, -, htransparent⟩ := @cache_transparent Bool (List Char) Char Nat Nat Nat Unit _ _ _ _ 1
    obtain ⟨e, hget, hstatus, hafter, -⟩ := htransparent 0 (trie [['b', 'a']]).labels_nodup h hrun
    refine ⟨src, σ, e, rfl, hget, fun harcs => ?_, hafter⟩
    simp [expansionStatus, harcs] at hstatus

end Duallity
