import Duallity.Lib.LeastByKey
import Duallity.Rewrite.Wfst
import Mathlib.Algebra.Order.Ring.Rat

/-! Dominated transitions (`phonetic_rewrite_support.rs`). A short list is searched for the key of each transition, a long
    one is indexed by a map; both keep the first transition of a key in its place until a cheaper one takes it over. -/

namespace Duallity
open LeastByKey

section Order
variable {W : Type} [LinearOrder W]

/-- A turn appends the first transition of its key, or leaves the cheaper one of two. -/
theorem pruneStepLinear_cases (pruned : List (Arc Nat Char Char W)) (t : Arc Nat Char Char W) :
    (rewriteTransitionKey t ∉ pruned.map rewriteTransitionKey ∧ pruneStepLinear pruned t = pruned ++ [t]) ∨
      ∃ index existing, pruned[index]? = some existing ∧ rewriteTransitionKey existing = rewriteTransitionKey t ∧
        pruneStepLinear pruned t = pruned.modify index (lower Arc.weight t) := by
  rw [pruneStepLinear]
  split
  · rename_i hnone
    refine Or.inl ⟨?_, rfl⟩
    intro hmem
    obtain ⟨existing, hexisting, hkey⟩ := List.mem_map.mp hmem
    exact absurd hkey (of_decide_eq_false (List.findIdx?_eq_none_iff.mp hnone existing hexisting))
  · rename_i index hindex
    obtain ⟨hlt, hkey, -⟩ := List.findIdx?_eq_some_iff_getElem.mp hindex
    exact Or.inr ⟨index, pruned[index], List.getElem?_eq_getElem hlt, of_decide_eq_true hkey, rfl⟩

theorem prune_linear (ts : List (Arc Nat Char Char W)) :
    Reduces rewriteTransitionKey Arc.weight ts (pruneDominatedTransitionsLinear ts) ∧
      InOrder rewriteTransitionKey ts (pruneDominatedTransitionsLinear ts) := by
  unfold pruneDominatedTransitionsLinear
  induction ts using List.reverseRecOn with
  | nil => exact ⟨.nil, rfl⟩
  | append_singleton ts t ih =>
    obtain ⟨hreduces, horder⟩ := ih
    rw [List.foldl_append, List.foldl_cons, List.foldl_nil]
    rcases pruneStepLinear_cases (ts.foldl pruneStepLinear []) t with ⟨hnew, heq⟩ | ⟨index, existing, hexisting, hkey, heq⟩
    · rw [heq]
      exact ⟨hreduces.push hnew, horder.push hreduces hnew⟩
    · rw [heq]
      exact ⟨hreduces.lower hexisting hkey, horder.lower hreduces hexisting hkey⟩

/-- The map that the long lists are indexed by finds what the search finds. -/
theorem foldl_pruneStepHashed (ts : List (Arc Nat Char Char W)) :
    (ts.foldl pruneStepHashed ([], [])).1 = pruneDominatedTransitionsLinear ts ∧
      Indexes rewriteTransitionKey (ts.foldl pruneStepHashed ([], [])).2 (pruneDominatedTransitionsLinear ts) := by
  unfold pruneDominatedTransitionsLinear
  induction ts using List.reverseRecOn with
  | nil => exact ⟨rfl, .nil⟩
  | append_singleton ts t ih =>
    obtain ⟨hlist, hindexes⟩ := ih
    rw [List.foldl_append, List.foldl_cons, List.foldl_nil, List.foldl_append, List.foldl_cons, List.foldl_nil,
      pruneStepHashed, pruneStepLinear, hlist, hindexes.lookup_eq]
    split
    · rename_i hnone
      rw [← hindexes.lookup_eq] at hnone
      exact ⟨rfl, hindexes.push hnone⟩
    · rename_i index hindex
      rw [← hindexes.lookup_eq] at hindex
      obtain ⟨existing, hexisting, hkey⟩ := (hindexes _ _).mp hindex
      exact ⟨rfl, hindexes.lower hexisting hkey⟩

/-- Whatever the length, the list is the one that the search leaves. -/
theorem pruneDominatedTransitions_eq (ts : List (Arc Nat Char Char W)) :
    pruneDominatedTransitions ts = pruneDominatedTransitionsLinear ts := by
  unfold pruneDominatedTransitions
  split
  · rename_i hlt
    match ts, hlt with
    | [], _ => rfl
    | [t], _ => rfl
  · split
    · rfl
    · exact (foldl_pruneStepHashed ts).1

/-- Pruning keeps one transition of each key, of least weight. -/
theorem reduces_prune (ts : List (Arc Nat Char Char W)) :
    Reduces rewriteTransitionKey Arc.weight ts (pruneDominatedTransitions ts) :=
  pruneDominatedTransitions_eq ts ▸ (prune_linear ts).1

end Order

/-! ### Arcs of one state -/

/-- The labels and the target of an arc, which tell the arcs of one state apart. -/
def arcLabels {W : Type} (t : Arc Nat Char Char W) : Option Char × Option Char × Nat := (t.input, t.output, t.target)

theorem rewriteTransitionKey_eq_iff {W : Type} {t u : Arc Nat Char Char W} :
    rewriteTransitionKey t = rewriteTransitionKey u ↔ t.source = u.source ∧ arcLabels t = arcLabels u := by
  simp [rewriteTransitionKey, arcLabels]

theorem map_rewriteTransitionKey {W : Type} {ts : List (Arc Nat Char Char W)} {source : Nat}
    (hsource : ∀ t ∈ ts, t.source = source) :
    ts.map rewriteTransitionKey = (ts.map arcLabels).map (Prod.mk source) := by
  rw [List.map_map]
  refine List.map_congr_left ?_
  intro t ht
  rw [Function.comp_apply, ← hsource t ht]
  rfl

section OneState
variable {W : Type} [LinearOrder W] {ts : List (Arc Nat Char Char W)} {source : Nat}

theorem inOrder_prune (ts : List (Arc Nat Char Char W)) : InOrder rewriteTransitionKey ts (pruneDominatedTransitions ts) :=
  pruneDominatedTransitions_eq ts ▸ (prune_linear ts).2

theorem inOrder_labels (hsource : ∀ t ∈ ts, t.source = source) : InOrder arcLabels ts (pruneDominatedTransitions ts) := by
  have hkept : ∀ t ∈ pruneDominatedTransitions ts, t.source = source := fun t ht => hsource t ((reduces_prune ts).sub t ht)
  have horder := inOrder_prune ts
  rw [InOrder, map_rewriteTransitionKey hsource, map_rewriteTransitionKey hkept,
    eraseDups_map (Prod.mk_right_injective source)] at horder
  exact List.map_injective_iff.mpr (Prod.mk_right_injective source) horder

theorem isLeast_prune {t : Arc Nat Char Char W} (ht : t ∈ pruneDominatedTransitions ts) :
    IsLeast {w | ∃ u ∈ ts, rewriteTransitionKey u = rewriteTransitionKey t ∧ u.weight = w} t.weight :=
  (reduces_prune ts).isLeast ht

theorem isLeast_labels (hsource : ∀ t ∈ ts, t.source = source) {t : Arc Nat Char Char W} (ht : t ∈ pruneDominatedTransitions ts) :
    IsLeast {w | ∃ u ∈ ts, arcLabels u = arcLabels t ∧ u.weight = w} t.weight := by
  have hleast := isLeast_prune ht
  have hset : {w | ∃ u ∈ ts, arcLabels u = arcLabels t ∧ u.weight = w} =
      {w | ∃ u ∈ ts, rewriteTransitionKey u = rewriteTransitionKey t ∧ u.weight = w} := by
    ext w
    simp only [Set.mem_ofPred_eq, rewriteTransitionKey_eq_iff]
    refine exists_congr fun u => and_congr_right fun hu => ?_
    rw [hsource u hu, hsource t ((reduces_prune ts).sub t ht)]
    simp
  rw [hset]
  exact hleast

end OneState

/-! ### Graphs -/

/-- The transducer with the arcs `out`. -/
def arcGraph {W : Type} (out : Nat → List (Arc Nat Char Char W)) (final? : Nat → Option W) : Transducer Nat Char Char W :=
  ArcPath.machine fun s => some ⟨out s, final? s⟩

theorem trims_prune {W : Type} [LinearOrder W] [AddCommMonoid W] (out : Nat → List (Arc Nat Char Char W))
    (final? : Nat → Option W) :
    (arcGraph (fun s => pruneDominatedTransitions (out s)) final?).Trims (arcGraph out final?) := by
  refine ⟨?_, ?_, ?_⟩
  · rintro s a b w t ⟨e, he, arc, harc, h⟩
    cases he
    exact ⟨_, rfl, arc, (reduces_prune _).sub arc harc, h⟩
  · rintro s a b w t ⟨e, he, arc, harc, rfl, rfl, rfl, rfl⟩
    cases he
    obtain ⟨kept, hkept, hkey, hle⟩ := (reduces_prune _).least arc harc
    have hlabels := (rewriteTransitionKey_eq_iff.mp hkey).2
    simp only [arcLabels, Prod.mk.injEq] at hlabels
    exact ⟨kept.weight, hle, _, rfl, kept, hkept, hlabels.1, hlabels.2.1, rfl, hlabels.2.2⟩
  · intro s f
    simp [arcGraph, ArcPath.machine]

/-- Both ways of pruning leave the same list: for each source, labels and target the lightest transition, in the order in which
    they occur first. Of the transitions of one state the labels and the target decide alone. A graph spells the same pairs with
    the same least weights when the transitions of its states are pruned. -/
theorem prune_lossless {W : Type} [LinearOrder W] [AddCommMonoid W] [IsOrderedAddMonoid W] (ts : List (Arc Nat Char Char W)) :
    (pruneDominatedTransitions ts = pruneDominatedTransitionsLinear ts ∧
      pruneDominatedTransitions ts = (ts.foldl pruneStepHashed ([], [])).1) ∧
    (pruneDominatedTransitions ts).map rewriteTransitionKey = (ts.map rewriteTransitionKey).eraseDups ∧
    (∀ t ∈ pruneDominatedTransitions ts, t ∈ ts ∧
      IsLeast {w | ∃ u ∈ ts, rewriteTransitionKey u = rewriteTransitionKey t ∧ u.weight = w} t.weight) ∧
    (∀ source, (∀ t ∈ ts, t.source = source) →
      (pruneDominatedTransitions ts).map arcLabels = (ts.map arcLabels).eraseDups ∧
      ∀ t ∈ pruneDominatedTransitions ts, IsLeast {w | ∃ u ∈ ts, arcLabels u = arcLabels t ∧ u.weight = w} t.weight) ∧
    ∀ (out : Nat → List (Arc Nat Char Char W)) (final? : Nat → Option W) (s : Nat) (x y : List Char),
      ((∃ v, (arcGraph (fun s => pruneDominatedTransitions (out s)) final?).Accepts s x y v) ↔
        ∃ v, (arcGraph out final?).Accepts s x y v) ∧
      ∀ w, (arcGraph (fun s => pruneDominatedTransitions (out s)) final?).LeastWeight s x y w ↔
        (arcGraph out final?).LeastWeight s x y w := by
  refine ⟨⟨pruneDominatedTransitions_eq ts, ?_⟩, inOrder_prune ts, ?_, ?_, ?_⟩
  · rw [pruneDominatedTransitions_eq, (foldl_pruneStepHashed ts).1]
  · exact fun t ht => ⟨(reduces_prune ts).sub t ht, isLeast_prune ht⟩
  · exact fun source hsource => ⟨inOrder_labels hsource, fun t => isLeast_labels hsource⟩
  · intro out final? s x y
    have htrims := trims_prune out final?
    refine ⟨⟨?_, ?_⟩, fun w => htrims.leastWeight_iff⟩
    · intro ⟨v, hv⟩
      exact ⟨v, htrims.accepts_of hv⟩
    · intro ⟨v, hv⟩
      obtain ⟨v', _, hv'⟩ := htrims.accepts hv
      exact ⟨v', hv'⟩

theorem prune_lossless_tie : (pruneDominatedTransitions [⟨0, some 'a', none, 1, (1 : ℚ)⟩, ⟨0, some 'b', none, 1, 0⟩,
    ⟨0, some 'a', none, 1, 1⟩]).map arcLabels = [(some 'a', none, 1), (some 'b', none, 1)] :=
  ((prune_lossless _).2.2.2.1 0 (by simp)).1.trans (by decide)

/-- Transitions of two states are not compared, whatever their labels. -/
theorem prune_keeps_sources : ¬ ((pruneDominatedTransitions
    [⟨0, some 'a', some 'b', 1, (1 : ℚ)⟩, ⟨2, some 'a', some 'b', 1, 0⟩]).map arcLabels).Nodup := by
  decide

end Duallity
