import Duallity.Lib.ArcPath

/-! Graphs in which every arc has a label and what a path reads and writes is bounded: their paths are no longer than both
    bounds together, and they have no cycle. -/

namespace Transducer
variable {σ α β ω : Type*} [AddMonoid ω]

/-- The steps that are reached from `s` have labels, and paths from `s` read at most `m` and write at most `n` symbols. -/
structure BoundedFrom (T : Transducer σ α β ω) (s : σ) (m n : Nat) : Prop where
  labelled : ∀ {x y w t a b v u}, T.Path s x y w t → T.step t a b v u → a.isSome ∨ b.isSome
  reads : ∀ {x y w t}, T.Path s x y w t → x.length ≤ m
  writes : ∀ {x y w t}, T.Path s x y w t → y.length ≤ n

end Transducer

namespace ArcPath
open LazySource
variable {σ α β ω : Type*} {log log' : List (σ × Expansion σ α β ω)} {start s t u : σ} {arcs arcs' : List (Arc σ α β ω)}
  {m n : Nat}

/-! ### Trails -/

theorem IsTrail.append (h : IsTrail log s arcs t) (h' : IsTrail log t arcs' u) : IsTrail log s (arcs ++ arcs') u := by
  induction h with
  | nil => exact h'
  | cons he harc _ ih => exact .cons he harc (ih h')

theorem IsTrail.mono (h : IsTrail log s arcs t) (hlog : log ⊆ log') : IsTrail log' s arcs t := by
  induction h with
  | nil s => exact .nil s
  | cons he harc _ ih => exact .cons (hlog he) harc ih

theorem IsTrail.exists_of_mem {arc : Arc σ α β ω} (h : IsTrail log s arcs t) (harc : arc ∈ arcs) :
    ∃ l ∈ log, arc ∈ l.2.arcs := by
  induction h with
  | nil => cases harc
  | cons he hfirst _ ih =>
    rcases List.mem_cons.mp harc with rfl | hmem
    · exact ⟨_, he, hfirst⟩
    · exact ih hmem

/-- Whatever an exploration has reached is at the end of a trail. -/
theorem exists_isTrail_of_reached {ρ : Type*} {S : LazySource ρ σ α β ω} {r r' : ρ} (h : S.ExploresFrom start r log r')
    (hreached : Reached log start s) : ∃ arcs, IsTrail log start arcs s := by
  induction h generalizing s with
  | nil =>
    rcases hreached with rfl | ⟨l, hl, -⟩
    · exact ⟨[], .nil s⟩
    · cases hl
  | @expanded r₁ r₂ log s' e hE hs' _ _ ih =>
    have hsub : log ⊆ (s', e) :: log := List.subset_cons_self _ _
    rcases hreached with rfl | ⟨l, hl, arc, harc, rfl⟩
    · exact ⟨[], .nil s⟩
    rcases List.mem_cons.mp hl with rfl | hl
    · obtain ⟨arcs, htrail⟩ := ih hs'
      exact ⟨arcs ++ [arc], (htrail.mono hsub).append (.cons List.mem_cons_self harc (.nil _))⟩
    · obtain ⟨arcs, htrail⟩ := ih (Or.inr ⟨l, hl, arc, harc, rfl⟩)
      exact ⟨arcs, htrail.mono hsub⟩

theorem exists_isTrail_of_mem {ρ : Type*} {S : LazySource ρ σ α β ω} {r r' : ρ} {e : Expansion σ α β ω}
    (h : S.ExploresFrom start r log r') (hmem : (s, e) ∈ log) : ∃ arcs, IsTrail log start arcs s := by
  induction h with
  | nil => cases hmem
  | @expanded r₁ r₂ log s' e' hE hs' _ _ ih =>
    have hsub : log ⊆ (s', e') :: log := List.subset_cons_self _ _
    rcases List.mem_cons.mp hmem with heq | hmem
    · cases heq
      obtain ⟨arcs, htrail⟩ := exists_isTrail_of_reached hE hs'
      exact ⟨arcs, htrail.mono hsub⟩
    · obtain ⟨arcs, htrail⟩ := ih hmem
      exact ⟨arcs, htrail.mono hsub⟩

/-! ### Bounds -/

/-- Every arc has a label, and a trail of what is reached from `start` reads at most `m` and writes at most `n` symbols, has
    at most `m + n` arcs, and does not come back to where it began unless it is empty. -/
structure BoundedTrails (log : List (σ × Expansion σ α β ω)) (start : σ) (m n : Nat) : Prop where
  labelled : ∀ l ∈ log, ∀ arc ∈ l.2.arcs, arc.input.isSome ∨ arc.output.isSome
  reads : ∀ {s t arcs arcs'}, IsTrail log start arcs s → IsTrail log s arcs' t → (inputs arcs').length ≤ m
  writes : ∀ {s t arcs arcs'}, IsTrail log start arcs s → IsTrail log s arcs' t → (outputs arcs').length ≤ n
  length_le : ∀ {s t arcs arcs'}, IsTrail log start arcs s → IsTrail log s arcs' t → arcs'.length ≤ m + n
  acyclic : ∀ {s arcs arcs'}, IsTrail log start arcs s → IsTrail log s arcs' s → arcs' = []

/-- A list of labelled arcs is no longer than its labels. -/
theorem length_le_labels (h : ∀ arc ∈ arcs, arc.input.isSome ∨ arc.output.isSome) :
    arcs.length ≤ (inputs arcs).length + (outputs arcs).length := by
  induction arcs with
  | nil => simp
  | cons arc arcs ih =>
    obtain ⟨harc, harcs⟩ := List.forall_mem_cons.mp h
    have hone : 1 ≤ arc.input.toList.length + arc.output.toList.length := by
      rcases harc with hsome | hsome <;> obtain ⟨a, ha⟩ := Option.isSome_iff_exists.mp hsome <;> simp [ha]
    have := ih harcs
    simp only [inputs, outputs, List.flatMap_cons, List.length_append, List.length_cons] at this ⊢
    omega

/-- Bounds on the trails from the start are enough. -/
theorem boundedTrails_of (hlabelled : ∀ l ∈ log, ∀ arc ∈ l.2.arcs, arc.input.isSome ∨ arc.output.isSome)
    (hbounds : ∀ {t arcs}, IsTrail log start arcs t → (inputs arcs).length ≤ m ∧ (outputs arcs).length ≤ n) :
    BoundedTrails log start m n := by
  have htrail : ∀ {s t arcs arcs'}, IsTrail log start arcs s → IsTrail log s arcs' t →
      (inputs arcs').length ≤ m ∧ (outputs arcs').length ≤ n := by
    intro s t arcs arcs' h h'
    have hall := hbounds (h.append h')
    simp only [inputs, outputs, List.flatMap_append, List.length_append] at hall ⊢
    omega
  have hlength : ∀ {s t arcs arcs'}, IsTrail log start arcs s → IsTrail log s arcs' t → arcs'.length ≤ m + n := by
    intro s t arcs arcs' h h'
    have hlabels := length_le_labels fun arc harc => by
      obtain ⟨l, hl, hmem⟩ := h'.exists_of_mem harc
      exact hlabelled l hl arc hmem
    have := htrail h h'
    omega
  refine ⟨hlabelled, fun h h' => (htrail h h').1, fun h h' => (htrail h h').2, hlength, ?_⟩
  intro s arcs cycle h hcycle
  -- Going round `i` times gives a trail with at least `i` arcs.
  have hrounds : cycle ≠ [] → ∀ i, ∃ arcs, IsTrail log s arcs s ∧ i ≤ arcs.length := by
    intro hne i
    have hpos := List.length_pos_iff.mpr hne
    induction i with
    | zero => exact ⟨[], .nil s, le_rfl⟩
    | succ i ih =>
      obtain ⟨arcs, harcs, hle⟩ := ih
      refine ⟨arcs ++ cycle, harcs.append hcycle, ?_⟩
      rw [List.length_append]
      omega
  by_contra hne
  obtain ⟨rounds, hround, hlong⟩ := hrounds hne (m + n + 1)
  have := hlength h hround
  omega

/-- An exploration has the bounds of the abstract transducer that it is sound for. -/
theorem boundedTrails_of_sound {ρ τ : Type*} [AddMonoid ω] {S : LazySource ρ σ α β ω} {T : Transducer τ α β ω} {inv : ρ → Prop}
    {den : ρ → σ → τ → Prop} {r r' : ρ} {a : τ} (h : Sound S T inv den) (hT : T.BoundedFrom a m n)
    (hE : S.ExploresFrom start r log r') (hr : inv r) (hs : den r start a) : BoundedTrails log start m n := by
  have hstart := h.den_explores hE.explores hr hs
  refine boundedTrails_of ?_ fun htrail => ?_
  · intro ⟨s, e⟩ hmem arc harc
    obtain ⟨arcs, htrail⟩ := exists_isTrail_of_mem hE hmem
    obtain ⟨b, hb, hpath⟩ := h.path hE.explores hr hstart htrail.path
    obtain ⟨b', hb', hsteps, -⟩ := h.logged hE.explores hr hmem
    cases h.den_unique (h.inv_explores hE.explores hr) hb hb'
    obtain ⟨c, -, hstep⟩ := hsteps arc harc
    exact hT.labelled hpath hstep
  · obtain ⟨b, -, hpath⟩ := h.path hE.explores hr hstart htrail.path
    exact ⟨hT.reads hpath, hT.writes hpath⟩

end ArcPath
