import Duallity.Generalized.Relation
import Duallity.Levenshtein.Relation
import Duallity.Lib.BoundedPaths
import Duallity.Universal.Exploration
import Duallity.Universal.PositionAutomaton

/-! Paths of the product graphs: every arc has a label, so that the query and the depth of the dictionary bound the number of
    arcs, and the arc weights add up to the cost that the reached state holds. -/

namespace Duallity

/-- The length of the longest label sequence of a dictionary. -/
noncomputable def FiniteDictionary.depth {N U : Type} [CharUnit U] (D : FiniteDictionary N U) : Nat :=
  D.finite.toFinset.sup List.length

theorem FiniteDictionary.length_le_depth {N U : Type} [CharUnit U] {D : FiniteDictionary N U} {p : List Char}
    (h : p ∈ D.prefixes) : p.length ≤ D.depth :=
  Finset.le_sup (f := List.length) (D.finite.mem_toFinset.mpr h)

/-! ### Levenshtein -/

namespace EditMachine
variable {N U : Type} [CharUnit U] {D : FiniteDictionary N U} {q : List Char} {k : Nat} {algorithm : Algorithm}
  {x y : List Char} {v : Nat} {s : EditState}

theorem Step.labelled {s t : EditState} {a b : Option Char} {u : Nat} (h : Step D.toDictionary q k algorithm s a b u t) :
    a.isSome ∨ b.isSome := by
  cases h <;> simp

theorem Step.spelled {s t : EditState} {a b : Option Char} {u : Nat} (h : Step D.toDictionary q k algorithm s a b u t)
    (hs : s.spelled ∈ D.prefixes) : t.spelled ∈ D.prefixes := by
  obtain ⟨p, automaton⟩ := s
  cases b with
  | some c =>
    have hp := mem_prefixes_of_step h
    cases h <;> exact hp
  | none => cases h <;> exact hs

theorem Reached.length_le (h : Reached q k algorithm x y v s) : x.length ≤ q.length := by
  obtain ⟨-, -, -, h⟩ := h
  split at h
  · obtain ⟨-, rfl, -⟩ := h
    exact List.length_take_le' ..
  · obtain ⟨a, b, p, -, ha, -, -, rfl, -⟩ := h
    rw [← take_succ_of_getElem? ha]
    exact List.length_take_le' ..
  · obtain ⟨a, c, p, -, ha, -, rfl, -⟩ := h
    rw [← take_succ_of_getElem? ha]
    exact List.length_take_le' ..
  · obtain ⟨a, c, p, -, ha, rfl, -⟩ := h
    rw [← take_succ_of_getElem? ha]
    exact List.length_take_le' ..

theorem boundedFrom : (machine D.toDictionary q k algorithm).BoundedFrom start q.length D.depth where
  labelled _ hstep := Step.labelled hstep
  reads h := (reached h).length_le
  writes {x y w t} h := by
    have hspelled : t.spelled ∈ D.prefixes := by
      refine Transducer.Path.snocInduction (motive := fun _ _ _ s => s.spelled ∈ D.prefixes) Dictionary.nil_mem_prefixes ?_ h
      exact fun _ hs hstep => Step.spelled hstep hs
    rw [← (reached h).1]
    exact FiniteDictionary.length_le_depth hspelled

end EditMachine

/-! ### Universal -/

namespace UniversalProduct
variable {N U σ β κ : Type} [CharUnit U] {A : UniversalAutomaton σ β κ} {D : FiniteDictionary N U} {q : List Char} {k : Nat}

theorem boundedFrom : (machine A D.toDictionary q k).BoundedFrom start q.length D.depth where
  labelled _ hstep := by cases hstep <;> simp
  reads h := by
    rw [(reached h).input]
    exact List.length_take_le' ..
  writes {x y w t} h := by
    have hspelled : t.spelled ∈ D.prefixes := by
      refine Transducer.Path.snocInduction (motive := fun _ _ _ s => s.spelled ∈ D.prefixes) Dictionary.nil_mem_prefixes ?_ h
      intro x y w s a b v t _ hs hstep
      cases hstep with
      | edge hp => exact hp
      | skip => exact hs
    rw [← (reached h).spelled]
    exact FiniteDictionary.length_le_depth hspelled

end UniversalProduct

/-! ### Generalized -/

/-- What the documentation of `liblevenshtein` says of the sets and scales that it accepts: every operation consumes a character,
    and a scale multiplies weights and budgets by a common denominator. -/
structure OperationLibrary.Documented {R : Type} (lib : OperationLibrary R) : Prop where
  progress : ∀ operations, lib.validate operations = true → ∀ o ∈ operations, o.consumeX ≠ 0 ∨ o.consumeY ≠ 0
  scale : ∀ operations scale, lib.costScaleFor operations = some scale → ∃ denominator : Nat, 0 < denominator ∧
    (∀ weight n, scale.toScaled weight = some n → (n : ℚ) = denominator * weight) ∧
    ∀ budget n, scale.scaleBudget budget = some n → n = denominator * budget

theorem GeneralizedWfst.validate_of_tryNew {N R : Type} [DecidableEq R] {D : DictionaryProvider N} {lib : OperationLibrary R}
    {query : List Char} {maxDistance : Nat} {operations : OperationSet R} {limits : GeneralizedWfstLimits}
    {src : GeneralizedWfst N R} (h : tryNewWithLimits D lib query maxDistance operations limits = .ok src) :
    lib.validate operations = true := by
  unfold tryNewWithLimits at h
  split at h
  · assumption
  · cases h

namespace OperationMachine
open Alignment GeneralizedOps
variable {N R : Type} {D : FiniteDictionary N Char} {src : GeneralizedWfst N R} {scale : CostScale} {operations : OperationSet R}
  {x y : List Char} {c : ℚ} {point point' : Point} {a b : Option Char} {w : ℚ}

/-- A point within the budget and the dictionary, with labels left to emit. -/
def Within (D : FiniteDictionary N Char) (src : GeneralizedWfst N R) : Point → Prop
  | .product p => p.cost ≤ src.maxCost ∧ p.spelled ∈ D.prefixes
  | .emit input output position target => position < max input.length output.length ∧ target.cost ≤ src.maxCost ∧
      target.spelled ∈ D.prefixes

theorem within_after {input output : List Char} {position : Nat} {target : ProductPoint} (hcost : target.cost ≤ src.maxCost)
    (hspelled : target.spelled ∈ D.prefixes) : Within D src (.after input output position target) := by
  unfold Point.after
  split
  · exact ⟨hcost, hspelled⟩
  · exact ⟨by omega, hcost, hspelled⟩

/-- The operation of an arc fits the rest of the budget. -/
theorem cost_le_of_mem_operationArcs {n : N} {p : ProductPoint} {arc : OperationArc} (hp : p.cost ≤ src.maxCost)
    (h : arc ∈ operationArcs D.toDictionary src n p) : arc.target.cost ≤ src.maxCost := by
  obtain ⟨prepared, -, h⟩ := List.mem_flatMap.mp h
  unfold appliedArcs at h
  split at h
  · cases h
  · rename_i hfits
    simp only at h
    split at h
    · cases h
    · obtain ⟨path, -, rfl⟩ := List.mem_map.mp h
      simp only
      omega

theorem Within.step (hsrc : src.PreparedFrom scale operations) (h : Within D src point)
    (hstep : Step D.toDictionary src point a b w point') : Within D src point' := by
  cases hstep with
  | @operation p n arc hn harc =>
    obtain ⟨d, -, -, ⟨m, hwalk⟩, -, -, htarget⟩ := mem_operationArcs hsrc D.labels_nodup harc
    refine within_after (cost_le_of_mem_operationArcs h.1 harc) ?_
    rw [htarget]
    refine Dictionary.mem_prefixes.mpr ⟨m, ?_⟩
    rw [Dictionary.node?_append, hn]
    exact hwalk
  | emission => exact within_after h.2.1 h.2.2

/-- Operations that consume a character have a label, and so have the labels that are left. -/
theorem Step.labelled (hsrc : src.PreparedFrom scale operations) (hprogress : ∀ o ∈ operations, o.consumeX ≠ 0 ∨ o.consumeY ≠ 0)
    (h : Within D src point) (hstep : Step D.toDictionary src point a b w point') : a.isSome ∨ b.isSome := by
  cases hstep with
  | @operation p n arc hn harc =>
    obtain ⟨c, ⟨o, ho, hx, hy, -⟩, -⟩ := mem_operationArcs hsrc D.labels_nodup harc
    rw [List.isSome_head?, List.isSome_head?]
    rcases hprogress o ho with hne | hne
    · right
      rintro hnil
      rw [hnil] at hx
      exact hne hx.symm
    · left
      rintro hnil
      rw [hnil] at hy
      exact hne hy.symm
  | @emission input output position target =>
    rcases lt_max_iff.mp h.1 with hlt | hlt
    · exact Or.inl (by simpa using hlt)
    · exact Or.inr (by simpa using hlt)

/-- What holds along every path from the start. -/
theorem covers_within (hsrc : src.PreparedFrom scale operations)
    (h : (machine D.toDictionary src).Path (.product start) x y c point) :
    Covers src scale operations x y c point ∧ Within D src point := by
  refine Transducer.Path.snocInduction
    (motive := fun x y c point => Covers src scale operations x y c point ∧ Within D src point) ?_ ?_ h
  · exact ⟨⟨⟨Nat.zero_le _, .nil⟩, rfl, rfl⟩, Nat.zero_le _, Dictionary.nil_mem_prefixes⟩
  · exact fun _ ih hstep => ⟨ih.1.step hsrc D.labels_nodup hstep, ih.2.step hsrc hstep⟩

theorem Covers.length_le (h : Covers src scale operations x y c point) (hwithin : Within D src point) :
    x.length ≤ src.query.length ∧ y.length ≤ D.depth := by
  cases point with
  | product p =>
    obtain ⟨-, rfl, rfl⟩ := h
    exact ⟨List.length_take_le' .., FiniteDictionary.length_le_depth hwithin.2⟩
  | emit input output position target =>
    obtain ⟨-, v, u, hinput, houtput, rfl, rfl⟩ := h
    have hx : (v ++ input).length ≤ src.query.length := by
      rw [← hinput]
      exact List.length_take_le' ..
    have hy : (u ++ output).length ≤ D.depth := by
      rw [← houtput]
      exact FiniteDictionary.length_le_depth hwithin.2.2
    have := List.length_take_le' position input
    have := List.length_take_le' position output
    simp only [List.length_append] at hx hy ⊢
    omega

theorem boundedFrom (hsrc : src.PreparedFrom scale operations) (hprogress : ∀ o ∈ operations, o.consumeX ≠ 0 ∨ o.consumeY ≠ 0) :
    (machine D.toDictionary src).BoundedFrom (.product start) src.query.length D.depth where
  labelled h hstep := Step.labelled hsrc hprogress (covers_within hsrc h).2 hstep
  reads h := ((covers_within hsrc h).1.length_le (covers_within hsrc h).2).1
  writes h := ((covers_within hsrc h).1.length_le (covers_within hsrc h).2).2

/-- On an exact scale, the scaled weights of an alignment add up to its scaled weight. -/
theorem align_scaled {lib : OperationLibrary R} {denominator : Nat} {d : ℚ × Nat}
    (hscale : ∀ weight n, scale.toScaled weight = some n → (n : ℚ) = denominator * weight)
    (h : Align (Consumes lib scale operations) y x d) : (d.2 : ℚ) = denominator * d.1 := by
  induction h with
  | nil => simp
  | cons hop _ ih =>
    obtain ⟨o, -, -, -, -, hweight, hscaled⟩ := hop
    rw [Prod.snd_add, Prod.fst_add, Nat.cast_add, ih, hscale _ _ hscaled, hweight, mul_add]

end OperationMachine

/-! ### Explored graphs -/

section Explored
open LazySource ArcPath
variable {N U : Type} [CharUnit U]

theorem LevenshteinStateSource.boundedTrails {D : FiniteDictionary N U} {q : List Char} {k : Nat} {algorithm : Algorithm}
    {log : List (Nat × Expansion Nat Char Char Nat)} {r : DictionaryNodeRegistry N}
    (hE : (sourceOf D q k algorithm).source.ExploresFrom start (initial D) log r) :
    BoundedTrails log start q.length D.depth ∧ ∀ {arcs t}, IsTrail log start arcs t → weight arcs ≤ k ∧
      ∀ id aid a, (sourceOf D q k algorithm).codec.decodeProductState t = some (id, aid) →
        (sourceOf D q k algorithm).codec.decodeAutomatonState aid = some a → weight arcs = a.editCost := by
  refine ⟨boundedTrails_of_sound sound EditMachine.boundedFrom hE wellFormed_initial denotes_start, ?_⟩
  intro arcs t htrail
  have hstart := sound.den_explores hE.explores wellFormed_initial denotes_start
  obtain ⟨s, ⟨-, id', aid', hdecode', -, ha'⟩, hpath⟩ := sound.path hE.explores wellFormed_initial hstart htrail.path
  obtain ⟨-, hcost, hle, -⟩ := EditMachine.reached hpath
  refine ⟨hle, fun id aid a hdecode ha => ?_⟩
  cases hdecode.symm.trans hdecode'
  cases ha.symm.trans ha'
  exact hcost.symm

theorem UniversalLevenshteinStateSource.boundedTrails {σ β κ : Type} [DecidableEq κ] {A : UniversalAutomaton σ β κ}
    {D : FiniteDictionary N U} {q : List Char} {k : Nat} {log : List (Nat × Expansion Nat Char Char Nat)}
    {r : UniversalRegistries N σ κ} (hkey : Function.Injective A.key)
    (hE : (sourceOf A D q k).source.ExploresFrom start (initial A D q k) log r) :
    BoundedTrails log start q.length D.depth :=
  boundedTrails_of_sound (sound_denoted hkey) UniversalProduct.boundedFrom
    ((sound_denoted hkey).exploresFrom_restrict hE wellFormed_initial denotes_start) wellFormed_initial denotes_start

theorem GeneralizedWfst.boundedTrails {R : Type} [DecidableEq R] {D : FiniteDictionary N Char} {lib : OperationLibrary R}
    {query : List Char} {maxDistance owner tick : Nat} {operations : OperationSet R} {limits : GeneralizedWfstLimits}
    {src : GeneralizedWfst N R} {env : Environment N} {log : List (Nat × CachedCharState)} {s : Registries N × Nat}
    (hlib : lib.Documented)
    (h : tryNewWithLimits D.provider lib query maxDistance operations limits = .ok src) (henv : env.Publishes D.toDictionary)
    (hE : (src.source env).ExploresFrom start (src.newRegistries owner, tick) log s) :
    BoundedTrails log start query.length D.depth ∧ ∃ denominator : Nat, 0 < denominator ∧
      ∀ {arcs t}, IsTrail log start arcs t → weight arcs ≤ maxDistance ∧
        ∀ product, s.1.states.get t = some (.product product) → denominator * weight arcs = (product.cost : ℚ) := by
  obtain ⟨hdictionary, hlibrary, hquery⟩ := arguments_eq h
  obtain ⟨scale, hscale, hbudget, hsrc⟩ := preparedFrom h
  obtain ⟨denominator, hpos, hscaled, hmax⟩ := hlib.scale operations scale hscale
  have hprogress := hlib.progress operations (validate_of_tryNew h)
  have hwellFormed := wellFormed_newRegistries hdictionary owner
  have hstart : src.Denotes (src.newRegistries owner) start (.product OperationMachine.start) := denotes_start owner
  have hsound := (exact D.labels_nodup h henv).toSound
  have hexplores := hsound.exploresFrom_restrict hE hwellFormed hstart
  have hbounded := OperationMachine.boundedFrom (D := D) hsrc hprogress
  rw [hquery] at hbounded
  refine ⟨boundedTrails_of_sound hsound hbounded hexplores hwellFormed hstart, denominator, hpos, ?_⟩
  intro arcs t htrail
  have hstart' := hsound.den_explores hexplores.explores hwellFormed hstart
  obtain ⟨point, hden, hpath⟩ := hsound.path hexplores.explores hwellFormed hstart' htrail.path
  obtain ⟨hcovers, hwithin⟩ := OperationMachine.covers_within (D := D) hsrc hpath
  -- The path ends at a product state, or on the way to one.
  obtain ⟨p, ⟨-, halign⟩, hcost, hproduct⟩ : ∃ p, OperationMachine.AlignedTo src scale operations (weight arcs) p ∧
      p.cost ≤ src.maxCost ∧ ∀ product, s.1.states.get t = some (.product product) → product.cost = p.cost := by
    cases point with
    | product p =>
      obtain ⟨-, node, -, hget⟩ := hden
      refine ⟨p, hcovers.1, hwithin.1, fun product hproduct => ?_⟩
      cases hproduct.symm.trans hget
      rfl
    | emit input output position target =>
      obtain ⟨product, next, hget, -⟩ := hden
      exact ⟨target, hcovers.1, hwithin.2.1, fun product hproduct => nomatch hproduct.symm.trans hget⟩
  have hweight : (p.cost : ℚ) = denominator * weight arcs := OperationMachine.align_scaled hscaled halign
  refine ⟨?_, fun product hget => by rw [← hweight, hproduct product hget]⟩
  have hmax : (p.cost : ℚ) ≤ denominator * maxDistance := by
    rw [hmax maxDistance src.maxCost hbudget] at hcost
    exact_mod_cast hcost
  rw [hweight] at hmax
  exact le_of_mul_le_mul_left hmax (by exact_mod_cast hpos)

/-- In the product graphs of a finite dictionary every arc has a label, paths read no more than the query and write no more than
    the depth of the dictionary, so that their arcs are bounded by both and none is a cycle. The weight of a path is the cost
    that the reached state holds, for a Generalized source on its exact scale, and within the bound. -/
theorem product_paths_bounded :
    (∀ {N U : Type} [CharUnit U] (D : FiniteDictionary N U) (q : List Char) (k : Nat) (algorithm : Algorithm)
      (log : List (Nat × Expansion Nat Char Char Nat)) (r : DictionaryNodeRegistry N),
      (LevenshteinStateSource.sourceOf D q k algorithm).source.ExploresFrom LevenshteinStateSource.start
        (LevenshteinStateSource.initial D) log r →
      BoundedTrails log LevenshteinStateSource.start q.length D.depth ∧
        ∀ {arcs t}, IsTrail log LevenshteinStateSource.start arcs t → weight arcs ≤ k ∧
          ∀ id aid a, (LevenshteinStateSource.sourceOf D q k algorithm).codec.decodeProductState t = some (id, aid) →
            (LevenshteinStateSource.sourceOf D q k algorithm).codec.decodeAutomatonState aid = some a →
            weight arcs = a.editCost) ∧
    (∀ {N U σ β κ : Type} [CharUnit U] [DecidableEq κ] (A : UniversalAutomaton σ β κ) (D : FiniteDictionary N U)
      (q : List Char) (k : Nat) (log : List (Nat × Expansion Nat Char Char Nat)) (r : UniversalRegistries N σ κ),
      Function.Injective A.key →
      (UniversalLevenshteinStateSource.sourceOf A D q k).source.ExploresFrom UniversalLevenshteinStateSource.start
        (UniversalLevenshteinStateSource.initial A D q k) log r →
      BoundedTrails log UniversalLevenshteinStateSource.start q.length D.depth) ∧
    (∀ {N R : Type} [DecidableEq R] (D : FiniteDictionary N Char) (lib : OperationLibrary R) (query : List Char)
      (maxDistance owner tick : Nat) (operations : OperationSet R) (limits : GeneralizedWfstLimits)
      (src : GeneralizedWfst N R) (env : Environment N) (log : List (Nat × CachedCharState)) (s : Registries N × Nat),
      lib.Documented → GeneralizedWfst.tryNewWithLimits D.provider lib query maxDistance operations limits = .ok src →
      env.Publishes D.toDictionary →
      (src.source env).ExploresFrom GeneralizedWfst.start (src.newRegistries owner, tick) log s →
      BoundedTrails log GeneralizedWfst.start query.length D.depth ∧ ∃ denominator : Nat, 0 < denominator ∧
        ∀ {arcs t}, IsTrail log GeneralizedWfst.start arcs t → weight arcs ≤ maxDistance ∧
          ∀ product, s.1.states.get t = some (.product product) → denominator * weight arcs = (product.cost : ℚ)) :=
  ⟨fun _ _ _ _ _ _ hE => LevenshteinStateSource.boundedTrails hE,
    fun _ _ _ _ _ _ hkey hE => UniversalLevenshteinStateSource.boundedTrails hkey hE,
    fun _ _ _ _ _ _ _ _ _ _ _ _ hlib h henv hE => GeneralizedWfst.boundedTrails hlib h henv hE⟩

/-- Whole weights, of operations that consume a character. -/
def checkedLibrary : OperationLibrary Unit :=
  ⟨fun operations => operations.all fun o => o.consumeX ≠ 0 ∨ o.consumeY ≠ 0, fun _ => some GeneralizedWfst.wholeScale,
    fun _ _ _ => false⟩

theorem checkedLibrary_documented : checkedLibrary.Documented where
  progress operations h o ho := of_decide_eq_true (List.all_eq_true.mp h o ho)
  scale operations scale h := by
    obtain rfl := Option.some.inj h
    refine ⟨1, Nat.one_pos, fun weight n hn => ?_, fun budget n hn => ?_⟩
    · unfold GeneralizedWfst.wholeScale at hn
      simp only at hn
      split at hn
      · rename_i hwhole
        obtain rfl := Option.some.inj hn
        rw [Nat.cast_one, one_mul, ← Rat.coe_int_num_of_den_eq_one hwhole.1]
        exact_mod_cast Int.toNat_of_nonneg hwhole.2
      · cases hn
    · rw [Nat.one_mul]
      exact (Option.some.inj hn).symm

/-- The transposing source again, with a library that checks its operations. -/
def checkedTransposing : Except GeneralizedWfstError (GeneralizedWfst (List Char) Unit) :=
  GeneralizedWfst.tryNewWithLimits (trie [['b', 'a']]).provider checkedLibrary ['a', 'b'] 1 [⟨2, 2, 1, .adjacentTranspose⟩]
    ⟨9, 9, 9, 9, 9, 9, 9, 999⟩

theorem product_paths_bounded_checked :
    (∃ log r, (LevenshteinStateSource.sourceOf (trie [['a']]) ['b'] 1 .standard).source.ExploresFrom
        LevenshteinStateSource.start (LevenshteinStateSource.initial (trie [['a']])) log r ∧
      Complete log LevenshteinStateSource.start ∧
      BoundedTrails log LevenshteinStateSource.start 1 (trie [['a']]).depth) ∧
    (∃ log r, (UniversalLevenshteinStateSource.sourceOf positionAutomaton (trie [['a']]) ['a'] 0).source.ExploresFrom
        UniversalLevenshteinStateSource.start (UniversalLevenshteinStateSource.initial positionAutomaton (trie [['a']]) ['a'] 0)
        log r ∧ Complete log UniversalLevenshteinStateSource.start ∧
      BoundedTrails log UniversalLevenshteinStateSource.start 1 (trie [['a']]).depth) ∧
    ∃ src log s, checkedTransposing = .ok src ∧
      (src.source (.alone _)).ExploresFrom GeneralizedWfst.start (src.newRegistries 0, 0) log s ∧
      Complete log GeneralizedWfst.start ∧ BoundedTrails log GeneralizedWfst.start 2 (trie [['b', 'a']]).depth := by
  have hmeets : GeneralizedWfst.meetsAll checkedTransposing [0, 2, 1] = true := by decide +kernel
  have hstates : ∀ {r state}, (LevenshteinStateSource.sourceOf (trie [['a']]) ['b'] 1 .standard).source.valid r state →
      state ∈ Finset.range (u32Max + 1) := fun h => Finset.mem_range_succ_iff.mpr h.1
  obtain ⟨log, r, hE, hc⟩ := LevenshteinStateSource.sound.exists_complete LevenshteinStateSource.valid_of_denotes
    (fun _ _ => LevenshteinStateSource.exists_expandState _ _) hstates LevenshteinStateSource.wellFormed_initial
    LevenshteinStateSource.denotes_start
  obtain ⟨log', r', hE', hc'⟩ :=
    UniversalLevenshteinStateSource.exists_exploration positionAutomaton_key_injective (trie [['a']]) ['a'] 0
  obtain ⟨src, log'', s, hsrc, hE'', hc''⟩ := GeneralizedWfst.exists_exploration_of_meetsAll hmeets
  obtain ⟨hlevenshtein, huniversal, hgeneralized⟩ := product_paths_bounded
  exact ⟨⟨log, r, hE, hc, (hlevenshtein _ _ _ _ _ _ hE).1⟩,
    ⟨log', r', hE', hc', huniversal _ _ _ _ _ _ positionAutomaton_key_injective hE'⟩,
    src, log'', s, hsrc, hE'', hc'', (hgeneralized _ _ _ _ _ _ _ _ _ _ _ _ checkedLibrary_documented hsrc (.alone _) hE'').1⟩

end Explored

end Duallity
