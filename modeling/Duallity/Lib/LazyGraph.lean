import Duallity.Lib.Transducer
import Mathlib.Data.Finset.Card

/-! Graphs that are produced lazily. A source expands one state at a time; an expansion may grow a
    store, in which the states of the graph get their meaning. The graph of an exploration has the
    arcs and final weights that its expansions returned, in whatever order states were expanded.

    A denotation maps the states of the source to those of an abstract transducer. When every
    expansion returns exactly the abstract steps, a complete exploration accepts what the abstract
    transducer accepts. -/

/-- An arc as an expansion returns it. -/
structure Arc (σ α β ω : Type*) where
  source : σ
  input : Option α
  output : Option β
  target : σ
  weight : ω
deriving DecidableEq, Repr

/-- The arcs of a state, and its final weight when it is final. -/
structure Expansion (σ α β ω : Type*) where
  arcs : List (Arc σ α β ω)
  final? : Option ω
deriving DecidableEq, Repr

/-- A source of expansions over a store `ρ`. An expansion that fails returns nothing. -/
structure LazySource (ρ σ α β ω : Type*) where
  valid : ρ → σ → Prop
  expand : ρ → σ → ρ × Option (Expansion σ α β ω)

namespace LazySource
variable {ρ σ τ α β ω : Type*}

/-- `S.Explores r log r'`: expansions of valid states lead from the store `r` to `r'` and returned `log`,
    the latest first. -/
inductive Explores (S : LazySource ρ σ α β ω) : ρ → List (σ × Expansion σ α β ω) → ρ → Prop
  | nil (r : ρ) : Explores S r [] r
  | expanded {r r' r'' : ρ} {log : List (σ × Expansion σ α β ω)} {s : σ} {e : Expansion σ α β ω} :
      Explores S r log r' → S.valid r' s → S.expand r' s = (r'', some e) → Explores S r ((s, e) :: log) r''
  | failed {r r' r'' : ρ} {log : List (σ × Expansion σ α β ω)} {s : σ} :
      Explores S r log r' → S.expand r' s = (r'', none) → Explores S r log r''

/-- A logged expansion happened between two stores of the exploration. -/
theorem Explores.of_mem {S : LazySource ρ σ α β ω} {r r' : ρ} {log : List (σ × Expansion σ α β ω)}
    (h : S.Explores r log r') : ∀ {s e}, (s, e) ∈ log → ∃ log₁ r₁ r₂ log₂, S.Explores r log₁ r₁ ∧ S.valid r₁ s ∧
      S.expand r₁ s = (r₂, some e) ∧ S.Explores r₂ log₂ r' := by
  induction h with
  | nil => intro s e he; cases he
  | @expanded r₁ r₂ log s' e' hE hv he ih =>
    intro s e hmem
    rcases List.mem_cons.mp hmem with heq | hmem
    · cases heq
      exact ⟨log, r₁, r₂, [], hE, hv, he, .nil r₂⟩
    · obtain ⟨log₁, r₃, r₄, log₂, h1, h2, h3, h4⟩ := ih hmem
      exact ⟨log₁, r₃, r₄, _, h1, h2, h3, h4.expanded hv he⟩
  | @failed r₁ r₂ log s' hE he ih =>
    intro s e hmem
    obtain ⟨log₁, r₃, r₄, log₂, h1, h2, h3, h4⟩ := ih hmem
    exact ⟨log₁, r₃, r₄, _, h1, h2, h3, h4.failed he⟩

/-- The source whose expansions are those of `S` that satisfy `ok`. -/
def restrict (S : LazySource ρ σ α β ω) (ok : ρ → σ → Prop) : LazySource ρ σ α β ω where
  valid r s := S.valid r s ∧ ok r s
  expand := S.expand

/-- The graph of the returned expansions. -/
def graph (log : List (σ × Expansion σ α β ω)) : Transducer σ α β ω where
  step s a b w t := ∃ e, (s, e) ∈ log ∧ ∃ arc ∈ e.arcs,
    arc.input = a ∧ arc.output = b ∧ arc.weight = w ∧ arc.target = t
  final s f := ∃ e, (s, e) ∈ log ∧ e.final? = some f

/-- The start, or the target of a returned arc. -/
def Reached (log : List (σ × Expansion σ α β ω)) (start s : σ) : Prop :=
  s = start ∨ ∃ l ∈ log, ∃ arc ∈ l.2.arcs, arc.target = s

/-- An exploration from `start`: each state it expands has been reached before. -/
inductive ExploresFrom (S : LazySource ρ σ α β ω) (start : σ) : ρ → List (σ × Expansion σ α β ω) → ρ → Prop
  | nil (r : ρ) : ExploresFrom S start r [] r
  | expanded {r r' r'' : ρ} {log : List (σ × Expansion σ α β ω)} {s : σ} {e : Expansion σ α β ω} :
      ExploresFrom S start r log r' → Reached log start s → S.valid r' s → S.expand r' s = (r'', some e) →
      ExploresFrom S start r ((s, e) :: log) r''

/-- Expand the states of a list in their order, as far as each one has been reached, is valid and does not fail. -/
def exploreAll [DecidableEq σ] (S : LazySource ρ σ α β ω) [∀ r s, Decidable (S.valid r s)] (start : σ) (r : ρ)
    (log : List (σ × Expansion σ α β ω)) : List σ → Option (List (σ × Expansion σ α β ω) × ρ)
  | [] => some (log, r)
  | s :: states =>
    if (s = start ∨ ∃ l ∈ log, ∃ arc ∈ l.2.arcs, arc.target = s) ∧ S.valid r s then
      match S.expand r s with
      | (r', some e) => exploreAll S start r' ((s, e) :: log) states
      | (_, none) => none
    else none

theorem ExploresFrom.exploreAll [DecidableEq σ] {S : LazySource ρ σ α β ω} [∀ r s, Decidable (S.valid r s)] {start : σ}
    {r r' r'' : ρ} {log log' : List (σ × Expansion σ α β ω)} {states : List σ} (hE : S.ExploresFrom start r log r')
    (h : S.exploreAll start r' log states = some (log', r'')) : S.ExploresFrom start r log' r'' := by
  induction states generalizing log r' with
  | nil =>
    cases h
    exact hE
  | cons s states ih =>
    unfold LazySource.exploreAll at h
    split at h
    · rename_i hs
      split at h
      · exact ih (hE.expanded hs.1 hs.2 ‹_›) h
      · cases h
    · cases h

theorem ExploresFrom.explores {S : LazySource ρ σ α β ω} {start : σ} {r r' : ρ}
    {log : List (σ × Expansion σ α β ω)} (h : S.ExploresFrom start r log r') : S.Explores r log r' := by
  induction h with
  | nil => exact .nil _
  | expanded _ _ hv he ih => exact ih.expanded hv he

/-- What expansions of valid states keep holds after an exploration. -/
theorem ExploresFrom.inv {S : LazySource ρ σ α β ω} {start : σ} {r r' : ρ} {log : List (σ × Expansion σ α β ω)}
    (h : S.ExploresFrom start r log r') {p : ρ → Prop}
    (hstep : ∀ {r s r' e}, p r → S.valid r s → S.expand r s = (r', some e) → p r') (hr : p r) : p r' := by
  induction h with
  | nil => exact hr
  | expanded _ _ hv he ih => exact hstep ih hv he

theorem ExploresFrom.mono {S S' : LazySource ρ σ α β ω} {start : σ} {r r' : ρ} {log : List (σ × Expansion σ α β ω)}
    (h : S.ExploresFrom start r log r') (hvalid : ∀ r s, S.valid r s → S'.valid r s)
    (hexpand : S.expand = S'.expand) : S'.ExploresFrom start r log r' := by
  induction h with
  | nil => exact .nil _
  | expanded _ hreached hv he ih => exact ih.expanded hreached (hvalid _ _ hv) (hexpand ▸ he)

/-- Sources over related stores, whose expansions keep the relation and return the same, have the same explorations. -/
theorem ExploresFrom.related {ρ' : Type*} {S : LazySource ρ σ α β ω} {S' : LazySource ρ' σ α β ω} {start : σ} {r r₁ : ρ} {r' : ρ'}
    {log : List (σ × Expansion σ α β ω)} (rel : ρ → ρ' → Prop) (hvalid : ∀ {r r'} s, rel r r' → S.valid r s → S'.valid r' s)
    (hexpand : ∀ {r r'} s, rel r r' → rel (S.expand r s).1 (S'.expand r' s).1 ∧ (S.expand r s).2 = (S'.expand r' s).2)
    (h : S.ExploresFrom start r log r₁) (hr : rel r r') : ∃ r₁', S'.ExploresFrom start r' log r₁' ∧ rel r₁ r₁' := by
  induction h with
  | nil => exact ⟨r', .nil r', hr⟩
  | @expanded r₂ r₃ log s e _ hreached hv he ih =>
    obtain ⟨r₂', hexplores, hr₂⟩ := ih
    obtain ⟨hr₃, hresult⟩ := hexpand s hr₂
    rw [he] at hr₃ hresult
    exact ⟨_, hexplores.expanded hreached (hvalid s hr₂ hv) (Prod.ext rfl hresult.symm), hr₃⟩

/-- When every expansion of an exploration is one of those that `restrict` keeps, the exploration is one of the
    restricted source. -/
theorem ExploresFrom.restrict {S : LazySource ρ σ α β ω} {start : σ} {r r' : ρ} {log : List (σ × Expansion σ α β ω)}
    {ok : ρ → σ → Prop} (h : S.ExploresFrom start r log r')
    (hok : ∀ {log r₁ r₂ s e}, (S.restrict ok).ExploresFrom start r log r₁ → S.ExploresFrom start r log r₁ →
      Reached log start s → S.valid r₁ s → S.expand r₁ s = (r₂, some e) → ok r₁ s) :
    (S.restrict ok).ExploresFrom start r log r' := by
  induction h with
  | nil => exact .nil _
  | expanded hE hreached hv he ih => exact ih.expanded hreached ⟨hv, hok ih hE hreached hv he⟩ he

/-- Every state that returned arcs reach from `start` has been expanded. -/
def Complete [AddMonoid ω] (log : List (σ × Expansion σ α β ω)) (start : σ) : Prop :=
  ∀ x y w s, (graph log).Path start x y w s → ∃ e, (s, e) ∈ log

/-- `den r s a`: in the store `r` the state `s` stands for the abstract state `a`. Expansions keep the
    invariant and the denotations, and return abstract steps and final weights only. -/
structure Sound (S : LazySource ρ σ α β ω) (T : Transducer τ α β ω) (inv : ρ → Prop)
    (den : ρ → σ → τ → Prop) : Prop where
  inv_expand : ∀ {r s r' o}, inv r → S.expand r s = (r', o) → inv r'
  den_expand : ∀ {r s s' a r' o}, inv r → S.expand r s' = (r', o) → den r s a → den r' s a
  den_unique : ∀ {r s a b}, inv r → den r s a → den r s b → a = b
  den_of_valid : ∀ {r s}, inv r → S.valid r s → ∃ a, den r s a
  arcs : ∀ {r s a r' e}, inv r → den r s a → S.expand r s = (r', some e) →
    ∀ arc ∈ e.arcs, ∃ b, den r' arc.target b ∧ T.step a arc.input arc.output arc.weight b
  final : ∀ {r s a r' e f}, inv r → den r s a → S.expand r s = (r', some e) → e.final? = some f → T.final a f

/-- Expansions of valid states return every abstract step and final weight. -/
structure Exact (S : LazySource ρ σ α β ω) (T : Transducer τ α β ω) (inv : ρ → Prop)
    (den : ρ → σ → τ → Prop) : Prop extends Sound S T inv den where
  steps : ∀ {r s a r' e}, inv r → den r s a → S.valid r s → S.expand r s = (r', some e) →
    ∀ {i o w b}, T.step a i o w b →
      ∃ arc ∈ e.arcs, arc.input = i ∧ arc.output = o ∧ arc.weight = w ∧ den r' arc.target b
  finals : ∀ {r s a r' e f}, inv r → den r s a → S.valid r s → S.expand r s = (r', some e) →
    T.final a f → e.final? = some f

variable {S : LazySource ρ σ α β ω} {T : Transducer τ α β ω} {inv : ρ → Prop} {den : ρ → σ → τ → Prop}
  {r r' : ρ} {log : List (σ × Expansion σ α β ω)}

namespace Sound

theorem inv_explores (h : Sound S T inv den) (hE : S.Explores r log r') (hr : inv r) : inv r' := by
  induction hE with
  | nil => exact hr
  | expanded _ _ he ih => exact h.inv_expand ih he
  | failed _ he ih => exact h.inv_expand ih he

theorem den_explores (h : Sound S T inv den) (hE : S.Explores r log r') (hr : inv r) {s : σ} {a : τ}
    (hd : den r s a) : den r' s a := by
  induction hE with
  | nil => exact hd
  | expanded hE _ he ih => exact h.den_expand (h.inv_explores hE hr) he ih
  | failed hE he ih => exact h.den_expand (h.inv_explores hE hr) he ih

/-- Every logged expansion is one of a state with a denotation, read in the last store. -/
theorem logged (h : Sound S T inv den) (hE : S.Explores r log r') (hr : inv r) {s : σ} {e : Expansion σ α β ω}
    (he : (s, e) ∈ log) : ∃ a, den r' s a ∧
      (∀ arc ∈ e.arcs, ∃ b, den r' arc.target b ∧ T.step a arc.input arc.output arc.weight b) ∧
      ∀ f, e.final? = some f → T.final a f := by
  obtain ⟨log₁, r₁, r₂, log₂, hE₁, hv, hexpand, hE₂⟩ := hE.of_mem he
  have hr₁ := h.inv_explores hE₁ hr
  have hr₂ := h.inv_expand hr₁ hexpand
  obtain ⟨a, ha⟩ := h.den_of_valid hr₁ hv
  refine ⟨a, h.den_explores hE₂ hr₂ (h.den_expand hr₁ hexpand ha), fun arc harc => ?_, fun f => h.final hr₁ ha hexpand⟩
  obtain ⟨b, hb, hstep⟩ := h.arcs hr₁ ha hexpand arc harc
  exact ⟨b, h.den_explores hE₂ hr₂ hb, hstep⟩

/-- A path of the produced graph is a path of the abstract transducer. -/
theorem path [AddMonoid ω] (h : Sound S T inv den) (hE : S.Explores r log r') (hr : inv r) {s t : σ} {a : τ}
    {x : List α} {y : List β} {w : ω} (hs : den r' s a) (hp : (graph log).Path s x y w t) :
    ∃ b, den r' t b ∧ T.Path a x y w b := by
  have hr' := h.inv_explores hE hr
  induction hp generalizing a with
  | nil => exact ⟨a, hs, .nil a⟩
  | cons hstep _ ih =>
    obtain ⟨e, he, arc, harc, rfl, rfl, rfl, rfl⟩ := hstep
    obtain ⟨a', ha', harcs, -⟩ := h.logged hE hr he
    cases h.den_unique hr' hs ha'
    obtain ⟨b, hb, hab⟩ := harcs arc harc
    obtain ⟨c, hc, hbc⟩ := ih hb
    exact ⟨c, hc, .cons hab hbc⟩

theorem accepts [AddMonoid ω] (h : Sound S T inv den) (hE : S.Explores r log r') (hr : inv r) {s : σ} {a : τ}
    {x : List α} {y : List β} {w : ω} (hs : den r s a) (hp : (graph log).Accepts s x y w) : T.Accepts a x y w := by
  obtain ⟨t, v, f, hpath, ⟨e, he, hf⟩, rfl⟩ := hp
  obtain ⟨b, hb, hab⟩ := h.path hE hr (h.den_explores hE hr hs) hpath
  obtain ⟨b', hb', -, hfinal⟩ := h.logged hE hr he
  cases h.den_unique (h.inv_explores hE hr) hb hb'
  exact ⟨b, v, f, hab, hfinal f hf, rfl⟩

/-- The state that a path ends in has been reached. -/
theorem reached_of_path [AddMonoid ω] {log : List (σ × Expansion σ α β ω)} {start s : σ} {x : List α} {y : List β}
    {w : ω} (h : (graph log).Path start x y w s) : Reached log start s := by
  refine Transducer.Path.snocInduction (motive := fun _ _ _ s => Reached log start s) (Or.inl rfl) ?_ h
  rintro x y w t a b v u - - ⟨e, he, arc, harc, -, -, -, rfl⟩
  exact Or.inr ⟨_, he, arc, harc, rfl⟩

/-- An exploration that has expanded every target is complete. -/
theorem complete_of_closed [AddMonoid ω] {log : List (σ × Expansion σ α β ω)} {start : σ} (hstart : start ∈ log.map Prod.fst)
    (h : ∀ l ∈ log, ∀ arc ∈ l.2.arcs, arc.target ∈ log.map Prod.fst) : Complete log start := by
  intro x y w s hpath
  have hmem : s ∈ log.map Prod.fst := by
    rcases reached_of_path hpath with rfl | ⟨l, hl, arc, harc, rfl⟩
    · exact hstart
    · exact h l hl arc harc
  obtain ⟨⟨_, e⟩, he, rfl⟩ := List.mem_map.mp hmem
  exact ⟨e, he⟩

/-- When valid states are finitely many and their expansions succeed, some exploration is complete. -/
theorem exists_complete [AddMonoid ω] [DecidableEq σ] (h : Sound S T inv den)
    (hvalid : ∀ {r s a}, inv r → den r s a → S.valid r s)
    (htotal : ∀ {r s}, inv r → S.valid r s → ∃ r' e, S.expand r s = (r', some e))
    {states : Finset σ} (hstates : ∀ {r s}, S.valid r s → s ∈ states) (hr : inv r) {start : σ} {a : τ}
    (hs : den r start a) : ∃ log r', S.ExploresFrom start r log r' ∧ Complete log start := by
  -- Each round expands a reachable state for the first time.
  suffices rounds : ∀ n log r', S.ExploresFrom start r log r' → (states \ (log.map Prod.fst).toFinset).card ≤ n →
      ∃ log r', S.ExploresFrom start r log r' ∧ Complete log start from rounds _ [] r (.nil r) le_rfl
  intro n
  induction n with
  | zero =>
    intro log r' hE hcard
    refine ⟨log, r', hE, fun x y w s hp => ?_⟩
    obtain ⟨b, hb, -⟩ := h.path hE.explores hr (h.den_explores hE.explores hr hs) hp
    have hmem := hstates (hvalid (h.inv_explores hE.explores hr) hb)
    by_contra hnew
    have hs : s ∈ states \ (log.map Prod.fst).toFinset := by
      simpa [hmem] using hnew
    exact absurd (Finset.card_pos.mpr ⟨s, hs⟩) (by omega)
  | succ n ih =>
    intro log r' hE hcard
    by_cases hc : Complete log start
    · exact ⟨log, r', hE, hc⟩
    · simp only [Complete, not_forall] at hc
      obtain ⟨x, y, w, s, hp, hnew⟩ := hc
      obtain ⟨b, hb, -⟩ := h.path hE.explores hr (h.den_explores hE.explores hr hs) hp
      have hinv := h.inv_explores hE.explores hr
      have hv := hvalid hinv hb
      obtain ⟨r'', e, he⟩ := htotal hinv hv
      refine ih ((s, e) :: log) r'' (hE.expanded (reached_of_path hp) hv he) ?_
      have hs : s ∈ states \ (log.map Prod.fst).toFinset := by
        simpa [hstates hv] using hnew
      have hsub : states \ (((s, e) :: log).map Prod.fst).toFinset ⊂ states \ (log.map Prod.fst).toFinset := by
        refine Finset.ssubset_iff_of_subset ?_ |>.mpr ⟨s, hs, by simp⟩
        exact Finset.sdiff_subset_sdiff le_rfl (by simp [Finset.subset_insert])
      have := Finset.card_lt_card hsub
      omega

/-- What has been reached from a state with a denotation has one. -/
theorem den_of_reached (h : Sound S T inv den) (hE : S.Explores r log r') (hr : inv r) {start s : σ} {a : τ}
    (hs : den r start a) (hreached : Reached log start s) : ∃ b, den r' s b := by
  rcases hreached with rfl | ⟨⟨s', e'⟩, hl, arc, harc, rfl⟩
  · exact ⟨a, h.den_explores hE hr hs⟩
  · obtain ⟨b, hb, harcs, -⟩ := h.logged hE hr hl
    obtain ⟨b', hb', -⟩ := harcs arc harc
    exact ⟨b', hb'⟩

/-- An exploration from a state with a denotation expands states with denotations only. -/
theorem exploresFrom_restrict (h : Sound (S.restrict fun r s => ∃ a, den r s a) T inv den) {start : σ} {a : τ}
    (hE : S.ExploresFrom start r log r') (hr : inv r) (hs : den r start a) :
    (S.restrict fun r s => ∃ a, den r s a).ExploresFrom start r log r' := by
  refine hE.restrict ?_
  intro log r₁ r₂ s e hE' _ hreached _ _
  exact h.den_of_reached hE'.explores hr hs hreached

end Sound

namespace Exact

/-- A logged expansion has every abstract step and final weight of its state. -/
theorem logged_steps (h : Exact S T inv den) (hE : S.Explores r log r') (hr : inv r) {s : σ} {e : Expansion σ α β ω}
    (he : (s, e) ∈ log) {a : τ} (ha : den r' s a) :
    (∀ {i o w b}, T.step a i o w b →
      ∃ arc ∈ e.arcs, arc.input = i ∧ arc.output = o ∧ arc.weight = w ∧ den r' arc.target b) ∧
    ∀ f, T.final a f → e.final? = some f := by
  obtain ⟨log₁, r₁, r₂, log₂, hE₁, hv, hexpand, hE₂⟩ := hE.of_mem he
  have hr₁ := h.inv_explores hE₁ hr
  have hr₂ := h.inv_expand hr₁ hexpand
  obtain ⟨a', ha'⟩ := h.den_of_valid hr₁ hv
  cases h.den_unique (h.inv_explores hE hr) ha (h.den_explores hE₂ hr₂ (h.den_expand hr₁ hexpand ha'))
  refine ⟨fun hstep => ?_, fun f => h.finals hr₁ ha' hv hexpand⟩
  obtain ⟨arc, harc, h1, h2, h3, h4⟩ := h.steps hr₁ ha' hv hexpand hstep
  exact ⟨arc, harc, h1, h2, h3, h.den_explores hE₂ hr₂ h4⟩

variable [AddMonoid ω]

/-- A complete exploration spells every abstract path. -/
theorem path (h : Exact S T inv den) (hE : S.Explores r log r') (hr : inv r) {start : σ}
    (hc : Complete log start) {a b : τ} (hs : den r start a) {x : List α} {y : List β} {w : ω}
    (hp : T.Path a x y w b) : ∃ t, den r' t b ∧ (graph log).Path start x y w t := by
  -- Along the abstract path, the state reached so far has been expanded.
  refine Transducer.Path.snocInduction (motive := fun x y w b => ∃ t, den r' t b ∧ (graph log).Path start x y w t)
    ⟨start, h.den_explores hE hr hs, .nil start⟩ ?_ hp
  rintro x y w t i o v u - ⟨t', ht', hpath⟩ hstep
  obtain ⟨e, he⟩ := hc x y w t' hpath
  obtain ⟨arc, harc, rfl, rfl, rfl, hden⟩ := (h.logged_steps hE hr he ht').1 hstep
  exact ⟨arc.target, hden, hpath.snoc ⟨e, he, arc, harc, rfl, rfl, rfl, rfl⟩⟩

/-- A complete exploration accepts exactly what the abstract transducer accepts. -/
theorem accepts_iff (h : Exact S T inv den) (hE : S.Explores r log r') (hr : inv r) {start : σ}
    (hc : Complete log start) {a : τ} (hs : den r start a) {x : List α} {y : List β} {w : ω} :
    (graph log).Accepts start x y w ↔ T.Accepts a x y w := by
  refine ⟨h.accepts hE hr hs, ?_⟩
  rintro ⟨b, v, f, hp, hf, rfl⟩
  obtain ⟨t, ht, hpath⟩ := h.path hE hr hc hs hp
  obtain ⟨e, he⟩ := hc _ _ _ _ hpath
  exact ⟨t, v, f, hpath, ⟨e, he, (h.logged_steps hE hr he ht).2 f hf⟩, rfl⟩

end Exact

end LazySource
