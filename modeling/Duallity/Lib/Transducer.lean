import Mathlib.Algebra.Order.Monoid.Defs
import Mathlib.Order.Bounds.Defs

/-! Weighted transducers: labelled steps between states, final states with a final weight, and the
    paths that read an input, write an output and sum up a weight. -/

/-- A weighted transducer: a step reads at most one input symbol and writes at most one output symbol. -/
structure Transducer (σ α β ω : Type*) where
  step : σ → Option α → Option β → ω → σ → Prop
  final : σ → ω → Prop

namespace Transducer
variable {σ τ α β ω : Type*}

section Paths
variable [AddMonoid ω] {T : Transducer σ α β ω}

/-- `T.Path s x y w t`: a path from `s` to `t` reads `x`, writes `y` and has arc weights summing to `w`. -/
inductive Path (T : Transducer σ α β ω) : σ → List α → List β → ω → σ → Prop
  | nil (s : σ) : Path T s [] [] 0 s
  | cons {s t u : σ} {a : Option α} {b : Option β} {w v : ω} {x : List α} {y : List β} :
      T.step s a b w t → Path T t x y v u → Path T s (a.toList ++ x) (b.toList ++ y) (w + v) u

/-- A path from `s` to a final state, with the final weight added to the arc weights. -/
def Accepts (T : Transducer σ α β ω) (s : σ) (x : List α) (y : List β) (w : ω) : Prop :=
  ∃ t v f, T.Path s x y v t ∧ T.final t f ∧ w = v + f

/-- `w` is the least weight of an accepting path that reads `x` and writes `y`. -/
def LeastWeight [LE ω] (T : Transducer σ α β ω) (s : σ) (x : List α) (y : List β) (w : ω) : Prop :=
  IsLeast {v | T.Accepts s x y v} w

namespace Path

theorem single {s t : σ} {a : Option α} {b : Option β} {w : ω} (h : T.step s a b w t) :
    T.Path s a.toList b.toList w t := by
  simpa using Path.cons h (Path.nil t)

theorem append {s t u : σ} {x x' : List α} {y y' : List β} {w w' : ω} (h : T.Path s x y w t)
    (h' : T.Path t x' y' w' u) : T.Path s (x ++ x') (y ++ y') (w + w') u := by
  induction h with
  | nil => simpa using h'
  | cons hs _ ih =>
    rw [List.append_assoc, List.append_assoc, add_assoc]
    exact .cons hs (ih h')

theorem snoc {s t u : σ} {a : Option α} {b : Option β} {x : List α} {y : List β} {w v : ω}
    (h : T.Path s x y w t) (hs : T.step t a b v u) : T.Path s (x ++ a.toList) (y ++ b.toList) (w + v) u :=
  h.append (.single hs)

/-- Induction along a path from its start: what holds of the empty path and survives one more arc
    holds of every path. -/
theorem snocInduction {s : σ} {motive : List α → List β → ω → σ → Prop} (nil : motive [] [] 0 s)
    (snoc : ∀ {x y w t a b v u}, T.Path s x y w t → motive x y w t → T.step t a b v u →
      motive (x ++ a.toList) (y ++ b.toList) (w + v) u)
    {x : List α} {y : List β} {w : ω} {t : σ} (h : T.Path s x y w t) : motive x y w t := by
  -- Split the path at every state: the motive holds of the part before it.
  suffices split : ∀ {t u : σ} {x' : List α} {y' : List β} {w' : ω}, T.Path t x' y' w' u →
      ∀ {x y w}, T.Path s x y w t → motive x y w t → motive (x ++ x') (y ++ y') (w + w') u by
    simpa using split h (.nil s) nil
  intro t u x' y' w' h'
  induction h' with
  | nil => intro x y w _ hP; simpa using hP
  | cons hs _ ih =>
    intro x y w hp hP
    have := ih (hp.snoc hs) (snoc hp hP hs)
    simpa [List.append_assoc, add_assoc] using this

theorem mono {T' : Transducer σ α β ω} (hstep : ∀ {s a b w t}, T.step s a b w t → T'.step s a b w t)
    {s t : σ} {x : List α} {y : List β} {w : ω} (h : T.Path s x y w t) : T'.Path s x y w t := by
  induction h with
  | nil s => exact .nil s
  | cons hs _ ih => exact .cons (hstep hs) ih

end Path

/-- The least accepted weight is the least of the weights that are accepted. -/
theorem leastWeight_iff [LE ω] {s : σ} {x : List α} {y : List β} {w : ω} {p : Prop} {weights : Set ω}
    (h : ∀ v, T.Accepts s x y v ↔ p ∧ v ∈ weights) : T.LeastWeight s x y w ↔ p ∧ IsLeast weights w := by
  constructor
  · rintro ⟨hw, hle⟩
    obtain ⟨hp, hw⟩ := (h w).mp hw
    exact ⟨hp, hw, fun v hv => hle ((h v).mpr ⟨hp, hv⟩)⟩
  · rintro ⟨hp, hw, hle⟩
    exact ⟨(h w).mpr ⟨hp, hw⟩, fun v hv => hle ((h v).mp hv).2⟩

end Paths

/-! ### Trimming -/

section Trim
variable [AddCommMonoid ω] [PartialOrder ω] {T T' : Transducer σ α β ω} {s t : σ} {x : List α}
  {y : List β} {w : ω}

/-- `T'` has some of the steps of `T`, and for every step of `T` one with its labels and target that weighs no more. -/
structure Trims (T' T : Transducer σ α β ω) : Prop where
  sub : ∀ {s a b w t}, T'.step s a b w t → T.step s a b w t
  least : ∀ {s a b w t}, T.step s a b w t → ∃ v ≤ w, T'.step s a b v t
  final : ∀ {s f}, T'.final s f ↔ T.final s f

theorem Trims.accepts_of (h : Trims T' T) (ha : T'.Accepts s x y w) : T.Accepts s x y w := by
  obtain ⟨t, v, f, hpath, hf, rfl⟩ := ha
  exact ⟨t, v, f, hpath.mono h.sub, h.final.mp hf, rfl⟩

variable [IsOrderedAddMonoid ω]

theorem Trims.path (h : Trims T' T) (hpath : T.Path s x y w t) : ∃ v ≤ w, T'.Path s x y v t := by
  induction hpath with
  | nil s => exact ⟨0, le_rfl, .nil s⟩
  | cons hs _ ih =>
    obtain ⟨v, hv, hs⟩ := h.least hs
    obtain ⟨v', hv', hpath⟩ := ih
    exact ⟨v + v', add_le_add hv hv', .cons hs hpath⟩

theorem Trims.accepts (h : Trims T' T) (ha : T.Accepts s x y w) : ∃ v ≤ w, T'.Accepts s x y v := by
  obtain ⟨t, v, f, hpath, hf, rfl⟩ := ha
  obtain ⟨v', hv', hpath⟩ := h.path hpath
  exact ⟨v' + f, add_le_add_left hv' f, t, v', f, hpath, h.final.mpr hf, rfl⟩

/-- Trimming loses no pair and no least weight. -/
theorem Trims.leastWeight_iff (h : Trims T' T) : T'.LeastWeight s x y w ↔ T.LeastWeight s x y w := by
  constructor
  · intro ⟨hw, hle⟩
    refine ⟨h.accepts_of hw, ?_⟩
    intro v hv
    obtain ⟨v', hv', ha⟩ := h.accepts hv
    exact (hle ha).trans hv'
  · intro ⟨hw, hle⟩
    obtain ⟨v, hv, ha⟩ := h.accepts hw
    cases le_antisymm hv (hle (h.accepts_of ha))
    exact ⟨ha, fun v' hv' => hle (h.accepts_of hv')⟩

end Trim

end Transducer
