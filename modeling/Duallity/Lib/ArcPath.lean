import Duallity.Lib.LazyGraph

/-! Paths as lists of arcs, in graphs whose states expand to the same arcs at any time. Two paths with the same labels
    are told apart by their arcs. -/

namespace ArcPath
variable {σ α β ω : Type*}

/-- The transducer of the expansions. -/
def machine (expand : σ → Option (Expansion σ α β ω)) : Transducer σ α β ω where
  step s a b w t := ∃ e, expand s = some e ∧ ∃ arc ∈ e.arcs, arc.input = a ∧ arc.output = b ∧ arc.weight = w ∧ arc.target = t
  final s f := ∃ e, expand s = some e ∧ e.final? = some f

def inputs (arcs : List (Arc σ α β ω)) : List α := arcs.flatMap fun arc => arc.input.toList

def outputs (arcs : List (Arc σ α β ω)) : List β := arcs.flatMap fun arc => arc.output.toList

/-- The arcs lead from `s` to the state at the end, one after the other. -/
inductive IsPath (expand : σ → Option (Expansion σ α β ω)) (s : σ) : List (Arc σ α β ω) → σ → Prop
  | nil : IsPath expand s [] s
  | snoc {arcs : List (Arc σ α β ω)} {t : σ} {e : Expansion σ α β ω} {arc : Arc σ α β ω} :
      IsPath expand s arcs t → expand t = some e → arc ∈ e.arcs → IsPath expand s (arcs ++ [arc]) arc.target

/-- A path from `s` to a final state that reads `x` and writes `y`. -/
def IsAccepting (expand : σ → Option (Expansion σ α β ω)) (s : σ) (x : List α) (y : List β) (arcs : List (Arc σ α β ω)) :
    Prop := ∃ t e, IsPath expand s arcs t ∧ expand t = some e ∧ e.final?.isSome ∧ inputs arcs = x ∧ outputs arcs = y

section Lemmas
variable {expand : σ → Option (Expansion σ α β ω)} {s t : σ} {arcs : List (Arc σ α β ω)} {arc : Arc σ α β ω}

@[simp] theorem inputs_nil : inputs ([] : List (Arc σ α β ω)) = [] := rfl

@[simp] theorem outputs_nil : outputs ([] : List (Arc σ α β ω)) = [] := rfl

theorem inputs_snoc : inputs (arcs ++ [arc]) = inputs arcs ++ arc.input.toList := by simp [inputs]

theorem outputs_snoc : outputs (arcs ++ [arc]) = outputs arcs ++ arc.output.toList := by simp [outputs]

variable [AddMonoid ω]

def weight (arcs : List (Arc σ α β ω)) : ω := (arcs.map Arc.weight).sum

@[simp] theorem weight_nil : weight ([] : List (Arc σ α β ω)) = 0 := rfl

theorem weight_snoc : weight (arcs ++ [arc]) = weight arcs + arc.weight := by simp [weight]

theorem IsPath.path (h : IsPath expand s arcs t) : (machine expand).Path s (inputs arcs) (outputs arcs) (weight arcs) t := by
  induction h with
  | nil => exact .nil s
  | snoc _ he harc ih =>
    rw [inputs_snoc, outputs_snoc, weight_snoc]
    exact ih.snoc ⟨_, he, _, harc, rfl, rfl, rfl, rfl⟩

theorem exists_isPath {x : List α} {y : List β} {w : ω} (h : (machine expand).Path s x y w t) :
    ∃ arcs, IsPath expand s arcs t ∧ inputs arcs = x ∧ outputs arcs = y ∧ weight arcs = w := by
  refine Transducer.Path.snocInduction
    (motive := fun x y w t => ∃ arcs, IsPath expand s arcs t ∧ inputs arcs = x ∧ outputs arcs = y ∧ weight arcs = w)
    ⟨[], .nil, rfl, rfl, rfl⟩ ?_ h
  rintro x y w t a b v u - ⟨arcs, hpath, rfl, rfl, rfl⟩ ⟨e, he, arc, harc, rfl, rfl, rfl, rfl⟩
  exact ⟨arcs ++ [arc], hpath.snoc he harc, inputs_snoc, outputs_snoc, weight_snoc⟩

/-- The machine accepts what the paths to final states read and write. -/
theorem accepts_iff_exists_isPath {x : List α} {y : List β} {w : ω} : (machine expand).Accepts s x y w ↔
    ∃ arcs t e f, IsPath expand s arcs t ∧ expand t = some e ∧ e.final? = some f ∧ inputs arcs = x ∧ outputs arcs = y ∧
      w = weight arcs + f := by
  refine ⟨?_, ?_⟩
  · intro ⟨t, v, f, hpath, ⟨e, he, hf⟩, hw⟩
    obtain ⟨arcs, harcs, hx, hy, rfl⟩ := exists_isPath hpath
    exact ⟨arcs, t, e, f, harcs, he, hf, hx, hy, hw⟩
  · intro ⟨arcs, t, e, f, hpath, he, hf, hx, hy, hw⟩
    subst hx hy
    exact ⟨t, weight arcs, f, hpath.path, ⟨e, he, hf⟩, hw⟩

end Lemmas

/-! ### Logs -/

section Logs
open LazySource
variable {log : List (σ × Expansion σ α β ω)} {s t t' : σ} {arcs arcs' : List (Arc σ α β ω)} {x : List α} {y : List β}

/-- The arcs lead from `s` to the state at the end, each returned by an expansion of the state that it leaves. -/
inductive IsTrail (log : List (σ × Expansion σ α β ω)) : σ → List (Arc σ α β ω) → σ → Prop
  | nil (s : σ) : IsTrail log s [] s
  | cons {s t : σ} {e : Expansion σ α β ω} {arc : Arc σ α β ω} {arcs : List (Arc σ α β ω)} :
      (s, e) ∈ log → arc ∈ e.arcs → IsTrail log arc.target arcs t → IsTrail log s (arc :: arcs) t

/-- A trail from `s` to a final state that reads `x` and writes `y`. -/
def IsAcceptingTrail (log : List (σ × Expansion σ α β ω)) (s : σ) (x : List α) (y : List β) (arcs : List (Arc σ α β ω)) : Prop :=
  ∃ t e, IsTrail log s arcs t ∧ (t, e) ∈ log ∧ e.final?.isSome ∧ inputs arcs = x ∧ outputs arcs = y

theorem exists_isTrail [AddMonoid ω] {w : ω} (h : (graph log).Path s x y w t) :
    ∃ arcs, IsTrail log s arcs t ∧ inputs arcs = x ∧ outputs arcs = y ∧ weight arcs = w := by
  induction h with
  | nil s => exact ⟨[], .nil s, rfl, rfl, rfl⟩
  | cons hstep _ ih =>
    obtain ⟨e, he, arc, harc, rfl, rfl, rfl, rfl⟩ := hstep
    obtain ⟨arcs, htrail, rfl, rfl, rfl⟩ := ih
    exact ⟨arc :: arcs, .cons he harc htrail, rfl, rfl, rfl⟩

theorem IsTrail.path [AddMonoid ω] (h : IsTrail log s arcs t) : (graph log).Path s (inputs arcs) (outputs arcs) (weight arcs) t := by
  induction h with
  | nil s => exact .nil s
  | cons he harc _ ih => exact .cons ⟨_, he, _, harc, rfl, rfl, rfl, rfl⟩ ih

/-- When every arc reads a symbol and no two arcs of a state read the same one, what a trail reads tells its arcs. -/
theorem IsTrail.unique (hreads : ∀ {s e}, (s, e) ∈ log → ∀ arc ∈ e.arcs, ∃ a, arc.input = some a)
    (hdet : ∀ {s e e'}, (s, e) ∈ log → (s, e') ∈ log → ∀ arc ∈ e.arcs, ∀ arc' ∈ e'.arcs, arc.input = arc'.input → arc = arc')
    (h : IsTrail log s arcs t) (h' : IsTrail log s arcs' t') (hx : inputs arcs = inputs arcs') : arcs = arcs' := by
  induction h generalizing arcs' with
  | nil s =>
    cases h' with
    | nil => rfl
    | cons he harc _ =>
      obtain ⟨a, ha⟩ := hreads he _ harc
      simp [inputs, ha] at hx
  | cons he harc _ ih =>
    obtain ⟨a, ha⟩ := hreads he _ harc
    cases h' with
    | nil => simp [inputs, ha] at hx
    | cons he' harc' h' =>
      obtain ⟨a', ha'⟩ := hreads he' _ harc'
      have hcons : a = a' ∧ _ := List.cons.inj (by simpa [inputs, ha, ha'] using hx)
      cases hdet he he' _ harc _ harc' (by rw [ha, ha', hcons.1])
      rw [ih h' hcons.2]

end Logs
end ArcPath
