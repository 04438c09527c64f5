import Mathlib.Init

/-! Computations that log what they touch and may fail. What was touched before a failure stays in the log. -/

/-- The log of a computation, the earliest entry first, and its value or error. -/
def Traced (ι ε α : Type) : Type := List ι × Except ε α

namespace Traced
variable {ι ε α β σ : Type}

def accesses (m : Traced ι ε α) : List ι := m.1

def result (m : Traced ι ε α) : Except ε α := m.2

instance : Monad (Traced ι ε) where
  pure a := ([], .ok a)
  bind m f :=
    match m with
    | (log, .ok a) => (log ++ (f a).1, (f a).2)
    | (log, .error e) => (log, .error e)

def touch (i : ι) : Traced ι ε Unit := ([i], .ok ())

def lift (x : Except ε α) : Traced ι ε α := ([], x)

instance : MonadLift (Except ε) (Traced ι ε) := ⟨lift⟩

/-- Every entry of the log satisfies `p`. -/
def Touches (p : ι → Prop) (m : Traced ι ε α) : Prop := ∀ i ∈ m.accesses, p i

/-! ### Results -/

section Result
variable {m : Traced ι ε α} {f : α → Traced ι ε β}

@[simp] theorem result_pure {a : α} : (pure a : Traced ι ε α).result = pure a := rfl

@[simp] theorem result_touch {i : ι} : (touch i : Traced ι ε Unit).result = pure () := rfl

@[simp] theorem result_lift {x : Except ε α} : (liftM x : Traced ι ε α).result = x := rfl

@[simp] theorem result_bind : (m >>= f).result = m.result >>= fun a => (f a).result := by
  obtain ⟨log, r⟩ := m
  cases r <;> rfl

@[simp] theorem result_ite {c : Prop} [Decidable c] {m' : Traced ι ε α} :
    (if c then m else m').result = if c then m.result else m'.result := by
  split <;> rfl

@[simp] theorem result_foldlM {turn : σ → β → Traced ι ε σ} {l : List β} {s : σ} :
    (l.foldlM turn s).result = l.foldlM (fun s b => (turn s b).result) s := by
  induction l generalizing s with
  | nil => rfl
  | cons b l ih =>
    rw [List.foldlM_cons, List.foldlM_cons, result_bind]
    simp only [ih]

end Result

/-! ### Logs -/

section Touches
variable {p : ι → Prop} {m m' : Traced ι ε α} {f : α → Traced ι ε β}

theorem Touches.pure {a : α} : Touches p (Pure.pure a : Traced ι ε α) := by
  intro i hi
  cases hi

theorem Touches.lift {x : Except ε α} : Touches p (liftM x : Traced ι ε α) := by
  intro i hi
  cases hi

theorem Touches.touch {i : ι} (h : p i) : Touches p (Traced.touch i : Traced ι ε Unit) := by
  intro j hj
  rw [List.mem_singleton.mp hj]
  exact h

/-- The rest is touched only when the first part returns. -/
theorem Touches.bind (hm : Touches p m) (hf : ∀ a, m.result = .ok a → Touches p (f a)) : Touches p (m >>= f) := by
  obtain ⟨log, r⟩ := m
  cases r with
  | error e => exact hm
  | ok a =>
    intro i hi
    rcases List.mem_append.mp hi with hi | hi
    · exact hm i hi
    · exact hf a rfl i hi

theorem Touches.ite {c : Prop} [Decidable c] (h : c → Touches p m) (h' : ¬c → Touches p m') :
    Touches p (if c then m else m') := by
  split
  · exact h ‹_›
  · exact h' ‹_›

theorem Touches.foldlM {turn : σ → β → Traced ι ε σ} {l : List β} (h : ∀ s, ∀ b ∈ l, Touches p (turn s b)) (s : σ) :
    Touches p (l.foldlM turn s) := by
  induction l generalizing s with
  | nil => exact .pure
  | cons b l ih =>
    rw [List.foldlM_cons]
    exact (h s b List.mem_cons_self).bind fun s' _ => ih (fun s b hb => h s b (List.mem_cons_of_mem _ hb)) s'

end Touches
end Traced
