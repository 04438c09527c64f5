import Mathlib.Init

/-! Computations over a state that may fail, and Hoare triples for them. A failure does not restore the state: what a
    computation has written when it fails stays written. -/

/-- A computation over the state `σ` that returns a value or an error, and the state it leaves. -/
def Effect (σ ε α : Type) : Type := σ → Except ε α × σ

namespace Effect
variable {σ ε α β γ : Type}

instance : Monad (Effect σ ε) where
  pure a := fun s => (.ok a, s)
  bind m f := fun s =>
    match m s with
    | (.ok a, s') => f a s'
    | (.error e, s') => (.error e, s')

def fail (e : ε) : Effect σ ε α := fun s => (.error e, s)

def read (f : σ → α) : Effect σ ε α := fun s => (.ok (f s), s)

def update (f : σ → σ) : Effect σ ε Unit := fun s => (.ok (), f s)

/-- The value, or the error when there is none. -/
def orFail (e : ε) : Option α → Effect σ ε α
  | some a => pure a
  | none => fail e

/-- Take turns until one returns a value; `out` says that there were none left. -/
def loop (out : ε) (turn : β → Effect σ ε (β ⊕ α)) : Nat → β → Effect σ ε α
  | 0, _ => fail out
  | fuel + 1, b => do
    match ← turn b with
    | .inl b => loop out turn fuel b
    | .inr a => pure a

/-- From a state that satisfies `P`, `m` returns a value and a state that satisfy `Q`, or an error and a state that
    satisfy `E`. -/
def Triple (P : σ → Prop) (m : Effect σ ε α) (Q : α → σ → Prop) (E : ε → σ → Prop) : Prop :=
  ∀ s, P s → (∀ a s', m s = (.ok a, s') → Q a s') ∧ ∀ e s', m s = (.error e, s') → E e s'

namespace Triple
variable {P P' : σ → Prop} {Q Q' : α → σ → Prop} {R : β → σ → Prop} {E E' : ε → σ → Prop} {m : Effect σ ε α}
  {f : α → Effect σ ε β}

theorem ok (h : Triple P m Q E) {s s' : σ} {a : α} (hs : P s) (hm : m s = (.ok a, s')) : Q a s' := (h s hs).1 a s' hm

theorem error (h : Triple P m Q E) {s s' : σ} {e : ε} (hs : P s) (hm : m s = (.error e, s')) : E e s' :=
  (h s hs).2 e s' hm

theorem pure {a : α} (h : ∀ s, P s → Q a s) : Triple P (Pure.pure a : Effect σ ε α) Q E := by
  intro s hs
  refine ⟨?_, ?_⟩ <;> intro x s' heq <;> cases heq
  exact h s hs

theorem fail {e : ε} (h : ∀ s, P s → E e s) : Triple P (Effect.fail e : Effect σ ε α) Q E := by
  intro s hs
  refine ⟨?_, ?_⟩ <;> intro x s' heq <;> cases heq
  exact h s hs

theorem read {g : σ → α} (h : ∀ s, P s → Q (g s) s) : Triple P (Effect.read g : Effect σ ε α) Q E := by
  intro s hs
  refine ⟨?_, ?_⟩ <;> intro x s' heq <;> cases heq
  exact h s hs

theorem update {g : σ → σ} {Q : Unit → σ → Prop} (h : ∀ s, P s → Q () (g s)) :
    Triple P (Effect.update g : Effect σ ε Unit) Q E := by
  intro s hs
  refine ⟨?_, ?_⟩ <;> intro x s' heq <;> cases heq
  exact h s hs

theorem orFail {e : ε} {o : Option α} (hsome : ∀ a, o = some a → ∀ s, P s → Q a s) (hnone : o = none → ∀ s, P s → E e s) :
    Triple P (Effect.orFail e o) Q E := by
  cases o with
  | some a => exact .pure (hsome a rfl)
  | none => exact .fail (hnone rfl)

theorem bind (hm : Triple P m Q E) (hf : ∀ a, Triple (Q a) (f a) R E) : Triple P (m >>= f) R E := by
  intro s hs
  have hbind : (m >>= f) s = match m s with
    | (.ok a, s') => f a s'
    | (.error e, s') => (.error e, s') := rfl
  rw [hbind]
  rcases hms : m s with ⟨r, s₁⟩
  cases r with
  | ok a => exact hf a s₁ (hm.ok hs hms)
  | error e =>
    refine ⟨?_, ?_⟩ <;> intro x s' heq <;> cases heq
    exact hm.error hs hms

theorem consequence (h : Triple P m Q E) (hpre : ∀ s, P' s → P s) (hpost : ∀ a s, Q a s → Q' a s)
    (herr : ∀ e s, E e s → E' e s) : Triple P' m Q' E' :=
  fun s hs => ⟨fun a s' hm => hpost a s' (h.ok (hpre s hs) hm), fun e s' hm => herr e s' (h.error (hpre s hs) hm)⟩

theorem post (h : Triple P m Q E) (hpost : ∀ a s, Q a s → Q' a s) : Triple P m Q' E :=
  h.consequence (fun _ hs => hs) hpost fun _ _ he => he

theorem pre (h : Triple P m Q E) (hpre : ∀ s, P' s → P s) : Triple P' m Q E :=
  h.consequence hpre (fun _ _ hq => hq) fun _ _ he => he

theorem trivial : Triple P m (fun _ _ => True) fun _ _ => True := fun _ _ => ⟨fun _ _ _ => True.intro, fun _ _ _ => True.intro⟩

/-- A part of the precondition that no state takes part in. -/
theorem of_fact {φ : Prop} (h : φ → Triple P m Q E) : Triple (fun s => P s ∧ φ) m Q E := fun s hs => h hs.2 s hs.1

theorem of_exists {ι : Sort*} {P : ι → σ → Prop} (h : ∀ i, Triple (P i) m Q E) : Triple (fun s => ∃ i, P i s) m Q E :=
  fun s ⟨i, hs⟩ => h i s hs

/-- What the precondition says about no state. -/
theorem learn {φ : Prop} (hφ : ∀ s, P s → φ) (h : φ → Triple P m Q E) : Triple P m Q E := fun s hs => h (hφ s hs) s hs

theorem and (h : Triple P m Q E) (h' : Triple P' m Q' E') :
    Triple (fun s => P s ∧ P' s) m (fun a s => Q a s ∧ Q' a s) (fun e s => E e s ∧ E' e s) := by
  intro s hs
  refine ⟨?_, ?_⟩ <;> intro x s' hm
  · exact ⟨h.ok hs.1 hm, h'.ok hs.2 hm⟩
  · exact ⟨h.error hs.1 hm, h'.error hs.2 hm⟩

/-- After a computation that returns one value and keeps what holds. -/
theorem bind_val {a : α} (hm : Triple P m (fun x s => P s ∧ x = a) E) (hf : Triple P (f a) R E) : Triple P (m >>= f) R E :=
  hm.bind fun _ => .of_fact fun hx => hx ▸ hf

theorem bind_read {g : σ → α} {a : α} (hg : ∀ s, P s → g s = a) (hf : Triple P (f a) R E) : Triple P (Effect.read g >>= f) R E :=
  bind_val (.read fun s hs => ⟨hs, hg s hs⟩) hf

theorem bind_orFail {e : ε} {a : α} (hf : Triple P (f a) R E) : Triple P (Effect.orFail e (some a) >>= f) R E :=
  bind_val (.pure fun _ hs => ⟨hs, rfl⟩) hf

/-- A value that is `a` if there is one. -/
theorem bind_orFail_of {e : ε} {o : Option α} {a : α} (ho : ∀ x, o = some x → x = a) (hnone : ∀ s, P s → E e s)
    (hf : Triple P (f a) R E) : Triple P (Effect.orFail e o >>= f) R E :=
  bind_val (.orFail (fun x hx _ hs => ⟨hs, ho x hx⟩) fun _ => hnone) hf

/-- `I fuel b` holds when as many turns are left from `b`. -/
theorem loop {out : ε} {turn : β → Effect σ ε (β ⊕ α)} {I : Nat → β → σ → Prop} (hout : ∀ b s, I 0 b s → E out s)
    (hturn : ∀ fuel b, Triple (I (fuel + 1) b) (turn b) (fun r s => Sum.elim (fun b => I fuel b s) (fun a => Q a s) r) E)
    (fuel : Nat) (b : β) : Triple (I fuel b) (Effect.loop out turn fuel b) Q E := by
  induction fuel generalizing b with
  | zero => exact .fail (hout b)
  | succ fuel ih =>
    refine (hturn fuel b).bind fun r => ?_
    cases r with
    | inl b => exact ih b
    | inr a => exact .pure fun _ h => h

/-- A fold with an effect: `I done acc` holds after the elements `done`. -/
theorem foldlM {xs : List γ} {step : β → γ → Effect σ ε β} {I : List γ → β → σ → Prop} {init : β}
    (hstep : ∀ done x rest acc, xs = done ++ x :: rest →
      Triple (I done acc) (step acc x) (fun acc' s => I (done ++ [x]) acc' s) E) :
    Triple (I [] init) (xs.foldlM step init) (fun acc s => I xs acc s) E := by
  -- Generalize over the elements done so far.
  suffices h : ∀ rest done acc, xs = done ++ rest →
      Triple (I done acc) (rest.foldlM step acc) (fun acc s => I xs acc s) E from h xs [] init rfl
  intro rest
  induction rest with
  | nil =>
    intro done acc hxs
    rw [List.append_nil] at hxs
    rw [hxs]
    exact .pure fun _ h => h
  | cons x rest ih =>
    intro done acc hxs
    rw [List.foldlM_cons]
    exact (hstep done x rest acc hxs).bind fun acc' => ih (done ++ [x]) acc' (by rw [hxs, List.append_assoc]; rfl)

end Triple
end Effect
