import Mathlib.Order.Basic

/-! A scan over a list that threads a growing store and concatenates what each element returns. -/

/-- Run `f` on each element in turn, from the store that the elements before it left. -/
def scan {ρ ε γ : Type*} (f : ρ → ε → ρ × List γ) : ρ → List ε → ρ × List γ
  | r, [] => (r, [])
  | r, e :: es => ((scan f (f r e).1 es).1, (f r e).2 ++ (scan f (f r e).1 es).2)

namespace Scan
variable {ρ ε γ : Type*} {f : ρ → ε → ρ × List γ} {r : ρ} {e : ε} {es : List ε}

@[simp] theorem scan_nil : scan f r [] = (r, []) := rfl

@[simp] theorem scan_cons_fst : (scan f r (e :: es)).1 = (scan f (f r e).1 es).1 := rfl

@[simp] theorem scan_cons_snd : (scan f r (e :: es)).2 = (f r e).2 ++ (scan f (f r e).1 es).2 := rfl

theorem scan_congr {g : ρ → ε → ρ × List γ} (h : ∀ e ∈ es, ∀ r, f r e = g r e) : scan f r es = scan g r es := by
  induction es generalizing r with
  | nil => rfl
  | cons e es ih => simp [scan, h e List.mem_cons_self, ih fun e' he => h e' (List.mem_cons_of_mem _ he)]

theorem scan_map {δ : Type*} {m : δ → ε} {ds : List δ} : scan f r (ds.map m) = scan (fun r d => f r (m d)) r ds := by
  induction ds generalizing r with
  | nil => rfl
  | cons d ds ih => simp [scan, ih]

theorem scan_nothing : scan (fun (r : ρ) (_ : ε) => (r, ([] : List γ))) r es = (r, []) := by
  induction es with
  | nil => rfl
  | cons e es ih => simp [scan, ih]

/-- An invariant that every element keeps is kept by the scan. -/
theorem inv_scan (inv : ρ → Prop) (hf : ∀ r, ∀ e ∈ es, inv r → inv (f r e).1) (hr : inv r) : inv (scan f r es).1 := by
  induction es generalizing r with
  | nil => exact hr
  | cons e es ih =>
    exact ih (fun r e' he => hf r e' (List.mem_cons_of_mem _ he)) (hf r e List.mem_cons_self hr)

/-- Scans over related stores, whose elements keep the relation and return the same. -/
theorem scan_related {ρ' : Type*} {g : ρ' → ε → ρ' × List γ} {r' : ρ'} (rel : ρ → ρ' → Prop)
    (hf : ∀ {r r'} e, rel r r' → rel (f r e).1 (g r' e).1 ∧ (f r e).2 = (g r' e).2) (es : List ε) (hr : rel r r') :
    rel (scan f r es).1 (scan g r' es).1 ∧ (scan f r es).2 = (scan g r' es).2 := by
  induction es generalizing r r' with
  | nil => exact ⟨hr, rfl⟩
  | cons e es ih =>
    obtain ⟨hhead, heq⟩ := hf e hr
    obtain ⟨htail, heq'⟩ := ih hhead
    exact ⟨htail, by rw [scan_cons_snd, scan_cons_snd, heq, heq']⟩

theorem length_scan_le (hone : ∀ r e, (f r e).2.length ≤ 1) : (scan f r es).2.length ≤ es.length := by
  induction es generalizing r with
  | nil => exact Nat.le_refl _
  | cons e es ih =>
    have hhead := hone r e
    have htail : (scan f (f r e).1 es).2.length ≤ es.length := ih
    simp only [scan_cons_snd, List.length_append, List.length_cons]
    omega

section Growth
variable [Preorder ρ]

theorem le_scan (hf : ∀ r e, r ≤ (f r e).1) : r ≤ (scan f r es).1 := by
  induction es generalizing r with
  | nil => exact le_rfl
  | cons e es ih => exact (hf r e).trans ih

/-- Each result was returned by some element, from a store between the first and the last. -/
theorem mem_scan {inv : ρ → Prop} (hf : ∀ r e, r ≤ (f r e).1) (hinv : ∀ r, ∀ e ∈ es, inv r → inv (f r e).1)
    (hr : inv r) {c : γ} (hc : c ∈ (scan f r es).2) :
    ∃ e ∈ es, ∃ r', r ≤ r' ∧ inv r' ∧ (f r' e).1 ≤ (scan f r es).1 ∧ c ∈ (f r' e).2 := by
  induction es generalizing r with
  | nil => cases hc
  | cons e es ih =>
    rcases List.mem_append.mp hc with hc | hc
    · exact ⟨e, List.mem_cons_self, r, le_rfl, hr, le_scan hf, hc⟩
    · obtain ⟨e', he', r', h1, h2, h3, h4⟩ :=
        ih (fun r e' he => hinv r e' (List.mem_cons_of_mem _ he)) (hinv r e List.mem_cons_self hr) hc
      exact ⟨e', List.mem_cons_of_mem _ he', r', (hf r e).trans h1, h2, h3, h4⟩

/-- Each element ran, from a store between the first and the last, and its results are among the results. -/
theorem exists_of_mem {inv : ρ → Prop} (hf : ∀ r e, r ≤ (f r e).1) (hinv : ∀ r, ∀ e ∈ es, inv r → inv (f r e).1)
    (hr : inv r) (he : e ∈ es) :
    ∃ r', r ≤ r' ∧ inv r' ∧ (f r' e).1 ≤ (scan f r es).1 ∧ ∀ c ∈ (f r' e).2, c ∈ (scan f r es).2 := by
  induction es generalizing r with
  | nil => cases he
  | cons e' es ih =>
    rcases List.mem_cons.mp he with rfl | he
    · exact ⟨r, le_rfl, hr, le_scan hf, fun c hc => List.mem_append_left _ hc⟩
    · obtain ⟨r', h1, h2, h3, h4⟩ :=
        ih (fun r e' he => hinv r e' (List.mem_cons_of_mem _ he)) (hinv r e' List.mem_cons_self hr) he
      exact ⟨r', (hf r e').trans h1, h2, h3, fun c hc => List.mem_append_right _ (h4 c hc)⟩

/-- When no element returns more than one result and none is missing, each one's result is there. -/
theorem exists_of_length {inv : ρ → Prop} (hf : ∀ r e, r ≤ (f r e).1) (hinv : ∀ r, ∀ e ∈ es, inv r → inv (f r e).1)
    (hone : ∀ r e, (f r e).2.length ≤ 1) (hlen : es.length ≤ (scan f r es).2.length) (hr : inv r) (he : e ∈ es) :
    ∃ r', r ≤ r' ∧ inv r' ∧ (f r' e).1 ≤ (scan f r es).1 ∧ ∃ c ∈ (f r' e).2, c ∈ (scan f r es).2 := by
  induction es generalizing r with
  | nil => cases he
  | cons e' es ih =>
    have htail : (scan f (f r e').1 es).2.length ≤ es.length := length_scan_le hone
    have hhead := hone r e'
    simp only [scan_cons_snd, List.length_append, List.length_cons] at hlen
    rcases List.mem_cons.mp he with rfl | he
    · obtain ⟨c, hc⟩ := List.exists_mem_of_length_pos (show 0 < (f r e).2.length by omega)
      exact ⟨r, le_rfl, hr, le_scan hf, c, hc, List.mem_append_left _ hc⟩
    · obtain ⟨r', h1, h2, h3, c, hc, h4⟩ := ih (fun r e' he => hinv r e' (List.mem_cons_of_mem _ he))
        (by omega) (hinv r e' List.mem_cons_self hr) he
      exact ⟨r', (hf r e').trans h1, h2, h3, c, hc, List.mem_append_right _ h4⟩

/-- When each element returns one result, there are as many results as elements. -/
theorem length_scan {inv : ρ → Prop} (hf : ∀ r e, r ≤ (f r e).1) (hinv : ∀ r, ∀ e ∈ es, inv r → inv (f r e).1)
    (hone : ∀ e ∈ es, ∀ r', r ≤ r' → inv r' → (f r' e).1 ≤ (scan f r es).1 → (f r' e).2.length = 1) (hr : inv r) :
    (scan f r es).2.length = es.length := by
  induction es generalizing r with
  | nil => rfl
  | cons e es ih =>
    have hhead := hone e List.mem_cons_self r le_rfl hr (le_scan hf)
    have htail := ih (fun r e' he => hinv r e' (List.mem_cons_of_mem _ he))
      (fun e' he' r' hle => hone e' (List.mem_cons_of_mem _ he') r' ((hf r e).trans hle)) (hinv r e List.mem_cons_self hr)
    rw [scan_cons_snd, List.length_append, hhead, htail, List.length_cons, Nat.add_comm]

/-- When each element returns the same from every store beyond the one that it left, so does the scan. -/
theorem scan_again (inv : ρ → Prop) (hf : ∀ r e, r ≤ (f r e).1) (hinv : ∀ r, ∀ e ∈ es, inv r → inv (f r e).1) {r' : ρ}
    (hagain : ∀ e ∈ es, ∀ {r r'}, inv r' → (f r e).1 ≤ r' → (f r' e).2 = (f r e).2) (hr' : inv r') (hle : (scan f r es).1 ≤ r') :
    (scan f r' es).2 = (scan f r es).2 := by
  induction es generalizing r r' with
  | nil => rfl
  | cons e es ih =>
    have hhead : (f r e).1 ≤ r' := (le_scan hf).trans hle
    have htail := ih (fun r e' he => hinv r e' (List.mem_cons_of_mem _ he)) (fun e' he => hagain e' (List.mem_cons_of_mem _ he))
      (hinv r' e List.mem_cons_self hr') (hle.trans (hf r' e))
    rw [scan_cons_snd, scan_cons_snd, hagain e List.mem_cons_self hr' hhead, htail]

end Growth
end Scan
