import Duallity.Lib.LazyGraph

/-! Sources whose expansions can be interrupted. An expansion that succeeds is one of an underlying source; one that fails may
    have changed the store, but keeps what the states denote. Then failures cannot be noticed in what is accepted. -/

namespace LazySource
variable {ρ ρ' σ τ α β ω : Type*} {S : LazySource ρ σ α β ω} {T : Transducer τ α β ω} {inv : ρ → Prop} {den : ρ → σ → τ → Prop}

/-- `S'` runs `S` in a part of its store. Whatever its expansions return, they keep `inv'`. -/
structure Interrupts (S' : LazySource ρ' σ α β ω) (S : LazySource ρ σ α β ω) (store : ρ' → ρ) (inv : ρ → Prop) (inv' : ρ' → Prop)
    (den : ρ → σ → τ → Prop) : Prop where
  inv : ∀ {r}, inv' r → inv (store r)
  valid : ∀ {r s}, S'.valid r s → S.valid (store r) s
  keeps : ∀ {r s r' o}, inv' r → S'.expand r s = (r', o) → inv' r'
  expand : ∀ {r s r' e}, inv' r → S'.expand r s = (r', some e) → S.expand (store r) s = (store r', some e)
  fail : ∀ {r s r'}, inv' r → S'.expand r s = (r', none) → ∀ {t a}, den (store r) t a → den (store r') t a

section Interrupted
variable {S' : LazySource ρ' σ α β ω} {store : ρ' → ρ} {inv' : ρ' → Prop}

theorem Sound.interrupted (h : Sound S T inv den) (hS : Interrupts S' S store inv inv' den) :
    Sound S' T inv' fun r => den (store r) where
  inv_expand := hS.keeps
  den_expand {r s s' a r' o} hr he hd := by
    cases o with
    | none => exact hS.fail hr he hd
    | some e => exact h.den_expand (hS.inv hr) (hS.expand hr he) hd
  den_unique hr := h.den_unique (hS.inv hr)
  den_of_valid hr hv := h.den_of_valid (hS.inv hr) (hS.valid hv)
  arcs hr hd he := h.arcs (hS.inv hr) hd (hS.expand hr he)
  final hr hd he := h.final (hS.inv hr) hd (hS.expand hr he)

theorem Exact.interrupted (h : Exact S T inv den) (hS : Interrupts S' S store inv inv' den) :
    Exact S' T inv' fun r => den (store r) where
  toSound := h.toSound.interrupted hS
  steps hr hd hv he := h.steps (hS.inv hr) hd (hS.valid hv) (hS.expand hr he)
  finals hr hd hv he := h.finals (hS.inv hr) hd (hS.valid hv) (hS.expand hr he)

end Interrupted

end LazySource
