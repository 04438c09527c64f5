import Duallity.Bindings.ResourceNode
import Duallity.Lib.Interruption

/-! Adapters over foreign dictionaries, exported as scalar WFSTs (`AdapterProvider` in bindings.rs). A call expands one state and
    is checked: when a callback has failed during it, the first status goes to the client and the expansion is lost. What the
    expansion has registered stays. -/

namespace Duallity

/-- An arc as it is exported. A label that is not there is zero. -/
structure VtWfstArc (ω : Type) where
  inputLabel : Nat
  outputLabel : Nat
  targetState : Nat
  weight : ω
  hasInput : Nat
  hasOutput : Nat

/-- No final weight is that of `zero`. -/
structure ScalarWfstState (ω : Type) where
  valid : Bool
  isFinal : Bool
  finalWeight : Option ω
  arcs : List (VtWfstArc ω)

section Export
variable {ω : Type}

def VtWfstArc.ofArc (arc : Arc Nat Char Char ω) : VtWfstArc ω where
  inputLabel := (arc.input.map Char.toNat).getD 0
  outputLabel := (arc.output.map Char.toNat).getD 0
  targetState := arc.target
  weight := arc.weight
  hasInput := arc.input.isSome.toNat
  hasOutput := arc.output.isSome.toNat

/-- The arc that a client reads. -/
def VtWfstArc.toArc (source : Nat) (arc : VtWfstArc ω) : Arc Nat Char Char ω where
  source := source
  input := if arc.hasInput = 1 then some (Char.ofNat arc.inputLabel) else none
  output := if arc.hasOutput = 1 then some (Char.ofNat arc.outputLabel) else none
  target := arc.targetState
  weight := arc.weight

def ScalarWfstState.ofExpansion (e : Expansion Nat Char Char ω) : ScalarWfstState ω :=
  ⟨true, e.final?.isSome, e.final?, e.arcs.map .ofArc⟩

def ScalarWfstState.invalid : ScalarWfstState ω := ⟨false, false, none, []⟩

/-- The expansion that a client reads. -/
def ScalarWfstState.expansion (state : Nat) (s : ScalarWfstState ω) : Expansion Nat Char Char ω :=
  ⟨s.arcs.map (VtWfstArc.toArc state), if s.isFinal then s.finalWeight else none⟩

theorem VtWfstArc.toArc_ofArc (arc : Arc Nat Char Char ω) : (ofArc arc).toArc arc.source = arc := by
  obtain ⟨source, input, output, target, weight⟩ := arc
  cases input <;> cases output <;> simp [ofArc, toArc]

/-- A client reads what has been expanded. -/
theorem ScalarWfstState.expansion_ofExpansion {state : Nat} {e : Expansion Nat Char Char ω} (h : ∀ arc ∈ e.arcs, arc.source = state) :
    (ofExpansion e).expansion state = e := by
  have harcs : (e.arcs.map VtWfstArc.ofArc).map (VtWfstArc.toArc state) = e.arcs := by
    rw [List.map_map]
    refine (List.map_congr_left fun arc harc => ?_).trans (List.map_id _)
    rw [← h arc harc]
    exact VtWfstArc.toArc_ofArc arc
  obtain ⟨arcs, final?⟩ := e
  cases final? <;> simpa [ofExpansion, expansion] using harcs

end Export

/-- What an adapter calls on its source. An expansion asks about nodes, and gets its replies one after the other; the statuses
    that failed callbacks have recorded are in their order. -/
structure ForeignSource (ρ ω : Type) where
  isValidState : ρ → Nat → Bool
  expandState : (Nat → NodeReplies Nat Char) → ρ → Nat → (ρ × Option (Expansion Nat Char Char ω)) × List VtStatus

/-- The registries of an adapter, the fault frames of the thread and the number of calls so far. -/
structure AdapterStore (ρ : Type) where
  frames : FaultFrames
  registries : ρ
  calls : Nat

namespace ForeignSource
variable {ρ ω τ : Type} (src : ForeignSource ρ ω)

def compute (replies : Nat → NodeReplies Nat Char) (r : ρ) (state : Nat) : (ρ × Except VtStatus (ScalarWfstState ω)) × List VtStatus :=
  if state ≤ u32Max ∧ src.isValidState r state = true then
    let ((r, expansion), faults) := src.expandState replies r state
    ((r, expansion.elim (.error .providerError) fun e => .ok (.ofExpansion e)), faults)
  else ((r, .ok .invalid), [])

def scalarState (provider : Nat) (replies : Nat → NodeReplies Nat Char) (frames : FaultFrames) (r : ρ) (state : Nat) :
    (FaultFrames × ρ) × Except VtStatus (ScalarWfstState ω) :=
  let ((r, result), faults) := src.compute replies r state
  let (frames, result) := frames.withChecked provider faults result
  ((frames, r), result)

/-- What a client of the exported resource sees; `answers` are the replies in each of its calls. -/
def client (provider : Nat) (answers : Nat → Nat → NodeReplies Nat Char) : LazySource (AdapterStore ρ) Nat Char Char ω where
  valid c state := state ≤ u32Max ∧ src.isValidState c.registries state = true
  expand c state :=
    let ((frames, r), result) := src.scalarState provider (answers c.calls) c.frames c.registries state
    (⟨frames, r, c.calls + 1⟩, result.toOption.bind fun s => if s.valid then some (s.expansion state) else none)

/-- The expansions of `src` are those of `S` when no callback fails; otherwise they keep what holds and what states denote. -/
structure Wraps (S : LazySource ρ Nat Char Char ω) (D : Dictionary Nat Char) (inv : ρ → Prop) (den : ρ → Nat → τ → Prop) : Prop where
  valid : ∀ {r state}, S.valid r state ↔ state ≤ u32Max ∧ src.isValidState r state = true
  expand : ∀ {replies r state r' o}, inv r → (∀ i, (replies i).Serve D) → state ≤ u32Max →
    src.expandState replies r state = ((r', o), []) → S.expand r state = (r', o)
  keeps : ∀ {replies r state r' o faults}, inv r → (∀ i, (replies i).Serve D) →
    src.expandState replies r state = ((r', o), faults) → inv r' ∧ ∀ {t a}, den r t a → den r' t a
  source : ∀ {r state r' e}, inv r → S.valid r state → S.expand r state = (r', some e) → ∀ arc ∈ e.arcs, arc.source = state
  answer : ∀ {replies r state}, (∀ i, (replies i).Answer) → (src.expandState replies r state).2 = []

variable {src} {S : LazySource ρ Nat Char Char ω} {D : Dictionary Nat Char} {inv : ρ → Prop} {den : ρ → Nat → τ → Prop}
  {provider : Nat} {answers : Nat → Nat → NodeReplies Nat Char} {replies : Nat → NodeReplies Nat Char} {r r' : ρ} {frames : FaultFrames}
  {c c' : AdapterStore ρ} {state : Nat} {o : Option (Expansion Nat Char Char ω)}

/-- What holds of an adapter between calls, after the first ones. -/
def Inv (inv : ρ → Prop) (calls : Nat) (c : AdapterStore ρ) : Prop := c.frames.WellFormed ∧ inv c.registries ∧ calls ≤ c.calls

/-- A failed callback decides the answer, whatever the expansion would have returned. -/
theorem scalarState_snd (h : frames.WellFormed) : (src.scalarState provider replies frames r state).2 =
    (src.compute replies r state).2.head?.elim (src.compute replies r state).1.2 .error := FaultFrames.withChecked_snd h

/-- What a call does: an invalid state is answered without an expansion, and the expansion of a valid one reaches the client when
    no callback has failed. -/
theorem client_expand (hc : c.frames.WellFormed) (he : (src.client provider answers).expand c state = (c', o)) :
    c'.frames.WellFormed ∧ c'.calls = c.calls + 1 ∧
      (¬(state ≤ u32Max ∧ src.isValidState c.registries state = true) ∧ c'.registries = c.registries ∧ o = none ∨
        (state ≤ u32Max ∧ src.isValidState c.registries state = true) ∧ ∃ e? faults,
          src.expandState (answers c.calls) c.registries state = ((c'.registries, e?), faults) ∧
            o = if faults = [] then e?.map fun e => (ScalarWfstState.ofExpansion e).expansion state else none) := by
  simp only [client, scalarState] at he
  rcases hcompute : src.compute (answers c.calls) c.registries state with ⟨⟨r, result⟩, faults⟩
  have hwellFormed : (c.frames.withChecked provider faults result).1.WellFormed := (FaultFrames.withChecked_fst hc).1
  have hsnd : (c.frames.withChecked provider faults result).2 = faults.head?.elim result .error := FaultFrames.withChecked_snd hc
  rw [hcompute] at he
  obtain ⟨rfl, rfl⟩ := Prod.mk.inj he
  refine ⟨hwellFormed, rfl, ?_⟩
  dsimp only
  rw [hsnd]
  unfold compute at hcompute
  by_cases hvalid : state ≤ u32Max ∧ src.isValidState c.registries state = true
  · rw [if_pos hvalid] at hcompute
    rcases hexpand : src.expandState (answers c.calls) c.registries state with ⟨⟨r', e?⟩, faults'⟩
    rw [hexpand] at hcompute
    cases hcompute
    refine Or.inr ⟨hvalid, e?, faults, rfl, ?_⟩
    cases faults with
    | nil => cases e? <;> simp [Except.toOption, ScalarWfstState.ofExpansion]
    | cons fault faults => simp [Except.toOption]
  · rw [if_neg hvalid] at hcompute
    cases hcompute
    exact Or.inl ⟨hvalid, rfl, by simp [Except.toOption, ScalarWfstState.invalid]⟩

/-- Failures of the provider interrupt an adapter, and do nothing else. -/
theorem Wraps.interrupts (h : src.Wraps S D inv den) (hanswers : ∀ call i, (answers call i).Serve D) (calls : Nat) :
    LazySource.Interrupts (src.client provider answers) S AdapterStore.registries inv (Inv inv calls) den where
  inv hc := hc.2.1
  valid hv := h.valid.mpr hv
  keeps {c state c' o} hc he := by
    obtain ⟨hframes, hcalls, ⟨-, hsame, -⟩ | ⟨-, e?, faults, hexpand, -⟩⟩ := client_expand hc.1 he
    · exact ⟨hframes, hsame ▸ hc.2.1, hcalls ▸ Nat.le_succ_of_le hc.2.2⟩
    · exact ⟨hframes, (h.keeps hc.2.1 (hanswers _) hexpand).1, hcalls ▸ Nat.le_succ_of_le hc.2.2⟩
  expand {c state c' e} hc he := by
    obtain ⟨-, -, ⟨-, -, hnone⟩ | ⟨hvalid, e?, faults, hexpand, hsome⟩⟩ := client_expand hc.1 he
    · cases hnone
    · split at hsome
      · rename_i hfaults
        obtain ⟨e', rfl, rfl⟩ := Option.map_eq_some_iff.mp hsome.symm
        have hS := h.expand hc.2.1 (hanswers _) hvalid.1 (hfaults ▸ hexpand)
        rwa [ScalarWfstState.expansion_ofExpansion (h.source hc.2.1 (h.valid.mpr hvalid) hS)]
      · cases hsome
  fail {c state c'} hc he := by
    obtain ⟨-, -, ⟨-, hsame, -⟩ | ⟨-, e?, faults, hexpand, -⟩⟩ := client_expand hc.1 he
    · rw [hsame]
      exact id
    · exact (h.keeps hc.2.1 (hanswers _) hexpand).2

/-- Whatever the failures so far have left, exploring ends when no callback fails any more. -/
theorem Wraps.exists_complete [AddMonoid ω] {T : Transducer τ Char Char ω} (h : src.Wraps S D inv den) (hS : LazySource.Sound S T inv den)
    (hvalid : ∀ {r state a}, inv r → den r state a → S.valid r state)
    (htotal : ∀ {r state}, inv r → S.valid r state → ∃ r' e, S.expand r state = (r', some e))
    (hanswers : ∀ call i, (answers call i).Serve D) {calls : Nat} (hanswer : ∀ call i, calls ≤ call → (answers call i).Answer)
    (hc : Inv inv calls c) {start : Nat} {a : τ} (hstart : den c.registries start a) :
    ∃ log c', (src.client provider answers).ExploresFrom start c log c' ∧ LazySource.Complete log start := by
  have hstates : ∀ {c state}, (src.client provider answers).valid c state → state ∈ Finset.range (u32Max + 1) :=
    fun hv => Finset.mem_range_succ_iff.mpr hv.1
  refine (hS.interrupted (h.interrupts hanswers calls)).exists_complete (fun hc hd => h.valid.mp (hvalid hc.2.1 hd))
    (fun {c state} hc hv => ?_) hstates hc hstart
  rcases he : (src.client provider answers).expand c state with ⟨c', o⟩
  obtain ⟨-, -, ⟨hinvalid, -⟩ | ⟨-, e?, faults, hexpand, hsome⟩⟩ := client_expand hc.1 he
  · exact absurd hv hinvalid
  · obtain rfl : faults = [] := by
      have hfaults : (src.expandState (answers c.calls) c.registries state).2 = [] := h.answer fun i => hanswer c.calls i hc.2.2
      rwa [hexpand] at hfaults
    obtain ⟨r', e, hS⟩ := htotal hc.2.1 (h.valid.mpr hv)
    cases (h.expand hc.2.1 (hanswers _) hv.1 hexpand).symm.trans hS
    exact ⟨c', _, Prod.ext rfl hsome⟩

end ForeignSource
end Duallity
