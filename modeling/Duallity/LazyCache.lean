import Duallity.StateEncoding
import Mathlib.Data.List.Sort

/-! The cache of expanded states that every wrapper keeps (`lazy_cache.rs`): all entries, the most recently used
    ones, or only the last state. Whatever is evicted, an entry that is still there is one that was inserted for its
    state. -/

namespace Duallity

inductive CachePolicy
  | noCache
  | cacheAll
  | lru (maxStates : Nat)
deriving DecidableEq, Repr

structure CacheEntry (τ : Type) where
  cached : τ
  lastAccess : Nat

/-- The heap orders its pairs of tick and state with the least first. -/
structure LazyStateCache (τ : Type) where
  entries : List (Nat × CacheEntry τ)
  lruHeap : List (Nat × Nat)
  scratch : Option (Nat × τ)
  clock : Nat
  policy : CachePolicy
  maxLruStates : Nat

/-- `u64::MAX`. -/
def u64Max : Nat := 18446744073709551615

namespace LazyStateCache
variable {τ : Type} (c : LazyStateCache τ)

/-! ### Entries and the heap -/

def before (a b : Nat × Nat) : Prop := a.1 < b.1 ∨ a.1 = b.1 ∧ a.2 ≤ b.2

instance : DecidableRel before := fun _ _ => inferInstanceAs (Decidable (_ ∨ _))

def setEntry (state : Nat) (entry : CacheEntry τ) : LazyStateCache τ :=
  { c with entries := (state, entry) :: c.entries.filter fun e => e.1 ≠ state }

def removeEntry (state : Nat) : LazyStateCache τ := { c with entries := c.entries.filter fun e => e.1 ≠ state }

def pushHeap (tick state : Nat) : LazyStateCache τ :=
  { c with lruHeap := c.lruHeap.orderedInsert before (tick, state) }

def rebuildLruHeap : LazyStateCache τ :=
  { c with lruHeap := (c.entries.filterMap fun (state, entry) =>
      if 0 < entry.lastAccess then some (entry.lastAccess, state) else none).insertionSort before }

def compactLruHeapIfNeeded : LazyStateCache τ :=
  let maxHeapLen := max (saturatingMul usizeMax c.entries.length 4) 64
  if maxHeapLen < c.lruHeap.length then c.rebuildLruHeap else c

/-! ### The clock -/

/-- The next tick for an entry, when the ticks are given out anew. -/
def renumberEntry (state : Nat) : LazyStateCache τ :=
  let c := { c with clock := saturatingAdd u64Max c.clock 1 }
  match c.entries.lookup state with
  | some entry => c.setEntry state { entry with lastAccess := c.clock }
  | none => c

def renumberLruTicks : LazyStateCache τ :=
  let entriesByAge := (c.entries.filterMap fun (state, entry) =>
    if 0 < entry.lastAccess then some (entry.lastAccess, state) else none).insertionSort before
  (entriesByAge.foldl (fun c pair => renumberEntry c pair.2) { c with clock := 0 }).rebuildLruHeap

/-- The cache after the clock has advanced; its clock is the tick. -/
def nextTick : LazyStateCache τ :=
  let c := if c.clock = u64Max then c.renumberLruTicks else c
  { c with clock := max (saturatingAdd u64Max c.clock 1) 1 }

def touch (state : Nat) : LazyStateCache τ :=
  match c.policy with
  | .lru _ =>
    let c := c.nextTick
    match c.entries.lookup state with
    | some entry =>
      ((c.setEntry state { entry with lastAccess := c.clock }).pushHeap c.clock state).compactLruHeapIfNeeded
    | none => c
  | _ => c

/-! ### Eviction -/

/-- Pop the heap until a pair is current. -/
def popCurrent (entries : List (Nat × CacheEntry τ)) : List (Nat × Nat) → Option Nat × List (Nat × Nat)
  | [] => (none, [])
  | (tick, state) :: heap =>
    if (entries.lookup state).any fun entry => entry.lastAccess = tick then (some state, heap)
    else popCurrent entries heap

def popLruVictim : LazyStateCache τ × Option Nat :=
  let (victim, heap) := popCurrent c.entries c.lruHeap
  ({ c with lruHeap := heap }, victim)

def evictOneLru : LazyStateCache τ × Bool :=
  match c.popLruVictim with
  | (c, some victim) => (c.removeEntry victim, true)
  | (c, none) =>
    match c.rebuildLruHeap.popLruVictim with
    | (c, some victim) => (c.removeEntry victim, true)
    | (c, none) => (c, false)

/-- Evict while there are more than `limit` entries; each turn that goes on removes one of the `n` entries. -/
def evictLruUntilAtMost (limit : Nat) (c : LazyStateCache τ) : Nat → LazyStateCache τ
  | 0 => c
  | n + 1 =>
    if limit < c.entries.length then
      match c.evictOneLru with
      | (c, true) => evictLruUntilAtMost limit c n
      | (c, false) => c
    else c

def lruLimit (maxStates : Nat) : Nat := max (if 0 < maxStates then maxStates else c.maxLruStates) 1

/-! ### Operations -/

def new (maxLruStates : Nat) : LazyStateCache τ := ⟨[], [], none, 0, .cacheAll, max maxLruStates 1⟩

def get (state : Nat) : Option τ :=
  match c.entries.lookup state with
  | some entry => some entry.cached
  | none => c.scratch.bind fun (s, cached) => if s = state then some cached else none

def clear : LazyStateCache τ := { c with entries := [], lruHeap := [], scratch := none, clock := 0 }

def setPolicy (policy : CachePolicy) : LazyStateCache τ := clear { c with policy := policy }

def setMaxLruStates (maxLruStates : Nat) : LazyStateCache τ :=
  let c := { c with maxLruStates := max maxLruStates 1 }
  if c.policy = .lru 0 then c.evictLruUntilAtMost c.maxLruStates c.entries.length else c

def touchIfCached (state : Nat) : LazyStateCache τ × Bool :=
  if (c.entries.lookup state).isSome then (c.touch state, true)
  else (c, c.scratch.any fun (s, _) => s = state)

def insert (state : Nat) (cached : τ) : LazyStateCache τ :=
  match c.policy with
  | .noCache => { c with scratch := some (state, cached) }
  | .cacheAll => { c.setEntry state ⟨cached, 0⟩ with scratch := none }
  | .lru maxStates =>
    let limit := c.lruLimit maxStates
    -- `evict_lru_before_insert` makes room: it evicts while the entries are at least `limit`.
    let c := if (c.entries.lookup state).isSome then c else c.evictLruUntilAtMost (limit - 1) c.entries.length
    let c := c.nextTick
    { ((c.setEntry state ⟨cached, c.clock⟩).pushHeap c.clock state).compactLruHeapIfNeeded with scratch := none }

/-! ### What is cached was inserted -/

/-- Every cached value is one that `p` holds of, for its state. -/
structure Holds (p : Nat → τ → Prop) (c : LazyStateCache τ) : Prop where
  entries : ∀ e ∈ c.entries, p e.1 e.2.cached
  scratch : ∀ s ∈ c.scratch, p s.1 s.2

variable {c} {p : Nat → τ → Prop} {state : Nat} {cached : τ}

theorem mem_of_lookup {entries : List (Nat × CacheEntry τ)} {entry : CacheEntry τ}
    (h : entries.lookup state = some entry) : (state, entry) ∈ entries := by
  induction entries with
  | nil => cases h
  | cons e entries ih =>
    rw [List.lookup_cons] at h
    split at h
    · rename_i heq
      cases h
      rw [beq_iff_eq.mp heq]
      exact List.mem_cons_self
    · exact List.mem_cons_of_mem _ (ih h)

theorem Holds.get (h : Holds p c) (hget : c.get state = some cached) : p state cached := by
  unfold LazyStateCache.get at hget
  split at hget
  · rename_i entry heq
    cases hget
    exact h.entries _ (mem_of_lookup heq)
  · rcases Option.bind_eq_some_iff.mp hget with ⟨⟨s, t⟩, hscratch, heq⟩
    rw [Option.ite_none_right_eq_some] at heq
    rcases heq with ⟨rfl, heq⟩
    exact Option.some.inj heq ▸ h.scratch _ hscratch

theorem Holds.setEntry (h : Holds p c) {entry : CacheEntry τ} (hp : p state entry.cached) :
    Holds p (c.setEntry state entry) := by
  refine ⟨?_, h.scratch⟩
  intro e he
  rcases List.mem_cons.mp he with rfl | he
  · exact hp
  · exact h.entries e (List.mem_of_mem_filter he)

theorem Holds.withoutScratch (h : Holds p c) : Holds p { c with scratch := none } := ⟨h.entries, by simp⟩

theorem Holds.withClock (h : Holds p c) {clock : Nat} : Holds p { c with clock := clock } := ⟨h.entries, h.scratch⟩

theorem Holds.removeEntry (h : Holds p c) : Holds p (c.removeEntry state) :=
  ⟨fun e he => h.entries e (List.mem_of_mem_filter he), h.scratch⟩

theorem Holds.pushHeap (h : Holds p c) {tick : Nat} : Holds p (c.pushHeap tick state) := ⟨h.entries, h.scratch⟩

theorem Holds.rebuildLruHeap (h : Holds p c) : Holds p c.rebuildLruHeap := ⟨h.entries, h.scratch⟩

theorem Holds.compactLruHeapIfNeeded (h : Holds p c) : Holds p c.compactLruHeapIfNeeded := by
  unfold LazyStateCache.compactLruHeapIfNeeded
  simp only
  split
  · exact h.rebuildLruHeap
  · exact h

theorem Holds.renumberLruTicks (h : Holds p c) : Holds p c.renumberLruTicks := by
  unfold LazyStateCache.renumberLruTicks
  refine Holds.rebuildLruHeap ?_
  refine List.foldlRecOn _ _ ⟨h.entries, h.scratch⟩ ?_
  intro c' h' e _
  unfold LazyStateCache.renumberEntry
  simp only
  split
  · rename_i entry heq
    exact h'.withClock.setEntry (h'.entries _ (mem_of_lookup heq))
  · exact h'.withClock

theorem Holds.nextTick (h : Holds p c) : Holds p c.nextTick := by
  have hrenumbered : Holds p (if c.clock = u64Max then c.renumberLruTicks else c) := by
    split
    · exact h.renumberLruTicks
    · exact h
  exact hrenumbered.withClock

theorem Holds.touch (h : Holds p c) : Holds p (c.touch state) := by
  unfold LazyStateCache.touch
  split
  · simp only
    split
    · rename_i entry heq
      refine (Holds.setEntry h.nextTick ?_).pushHeap.compactLruHeapIfNeeded
      exact h.nextTick.entries _ (mem_of_lookup heq)
    · exact h.nextTick
  · exact h

theorem Holds.popLruVictim (h : Holds p c) : Holds p c.popLruVictim.1 := ⟨h.entries, h.scratch⟩

theorem Holds.evictOneLru (h : Holds p c) : Holds p c.evictOneLru.1 := by
  unfold LazyStateCache.evictOneLru
  have hpop := h.popLruVictim
  split
  · rename_i c' victim heq
    rw [heq] at hpop
    exact hpop.removeEntry
  · rename_i c' heq
    rw [heq] at hpop
    have hpop' := hpop.rebuildLruHeap.popLruVictim
    split
    · rename_i c'' victim heq'
      rw [heq'] at hpop'
      exact hpop'.removeEntry
    · rename_i c'' heq'
      rw [heq'] at hpop'
      exact hpop'

theorem Holds.evictLruUntilAtMost {limit n : Nat} (h : Holds p c) : Holds p (evictLruUntilAtMost limit c n) := by
  induction n generalizing c with
  | zero => exact h
  | succ n ih =>
    unfold LazyStateCache.evictLruUntilAtMost
    have hevict := h.evictOneLru
    split
    · split
      · rename_i c' heq
        rw [heq] at hevict
        exact ih hevict
      · rename_i c' heq
        rw [heq] at hevict
        exact hevict
    · exact h

theorem holds_new {maxLruStates : Nat} : Holds p (new maxLruStates) := ⟨by simp [new], by simp [new]⟩

theorem holds_clear : Holds p c.clear := ⟨by simp [LazyStateCache.clear], by simp [LazyStateCache.clear]⟩

theorem Holds.setMaxLruStates {n : Nat} (h : Holds p c) : Holds p (c.setMaxLruStates n) := by
  have h' : Holds p { c with maxLruStates := max n 1 } := ⟨h.entries, h.scratch⟩
  unfold LazyStateCache.setMaxLruStates
  simp only
  split
  · exact h'.evictLruUntilAtMost
  · exact h'

theorem Holds.touchIfCached (h : Holds p c) : Holds p (c.touchIfCached state).1 := by
  unfold LazyStateCache.touchIfCached
  split
  · exact h.touch
  · exact h

theorem Holds.insert (h : Holds p c) (hp : p state cached) : Holds p (c.insert state cached) := by
  unfold LazyStateCache.insert
  split
  · refine ⟨h.entries, ?_⟩
    intro s hs
    cases hs
    exact hp
  · exact Holds.withoutScratch (Holds.setEntry h hp)
  · rename_i maxStates heq
    simp only
    have hroom : Holds p (if (c.entries.lookup state).isSome then c
        else c.evictLruUntilAtMost (c.lruLimit maxStates - 1) c.entries.length) := by
      split
      · exact h
      · exact h.evictLruUntilAtMost
    refine (Holds.setEntry hroom.nextTick ?_).pushHeap.compactLruHeapIfNeeded.withoutScratch
    exact hp

end LazyStateCache
end Duallity
