import Duallity.LazyCache
import Duallity.Lib.LruMap
import Mathlib.Data.List.Induction
import Mathlib.Data.List.Perm.Subperm

/-! The cache of expanded states refines an ideal map that remembers how recently its keys were used. The ticks of the
    entries order them by age; the heap has a pair for each entry and stale pairs, which are never current again because
    ticks grow. Renumbering keeps the order and rebuilds the heap. -/

namespace Duallity

/-- The cache without ticks and heap. -/
structure IdealCache (τ : Type) where
  states : LruMap Nat τ
  policy : CachePolicy
  maxLruStates : Nat

inductive CacheOperation (τ : Type)
  | setPolicy (policy : CachePolicy)
  | setMaxLruStates (n : Nat)
  | insert (state : UInt32) (cached : τ)
  | touchIfCached (state : UInt32)
  | clear

namespace IdealCache
variable {τ : Type} (m : IdealCache τ)

def new (maxLruStates : Nat) : IdealCache τ := ⟨.empty, .cacheAll, max maxLruStates 1⟩

/-- How many states the policy lets the cache keep. -/
def limit? : Option Nat :=
  match m.policy with
  | .noCache => some 1
  | .cacheAll => none
  | .lru maxStates => some (max (if 0 < maxStates then maxStates else m.maxLruStates) 1)

def trim : IdealCache τ := { m with states := m.limit?.elim m.states m.states.trim }

def victims : List Nat := m.limit?.elim [] m.states.victims

/-- The map before it is trimmed. -/
def update : CacheOperation τ → IdealCache τ
  | .setPolicy policy => { m with states := .empty, policy }
  | .setMaxLruStates n => { m with maxLruStates := max n 1 }
  | .insert state cached => { m with states := m.states.put state.toNat cached }
  | .touchIfCached state => { m with states := m.states.touch state.toNat }
  | .clear => { m with states := .empty }

def apply (operation : CacheOperation τ) : IdealCache τ := (m.update operation).trim

def run (operations : List (CacheOperation τ)) : IdealCache τ := operations.foldl apply m

end IdealCache

namespace LazyStateCache
variable {τ : Type}

section Operations
variable (c : LazyStateCache τ)

def apply : CacheOperation τ → LazyStateCache τ
  | .setPolicy policy => c.setPolicy policy
  | .setMaxLruStates n => c.setMaxLruStates n
  | .insert state cached => c.insert state.toNat cached
  | .touchIfCached state => (c.touchIfCached state.toNat).1
  | .clear => c.clear

def run (operations : List (CacheOperation τ)) : LazyStateCache τ := operations.foldl apply c

/-- The state that `evictOneLru` evicts. -/
def victim? : Option Nat :=
  match c.popLruVictim with
  | (_, some victim) => some victim
  | (c, none) => c.rebuildLruHeap.popLruVictim.2

/-- The states that `evictLruUntilAtMost` evicts, the first one first. -/
def evicted (limit : Nat) (c : LazyStateCache τ) : Nat → List Nat
  | 0 => []
  | n + 1 =>
    if limit < c.entries.length then
      match c.victim? with
      | some victim => victim :: evicted limit c.evictOneLru.1 n
      | none => []
    else []

/-- The states that an operation evicts to keep the limit of the policy. -/
def victims : CacheOperation τ → List Nat
  | .insert state _ =>
    match c.policy with
    | .noCache => (c.scratch.toList.map Prod.fst).filter (· ≠ state.toNat)
    | .cacheAll => []
    | .lru maxStates =>
      if (c.entries.lookup state.toNat).isSome then [] else evicted (c.lruLimit maxStates - 1) c c.entries.length
  | .setMaxLruStates n =>
    if c.policy = .lru 0 then evicted (max n 1) { c with maxLruStates := max n 1 } c.entries.length else []
  | _ => []

end Operations

/-! ### Ages -/

/-- A tick, a state and its value. -/
abbrev Aged (τ : Type) := Nat × Nat × τ

def Aged.entry (a : Aged τ) : Nat × CacheEntry τ := (a.2.1, ⟨a.2.2, a.1⟩)

def Aged.pair (a : Aged τ) : Nat × Nat := (a.1, a.2.1)

/-- The entries by age, the oldest first: their ticks are positive and below `bound`. -/
structure AgedEntries (bound : Nat) (entries : List (Nat × CacheEntry τ)) (aged : List (Aged τ)) : Prop where
  perm : entries.Perm (aged.map Aged.entry)
  sorted : aged.Pairwise fun a b => a.1 < b.1
  tick : ∀ a ∈ aged, 0 < a.1 ∧ a.1 < bound
  nodup : (aged.map fun a => a.2.1).Nodup
  state : ∀ a ∈ aged, a.2.1 < u32Count

/-- The heap has the pair of every entry, and no tick from `bound` on. -/
structure Ages (bound : Nat) (c : LazyStateCache τ) (aged : List (Aged τ)) : Prop where
  entries : AgedEntries bound c.entries aged
  scratch : c.scratch = none
  heap_sorted : c.lruHeap.Pairwise before
  heap_lt : ∀ p ∈ c.lruHeap, p.1 < bound
  heap : ∀ a ∈ aged, Aged.pair a ∈ c.lruHeap

section Ages
variable {c : LazyStateCache τ} {bound tick state : Nat} {aged : List (Aged τ)} {entries : List (Nat × CacheEntry τ)}
  {cached : τ}

instance : Std.Total (before) where
  total a b := by
    unfold before
    omega

instance : IsTrans (Nat × Nat) before where
  trans a b c hab hbc := by
    unfold before at *
    omega

theorem AgedEntries.nodup_states (h : AgedEntries bound entries aged) : (entries.map Prod.fst).Nodup := by
  refine (h.perm.map Prod.fst).nodup_iff.mpr ?_
  rw [List.map_map]
  exact h.nodup

/-- The value and the tick of a state. -/
theorem AgedEntries.lookup_eq_some_iff (h : AgedEntries bound entries aged) {entry : CacheEntry τ} :
    entries.lookup state = some entry ↔ (entry.lastAccess, state, entry.cached) ∈ aged := by
  rw [LruMap.lookup_eq_some_iff h.nodup_states, h.perm.mem_iff, List.mem_map]
  refine ⟨?_, fun hmem => ⟨_, hmem, rfl⟩⟩
  intro ⟨a, ha, heq⟩
  cases heq
  exact ha

theorem AgedEntries.length_eq (h : AgedEntries bound entries aged) : entries.length = aged.length := by
  rw [h.perm.length_eq, List.length_map]

theorem AgedEntries.length_le (h : AgedEntries bound entries aged) : aged.length ≤ u32Count := by
  have hsubset : (aged.map fun a => a.2.1) ⊆ List.range u32Count := by
    intro s hs
    obtain ⟨a, ha, rfl⟩ := List.mem_map.mp hs
    exact List.mem_range.mpr (h.state a ha)
  simpa using (h.nodup.subperm hsubset).length_le

/-- Setting the entry of a state makes it the youngest. -/
theorem AgedEntries.setEntry (h : AgedEntries bound c.entries aged) (hpos : 0 < tick) (htick : bound ≤ tick)
    (hstate : state < u32Count) : AgedEntries (tick + 1) (c.setEntry state ⟨cached, tick⟩).entries
      (aged.filter (fun a => a.2.1 ≠ state) ++ [(tick, state, cached)]) := by
  refine ⟨?_, ?_, ?_, ?_, ?_⟩
  · rw [List.map_append, List.map_singleton]
    refine List.Perm.trans ?_ List.perm_append_comm
    refine List.Perm.cons _ ?_
    refine (h.perm.filter _).trans ?_
    rw [List.filter_map]
    exact List.Perm.refl _
  · refine List.pairwise_append.mpr ⟨h.sorted.filter _, List.pairwise_singleton _ _, ?_⟩
    intro a ha b hb
    rw [List.mem_singleton.mp hb]
    exact (h.tick a (List.mem_of_mem_filter ha)).2.trans_le htick
  · intro a ha
    rcases List.mem_append.mp ha with ha | ha
    · have := h.tick a (List.mem_of_mem_filter ha)
      omega
    · rw [List.mem_singleton.mp ha]
      exact ⟨hpos, Nat.lt_succ_self _⟩
  · rw [List.map_append, List.map_singleton, List.nodup_append]
    refine ⟨h.nodup.sublist (List.filter_sublist.map _), List.nodup_singleton _, ?_⟩
    intro s hs s' hs'
    obtain ⟨a, ha, rfl⟩ := List.mem_map.mp hs
    rw [List.mem_singleton.mp hs']
    exact of_decide_eq_true (List.mem_filter.mp ha).2
  · intro a ha
    rcases List.mem_append.mp ha with ha | ha
    · exact h.state a (List.mem_of_mem_filter ha)
    · rw [List.mem_singleton.mp ha]
      exact hstate

/-- The pairs of all entries, in order of age. -/
theorem AgedEntries.sort_pairs (h : AgedEntries bound entries aged) :
    (entries.filterMap fun (state, entry) => if 0 < entry.lastAccess then some (entry.lastAccess, state) else none).insertionSort
      before = aged.map Aged.pair := by
  have hpairs : (aged.map Aged.entry).filterMap (fun (state, entry) =>
      if 0 < entry.lastAccess then some (entry.lastAccess, state) else none) = aged.map Aged.pair := by
    rw [List.filterMap_map, ← List.filterMap_eq_map]
    refine List.filterMap_congr ?_
    intro a ha
    exact if_pos (h.tick a ha).1
  have hsorted : (aged.map Aged.pair).Pairwise before := by
    refine List.pairwise_map.mpr (h.sorted.imp ?_)
    intro a b hab
    exact Or.inl hab
  refine List.Perm.eq_of_pairwise ?_ (List.pairwise_insertionSort _ _) hsorted
    ((List.perm_insertionSort _ _).trans (hpairs ▸ h.perm.filterMap _))
  intro a b _ _ hab hba
  unfold before at hab hba
  exact Prod.ext (by omega) (by omega)

theorem AgedEntries.rebuildLruHeap (h : AgedEntries bound c.entries aged) (hscratch : c.scratch = none) :
    Ages bound c.rebuildLruHeap aged := by
  have hheap : c.rebuildLruHeap.lruHeap = aged.map Aged.pair := h.sort_pairs
  refine ⟨h, hscratch, List.pairwise_insertionSort _ _, ?_, ?_⟩
  · intro p hp
    rw [hheap] at hp
    obtain ⟨a, ha, rfl⟩ := List.mem_map.mp hp
    exact (h.tick a ha).2
  · intro a ha
    rw [hheap]
    exact List.mem_map_of_mem ha

theorem Ages.compactLruHeapIfNeeded (h : Ages bound c aged) : Ages bound c.compactLruHeapIfNeeded aged := by
  unfold LazyStateCache.compactLruHeapIfNeeded
  simp only
  split
  · exact h.entries.rebuildLruHeap h.scratch
  · exact h

/-- A state that is used gets the next tick. -/
theorem Ages.use (h : Ages tick c aged) (hpos : 0 < tick) (hstate : state < u32Count) :
    Ages (tick + 1) ((c.setEntry state ⟨cached, tick⟩).pushHeap tick state).compactLruHeapIfNeeded
      (aged.filter (fun a => a.2.1 ≠ state) ++ [(tick, state, cached)]) := by
  refine Ages.compactLruHeapIfNeeded ⟨h.entries.setEntry hpos le_rfl hstate, h.scratch, ?_, ?_, ?_⟩
  · exact List.Pairwise.orderedInsert _ _ h.heap_sorted
  · intro p hp
    rcases (List.mem_orderedInsert _).mp hp with rfl | hp
    · exact Nat.lt_succ_self _
    · exact Nat.lt_succ_of_lt (h.heap_lt p hp)
  · intro a ha
    refine (List.mem_orderedInsert _).mpr ?_
    rcases List.mem_append.mp ha with ha | ha
    · exact Or.inr (h.heap a (List.mem_of_mem_filter ha))
    · rw [List.mem_singleton.mp ha]
      exact Or.inl rfl

/-! ### The clock -/

/-- The same states and values with the ticks from `first` on. -/
def renumbered (first : Nat) : List (Aged τ) → List (Aged τ)
  | [] => []
  | a :: aged => (first, a.2) :: renumbered (first + 1) aged

theorem map_renumbered (first : Nat) : (renumbered first aged).map Prod.snd = aged.map Prod.snd := by
  induction aged generalizing first with
  | nil => rfl
  | cons a aged ih => rw [renumbered, List.map_cons, List.map_cons, ih]

theorem tick_renumbered {first : Nat} {a : Aged τ} (h : a ∈ renumbered first aged) :
    first ≤ a.1 ∧ a.1 < first + aged.length := by
  induction aged generalizing first with
  | nil => cases h
  | cons b aged ih =>
    rw [List.length_cons]
    rcases List.mem_cons.mp h with rfl | h
    · simp only
      omega
    · have := ih h
      omega

theorem sorted_renumbered {first : Nat} : (renumbered first aged).Pairwise fun a b => a.1 < b.1 := by
  induction aged generalizing first with
  | nil => exact List.Pairwise.nil
  | cons a aged ih =>
    refine List.pairwise_cons.mpr ⟨?_, ih⟩
    intro b hb
    exact (tick_renumbered hb).1

/-- Entries with distinct states: without the first one. -/
theorem filter_states {e : Nat × CacheEntry τ} {rest : List (Nat × CacheEntry τ)}
    (hperm : entries.Perm (e :: rest)) (hnodup : ((e :: rest).map Prod.fst).Nodup) :
    (entries.filter fun e' => e'.1 ≠ e.1).Perm rest := by
  refine (hperm.filter _).trans ?_
  rw [List.filter_cons_of_neg (by simp), List.filter_eq_self.mpr]
  intro e' he'
  rw [decide_eq_true_eq]
  intro heq
  exact (List.nodup_cons.mp hnodup).1 (heq ▸ List.mem_map_of_mem he')

theorem renumberEntry_eq {entry : CacheEntry τ} (h : c.entries.lookup state = some entry) (hclock : c.clock < u64Max) :
    c.renumberEntry state = { c with
      clock := c.clock + 1
      entries := (state, { entry with lastAccess := c.clock + 1 }) :: c.entries.filter fun e => e.1 ≠ state } := by
  unfold LazyStateCache.renumberEntry
  simp only [saturatingAdd_one hclock, h]
  rfl

/-- Renumbering the entries of `aged` leaves those that are done. -/
theorem foldl_renumberEntry (aged : List (Aged τ)) : ∀ (c : LazyStateCache τ) (done : List (Nat × CacheEntry τ)),
    c.entries.Perm (aged.map Aged.entry ++ done) → ((aged.map Aged.entry ++ done).map Prod.fst).Nodup →
    c.clock + aged.length ≤ u64Max → ∃ entries,
      (aged.map Aged.pair).foldl (fun c pair => renumberEntry c pair.2) c =
        { c with clock := c.clock + aged.length, entries := entries } ∧
      entries.Perm ((renumbered (c.clock + 1) aged).map Aged.entry ++ done) := by
  induction aged with
  | nil =>
    intro c done hperm _ _
    exact ⟨c.entries, rfl, hperm⟩
  | cons a aged ih =>
    intro c done hperm hnodup hclock
    rw [List.length_cons] at hclock
    have hlookup : c.entries.lookup a.2.1 = some ⟨a.2.2, a.1⟩ := by
      refine (LruMap.lookup_eq_some_iff ((hperm.map Prod.fst).nodup_iff.mpr hnodup)).mpr (hperm.mem_iff.mpr ?_)
      exact List.mem_cons_self
    have hrest := filter_states hperm hnodup
    have hstep := renumberEntry_eq hlookup (by omega)
    have hmiddle : ((a.2.1, ⟨a.2.2, c.clock + 1⟩) :: (aged.map Aged.entry ++ done)).Perm
        (aged.map Aged.entry ++ ((a.2.1, ⟨a.2.2, c.clock + 1⟩) :: done)) := List.perm_middle.symm
    obtain ⟨entries, hfold, hentries⟩ := ih
      { c with clock := c.clock + 1, entries := (a.2.1, ⟨a.2.2, c.clock + 1⟩) :: c.entries.filter fun e => e.1 ≠ a.2.1 }
      ((a.2.1, ⟨a.2.2, c.clock + 1⟩) :: done) ((hrest.cons _).trans hmiddle)
      (((hmiddle.map Prod.fst).nodup_iff).mp hnodup) (by simp only; omega)
    refine ⟨entries, ?_, ?_⟩
    · rw [List.map_cons, List.foldl_cons]
      rw [show (Aged.pair a).2 = a.2.1 from rfl, hstep, hfold]
      simp only [List.length_cons]
      congr 1
      omega
    · refine hentries.trans ?_
      rw [renumbered, List.map_cons]
      exact List.perm_middle

/-- Renumbering keeps the states in order of age. -/
theorem AgedEntries.renumberLruTicks (h : AgedEntries bound c.entries aged) (hscratch : c.scratch = none) :
    ∃ aged', aged'.map Prod.snd = aged.map Prod.snd ∧ Ages (c.renumberLruTicks.clock + 1) c.renumberLruTicks aged' ∧
      c.renumberLruTicks.clock ≤ u32Count ∧ c.renumberLruTicks.policy = c.policy ∧
      c.renumberLruTicks.maxLruStates = c.maxLruStates := by
  have hlength := h.length_le
  have hmax : u32Count < u64Max := by decide
  have hstates : (aged.map Aged.entry).map Prod.fst = aged.map fun a => a.2.1 := by
    rw [List.map_map]
    rfl
  obtain ⟨entries, hfold, hentries⟩ := foldl_renumberEntry aged { c with clock := 0 } [] (by simpa using h.perm)
    (by rw [List.append_nil, hstates]; exact h.nodup) (by simp only; omega)
  have heq : c.renumberLruTicks = { c with clock := aged.length, entries := entries }.rebuildLruHeap := by
    rw [LazyStateCache.renumberLruTicks]
    simp only
    rw [h.sort_pairs, hfold]
    simp
  rw [heq]
  refine ⟨renumbered 1 aged, map_renumbered 1, AgedEntries.rebuildLruHeap ⟨?_, sorted_renumbered, ?_, ?_, ?_⟩ hscratch, hlength,
    rfl, rfl⟩
  · simpa using hentries
  · intro a ha
    have := tick_renumbered ha
    show 0 < a.1 ∧ a.1 < aged.length + 1
    omega
  · have := congrArg (List.map Prod.fst) (show (renumbered 1 aged).map Prod.snd = aged.map Prod.snd from map_renumbered 1)
    rw [List.map_map, List.map_map] at this
    exact this ▸ h.nodup
  · intro a ha
    have hmem : a.2 ∈ aged.map Prod.snd := map_renumbered 1 ▸ List.mem_map_of_mem ha
    obtain ⟨b, hb, heq⟩ := List.mem_map.mp hmem
    exact heq ▸ h.state b hb

/-- The next tick is beyond those of all entries. -/
theorem Ages.nextTick (h : Ages (c.clock + 1) c aged) (hclock : c.clock ≤ u64Max) :
    ∃ aged', aged'.map Prod.snd = aged.map Prod.snd ∧ Ages c.nextTick.clock c.nextTick aged' ∧
      0 < c.nextTick.clock ∧ c.nextTick.clock ≤ u64Max ∧ c.nextTick.policy = c.policy ∧
      c.nextTick.maxLruStates = c.maxLruStates := by
  have hmax : u32Count < u64Max := by decide
  -- What the increment of the clock does to a cache whose clock is not at its maximum.
  have hincrement : ∀ (c' : LazyStateCache τ) (aged' : List (Aged τ)), Ages (c'.clock + 1) c' aged' → c'.clock < u64Max →
      Ages (max (saturatingAdd u64Max c'.clock 1) 1) { c' with clock := max (saturatingAdd u64Max c'.clock 1) 1 } aged' ∧
        max (saturatingAdd u64Max c'.clock 1) 1 = c'.clock + 1 := by
    intro c' aged' h' hlt
    have htick : max (saturatingAdd u64Max c'.clock 1) 1 = c'.clock + 1 := by
      rw [saturatingAdd_one hlt]
      exact Nat.max_eq_left (Nat.le_add_left 1 _)
    rw [htick]
    exact ⟨⟨h'.entries, h'.scratch, h'.heap_sorted, h'.heap_lt, h'.heap⟩, rfl⟩
  by_cases hfull : c.clock = u64Max
  · obtain ⟨aged', hmap, hages, hle, hpolicy, hmaxLru⟩ := h.entries.renumberLruTicks h.scratch
    obtain ⟨hages', htick⟩ := hincrement _ _ hages (by omega)
    rw [LazyStateCache.nextTick, if_pos hfull]
    refine ⟨aged', hmap, hages', ?_, ?_, hpolicy, hmaxLru⟩
    · simp only [htick]
      exact Nat.succ_pos _
    · simp only [htick]
      omega
  · obtain ⟨hages', htick⟩ := hincrement _ _ h (by omega)
    rw [LazyStateCache.nextTick, if_neg hfull]
    refine ⟨aged, rfl, hages', ?_, ?_, rfl, rfl⟩
    · simp only [htick]
      exact Nat.succ_pos _
    · simp only [htick]
      omega

/-! ### Eviction -/

/-- The first current pair of the heap is that of the oldest entry. -/
theorem popCurrent_eq {a : Aged τ} {heap : List (Nat × Nat)} (h : AgedEntries bound entries (a :: aged))
    (hsorted : heap.Pairwise before) (hheap : ∀ b ∈ a :: aged, Aged.pair b ∈ heap) :
    ∃ heap', popCurrent entries heap = (some a.2.1, heap') ∧ heap'.Sublist heap ∧ ∀ b ∈ aged, Aged.pair b ∈ heap' := by
  induction heap with
  | nil => exact absurd (hheap a List.mem_cons_self) List.not_mem_nil
  | cons p heap ih =>
    obtain ⟨t, s⟩ := p
    obtain ⟨hfirst, hsorted⟩ := List.pairwise_cons.mp hsorted
    have holdest := (List.pairwise_cons.mp h.sorted).1
    by_cases hcurrent : ((entries.lookup s).any fun entry => entry.lastAccess = t) = true
    · rw [popCurrent, if_pos hcurrent]
      obtain ⟨entry, hentry, htick⟩ := (Option.any_eq_true _ _).mp hcurrent
      have hmem := h.lookup_eq_some_iff.mp hentry
      rw [of_decide_eq_true htick] at hmem
      -- The oldest entry has a pair in the heap, which is not before this one.
      have hle : t ≤ a.1 := by
        rcases List.mem_cons.mp (hheap a List.mem_cons_self) with heq | hin
        · have htick' : a.1 = t := congrArg Prod.fst heq
          exact htick'.ge
        · rcases hfirst _ hin with hlt | ⟨heq, -⟩
          · exact hlt.le
          · exact heq.le
      rcases List.mem_cons.mp hmem with rfl | hmem
      · refine ⟨heap, rfl, List.sublist_cons_self _ _, ?_⟩
        intro b hb
        rcases List.mem_cons.mp (hheap b (List.mem_cons_of_mem _ hb)) with heq | hin
        · have hlt := holdest b hb
          have htick := congrArg Prod.fst heq
          exact absurd (htick : b.1 = _) (Nat.ne_of_gt hlt)
        · exact hin
      · exact absurd (holdest _ hmem) (Nat.not_lt_of_le hle)
    · rw [popCurrent, if_neg hcurrent]
      obtain ⟨heap', hpop, hsublist, hrest⟩ := ih hsorted (by
        intro b hb
        rcases List.mem_cons.mp (hheap b hb) with heq | hin
        · exfalso
          refine hcurrent ((Option.any_eq_true _ _).mpr ⟨⟨b.2.2, t⟩, ?_, decide_eq_true rfl⟩)
          rw [h.lookup_eq_some_iff]
          cases heq
          exact hb
        · exact hin)
      exact ⟨heap', hpop, hsublist.cons _, hrest⟩

/-- An eviction removes the oldest entry. -/
theorem Ages.evictOneLru {a : Aged τ} (h : Ages bound c (a :: aged)) : ∃ c', c.evictOneLru = (c', true) ∧
    c.victim? = some a.2.1 ∧ Ages bound c' aged ∧ c'.clock = c.clock ∧ c'.policy = c.policy ∧
    c'.maxLruStates = c.maxLruStates := by
  obtain ⟨heap', hpop, hsublist, hrest⟩ := popCurrent_eq h.entries h.heap_sorted h.heap
  have hvictim : c.popLruVictim = ({ c with lruHeap := heap' }, some a.2.1) := by rw [popLruVictim, hpop]
  refine ⟨{ c with lruHeap := heap' }.removeEntry a.2.1, by rw [LazyStateCache.evictOneLru, hvictim],
    by rw [victim?, hvictim], ⟨⟨?_, ?_, ?_, ?_, ?_⟩, h.scratch, h.heap_sorted.sublist hsublist, ?_, hrest⟩, rfl, rfl, rfl⟩
  · refine filter_states h.entries.perm ?_
    rw [← List.map_cons, List.map_map]
    exact h.entries.nodup
  · exact (List.pairwise_cons.mp h.entries.sorted).2
  · exact fun b hb => h.entries.tick b (List.mem_cons_of_mem _ hb)
  · exact (List.nodup_cons.mp h.entries.nodup).2
  · exact fun b hb => h.entries.state b (List.mem_cons_of_mem _ hb)
  · exact fun p hp => h.heap_lt p (hsublist.subset hp)

/-- Evictions remove the oldest entries beyond the limit, in order of age. -/
theorem Ages.evictLruUntilAtMost (h : Ages bound c aged) (limit : Nat) {n : Nat} (hn : aged.length ≤ limit + n) :
    Ages bound (evictLruUntilAtMost limit c n) (aged.drop (aged.length - limit)) ∧
      evicted limit c n = (aged.take (aged.length - limit)).map (fun a => a.2.1) ∧
      (evictLruUntilAtMost limit c n).clock = c.clock ∧ (evictLruUntilAtMost limit c n).policy = c.policy ∧
      (evictLruUntilAtMost limit c n).maxLruStates = c.maxLruStates := by
  have hlength := h.entries.length_eq
  induction n generalizing c aged with
  | zero =>
    rw [Nat.add_zero] at hn
    rw [Nat.sub_eq_zero_of_le hn]
    exact ⟨h, rfl, rfl, rfl, rfl⟩
  | succ n ih =>
    rw [LazyStateCache.evictLruUntilAtMost, evicted, hlength]
    by_cases hover : limit < aged.length
    · cases aged with
      | nil => exact absurd hover (Nat.not_lt_zero _)
      | cons a aged =>
        obtain ⟨c', hevict, hvictim, hages, hclock, hpolicy, hmaxLru⟩ := h.evictOneLru
        rw [List.length_cons] at hn hover
        obtain ⟨hages', hevicted, hclock', hpolicy', hmaxLru'⟩ := ih hages (by omega) hages.entries.length_eq
        rw [if_pos (by rw [List.length_cons]; exact hover), if_pos (by rw [List.length_cons]; exact hover), hevict, hvictim,
          List.length_cons, Nat.succ_sub (Nat.le_of_lt_succ hover), List.drop_succ_cons, List.take_succ_cons, List.map_cons,
          hevicted]
        exact ⟨hages', rfl, hclock'.trans hclock, hpolicy'.trans hpolicy, hmaxLru'.trans hmaxLru⟩
    · rw [if_neg hover, if_neg hover, Nat.sub_eq_zero_of_le (Nat.le_of_not_lt hover)]
      exact ⟨h, rfl, rfl, rfl, rfl⟩

end Ages

/-! ### Refinement -/

/-- The cache holds the contents of `m`, in the way of its policy. -/
structure Refines (c : LazyStateCache τ) (m : IdealCache τ) : Prop where
  policy : c.policy = m.policy
  maxLruStates : c.maxLruStates = m.maxLruStates
  limit : ∀ l ∈ m.limit?, m.states.size ≤ l
  noCache : m.policy = .noCache → c.entries = [] ∧ m.states.entries = c.scratch.toList
  cacheAll : m.policy = .cacheAll → c.scratch = none ∧ c.entries.Perm (m.states.entries.map fun e => (e.1, ⟨e.2, 0⟩))
  lru : ∀ n, m.policy = .lru n → c.clock ≤ u64Max ∧ ∃ aged, aged.map Prod.snd = m.states.entries ∧ Ages (c.clock + 1) c aged

section Refinement
variable {c : LazyStateCache τ} {m : IdealCache τ} {state : Nat} {cached : τ}

theorem lookup_perm {entries : List (Nat × CacheEntry τ)} {states : LruMap Nat τ} (tick : Nat × τ → Nat)
    (h : entries.Perm (states.entries.map fun e => (e.1, ⟨e.2, tick e⟩))) :
    (entries.lookup state).map CacheEntry.cached = states.get state := by
  have hnodup : (entries.map Prod.fst).Nodup := by
    refine (h.map Prod.fst).nodup_iff.mpr ?_
    rw [List.map_map]
    exact states.nodup
  refine Option.ext ?_
  intro v
  rw [LruMap.get_eq_some_iff, Option.map_eq_some_iff]
  refine ⟨?_, ?_⟩
  · intro ⟨entry, hentry, hv⟩
    obtain ⟨e, he, heq⟩ := List.mem_map.mp (h.mem_iff.mp ((LruMap.lookup_eq_some_iff hnodup).mp hentry))
    cases heq
    exact hv ▸ he
  · intro hmem
    exact ⟨_, (LruMap.lookup_eq_some_iff hnodup).mpr (h.mem_iff.mpr (List.mem_map_of_mem hmem)), rfl⟩

theorem Ages.lookup {bound : Nat} {aged : List (Aged τ)} (h : Ages bound c aged) {states : LruMap Nat τ}
    (hstates : aged.map Prod.snd = states.entries) (state : Nat) :
    (c.entries.lookup state).map CacheEntry.cached = states.get state := by
  refine Option.ext ?_
  intro v
  rw [LruMap.get_eq_some_iff, Option.map_eq_some_iff, ← hstates, List.mem_map]
  refine ⟨?_, ?_⟩
  · intro ⟨entry, hentry, hv⟩
    exact ⟨_, h.entries.lookup_eq_some_iff.mp hentry, by rw [hv]⟩
  · intro ⟨a, ha, heq⟩
    refine ⟨⟨v, a.1⟩, h.entries.lookup_eq_some_iff.mpr ?_, rfl⟩
    rw [← heq]
    exact ha

theorem get_eq_orElse : c.get state = ((c.entries.lookup state).map CacheEntry.cached).or
    (c.scratch.bind fun (s, cached) => if s = state then some cached else none) := by
  unfold LazyStateCache.get
  split
  · rename_i entry h
    rw [h]
    rfl
  · rename_i h
    rw [h]
    rfl

/-- The cache returns what the ideal map has. -/
theorem Refines.get_eq (h : Refines c m) : c.get state = m.states.get state := by
  rw [get_eq_orElse]
  cases hpolicy : m.policy with
  | noCache =>
    obtain ⟨hentries, hscratch⟩ := h.noCache hpolicy
    rw [hentries, List.lookup_nil, Option.map_none, Option.none_or, LruMap.get, hscratch]
    cases c.scratch with
    | none => rfl
    | some e =>
      obtain ⟨s, v⟩ := e
      rw [Option.bind_some, Option.toList_some, List.lookup_cons, List.lookup_nil]
      simp only
      by_cases heq : state = s
      · subst heq
        rw [if_pos rfl, beq_self_eq_true]
      · rw [if_neg (Ne.symm heq), beq_false_of_ne heq]
  | cacheAll =>
    obtain ⟨hscratch, hperm⟩ := h.cacheAll hpolicy
    rw [hscratch, lookup_perm (fun _ => 0) hperm, Option.bind_none, Option.or_none]
  | lru n =>
    obtain ⟨-, aged, hstates, hages⟩ := h.lru n hpolicy
    rw [hages.scratch, hages.lookup hstates, Option.bind_none, Option.or_none]

/-- The states that the cache keeps are those of the ideal map. -/
theorem Refines.states_perm (h : Refines c m) :
    (c.entries.map Prod.fst ++ c.scratch.toList.map Prod.fst).Perm (m.states.entries.map Prod.fst) := by
  cases hpolicy : m.policy with
  | noCache =>
    obtain ⟨hentries, hscratch⟩ := h.noCache hpolicy
    rw [hentries, hscratch, List.map_nil, List.nil_append]
  | cacheAll =>
    obtain ⟨hscratch, hperm⟩ := h.cacheAll hpolicy
    rw [hscratch, Option.toList_none, List.map_nil, List.append_nil]
    refine (hperm.map Prod.fst).trans ?_
    rw [List.map_map]
    exact List.Perm.refl _
  | lru n =>
    obtain ⟨-, aged, hstates, hages⟩ := h.lru n hpolicy
    rw [hages.scratch, Option.toList_none, List.map_nil, List.append_nil, ← hstates, List.map_map]
    refine (hages.entries.perm.map Prod.fst).trans ?_
    rw [List.map_map]
    exact List.Perm.refl _

end Refinement

/-! ### Operations -/

section Steps
variable {c : LazyStateCache τ} {m : IdealCache τ} {state : Nat} {cached : τ}

theorem trim_eq (h : ∀ l ∈ m.limit?, m.states.size ≤ l) : m.trim = m ∧ m.victims = [] := by
  cases m with
  | mk states policy maxLruStates =>
    unfold IdealCache.trim IdealCache.victims
    cases hlimit : (IdealCache.limit? ⟨states, policy, maxLruStates⟩) with
    | none => exact ⟨rfl, rfl⟩
    | some l =>
      have hle : states.size ≤ l := h l hlimit
      simp only [Option.elim_some, LruMap.trim_of_size_le hle, LruMap.victims, Nat.sub_eq_zero_of_le hle, List.take_zero,
        List.map_nil, and_self]

theorem refines_empty (policy : CachePolicy) (maxLruStates : Nat) :
    Refines (⟨[], [], none, 0, policy, maxLruStates⟩ : LazyStateCache τ) ⟨.empty, policy, maxLruStates⟩ := by
  refine ⟨rfl, rfl, fun _ _ => Nat.zero_le _, fun _ => ⟨rfl, rfl⟩, fun _ => ⟨rfl, List.Perm.refl _⟩, ?_⟩
  intro n _
  refine ⟨Nat.zero_le _, [], rfl, ⟨⟨List.Perm.refl _, List.Pairwise.nil, ?_, List.nodup_nil, ?_⟩, rfl, List.Pairwise.nil, ?_, ?_⟩⟩
  · intro a ha
    cases ha
  · intro a ha
    cases ha
  · intro p hp
    cases hp
  · intro a ha
    cases ha

theorem refines_new (maxLruStates : Nat) : Refines (new maxLruStates : LazyStateCache τ) (.new maxLruStates) :=
  refines_empty .cacheAll _

/-- What an operation has to show: the contents and the victims are those of the ideal map. -/
def Simulates (c : LazyStateCache τ) (m : IdealCache τ) (operation : CacheOperation τ) : Prop :=
  Refines (c.apply operation) (m.apply operation) ∧ c.victims operation = (m.update operation).victims

theorem Refines.clear (h : Refines c m) : Simulates c m .clear := by
  obtain ⟨htrim, hvictims⟩ := trim_eq (m := m.update .clear) fun _ _ => Nat.zero_le _
  refine ⟨?_, hvictims.symm⟩
  rw [IdealCache.apply, htrim]
  show Refines ⟨[], [], none, 0, c.policy, c.maxLruStates⟩ ⟨.empty, m.policy, m.maxLruStates⟩
  rw [h.policy, h.maxLruStates]
  exact refines_empty _ _

theorem Refines.setPolicy (h : Refines c m) (policy : CachePolicy) : Simulates c m (.setPolicy policy) := by
  obtain ⟨htrim, hvictims⟩ := trim_eq (m := m.update (.setPolicy policy)) fun _ _ => Nat.zero_le _
  refine ⟨?_, hvictims.symm⟩
  rw [IdealCache.apply, htrim]
  show Refines ⟨[], [], none, 0, policy, c.maxLruStates⟩ ⟨.empty, policy, m.maxLruStates⟩
  rw [h.maxLruStates]
  exact refines_empty _ _

/-- A new limit matters under `lru 0` only. -/
theorem limit?_setMaxLruStates {n : Nat} (h : m.policy ≠ .lru 0) : (m.update (.setMaxLruStates n)).limit? = m.limit? := by
  unfold IdealCache.limit? IdealCache.update
  cases hpolicy : m.policy with
  | noCache => rfl
  | cacheAll => rfl
  | lru maxStates =>
    have hpos : 0 < maxStates := by
      refine Nat.pos_of_ne_zero ?_
      rintro rfl
      exact h hpolicy
    simp only [if_pos hpos]

theorem Refines.setMaxLruStates (h : Refines c m) (n : Nat) : Simulates c m (.setMaxLruStates n) := by
  by_cases hzero : m.policy = .lru 0
  · obtain ⟨hclock, aged, hstates, hages⟩ := h.lru 0 hzero
    have hpolicy := h.policy.trans hzero
    have hages' : Ages (c.clock + 1) { c with maxLruStates := max n 1 } aged :=
      ⟨hages.entries, hages.scratch, hages.heap_sorted, hages.heap_lt, hages.heap⟩
    have hsize : m.states.size = aged.length := by rw [LruMap.size, ← hstates, List.length_map]
    have hlimit : (m.update (.setMaxLruStates n)).limit? = some (max n 1) := by
      unfold IdealCache.limit? IdealCache.update
      simp only [hzero, if_neg (Nat.lt_irrefl 0)]
      exact congrArg some (Nat.max_eq_left (Nat.le_max_right n 1))
    obtain ⟨hevict, hevicted, hclock', hpolicy', hmaxLru⟩ := hages'.evictLruUntilAtMost (max n 1)
      (n := c.entries.length) (by rw [hages.entries.length_eq]; exact Nat.le_add_left _ _)
    have happly : c.apply (.setMaxLruStates n) =
        evictLruUntilAtMost (max n 1) { c with maxLruStates := max n 1 } c.entries.length := if_pos hpolicy
    refine ⟨?_, ?_⟩
    · rw [happly, IdealCache.apply, IdealCache.trim, hlimit]
      refine ⟨hpolicy'.trans h.policy, hmaxLru, ?_, ?_, ?_, ?_⟩
      · intro l hl
        cases (Option.mem_def.mp hl).symm.trans hlimit
        exact LruMap.size_trim_le
      · intro hno
        cases hzero.symm.trans hno
      · intro hall
        cases hzero.symm.trans hall
      · intro k _
        refine ⟨by rw [hclock']; exact hclock, aged.drop (aged.length - max n 1), ?_, by rw [hclock']; exact hevict⟩
        rw [List.map_drop, hstates, ← hsize]
        rfl
    · rw [IdealCache.victims, hlimit]
      show (if c.policy = .lru 0 then _ else _) = m.states.victims (max n 1)
      rw [if_pos hpolicy, hevicted, LruMap.victims, ← hstates, ← List.map_take, List.map_map, hsize]
      rfl
  · have hlimit := limit?_setMaxLruStates (n := n) hzero
    have hpolicy : c.policy ≠ .lru 0 := fun heq => hzero (h.policy.symm.trans heq)
    obtain ⟨htrim, hvictims⟩ := trim_eq (m := m.update (.setMaxLruStates n)) (by rw [hlimit]; exact h.limit)
    have happly : c.apply (.setMaxLruStates n) = { c with maxLruStates := max n 1 } := if_neg hpolicy
    refine ⟨?_, (if_neg hpolicy).trans hvictims.symm⟩
    rw [happly, IdealCache.apply, htrim]
    refine ⟨h.policy, rfl, by rw [hlimit]; exact h.limit, h.noCache, h.cacheAll, ?_⟩
    intro k hk
    obtain ⟨hclock, aged, hstates, hages⟩ := h.lru k hk
    exact ⟨hclock, aged, hstates, ⟨hages.entries, hages.scratch, hages.heap_sorted, hages.heap_lt, hages.heap⟩⟩

/-- The entries of `put`, by age. -/
theorem map_snd_put {aged : List (Aged τ)} {states : LruMap Nat τ} (h : aged.map Prod.snd = states.entries) (tick : Nat) :
    (aged.filter (fun a => a.2.1 ≠ state) ++ [(tick, state, cached)]).map Prod.snd = (states.put state cached).entries := by
  show _ = states.entries.filter _ ++ _
  rw [List.map_append, List.map_singleton, ← h, List.filter_map]
  rfl

theorem config_compactLruHeapIfNeeded (c : LazyStateCache τ) : c.compactLruHeapIfNeeded.clock = c.clock ∧
    c.compactLruHeapIfNeeded.policy = c.policy ∧ c.compactLruHeapIfNeeded.maxLruStates = c.maxLruStates := by
  unfold LazyStateCache.compactLruHeapIfNeeded
  simp only
  split
  · exact ⟨rfl, rfl, rfl⟩
  · exact ⟨rfl, rfl, rfl⟩

/-- The cache under `lru` after a state has been used with a value. -/
def used (c : LazyStateCache τ) (state : Nat) (cached : τ) : LazyStateCache τ :=
  ((c.nextTick.setEntry state ⟨cached, c.nextTick.clock⟩).pushHeap c.nextTick.clock state).compactLruHeapIfNeeded

theorem Ages.used {aged : List (Aged τ)} (h : Ages (c.clock + 1) c aged) (cached : τ) (hclock : c.clock ≤ u64Max)
    (hstate : state < u32Count) {states : LruMap Nat τ} (hstates : aged.map Prod.snd = states.entries) :
    (c.used state cached).policy = c.policy ∧ (c.used state cached).maxLruStates = c.maxLruStates ∧
      (c.used state cached).clock ≤ u64Max ∧ ∃ aged', aged'.map Prod.snd = (states.put state cached).entries ∧
        Ages ((c.used state cached).clock + 1) (c.used state cached) aged' := by
  obtain ⟨aged', hmap, hages, hpos, hmax, hpolicy, hmaxLru⟩ := h.nextTick hclock
  obtain ⟨hclock', hpolicy', hmaxLru'⟩ := config_compactLruHeapIfNeeded
    ((c.nextTick.setEntry state ⟨cached, c.nextTick.clock⟩).pushHeap c.nextTick.clock state)
  refine ⟨hpolicy'.trans hpolicy, hmaxLru'.trans hmaxLru, hclock'.le.trans hmax, _,
    map_snd_put (hmap.trans hstates) c.nextTick.clock, ?_⟩
  rw [LazyStateCache.used, hclock']
  exact hages.use hpos hstate

theorem touch_eq_used {n : Nat} {aged : List (Aged τ)} (h : Ages (c.clock + 1) c aged) (hclock : c.clock ≤ u64Max)
    (hpolicy : c.policy = .lru n) {states : LruMap Nat τ} (hstates : aged.map Prod.snd = states.entries)
    (hget : states.get state = some cached) : c.touch state = c.used state cached := by
  obtain ⟨aged', hmap, hages, -⟩ := h.nextTick hclock
  have hlookup := hages.lookup (hmap.trans hstates) state
  rw [hget] at hlookup
  obtain ⟨entry, hentry, rfl⟩ := Option.map_eq_some_iff.mp hlookup
  unfold LazyStateCache.touch
  simp only [hpolicy, hentry]
  rfl

theorem policy_cases (policy : CachePolicy) : policy = .noCache ∨ policy = .cacheAll ∨ ∃ n, policy = .lru n := by
  cases policy with
  | noCache => exact Or.inl rfl
  | cacheAll => exact Or.inr (Or.inl rfl)
  | lru n => exact Or.inr (Or.inr ⟨n, rfl⟩)

theorem Refines.touchIfCached (h : Refines c m) (state : UInt32) : Simulates c m (.touchIfCached state) := by
  have hlimit : ∀ l ∈ (m.update (.touchIfCached state)).limit?, (m.update (.touchIfCached state)).states.size ≤ l := by
    intro l hl
    show (m.states.touch state.toNat).size ≤ l
    rw [LruMap.size_touch]
    exact h.limit l hl
  obtain ⟨htrim, hvictims⟩ := trim_eq hlimit
  refine ⟨?_, hvictims.symm⟩
  rw [IdealCache.apply, htrim]
  show Refines (c.touchIfCached state.toNat).1 { m with states := m.states.touch state.toNat }
  have hperm := LruMap.perm_touch m.states state.toNat
  unfold LazyStateCache.touchIfCached
  rcases policy_cases m.policy with hpolicy | hpolicy | ⟨n, hpolicy⟩
  · obtain ⟨hentries, hscratch⟩ := h.noCache hpolicy
    rw [if_neg (by rw [hentries]; simp)]
    refine ⟨h.policy, h.maxLruStates, hlimit, ?_, ?_, ?_⟩
    · intro _
      refine ⟨hentries, ?_⟩
      -- There is one state at most.
      rw [hscratch] at hperm
      cases hs : c.scratch with
      | none =>
        rw [hs] at hperm
        exact List.perm_nil.mp hperm
      | some e =>
        rw [hs] at hperm
        exact List.perm_singleton.mp hperm
    · intro hall
      cases hpolicy.symm.trans hall
    · intro n hlru
      cases hpolicy.symm.trans hlru
  · obtain ⟨hscratch, hentries⟩ := h.cacheAll hpolicy
    have hc : (if (c.entries.lookup state.toNat).isSome = true then (c.touch state.toNat, true)
        else (c, c.scratch.any fun (s, _) => s = state.toNat)).1 = c := by
      split
      · show c.touch state.toNat = c
        unfold LazyStateCache.touch
        rw [h.policy.trans hpolicy]
      · rfl
    rw [hc]
    refine ⟨h.policy, h.maxLruStates, hlimit, ?_, fun _ => ⟨hscratch, hentries.trans (hperm.symm.map _)⟩, ?_⟩
    · intro hno
      cases hpolicy.symm.trans hno
    · intro n hlru
      cases hpolicy.symm.trans hlru
  · obtain ⟨hclock, aged, hstates, hages⟩ := h.lru n hpolicy
    have hlookup := hages.lookup hstates state.toNat
    cases hget : m.states.get state.toNat with
    | none =>
      have htouch : m.states.touch state.toNat = m.states := by
        unfold LruMap.touch
        rw [hget]
      rw [hget, Option.map_eq_none_iff] at hlookup
      rw [if_neg (by rw [hlookup]; simp), htouch]
      exact h
    | some cached =>
      have htouch : m.states.touch state.toNat = m.states.put state.toNat cached := by
        unfold LruMap.touch
        rw [hget]
      rw [hget] at hlookup
      obtain ⟨entry, hentry, -⟩ := Option.map_eq_some_iff.mp hlookup
      rw [if_pos (by rw [hentry]; rfl), touch_eq_used hages hclock (h.policy.trans hpolicy) hstates hget]
      obtain ⟨hpolicy', hmaxLru, hclock', haged⟩ := hages.used cached hclock state.toNat_lt hstates
      refine ⟨hpolicy'.trans h.policy, hmaxLru.trans h.maxLruStates, hlimit, ?_, ?_, ?_⟩
      · intro hno
        cases hpolicy.symm.trans hno
      · intro hall
        cases hpolicy.symm.trans hall
      · intro _ _
        refine ⟨hclock', ?_⟩
        rw [htouch]
        exact haged

/-- Under `lru`, a new state is used after room has been made for it. -/
theorem insert_eq_used {n : Nat} (h : c.policy = .lru n) : c.insert state cached =
    { (if (c.entries.lookup state).isSome then c
        else c.evictLruUntilAtMost (c.lruLimit n - 1) c.entries.length).used state cached with scratch := none } := by
  unfold LazyStateCache.insert
  rw [h]
  rfl

theorem Refines.insert_lru {n : Nat} (h : Refines c m) (hpolicy : m.policy = .lru n) (state : UInt32) (cached : τ) :
    Simulates c m (.insert state cached) := by
  obtain ⟨hclock, aged, hstates, hages⟩ := h.lru n hpolicy
  obtain ⟨l, hl⟩ : ∃ l, l = c.lruLimit n := ⟨_, rfl⟩
  have hpos : 1 ≤ l := hl ▸ Nat.le_max_right _ _
  have hlimit : m.limit? = some l := by
    unfold IdealCache.limit?
    rw [hpolicy, hl, lruLimit, h.maxLruStates]
  have hlimit' : (m.update (.insert state cached)).limit? = some l := hlimit
  have hlookup := hages.lookup hstates state.toNat
  -- After room has been made, `c'` holds `states'`, and the state is put there.
  suffices hroom : ∀ (c' : LazyStateCache τ) (states' : LruMap Nat τ) (aged' : List (Aged τ)),
      (if (c.entries.lookup state.toNat).isSome then c
        else c.evictLruUntilAtMost (c.lruLimit n - 1) c.entries.length) = c' →
      c'.policy = c.policy → c'.maxLruStates = c.maxLruStates → c'.clock = c.clock → Ages (c'.clock + 1) c' aged' →
      aged'.map Prod.snd = states'.entries →
      ((m.states.put state.toNat cached).trim l).entries = (states'.put state.toNat cached).entries →
      Refines (c.apply (.insert state cached)) (m.apply (.insert state cached)) by
    cases hget : m.states.get state.toNat with
    | some v =>
      rw [hget] at hlookup
      obtain ⟨entry, hentry, -⟩ := Option.map_eq_some_iff.mp hlookup
      have hpresent : (c.entries.lookup state.toNat).isSome = true := by rw [hentry]; rfl
      have hsize : (m.states.put state.toNat cached).size ≤ l := by
        rw [LruMap.size_put_of_get (by rw [hget]; rfl)]
        exact h.limit l hlimit
      refine ⟨?_, ?_⟩
      · refine hroom c m.states aged (if_pos hpresent) rfl rfl rfl hages hstates ?_
        rw [LruMap.trim_of_size_le hsize]
      · rw [IdealCache.victims, hlimit']
        show (match c.policy with | .noCache => _ | .cacheAll => _ | .lru _ => _) = (m.states.put state.toNat cached).victims l
        rw [h.policy.trans hpolicy, LruMap.victims, Nat.sub_eq_zero_of_le hsize]
        exact if_pos hpresent
    | none =>
      rw [hget, Option.map_eq_none_iff] at hlookup
      have hlength : aged.length = m.states.size := by rw [LruMap.size, ← hstates, List.length_map]
      obtain ⟨hevict, hevicted, hclock', hpolicy', hmaxLru⟩ := hages.evictLruUntilAtMost (l - 1)
        (n := c.entries.length) (by rw [hages.entries.length_eq]; exact Nat.le_add_left _ _)
      refine ⟨?_, ?_⟩
      · refine hroom (evictLruUntilAtMost (l - 1) c c.entries.length) (m.states.trim (l - 1)) (aged.drop (aged.length - (l - 1)))
          ?_ hpolicy' hmaxLru hclock' ?_ ?_ (LruMap.trim_put hget hpos)
        · rw [hlookup, ← hl]
          rfl
        · rw [hclock']
          exact hevict
        · rw [List.map_drop, hstates, hlength]
          rfl
      · rw [IdealCache.victims, hlimit']
        show (match c.policy with | .noCache => _ | .cacheAll => _ | .lru _ => _) = (m.states.put state.toNat cached).victims l
        rw [h.policy.trans hpolicy, LruMap.victims_put hget hpos, LruMap.victims, ← hstates, ← List.map_take, List.map_map,
          ← hlength]
        show (if _ then _ else _) = _
        rw [hlookup, ← hl]
        exact hevicted
  intro c' states' aged' hc' hpolicy' hmaxLru hclock' hages' hstates' hput
  obtain ⟨hpolicy'', hmaxLru', hclock'', aged'', hstates'', hages''⟩ :=
    hages'.used cached (hclock'.le.trans hclock) state.toNat_lt hstates'
  have happly : c.apply (.insert state cached) = { c'.used state.toNat cached with scratch := none } := by
    rw [← hc']
    exact insert_eq_used (h.policy.trans hpolicy)
  rw [happly, IdealCache.apply, IdealCache.trim, hlimit']
  refine ⟨(hpolicy''.trans hpolicy').trans h.policy, (hmaxLru'.trans hmaxLru).trans h.maxLruStates, ?_, ?_, ?_, ?_⟩
  · intro l' hl'
    cases (Option.mem_def.mp hl').symm.trans hlimit
    exact LruMap.size_trim_le
  · intro hno
    cases hpolicy.symm.trans hno
  · intro hall
    cases hpolicy.symm.trans hall
  · intro k _
    exact ⟨hclock'', aged'', hstates''.trans hput.symm,
      ⟨hages''.entries, rfl, hages''.heap_sorted, hages''.heap_lt, hages''.heap⟩⟩

theorem Refines.insert (h : Refines c m) (state : UInt32) (cached : τ) : Simulates c m (.insert state cached) := by
  rcases policy_cases m.policy with hpolicy | hpolicy | ⟨n, hpolicy⟩
  · obtain ⟨hentries, hscratch⟩ := h.noCache hpolicy
    have hlimit : (m.update (.insert state cached)).limit? = some 1 := by
      unfold IdealCache.limit? IdealCache.update
      rw [hpolicy]
    have hlength : (m.update (.insert state cached)).states.size - 1 =
        (m.states.entries.filter fun e => e.1 ≠ state.toNat).length := by
      simp [IdealCache.update, LruMap.put, LruMap.size]
    have happly : c.apply (.insert state cached) = { c with scratch := some (state.toNat, cached) } := by
      show c.insert state.toNat cached = _
      unfold LazyStateCache.insert
      rw [h.policy.trans hpolicy]
    refine ⟨?_, ?_⟩
    · rw [happly, IdealCache.apply, IdealCache.trim, hlimit]
      refine ⟨h.policy, h.maxLruStates, ?_, ?_, ?_, ?_⟩
      · intro l hl
        cases (Option.mem_def.mp hl).symm.trans hlimit
        exact LruMap.size_trim_le
      · intro _
        refine ⟨hentries, ?_⟩
        show (m.states.put state.toNat cached).entries.drop _ = _
        rw [hlength]
        exact List.drop_left
      · intro hall
        cases hpolicy.symm.trans hall
      · intro k hlru
        cases hpolicy.symm.trans hlru
    · rw [IdealCache.victims, hlimit]
      show (match c.policy with | .noCache => _ | .cacheAll => _ | .lru _ => _) =
        ((m.states.put state.toNat cached).entries.take _).map Prod.fst
      rw [h.policy.trans hpolicy, hlength]
      show _ = (List.take _ (m.states.entries.filter _ ++ _)).map Prod.fst
      rw [List.take_left, hscratch, List.filter_map]
      rfl
  · obtain ⟨hscratch, hperm⟩ := h.cacheAll hpolicy
    have hlimit : (m.update (.insert state cached)).limit? = none := by
      unfold IdealCache.limit? IdealCache.update
      rw [hpolicy]
    have happly : c.apply (.insert state cached) = { c.setEntry state.toNat ⟨cached, 0⟩ with scratch := none } := by
      show c.insert state.toNat cached = _
      unfold LazyStateCache.insert
      rw [h.policy.trans hpolicy]
    refine ⟨?_, ?_⟩
    · rw [happly, IdealCache.apply, IdealCache.trim, hlimit]
      refine ⟨h.policy, h.maxLruStates, ?_, ?_, ?_, ?_⟩
      · intro l hl
        cases (Option.mem_def.mp hl).symm.trans hlimit
      · intro hno
        cases hpolicy.symm.trans hno
      · intro _
        refine ⟨rfl, ?_⟩
        show List.Perm ((state.toNat, _) :: c.entries.filter _) ((m.states.entries.filter _ ++ [_]).map _)
        rw [List.map_append, List.map_singleton]
        refine List.Perm.trans (List.Perm.cons _ ?_) (List.perm_append_singleton _ _).symm
        refine (hperm.filter _).trans ?_
        rw [List.filter_map]
        exact List.Perm.refl _
      · intro k hlru
        cases hpolicy.symm.trans hlru
    · rw [IdealCache.victims, hlimit]
      show (match c.policy with | .noCache => _ | .cacheAll => _ | .lru _ => _) = _
      rw [h.policy.trans hpolicy]
      rfl
  · exact h.insert_lru hpolicy state cached

theorem Refines.apply (h : Refines c m) (operation : CacheOperation τ) : Simulates c m operation := by
  cases operation with
  | setPolicy policy => exact h.setPolicy policy
  | setMaxLruStates n => exact h.setMaxLruStates n
  | insert state cached => exact h.insert state cached
  | touchIfCached state => exact h.touchIfCached state
  | clear => exact h.clear

theorem Refines.run (h : Refines c m) (operations : List (CacheOperation τ)) :
    Refines (c.run operations) (m.run operations) := by
  induction operations generalizing c m with
  | nil => exact h
  | cons operation operations ih => exact ih (h.apply operation).1

end Steps

/-! ### The values that are returned -/

/-- The value that was inserted last for a state, when the latest operation comes first. -/
def lastInserted (state : Nat) : List (CacheOperation τ) → Option τ
  | [] => none
  | .insert s cached :: operations => if s.toNat = state then some cached else lastInserted state operations
  | _ :: operations => lastInserted state operations

/-- A trim only forgets. -/
theorem get_of_get_trim {m : IdealCache τ} {state : Nat} {cached : τ} (h : m.trim.states.get state = some cached) :
    m.states.get state = some cached := by
  unfold IdealCache.trim at h
  cases hlimit : m.limit? with
  | none =>
    rw [hlimit] at h
    exact h
  | some l =>
    rw [hlimit] at h
    exact LruMap.get_of_get_trim h

/-- What the ideal map has for a state is the value that was inserted last for it. -/
theorem get_run {maxLruStates state : Nat} {cached : τ} (operations : List (CacheOperation τ))
    (h : ((IdealCache.new maxLruStates).run operations).states.get state = some cached) :
    lastInserted state operations.reverse = some cached := by
  induction operations using List.reverseRecOn generalizing cached with
  | nil => cases h
  | append_singleton operations operation ih =>
    rw [IdealCache.run, List.foldl_append] at h
    rw [List.reverse_append, List.reverse_singleton, List.singleton_append]
    replace ih : ∀ v, (operations.foldl IdealCache.apply (.new maxLruStates)).states.get state = some v →
        lastInserted state operations.reverse = some v := fun v => ih
    generalize operations.foldl IdealCache.apply (.new maxLruStates) = m at h ih
    have hupdate : (m.update operation).states.get state = some cached := get_of_get_trim h
    cases operation with
    | setPolicy policy => cases hupdate
    | setMaxLruStates n => exact ih _ hupdate
    | clear => cases hupdate
    | touchIfCached s =>
      rw [IdealCache.update, LruMap.get_touch] at hupdate
      exact ih _ hupdate
    | insert s v =>
      rw [IdealCache.update] at hupdate
      rw [lastInserted]
      by_cases heq : s.toNat = state
      · subst heq
        rw [LruMap.get_put_self] at hupdate
        rw [if_pos rfl]
        exact hupdate
      · rw [LruMap.get_put_of_ne (Ne.symm heq)] at hupdate
        rw [if_neg heq]
        exact ih _ hupdate

theorem touchIfCached_snd {c : LazyStateCache τ} {state : Nat} : (c.touchIfCached state).2 = (c.get state).isSome := by
  rw [get_eq_orElse, LazyStateCache.touchIfCached]
  cases hlookup : c.entries.lookup state with
  | some entry => rfl
  | none =>
    rw [Option.map_none, Option.none_or]
    show (c.scratch.any fun (s, _) => s = state) = _
    cases c.scratch with
    | none => rfl
    | some e =>
      obtain ⟨s, v⟩ := e
      show decide (s = state) = (if s = state then some v else none).isSome
      by_cases heq : s = state
      · rw [if_pos heq, decide_eq_true heq]
        rfl
      · rw [if_neg heq, decide_eq_false heq]
        rfl

/-- A touch leaves what is cached. -/
theorem Refines.get_touchIfCached {c : LazyStateCache τ} {m : IdealCache τ} (h : Refines c m) (state : UInt32) (s : Nat) :
    (c.touchIfCached state.toNat).1.get s = c.get s := by
  have htrim : (m.update (.touchIfCached state)).trim = m.update (.touchIfCached state) := by
    refine (trim_eq ?_).1
    intro l hl
    show (m.states.touch state.toNat).size ≤ l
    rw [LruMap.size_touch]
    exact h.limit l hl
  have hget : (c.touchIfCached state.toNat).1.get s = _ := (h.touchIfCached state).1.get_eq
  rw [hget, IdealCache.apply, htrim, h.get_eq]
  exact LruMap.get_touch

theorem IdealCache.one_le_limit {m : IdealCache τ} {l : Nat} (hl : l ∈ m.limit?) : 1 ≤ l := by
  unfold IdealCache.limit? at hl
  split at hl
  · cases hl
    exact le_rfl
  · cases hl
  · cases hl
    exact le_max_right _ _

/-- What was inserted is cached. -/
theorem Refines.get_insert {c : LazyStateCache τ} {m : IdealCache τ} (h : Refines c m) (state : UInt32) (cached : τ) :
    (c.insert state.toNat cached).get state.toNat = some cached := by
  have hget : (c.insert state.toNat cached).get state.toNat = _ := (h.insert state cached).1.get_eq
  rw [hget, IdealCache.apply, IdealCache.trim]
  cases hlimit : (m.update (.insert state cached)).limit? with
  | none => exact LruMap.get_put_self
  | some l => exact LruMap.get_trim_put_self (IdealCache.one_le_limit hlimit)

/-- The cache is the ideal one after every sequence of operations: it returns the same values, keeps the same states and
    evicts the same ones in the same order; touching reports whether a state is there. The limit is kept, a cache of all
    states evicts none, one of the last state has the inserted one alone, and what is returned was inserted last. -/
theorem refines_ideal (maxLruStates : Nat) (operations : List (CacheOperation τ)) :
    (∀ state, ((new maxLruStates).run operations).get state =
      ((IdealCache.new maxLruStates).run operations).states.get state) ∧
    (((new maxLruStates).run operations).entries.map Prod.fst ++
      ((new maxLruStates).run operations).scratch.toList.map Prod.fst).Perm
        (((IdealCache.new maxLruStates).run operations).states.entries.map Prod.fst) ∧
    (∀ operation, ((new maxLruStates).run operations).victims operation =
      (((IdealCache.new maxLruStates).run operations).update operation).victims) ∧
    (∀ state : UInt32, (((new maxLruStates).run operations).touchIfCached state.toNat).2 =
      (((IdealCache.new maxLruStates).run operations).states.get state.toNat).isSome) ∧
    (∀ l ∈ ((IdealCache.new maxLruStates).run operations).limit?, ((new maxLruStates).run operations).entries.length ≤ l) ∧
    (((new maxLruStates).run operations).policy = .cacheAll → ∀ state cached,
      ((new maxLruStates).run operations).victims (.insert state cached) = [] ∧ ∀ state', state' ≠ state.toNat →
        (((new maxLruStates).run operations).apply (.insert state cached)).get state' =
          ((new maxLruStates).run operations).get state') ∧
    (((new maxLruStates).run operations).policy = .noCache → ∀ state cached state',
      (((new maxLruStates).run operations).apply (.insert state cached)).get state' =
        if state' = state.toNat then some cached else none) ∧
    ∀ state cached, ((new maxLruStates).run operations).get state = some cached →
      lastInserted state operations.reverse = some cached := by
  have h := (refines_new maxLruStates : Refines (new maxLruStates : LazyStateCache τ) _).run operations
  have hget : ∀ state, ((new maxLruStates).run operations).get state = ((IdealCache.new maxLruStates).run operations).states.get state :=
    fun _ => h.get_eq
  generalize hc : (new maxLruStates).run operations = c at h hget
  generalize hm : (IdealCache.new maxLruStates).run operations = m at h hget
  refine ⟨hget, h.states_perm, fun operation => (h.apply operation).2, ?_, ?_, ?_, ?_, ?_⟩
  · intro state
    rw [touchIfCached_snd, hget]
  · intro l hl
    have hlength := h.states_perm.length_eq
    rw [List.length_append, List.length_map, List.length_map, List.length_map] at hlength
    exact (Nat.le.intro hlength).trans (h.limit l hl)
  · intro hpolicy state cached
    have hlimit : (m.update (.insert state cached)).limit? = none := by
      unfold IdealCache.limit? IdealCache.update
      rw [← h.policy, hpolicy]
    obtain ⟨happly, hvictims⟩ := h.apply (.insert state cached)
    refine ⟨?_, ?_⟩
    · rw [hvictims, IdealCache.victims, hlimit]
      rfl
    · intro state' hne
      rw [happly.get_eq, hget, IdealCache.apply, IdealCache.trim, hlimit]
      exact LruMap.get_put_of_ne hne
  · intro hpolicy state cached state'
    have hlimit : (m.update (.insert state cached)).limit? = some 1 := by
      unfold IdealCache.limit? IdealCache.update
      rw [← h.policy, hpolicy]
    rw [(h.apply (.insert state cached)).1.get_eq, IdealCache.apply, IdealCache.trim, hlimit]
    exact LruMap.get_trim_put_one
  · intro state cached hcached
    rw [hget, ← hm] at hcached
    exact get_run operations hcached

end LazyStateCache
end Duallity
