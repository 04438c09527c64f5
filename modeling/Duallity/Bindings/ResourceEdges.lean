import Duallity.Bindings.FaultScope
import Duallity.StateEncoding
import Mathlib.Data.List.Forall2
import Mathlib.Logic.Function.Iterate

/-! Edges of a foreign dictionary node, fetched page by page (`ResourceEdges` in bindings.rs). The provider answers each
    callback as it likes. The iterator has consumed the pages it accepted, except the rest of the last one; an answer
    that fits no honest provider ends it with a fault. -/

namespace Duallity

structure VtDictionaryEdge where
  label : Nat
  node : Nat
deriving DecidableEq, Repr

/-- The answer to one callback: the status, unless it is no status at all, what it claims, and the entries it writes. -/
structure EdgeResponse where
  status : Option VtStatus
  written : Nat
  total : Nat
  edge : Nat → VtDictionaryEdge

/-- `calls` counts the callbacks so far. -/
structure ResourceEdges where
  offset : Nat
  total : Option Nat
  page : Nat → VtDictionaryEdge
  index : Nat
  written : Nat
  done : Bool
  calls : Nat

/-- One call of `next`: the item it returns, the status it records and the page entry it reads. -/
structure EdgePull where
  item : Option (Char × Nat)
  fault : Option VtStatus
  read : Option Nat

namespace ResourceEdges

/-- One edge for each Unicode scalar. -/
def maxUnicodeScalarEdges : Nat := 0x110000 - 0x800

/-- `char::from_u32` on a `u64` label that fits. -/
def charOfLabel (label : Nat) : Option Char := if label.isValidChar then some (Char.ofNat label) else none

def expandedEdges (page : Nat → VtDictionaryEdge) : ResourceEdges := ⟨0, none, page, 0, 0, false, 0⟩

/-- The buffer after a response: at most `len` entries have been written. -/
def writePage (page : Nat → VtDictionaryEdge) (len : Nat) (response : EdgeResponse) : Nat → VtDictionaryEdge :=
  fun i => if i < response.written ∧ i < len then response.edge i else page i

/-- The entry at the index. -/
def takeEdge (it : ResourceEdges) : EdgePull × ResourceEdges :=
  match charOfLabel (it.page it.index).label with
  | none => (⟨none, some .providerError, some it.index⟩, { it with index := it.index + 1, done := true })
  | some label => (⟨some (label, (it.page it.index).node), none, some it.index⟩, { it with index := it.index + 1 })

/-- `next`, with a page of `len` entries; `provider` is the sequence of responses. -/
def next (len : Nat) (provider : Nat → EdgeResponse) (it : ResourceEdges) : EdgePull × ResourceEdges :=
  if it.done then (⟨none, none, none⟩, it)
  else if it.index = it.written then
    if it.total = some it.offset then (⟨none, none, none⟩, { it with done := true })
    else
      let response := provider it.calls
      let it := { it with page := writePage it.page len response, calls := it.calls + 1 }
      let status := response.status.getD .providerError
      if status ≠ .ok then (⟨none, some status, none⟩, { it with done := true })
      else if maxUnicodeScalarEdges < response.total then (⟨none, some .limitExceeded, none⟩, { it with done := true })
      else if len < response.written ∨ response.total < it.offset ∨ response.total < saturatingAdd usizeMax it.offset response.written ∨
          (response.written = 0 ∧ it.offset < response.total) ∨ it.total.any (· ≠ response.total) then
        (⟨none, some .providerError, none⟩, { it with done := true })
      else
        let it := { it with total := some response.total, offset := it.offset + response.written,
                            written := response.written, index := 0 }
        if response.written = 0 then (⟨none, none, none⟩, { it with done := true })
        else it.takeEdge
  else it.takeEdge

/-- The iterator after `n` calls of `next`, and what the call after them does. -/
def run (len : Nat) (provider : Nat → EdgeResponse) (page : Nat → VtDictionaryEdge) (n : Nat) : ResourceEdges :=
  (fun it => (it.next len provider).2)^[n] (expandedEdges page)

def pull (len : Nat) (provider : Nat → EdgeResponse) (page : Nat → VtDictionaryEdge) (n : Nat) : EdgePull :=
  ((run len provider page n).next len provider).1

/-- The entries that a response writes. -/
def responsePage (response : EdgeResponse) : List VtDictionaryEdge := (List.range response.written).map response.edge

/-- The pages of the first `calls` responses, one after the other. -/
def pages (provider : Nat → EdgeResponse) (calls : Nat) : List VtDictionaryEdge :=
  (List.range calls).flatMap fun call => responsePage (provider call)

/-- The entries of the last page that have not been read. -/
def buffered (it : ResourceEdges) : List VtDictionaryEdge := (List.range' it.index (it.written - it.index)).map it.page

/-- An edge and the item that reads it. -/
def Reads (edge : VtDictionaryEdge) (item : Char × Nat) : Prop := charOfLabel edge.label = some item.1 ∧ edge.node = item.2

/-! ### The invariant -/

section Invariant
variable {len : Nat} {provider : Nat → EdgeResponse} {it it' : ResourceEdges} {items : List (Char × Nat)} {p : EdgePull}

/-- Every accepted response claims the same total, of which `offset` edges have been fetched. The items so far and the
    buffered entries are the pages. -/
structure Inv (provider : Nat → EdgeResponse) (it : ResourceEdges) (items : List (Char × Nat)) : Prop where
  total : ∀ t, it.total = some t → it.offset ≤ t ∧ t ≤ maxUnicodeScalarEdges ∧ ∀ call < it.calls, (provider call).total = t
  first : it.total = none → it.calls = 0 ∧ it.offset = 0
  called : it.total.isSome → 0 < it.calls
  index_le : it.index ≤ it.written
  offset : (pages provider it.calls).length = it.offset
  fetched : ∃ read, List.Forall₂ Reads read items ∧ pages provider it.calls = read ++ it.buffered
  last : it.index < it.written → ∃ call, it.calls = call + 1 ∧ it.written = (provider call).written ∧
    ∀ i < it.written, it.page i = (provider call).edge i

theorem inv_expandedEdges (page : Nat → VtDictionaryEdge) : Inv provider (expandedEdges page) [] := by
  refine ⟨?_, fun _ => ⟨rfl, rfl⟩, ?_, le_rfl, rfl, ⟨[], .nil, rfl⟩, ?_⟩
  · intro t ht
    cases ht
  · intro h
    cases h
  · intro h
    cases h

theorem pages_succ {call : Nat} : pages provider (call + 1) = pages provider call ++ responsePage (provider call) := by
  rw [pages, List.range_succ, List.flatMap_append, List.flatMap_singleton, pages]

theorem Inv.items_length_le (h : Inv provider it items) : items.length ≤ it.offset := by
  obtain ⟨read, hread, hpages⟩ := h.fetched
  have hlength := congrArg List.length hpages
  rw [h.offset, List.length_append, hread.length_eq] at hlength
  omega

theorem Inv.items_length_le_max (h : Inv provider it items) : items.length ≤ maxUnicodeScalarEdges := by
  have hle := h.items_length_le
  cases ht : it.total with
  | none =>
    rw [(h.first ht).2] at hle
    exact hle.trans (Nat.zero_le _)
  | some t => exact hle.trans ((h.total t ht).1.trans (h.total t ht).2.1)

/-- What one call of `next` does before the iterator is done: it returns an edge, it ends with the edges of all pages
    returned, or it ends with a fault. -/
inductive Outcome (provider : Nat → EdgeResponse) (items : List (Char × Nat)) (p : EdgePull) (it' : ResourceEdges) : Prop
  | yielded (item : Char × Nat) (hitem : p.item = some item) (hfault : p.fault = none) (hdone : it'.done = false)
      (hinv : Inv provider it' (items ++ [item]))
  | complete (hitem : p.item = none) (hfault : p.fault = none) (hdone : it'.done = true) (hcalls : 0 < it'.calls)
      (htotal : ∀ call < it'.calls, (provider call).total = items.length)
      (hedges : List.Forall₂ Reads (pages provider it'.calls) items)
  | faulted (hitem : p.item = none) (hfault : p.fault.isSome) (hdone : it'.done = true)

/-- The entry that a call reads is one that the last response has written, and the item is the edge in it. -/
def ReadsWritten (provider : Nat → EdgeResponse) (p : EdgePull) (it' : ResourceEdges) : Prop :=
  ∀ i, p.read = some i → ∃ call, it'.calls = call + 1 ∧ i < (provider call).written ∧
    ∀ item, p.item = some item → Reads ((provider call).edge i) item

theorem Inv.takeEdge (h : Inv provider it items) (hlt : it.index < it.written) (hdone : it.done = false)
    (hstep : it.takeEdge = (p, it')) : ReadsWritten provider p it' ∧ Outcome provider items p it' := by
  obtain ⟨call, hcalls, hwritten, hpage⟩ := h.last hlt
  unfold ResourceEdges.takeEdge at hstep
  split at hstep
  · cases hstep
    refine ⟨?_, .faulted rfl rfl rfl⟩
    intro i hi
    cases hi
    refine ⟨call, hcalls, hwritten ▸ hlt, ?_⟩
    intro item hitem
    cases hitem
  · rename_i label hlabel
    cases hstep
    refine ⟨?_, .yielded _ rfl rfl hdone ⟨h.total, h.first, h.called, hlt, h.offset, ?_, fun _ => h.last hlt⟩⟩
    · intro i hi
      cases hi
      refine ⟨call, hcalls, hwritten ▸ hlt, ?_⟩
      intro item hitem
      cases hitem
      rw [hpage _ hlt] at hlabel ⊢
      exact ⟨hlabel, rfl⟩
    · obtain ⟨read, hread, hpages⟩ := h.fetched
      have hbuffered : it.buffered = it.page it.index :: { it with index := it.index + 1 }.buffered := by
        rw [buffered, show it.written - it.index = it.written - (it.index + 1) + 1 by omega, List.range'_succ, List.map_cons,
          buffered]
      refine ⟨read ++ [it.page it.index], List.rel_append hread (.cons ⟨hlabel, rfl⟩ .nil), ?_⟩
      rw [hpages, hbuffered, List.append_assoc, List.singleton_append]

/-- An accepted response becomes the page. -/
theorem Inv.accept {response : EdgeResponse} (h : Inv provider it items) (hresponse : provider it.calls = response)
    (hconsumed : it.index = it.written) (hmax : response.total ≤ maxUnicodeScalarEdges) (hlen : response.written ≤ len)
    (hle : it.offset + response.written ≤ response.total) (htotal : ∀ t, it.total = some t → t = response.total) :
    Inv provider { it with page := writePage it.page len response, calls := it.calls + 1, total := some response.total,
                           offset := it.offset + response.written, written := response.written, index := 0 } items := by
  have hpage : ∀ i < response.written, writePage it.page len response i = response.edge i := by
    intro i hi
    rw [writePage, if_pos ⟨hi, hi.trans_le hlen⟩]
  refine ⟨?_, ?_, fun _ => Nat.succ_pos _, Nat.zero_le _, ?_, ?_, ?_⟩
  · intro t ht
    cases ht
    refine ⟨hle, hmax, ?_⟩
    intro call hcall
    rcases Nat.lt_succ_iff_lt_or_eq.mp hcall with hcall | rfl
    · cases ht : it.total with
      | none =>
        rw [(h.first ht).1] at hcall
        exact absurd hcall (Nat.not_lt_zero _)
      | some t =>
        rw [(h.total t ht).2.2 call hcall]
        exact htotal t ht
    · rw [hresponse]
  · intro hnone
    cases hnone
  · simp only
    rw [pages_succ, List.length_append, h.offset, hresponse, responsePage, List.length_map, List.length_range]
  · obtain ⟨read, hread, hpages⟩ := h.fetched
    refine ⟨read, hread, ?_⟩
    have hempty : it.buffered = [] := by rw [buffered, hconsumed, Nat.sub_self, List.range'_zero, List.map_nil]
    simp only
    rw [pages_succ, hpages, hempty, List.append_nil, hresponse, buffered, responsePage, List.range_eq_range']
    congr 1
    refine List.map_congr_left ?_
    intro i hi
    exact (hpage i (by simpa using hi)).symm
  · intro _
    exact ⟨it.calls, rfl, by rw [hresponse], fun i hi => by rw [hresponse]; exact hpage i hi⟩

/-- When the total has been fetched and read, every edge has been returned. -/
theorem Inv.complete {t : Nat} (h : Inv provider it items) (hconsumed : it.index = it.written) (htotal : it.total = some t)
    (hoffset : it.offset = t) : (∀ call < it.calls, (provider call).total = items.length) ∧
      List.Forall₂ Reads (pages provider it.calls) items := by
  obtain ⟨read, hread, hpages⟩ := h.fetched
  have hempty : it.buffered = [] := by rw [buffered, hconsumed, Nat.sub_self, List.range'_zero, List.map_nil]
  rw [hempty, List.append_nil] at hpages
  have hlength : items.length = t := by rw [← hread.length_eq, ← hpages, h.offset, hoffset]
  rw [hpages, hlength]
  exact ⟨(h.total t htotal).2.2, hread⟩

/-- The step lemma: one call of `next` before the iterator is done. -/
theorem Inv.next (h : Inv provider it items) (hdone : it.done = false) (hstep : it.next len provider = (p, it')) :
    ReadsWritten provider p it' ∧ Outcome provider items p it' := by
  have hnone : ∀ {p : EdgePull} {it' : ResourceEdges}, p.read = none → ReadsWritten provider p it' := by
    intro p it' hread i hi
    cases hread.symm.trans hi
  unfold ResourceEdges.next at hstep
  rw [if_neg (by rw [hdone]; exact Bool.false_ne_true)] at hstep
  by_cases hconsumed : it.index = it.written
  · rw [if_pos hconsumed] at hstep
    by_cases htotal : it.total = some it.offset
    · rw [if_pos htotal] at hstep
      cases hstep
      obtain ⟨hclaims, hedges⟩ := h.complete hconsumed htotal rfl
      refine ⟨hnone rfl, .complete rfl rfl rfl ?_ hclaims hedges⟩
      exact h.called (by rw [htotal]; rfl)
    · rw [if_neg htotal] at hstep
      simp only at hstep
      generalize hresponse : provider it.calls = response at hstep
      by_cases hstatus : response.status.getD .providerError ≠ .ok
      · rw [if_pos hstatus] at hstep
        cases hstep
        exact ⟨hnone rfl, .faulted rfl rfl rfl⟩
      rw [if_neg hstatus] at hstep
      by_cases hmax : maxUnicodeScalarEdges < response.total
      · rw [if_pos hmax] at hstep
        cases hstep
        exact ⟨hnone rfl, .faulted rfl rfl rfl⟩
      rw [if_neg hmax] at hstep
      split at hstep
      · cases hstep
        exact ⟨hnone rfl, .faulted rfl rfl rfl⟩
      rename_i hfits
      simp only [not_or, not_lt, not_and] at hfits
      obtain ⟨hlen, hoffset, hle, hprogress, hsame⟩ := hfits
      have hbound : maxUnicodeScalarEdges < usizeMax := by decide
      have haccept := h.accept hresponse hconsumed (Nat.le_of_not_lt hmax) hlen (by unfold saturatingAdd at hle; omega) (by
        intro t ht
        rw [ht] at hsame
        simpa using hsame)
      by_cases hzero : response.written = 0
      · rw [if_pos hzero] at hstep
        cases hstep
        have hall : it.offset + response.written = response.total := by
          have := hprogress hzero
          omega
        obtain ⟨hclaims, hedges⟩ := haccept.complete hzero.symm rfl hall
        exact ⟨hnone rfl, .complete rfl rfl rfl (Nat.succ_pos _) hclaims hedges⟩
      · rw [if_neg hzero] at hstep
        exact haccept.takeEdge (Nat.pos_of_ne_zero hzero) hdone hstep
  · rw [if_neg hconsumed] at hstep
    exact h.takeEdge (Nat.lt_of_le_of_ne h.index_le hconsumed) hdone hstep

end Invariant

/-! ### Runs -/

section Runs
variable (len : Nat) (provider : Nat → EdgeResponse) (page : Nat → VtDictionaryEdge)

theorem run_succ (n : Nat) : run len provider page (n + 1) = ((run len provider page n).next len provider).2 := by
  rw [run, Function.iterate_succ_apply', run]

/-- The first `n` calls have returned `items`, and the iterator is not done. -/
def Running (n : Nat) (items : List (Char × Nat)) : Prop :=
  items.length = n ∧ (run len provider page n).done = false ∧ Inv provider (run len provider page n) items ∧
    ∀ i < n, (pull len provider page i).item = items[i]? ∧ (pull len provider page i).fault = none

/-- The first `n` calls have returned `items`; the next one returns nothing, with all edges returned or with a fault. -/
def Ended (n : Nat) (items : List (Char × Nat)) : Prop :=
  items.length = n ∧ (∀ i < n, (pull len provider page i).item = items[i]? ∧ (pull len provider page i).fault = none) ∧
    (pull len provider page n).item = none ∧
    ((pull len provider page n).fault.isSome ∨
      (pull len provider page n).fault = none ∧ 0 < (run len provider page (n + 1)).calls ∧
        (∀ call < (run len provider page (n + 1)).calls, (provider call).total = n) ∧
        List.Forall₂ Reads (pages provider (run len provider page (n + 1)).calls) items)

variable {len provider page}

theorem next_of_done {it : ResourceEdges} (h : it.done = true) : it.next len provider = (⟨none, none, none⟩, it) := by
  rw [next, if_pos h]

/-- The run lemma: a step from a running iterator keeps it running or ends it. -/
theorem Running.next {n : Nat} {items : List (Char × Nat)} (h : Running len provider page n items) :
    ReadsWritten provider (pull len provider page n) (run len provider page (n + 1)) ∧
      ((∃ item, Running len provider page (n + 1) (items ++ [item])) ∨
        Ended len provider page n items ∧ (run len provider page (n + 1)).done = true) := by
  obtain ⟨hlength, hdone, hinv, hitems⟩ := h
  have hstep : (run len provider page n).next len provider = (pull len provider page n, run len provider page (n + 1)) := by
    rw [run_succ]
    rfl
  obtain ⟨hread, houtcome⟩ := hinv.next hdone hstep
  refine ⟨hread, ?_⟩
  cases houtcome with
  | yielded item hitem hfault hdone' hinv' =>
    refine Or.inl ⟨item, by rw [List.length_append, hlength, List.length_singleton], hdone', hinv', ?_⟩
    intro i hi
    rcases Nat.lt_succ_iff_lt_or_eq.mp hi with hi | rfl
    · rw [List.getElem?_append_left (hlength.symm ▸ hi)]
      exact hitems i hi
    · rw [List.getElem?_append_right hlength.le, hlength, Nat.sub_self]
      exact ⟨hitem, hfault⟩
  | complete hitem hfault hdone' hcalls htotal hedges =>
    exact Or.inr ⟨⟨hlength, hitems, hitem, Or.inr ⟨hfault, hcalls, hlength ▸ htotal, hedges⟩⟩, hdone'⟩
  | faulted hitem hfault hdone' => exact Or.inr ⟨⟨hlength, hitems, hitem, Or.inl hfault⟩, hdone'⟩

theorem pull_of_done {n : Nat} (h : (run len provider page n).done = true) {m : Nat} (hm : n ≤ m) :
    pull len provider page m = ⟨none, none, none⟩ := by
  suffices hrun : run len provider page m = run len provider page n by rw [pull, hrun, next_of_done h]
  induction m, hm using Nat.le_induction with
  | base => rfl
  | succ m _ ih => rw [run_succ, ih, next_of_done h]

/-- After `n` calls the iterator is running, or one of them has ended it. -/
theorem running_or_ended (n : Nat) : (∀ m < n, ReadsWritten provider (pull len provider page m) (run len provider page (m + 1))) ∧
    ((∃ items, Running len provider page n items) ∨
      ∃ m < n, (∃ items, Ended len provider page m items) ∧ (run len provider page n).done = true ∧
        ∀ i, m < i → i < n → pull len provider page i = ⟨none, none, none⟩) := by
  induction n with
  | zero =>
    refine ⟨fun m hm => absurd hm (Nat.not_lt_zero m), Or.inl ⟨[], rfl, rfl, inv_expandedEdges page, ?_⟩⟩
    intro i hi
    exact absurd hi (Nat.not_lt_zero i)
  | succ n ih =>
    obtain ⟨hreads, ⟨items, hrunning⟩ | ⟨m, hm, hended, hdone, hrest⟩⟩ := ih
    · obtain ⟨hread, hnext⟩ := hrunning.next
      refine ⟨?_, ?_⟩
      · intro m hm
        rcases Nat.lt_succ_iff_lt_or_eq.mp hm with hm | rfl
        · exact hreads m hm
        · exact hread
      · rcases hnext with ⟨item, hrunning'⟩ | ⟨hended, hdone⟩
        · exact Or.inl ⟨_, hrunning'⟩
        · exact Or.inr ⟨n, Nat.lt_succ_self n, ⟨items, hended⟩, hdone, fun i h h' => by omega⟩
    · have hpull : pull len provider page n = ⟨none, none, none⟩ := by rw [pull, next_of_done hdone]
      refine ⟨?_, Or.inr ⟨m, Nat.lt_succ_of_lt hm, hended, ?_, ?_⟩⟩
      · intro m hm
        rcases Nat.lt_succ_iff_lt_or_eq.mp hm with hm | rfl
        · exact hreads m hm
        · rw [hpull]
          intro i hi
          cases hi
      · rw [run_succ, next_of_done hdone]
        exact hdone
      · intro i h h'
        rcases Nat.lt_succ_iff_lt_or_eq.mp h' with h' | rfl
        · exact hrest i h h'
        · exact hpull

variable (len provider page) in
/-- Whatever the provider answers, the iterator ends; it has then returned the edges of all pages, whose number every
    response has claimed, or it has recorded a fault. It returns nothing more, and reads written entries only. -/
theorem pages_or_fault : (∃ n ≤ maxUnicodeScalarEdges, (∃ items, Ended len provider page n items) ∧
      ∀ m, n < m → pull len provider page m = ⟨none, none, none⟩) ∧
    ∀ m, ReadsWritten provider (pull len provider page m) (run len provider page (m + 1)) := by
  refine ⟨?_, fun m => (running_or_ended (m + 1)).1 m (Nat.lt_succ_self m)⟩
  rcases (running_or_ended (maxUnicodeScalarEdges + 1) : _ ∧ ((∃ items, Running len provider page _ items) ∨ _)).2 with
    ⟨items, hlength, -, hinv, -⟩ | ⟨n, hn, hended, hdone, hrest⟩
  · -- A running iterator has returned no more edges than there are scalars.
    have hle := hinv.items_length_le_max
    rw [hlength] at hle
    exact absurd hle (Nat.not_succ_le_self _)
  · refine ⟨n, Nat.le_of_lt_succ hn, hended, ?_⟩
    intro m hm
    rcases Nat.lt_or_ge m (maxUnicodeScalarEdges + 1) with hlt | hge
    · exact hrest m hm hlt
    · exact pull_of_done hdone hge

end Runs

end ResourceEdges
end Duallity
