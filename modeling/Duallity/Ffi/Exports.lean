import Duallity.Bindings.Capture
import Duallity.Ffi.Status

/-! Exported resources (`ffi.rs`). The handles and the retains of a client share a resource and the snapshot that it owns; the last one
    of them releases the snapshot. A constructor that fails, wherever it does, has released what it has captured. -/

namespace Duallity

/-- What the crate and its clients call on `lling_llang`'s `OwnedWfstResource` and on the table of its raw form, over what the references
    to one resource share. A reference that goes says whether it drops the provider, a read of a state whether it asks the provider. -/
structure OwnedWfstResource (η : Type) where
  fromProviderWithCache : η
  clone : η → η
  intoRaw : η → η
  drop : η → η × Bool
  retain : η → η
  release : η → η × Bool
  state : η → Nat → η × Bool

/-- The owned values and the raw retains of a resource are counted alike, and the last one drops the provider. -/
structure OwnedWfstResource.Counts {η : Type} (owned : OwnedWfstResource η) (count : η → Nat) : Prop where
  fromProviderWithCache : count owned.fromProviderWithCache = 1
  clone : ∀ s, 0 < count s → count (owned.clone s) = count s + 1
  intoRaw : ∀ s, 0 < count s → count (owned.intoRaw s) = count s
  drop : ∀ s, 0 < count s → count (owned.drop s).1 + 1 = count s ∧ ((owned.drop s).2 = true ↔ count s = 1)
  retain : ∀ s, 0 < count s → count (owned.retain s) = count s + 1
  release : ∀ s, 0 < count s → count (owned.release s).1 + 1 = count s ∧ ((owned.release s).2 = true ↔ count s = 1)
  state : ∀ s i, 0 < count s → count (owned.state s i).1 = count s

/-- The resources that have been exported, each with the snapshot of its provider if it has one, and the references to them: those of the
    handles, until they are freed, and those that a client holds itself. -/
structure Exports (η : Type) where
  loans : Loans
  resources : List (η × Option Nat)
  handles : List (Option Nat)
  held : Nat → Nat

/-- What a constructor writes. -/
inductive ExportOutput
  | handle
  | resource
deriving DecidableEq, Repr

/-- A call of a client. The results of checks are parameters: `arguments` is what is checked before a capture. -/
inductive ClientCall
  | wfstNew (F : Foreign) (arguments : Except Rejection Unit) (build : DictionaryWork) (outWfst : Except Rejection Unit)
  | wfstNewConfiguredRef (F : Foreign) (arguments : Except Rejection Unit) (build : DictionaryWork)
  | fzfWfstNewRef (F : Foreign) (arguments : Except Rejection Unit) (build : DictionaryWork) (options : Except Rejection Unit)
  | phoneticProductNewRef (F : Foreign) (arguments : Except Rejection Unit) (build : DictionaryWork)
  | fzfRankRef (F : Foreign) (arguments : Except Rejection Unit) (build : DictionaryWork)
  | newWithoutDictionary (arguments : Except Rejection Unit) (output : ExportOutput)
  | wfstResource (handle : Nat) (outResource : Except Rejection Unit)
  | resourceRetain (resource : Nat)
  | resourceRelease (resource : Nat)
  | wfstFree (handle : Nat)
  | state (resource state nodes : Nat)

namespace Exports
variable {η : Type} (abi : InteropAbi) (owned : OwnedWfstResource η) (self : Exports η)

def new : Exports η := ⟨⟨[], []⟩, [], [], fun _ => 0⟩

/-- The snapshot of a resource. -/
def dictionary? (k : Nat) : Option Nat := (self.resources[k]?).bind Prod.snd

def fromProvider (dictionary? : Option Nat) : Exports η :=
  { self with resources := self.resources ++ [(owned.fromProviderWithCache, dictionary?)] }

/-- A reference to a resource is taken. -/
def acquire (f : η → η) (k : Nat) : Exports η := { self with resources := self.resources.modify k fun r => (f r.1, r.2) }

/-- A call to a resource that may get to its provider, which then does `work` on its snapshot if it has one. -/
def call (f : η → η × Bool) (work : Loans → Nat → Loans) (k : Nat) : Exports η :=
  match self.resources[k]? with
  | none => self
  | some (shared, dictionary?) =>
    { self with
      loans := if (f shared).2 then dictionary?.elim self.loans (work self.loans) else self.loans
      resources := self.resources.set k ((f shared).1, dictionary?) }

/-- A reference to a resource goes. A provider that is dropped drops its dictionary. -/
def giveBack (f : η → η × Bool) (k : Nat) : Exports η := self.call f Loans.dropRaw k

def intoHandle (k : Nat) : Exports η := { self with handles := self.handles ++ [some k] }

/-- A client gets a raw retain. -/
def intoClient (k : Nat) : Exports η := { self with held := Function.update self.held k (self.held k + 1) }

def intoRaw (k : Nat) : Exports η := (self.acquire owned.intoRaw k).intoClient k

def write (k : Nat) : ExportOutput → Exports η
  | .handle => self.intoHandle k
  | .resource => self.intoRaw owned k

/-- Export a resource. When the check before the output is written fails, the resource is dropped. -/
def exportResource (dictionary? : Option Nat) (check : Except Rejection Unit) (output : ExportOutput) : Exports η :=
  let k := self.resources.length
  let self := self.fromProvider owned dictionary?
  match check with
  | .error _ => self.giveBack owned.drop k
  | .ok () => self.write owned k output

/-- A constructor over a dictionary; `check` is what it checks after the construction. -/
def construct (F : Foreign) (arguments : Except Rejection Unit) (build : DictionaryWork) (check : Except Rejection Unit)
    (output : ExportOutput) : Exports η :=
  match arguments with
  | .error _ => self
  | .ok () =>
    match ResourceDictionary.withCaptured abi F self.loans build with
    | (loans, some (.ok dictionary)) => { self with loans := loans }.exportResource owned (some dictionary.resource) check output
    | (loans, _) => { self with loans := loans }

/-- `duallity_wfst_new`: the output slot is resolved when the resource is there. -/
def wfstNew (F : Foreign) (arguments : Except Rejection Unit) (build : DictionaryWork) (outWfst : Except Rejection Unit) : Exports η :=
  self.construct abi owned F arguments build outWfst .handle

def wfstNewConfiguredRef (F : Foreign) (arguments : Except Rejection Unit) (build : DictionaryWork) : Exports η :=
  self.construct abi owned F arguments build (.ok ()) .handle

/-- `duallity_fzf_wfst_new_ref`: the options for readback are made when the resource is there. -/
def fzfWfstNewRef (F : Foreign) (arguments : Except Rejection Unit) (build : DictionaryWork) (options : Except Rejection Unit) :
    Exports η :=
  self.construct abi owned F arguments build options .handle

def phoneticProductNewRef (F : Foreign) (arguments : Except Rejection Unit) (build : DictionaryWork) : Exports η :=
  self.construct abi owned F arguments build (.ok ()) .resource

/-- `duallity_fzf_rank_ref`: the dictionary is dropped when the hits have been copied. -/
def fzfRankRef (F : Foreign) (arguments : Except Rejection Unit) (build : DictionaryWork) : Exports η :=
  match arguments with
  | .error _ => self
  | .ok () =>
    match ResourceDictionary.withCaptured abi F self.loans build with
    | (loans, some (.ok dictionary)) => { self with loans := loans.dropRaw dictionary.resource }
    | (loans, _) => { self with loans := loans }

/-- The constructors for phonetic NFAs, rewrite rules and WallBreaker results. -/
def newWithoutDictionary (arguments : Except Rejection Unit) (output : ExportOutput) : Exports η :=
  match arguments with
  | .error _ => self
  | .ok () => self.exportResource owned none (.ok ()) output

/-- `duallity_wfst_resource`: the output slot is resolved before the retain is taken. -/
def wfstResource (handle : Nat) (outResource : Except Rejection Unit) : Exports η :=
  match (self.handles[handle]?).join, outResource with
  | some k, .ok () => (self.acquire owned.clone k).intoRaw owned k
  | _, _ => self

def resourceRetain (k : Nat) : Exports η := if 0 < self.held k then (self.acquire owned.retain k).intoClient k else self

def resourceRelease (k : Nat) : Exports η :=
  if 0 < self.held k then { self with held := Function.update self.held k (self.held k - 1) }.giveBack owned.release k else self

def wfstFree (handle : Nat) : Exports η :=
  match (self.handles[handle]?).join with
  | none => self
  | some k => { self with handles := self.handles.set handle none }.giveBack owned.drop k

/-- A client reads a state of a resource that it holds. The provider asks for `nodes` nodes of its dictionary. -/
def state (k i nodes : Nat) : Exports η :=
  if 0 < self.held k then self.call (fun shared => owned.state shared i) (fun loans id => loans.callNodes id nodes) k else self

/-- A call on what the client does not own is one that its contract forbids; nothing is said of it. -/
def step : ClientCall → Exports η
  | .wfstNew F arguments build outWfst => self.wfstNew abi owned F arguments build outWfst
  | .wfstNewConfiguredRef F arguments build => self.wfstNewConfiguredRef abi owned F arguments build
  | .fzfWfstNewRef F arguments build options => self.fzfWfstNewRef abi owned F arguments build options
  | .phoneticProductNewRef F arguments build => self.phoneticProductNewRef abi owned F arguments build
  | .fzfRankRef F arguments build => self.fzfRankRef abi F arguments build
  | .newWithoutDictionary arguments output => self.newWithoutDictionary owned arguments output
  | .wfstResource handle outResource => self.wfstResource owned handle outResource
  | .resourceRetain k => self.resourceRetain owned k
  | .resourceRelease k => self.resourceRelease owned k
  | .wfstFree handle => self.wfstFree owned handle
  | .state k i nodes => self.state owned k i nodes

def run (calls : List ClientCall) : Exports η := calls.foldl (step abi owned) self

end Exports


namespace Exports
variable {η : Type} {abi : InteropAbi} {owned : OwnedWfstResource η} {count : η → Nat} {F : Foreign} {σ : Exports η} {loans : Loans}
  {references : List Nat} {k k' i : Nat}

/-- The references to a resource, as they are counted. -/
def strong (count : η → Nat) (σ : Exports η) (k : Nat) : Nat := (σ.resources[k]?).elim 0 fun r => count r.1

/-- The snapshots of the resources that somebody refers to. -/
def inUse (count : η → Nat) (σ : Exports η) : Set Nat := {i | ∃ k, σ.dictionary? k = some i ∧ 0 < σ.strong count k}

/-- What holds while a call holds `references` itself. -/
structure Consistent (count : η → Nat) (σ : Exports η) (references : List Nat) : Prop where
  kept : σ.loans.Kept (σ.inUse count)
  unique : ∀ {k k' i : Nat}, σ.dictionary? k = some i → σ.dictionary? k' = some i → k = k'
  lt : ∀ {k i : Nat}, σ.dictionary? k = some i → i < σ.loans.snapshots.length
  counted : ∀ k, σ.strong count k = σ.handles.count (some k) + σ.held k + references.count k

theorem mem_inUse : i ∈ σ.inUse count ↔ ∃ k, σ.dictionary? k = some i ∧ 0 < σ.strong count k := Iff.rfl

theorem strong_pos_iff : 0 < σ.strong count k ↔ ∃ r, σ.resources[k]? = some r ∧ 0 < count r.1 := by
  unfold strong
  cases σ.resources[k]? <;> simp

/-! ### Resources -/

@[simp] theorem dictionary?_acquire {f : η → η} : (σ.acquire f k).dictionary? k' = σ.dictionary? k' := by
  unfold Exports.acquire Exports.dictionary?
  rw [List.getElem?_modify]
  cases σ.resources[k']? with
  | none => rfl
  | some r => by_cases heq : k = k' <;> simp [heq]

/-- A reference that is taken counts for `n` more. -/
theorem strong_acquire {f : η → η} {n : Nat} (hf : ∀ s, 0 < count s → count (f s) = count s + n) (hpos : 0 < σ.strong count k) :
    (σ.acquire f k).strong count k' = σ.strong count k' + if k' = k then n else 0 := by
  obtain ⟨r, hr, hcount⟩ := strong_pos_iff.mp hpos
  unfold Exports.acquire strong
  rw [List.getElem?_modify]
  by_cases heq : k' = k
  · subst heq
    simp [hr, hf r.1 hcount]
  · cases σ.resources[k']? <;> simp [heq, Ne.symm heq]

section
variable {f : η → η × Bool} {work : Loans → Nat → Loans}

theorem call_eq {r : η × Option Nat} (hr : σ.resources[k]? = some r) : σ.call f work k = { σ with
    loans := if (f r.1).2 then r.2.elim σ.loans (work σ.loans) else σ.loans
    resources := σ.resources.set k ((f r.1).1, r.2) } := by
  unfold Exports.call
  rw [hr]

variable (f work) in
/-- A call leaves the snapshots alone, or reaches the provider of one. -/
theorem loans_call {r : η × Option Nat} (hr : σ.resources[k]? = some r) :
    (σ.call f work k).loans = σ.loans ∧ ((f r.1).2 = false ∨ σ.dictionary? k = none) ∨
    ∃ id, σ.dictionary? k = some id ∧ (f r.1).2 = true ∧ (σ.call f work k).loans = work σ.loans id := by
  have hdictionary : σ.dictionary? k = r.2 := by
    unfold Exports.dictionary?
    rw [hr]
    rfl
  rw [call_eq hr, hdictionary]
  cases hreached : (f r.1).2 with
  | false => exact Or.inl ⟨rfl, Or.inl rfl⟩
  | true =>
    cases hsnapshot : r.2 with
    | none => exact Or.inl ⟨rfl, Or.inr rfl⟩
    | some id => exact Or.inr ⟨id, rfl, rfl, rfl⟩

@[simp] theorem dictionary?_call : (σ.call f work k).dictionary? k' = σ.dictionary? k' := by
  cases hr : σ.resources[k]? with
  | none =>
    unfold Exports.call
    rw [hr]
  | some r =>
    rw [call_eq hr]
    by_cases heq : k = k'
    · subst heq
      simp [Exports.dictionary?, hr, List.getElem?_set_self (List.getElem?_eq_some_iff.mp hr).1]
    · simp [Exports.dictionary?, List.getElem?_set_ne heq]

variable (work) in
/-- A call after which `n` references less count. -/
theorem strong_call {n : Nat} (hf : ∀ s, 0 < count s → count (f s).1 + n = count s) (hpos : 0 < σ.strong count k) :
    ((σ.call f work k).strong count k' + if k' = k then n else 0) = σ.strong count k' := by
  obtain ⟨r, hr, hcount⟩ := strong_pos_iff.mp hpos
  rw [call_eq hr]
  unfold strong
  by_cases heq : k' = k
  · subst heq
    simp [hr, hf r.1 hcount, List.getElem?_set_self (List.getElem?_eq_some_iff.mp hr).1]
  · simp [heq, List.getElem?_set_ne (Ne.symm heq)]

end

theorem getElem?_fromProvider {dictionary? : Option Nat} {r : η × Option Nat} : (σ.fromProvider owned dictionary?).resources[k]? = some r ↔
    σ.resources[k]? = some r ∨ k = σ.resources.length ∧ (owned.fromProviderWithCache, dictionary?) = r := by
  unfold Exports.fromProvider
  by_cases hlt : k < σ.resources.length
  · simp [List.getElem?_append_left hlt, hlt.ne]
  · have hnone : σ.resources[k]? = none := List.getElem?_eq_none_iff.mpr (Nat.not_lt.mp hlt)
    by_cases heq : k = σ.resources.length
    · subst heq
      simp
    · have hget : (σ.resources ++ [(owned.fromProviderWithCache, dictionary?)])[k]? = none := by
        rw [List.getElem?_eq_none_iff, List.length_append, List.length_singleton]
        omega
      simp [hget, hnone, heq]

theorem dictionary?_fromProvider {dictionary? : Option Nat} : (σ.fromProvider owned dictionary?).dictionary? k = some i ↔
    σ.dictionary? k = some i ∨ k = σ.resources.length ∧ dictionary? = some i := by
  simp only [Exports.dictionary?, Option.bind_eq_some_iff, getElem?_fromProvider]
  constructor
  · rintro ⟨r, hr | ⟨hk, rfl⟩, hi⟩
    · exact Or.inl ⟨r, hr, hi⟩
    · exact Or.inr ⟨hk, hi⟩
  · rintro (⟨r, hr, hi⟩ | ⟨hk, hi⟩)
    · exact ⟨r, Or.inl hr, hi⟩
    · exact ⟨_, Or.inr ⟨hk, rfl⟩, hi⟩

theorem dictionary?_lt (h : σ.dictionary? k = some i) : k < σ.resources.length := by
  obtain ⟨r, hr, -⟩ := Option.bind_eq_some_iff.mp h
  exact (List.getElem?_eq_some_iff.mp hr).1

theorem strong_fromProvider (hcounts : owned.Counts count) {dictionary? : Option Nat} : (σ.fromProvider owned dictionary?).strong count k =
    σ.strong count k + if k = σ.resources.length then 1 else 0 := by
  unfold Exports.fromProvider strong
  by_cases heq : k = σ.resources.length
  · subst heq
    simp [hcounts.fromProviderWithCache]
  · by_cases hlt : k < σ.resources.length
    · simp [List.getElem?_append_left hlt, heq]
    · have hget : (σ.resources ++ [(owned.fromProviderWithCache, dictionary?)])[k]? = none := by
        rw [List.getElem?_eq_none_iff, List.length_append, List.length_singleton]
        omega
      simp [hget, List.getElem?_eq_none_iff.mpr (Nat.not_lt.mp hlt), heq]

/-! ### References -/

theorem consistent_new : Consistent count (new : Exports η) [] := by
  have hinUse : (new : Exports η).inUse count = ∅ := by
    ext i
    simp [inUse, new, Exports.dictionary?]
  refine ⟨?_, by simp [new, Exports.dictionary?], by simp [new, Exports.dictionary?], by simp [new, strong]⟩
  rw [hinUse]
  have hopened : Set.Iio (0 : Nat) = ∅ := by
    ext i
    simp
  unfold Loans.Kept
  rw [show ((new : Exports η).loans.snapshots.length) = 0 from rfl, hopened]
  exact Custody.kept_nil

theorem Consistent.pos (h : Consistent count σ (k :: references)) : 0 < σ.strong count k := by
  rw [h.counted k, List.count_cons_self]
  omega

/-- References that are handed over leave all else as it is. -/
theorem Consistent.transfer (h : Consistent count σ references) {handles : List (Option Nat)} {held : Nat → Nat} {references' : List Nat}
    (hcount : ∀ k, handles.count (some k) + held k + references'.count k = σ.handles.count (some k) + σ.held k + references.count k) :
    Consistent count { σ with handles := handles, held := held } references' :=
  ⟨h.kept, h.unique, h.lt, fun k => (h.counted k).trans (hcount k).symm⟩

/-- Nobody refers to a dictionary that has been dropped. -/
theorem Consistent.withLoans (h : Consistent count σ references) (hle : σ.loans.snapshots.length ≤ loans.snapshots.length)
    (hkept : loans.Kept (σ.inUse count)) : Consistent count { σ with loans := loans } references :=
  ⟨hkept, h.unique, fun hk => (h.lt hk).trans_le hle, h.counted⟩

theorem Consistent.intoHandle (h : Consistent count σ (k :: references)) : Consistent count (σ.intoHandle k) references := by
  refine h.transfer fun k' => ?_
  rw [List.count_append, List.count_singleton, List.count_cons]
  by_cases heq : k = k'
  · subst heq
    simp
    omega
  · simp [heq]

theorem Consistent.intoClient (h : Consistent count σ (k :: references)) : Consistent count (σ.intoClient k) references := by
  refine h.transfer fun k' => ?_
  rw [List.count_cons]
  by_cases heq : k' = k
  · subst heq
    simp
    omega
  · simp [Function.update_of_ne heq, Ne.symm heq]

/-- Calls leave the snapshots of resources where they are. -/
theorem Consistent.sameDictionaries (h : Consistent count σ references) {σ' : Exports η} {references' : List Nat}
    (hdictionary : ∀ k, σ'.dictionary? k = σ.dictionary? k) (hsnapshots : σ'.loans.snapshots = σ.loans.snapshots)
    (hkept : σ'.loans.Kept (σ'.inUse count))
    (hcounted : ∀ k, σ'.strong count k = σ'.handles.count (some k) + σ'.held k + references'.count k) : Consistent count σ' references' := by
  refine ⟨hkept, ?_, ?_, hcounted⟩
  · intro k k' i hk hk'
    exact h.unique (hdictionary k ▸ hk) (hdictionary k' ▸ hk')
  · intro k i hk
    rw [hsnapshots]
    exact h.lt (hdictionary k ▸ hk)

/-- Taking references keeps every resource in use that is. -/
theorem inUse_acquire {f : η → η} {n : Nat} (hf : ∀ s, 0 < count s → count (f s) = count s + n) (hpos : 0 < σ.strong count k) :
    (σ.acquire f k).inUse count = σ.inUse count := by
  ext i
  simp only [mem_inUse, dictionary?_acquire, strong_acquire hf hpos]
  refine exists_congr fun k' => and_congr_right fun _ => ?_
  by_cases heq : k' = k
  · subst heq
    simp
    omega
  · simp [heq]

theorem Consistent.acquire (h : Consistent count σ references) {f : η → η} {n : Nat} (hf : ∀ s, 0 < count s → count (f s) = count s + n)
    (hpos : 0 < σ.strong count k) : Consistent count (σ.acquire f k) (List.replicate n k ++ references) := by
  refine h.sameDictionaries (fun k' => dictionary?_acquire) rfl ?_ fun k' => ?_
  · rw [inUse_acquire hf hpos]
    exact h.kept
  · rw [strong_acquire hf hpos, h.counted k', List.count_append, List.count_replicate]
    by_cases heq : k' = k
    · subst heq
      simp [Exports.acquire]
      omega
    · simp [Exports.acquire, heq, Ne.symm heq]

theorem Consistent.intoRaw (hcounts : owned.Counts count) (h : Consistent count σ (k :: references)) :
    Consistent count (σ.intoRaw owned k) references :=
  (h.acquire (n := 0) hcounts.intoRaw h.pos).intoClient

theorem Consistent.write (hcounts : owned.Counts count) (h : Consistent count σ (k :: references)) (output : ExportOutput) :
    Consistent count (σ.write owned k output) references := by
  cases output with
  | handle => exact h.intoHandle
  | resource => exact h.intoRaw hcounts

/-- What a new resource has captured is in use, and so is what was in use before. -/
theorem inUse_fromProvider (hcounts : owned.Counts count) {dictionary? : Option Nat} :
    ({ σ with loans := loans }.fromProvider owned dictionary?).inUse count = {i | dictionary? = some i} ∪ σ.inUse count := by
  have hdictionary : ∀ {k i}, ({ σ with loans := loans }.fromProvider owned dictionary?).dictionary? k = some i ↔
      σ.dictionary? k = some i ∨ k = σ.resources.length ∧ dictionary? = some i := dictionary?_fromProvider
  have hstrong : ∀ k, ({ σ with loans := loans }.fromProvider owned dictionary?).strong count k =
      σ.strong count k + if k = σ.resources.length then 1 else 0 := fun k => strong_fromProvider hcounts
  ext i
  constructor
  · intro hi
    obtain ⟨k, hk, hpos⟩ := mem_inUse.mp hi
    rcases hdictionary.mp hk with hk' | ⟨-, hk'⟩
    · refine Or.inr (mem_inUse.mpr ⟨k, hk', ?_⟩)
      rw [hstrong, if_neg (dictionary?_lt hk').ne] at hpos
      exact hpos
    · exact Or.inl hk'
  · intro hi
    rcases hi with hi | hi
    · refine mem_inUse.mpr ⟨_, hdictionary.mpr (Or.inr ⟨rfl, hi⟩), ?_⟩
      rw [hstrong, if_pos rfl]
      exact Nat.succ_pos _
    · obtain ⟨k, hk, hpos⟩ := mem_inUse.mp hi
      refine mem_inUse.mpr ⟨k, hdictionary.mpr (Or.inl hk), ?_⟩
      rw [hstrong]
      exact Nat.add_pos_left hpos _

/-- A new resource owns what its dictionary has captured. -/
theorem Consistent.fromProvider (hcounts : owned.Counts count) (h : Consistent count σ references) {dictionary? : Option Nat}
    (hle : σ.loans.snapshots.length ≤ loans.snapshots.length)
    (hnew : ∀ i, dictionary? = some i → σ.loans.snapshots.length ≤ i ∧ i < loans.snapshots.length)
    (hkept : loans.Kept ({i | dictionary? = some i} ∪ σ.inUse count)) :
    Consistent count ({ σ with loans := loans }.fromProvider owned dictionary?) (σ.resources.length :: references) := by
  have hdictionary : ∀ {k i}, ({ σ with loans := loans }.fromProvider owned dictionary?).dictionary? k = some i ↔
      σ.dictionary? k = some i ∨ k = σ.resources.length ∧ dictionary? = some i := dictionary?_fromProvider
  refine ⟨?_, ?_, ?_, fun k => ?_⟩
  · rw [inUse_fromProvider hcounts]
    exact hkept
  · intro k k' i hk hk'
    rcases hdictionary.mp hk with hk | ⟨rfl, hi⟩
    · rcases hdictionary.mp hk' with hk' | ⟨-, hi⟩
      · exact h.unique hk hk'
      · exact absurd (h.lt hk) (Nat.not_lt.mpr (hnew i hi).1)
    · rcases hdictionary.mp hk' with hk' | ⟨rfl, -⟩
      · exact absurd (h.lt hk') (Nat.not_lt.mpr (hnew i hi).1)
      · rfl
  · intro k i hk
    rcases hdictionary.mp hk with hk | ⟨-, hi⟩
    · exact (h.lt hk).trans_le hle
    · exact (hnew i hi).2
  · have hstrong : ({ σ with loans := loans }.fromProvider owned dictionary?).strong count k =
        σ.strong count k + if k = σ.resources.length then 1 else 0 := strong_fromProvider hcounts
    rw [hstrong, h.counted k, List.count_cons]
    by_cases heq : k = σ.resources.length
    · subst heq
      simp [Exports.fromProvider]
      omega
    · simp [Exports.fromProvider, heq, Ne.symm heq]

/-- A call that neither takes nor gives back a reference. -/
theorem Consistent.state (hcounts : owned.Counts count) (h : Consistent count σ []) (k i nodes : Nat) :
    Consistent count (σ.state owned k i nodes) [] := by
  unfold Exports.state
  split
  · rename_i hheld
    have hpos : 0 < σ.strong count k := by
      rw [h.counted k]
      omega
    obtain ⟨r, hr, -⟩ := strong_pos_iff.mp hpos
    generalize hcalled : σ.call (fun shared => owned.state shared i) (fun loans id => loans.callNodes id nodes) k = σ'
    have hdictionary : ∀ k', σ'.dictionary? k' = σ.dictionary? k' := fun k' => hcalled ▸ dictionary?_call
    have hstrong : ∀ k', σ'.strong count k' = σ.strong count k' := by
      intro k'
      have hcall : (_ + ite (k' = k) 0 0) = σ.strong count k' := strong_call (n := 0) (fun loans id => loans.callNodes id nodes)
        (fun s => hcounts.state s i) hpos
      rw [hcalled, ite_self] at hcall
      exact hcall
    have hinUse : σ'.inUse count = σ.inUse count := by
      ext i
      simp only [mem_inUse, hdictionary, hstrong]
    have hloans : σ'.loans.Kept (σ.inUse count) ∧ σ'.loans.snapshots = σ.loans.snapshots := by
      rcases loans_call (fun shared => owned.state shared i) (fun loans id => loans.callNodes id nodes) hr with
        ⟨hloans, -⟩ | ⟨id, hid, -, hloans⟩
      · rw [hcalled] at hloans
        rw [hloans]
        exact ⟨h.kept, rfl⟩
      · rw [hcalled] at hloans
        rw [hloans]
        exact ⟨h.kept.callNodes (mem_inUse.mpr ⟨k, hid, hpos⟩), rfl⟩
    refine h.sameDictionaries hdictionary hloans.2 (hinUse ▸ hloans.1) fun k' => ?_
    rw [hstrong, h.counted k', ← hcalled, call_eq hr]
  · exact h

theorem strong_giveBack_pos {f : η → η × Bool} (hf : ∀ s, 0 < count s → count (f s).1 + 1 = count s) (hpos : 0 < σ.strong count k) :
    0 < (σ.giveBack f k).strong count k' ↔ 0 < σ.strong count k' ∧ (k' = k → σ.strong count k ≠ 1) := by
  have hstrong : ((σ.call f Loans.dropRaw k).strong count k' + if k' = k then 1 else 0) = σ.strong count k' :=
    strong_call Loans.dropRaw hf hpos
  unfold Exports.giveBack
  by_cases heq : k' = k
  · subst heq
    simp at hstrong ⊢
    omega
  · simp only [heq, if_false, Nat.add_zero] at hstrong
    simp [hstrong, heq]

/-- All snapshots stay in use, unless the last reference to the resource of one is given back. -/
theorem inUse_giveBack {f : η → η × Bool} (hf : ∀ s, 0 < count s → count (f s).1 + 1 = count s) (hpos : 0 < σ.strong count k)
    (h : ∀ i, σ.dictionary? k = some i → σ.strong count k ≠ 1) : (σ.giveBack f k).inUse count = σ.inUse count := by
  ext i
  simp only [mem_inUse, strong_giveBack_pos hf hpos]
  refine exists_congr fun k' => ?_
  rw [show (σ.giveBack f k).dictionary? k' = σ.dictionary? k' from dictionary?_call]
  constructor
  · exact fun hk' => ⟨hk'.1, hk'.2.1⟩
  · refine fun hk' => ⟨hk'.1, hk'.2, fun heq => ?_⟩
    subst heq
    exact h i hk'.1

/-- The last reference to a resource owns its snapshot. -/
theorem Consistent.inUse_last (h : Consistent count σ (k :: references)) {f : η → η × Bool}
    (hf : ∀ s, 0 < count s → count (f s).1 + 1 = count s) (hone : σ.strong count k = 1) {id : Nat} (hk : σ.dictionary? k = some id) :
    id ∉ (σ.giveBack f k).inUse count ∧ σ.inUse count = insert id ((σ.giveBack f k).inUse count) := by
  have hdictionary : ∀ k', (σ.giveBack f k).dictionary? k' = σ.dictionary? k' := fun k' => dictionary?_call
  refine ⟨?_, ?_⟩
  · intro hi
    obtain ⟨k', hk', hpos'⟩ := mem_inUse.mp hi
    exact ((strong_giveBack_pos hf h.pos).mp hpos').2 (h.unique (hdictionary k' ▸ hk') hk) hone
  · ext i
    constructor
    · intro hi
      obtain ⟨k', hk', hpos'⟩ := mem_inUse.mp hi
      by_cases heq : k' = k
      · subst heq
        cases hk.symm.trans hk'
        exact Set.mem_insert _ _
      · refine Set.mem_insert_of_mem _ (mem_inUse.mpr ⟨k', (hdictionary k').trans hk', (strong_giveBack_pos hf h.pos).mpr ⟨hpos', ?_⟩⟩)
        exact fun h => absurd h heq
    · intro hi
      rcases Set.mem_insert_iff.mp hi with rfl | hi
      · exact mem_inUse.mpr ⟨k, hk, h.pos⟩
      · obtain ⟨k', hk', hpos'⟩ := mem_inUse.mp hi
        exact mem_inUse.mpr ⟨k', hdictionary k' ▸ hk', ((strong_giveBack_pos hf h.pos).mp hpos').1⟩

/-- A reference that is given back is the last one, and releases the snapshot, or leaves it to the others. -/
theorem Consistent.giveBack (h : Consistent count σ (k :: references)) {f : η → η × Bool}
    (hf : ∀ s, 0 < count s → count (f s).1 + 1 = count s ∧ ((f s).2 = true ↔ count s = 1)) :
    Consistent count (σ.giveBack f k) references := by
  have hfewer : ∀ s, 0 < count s → count (f s).1 + 1 = count s := fun s hs => (hf s hs).1
  obtain ⟨r, hr, hcount⟩ := strong_pos_iff.mp h.pos
  have hr_strong : σ.strong count k = count r.1 := by
    unfold strong
    rw [hr]
    rfl
  have hdictionary : ∀ k', (σ.giveBack f k).dictionary? k' = σ.dictionary? k' := fun k' => dictionary?_call
  have hloans : (σ.giveBack f k).loans.Kept ((σ.giveBack f k).inUse count) ∧ (σ.giveBack f k).loans.snapshots = σ.loans.snapshots := by
    rcases loans_call f Loans.dropRaw hr with ⟨hloans, hother⟩ | ⟨id, hid, hlast, hloans⟩
    · have hmore : ∀ i, σ.dictionary? k = some i → σ.strong count k ≠ 1 := by
        intro i hi hone
        rcases hother with hreached | hnone
        · simp [(hf r.1 hcount).2.mpr (hr_strong ▸ hone)] at hreached
        · simp [hnone] at hi
      rw [inUse_giveBack hfewer h.pos hmore, show (σ.giveBack f k).loans = σ.loans from hloans]
      exact ⟨h.kept, rfl⟩
    · have hone : σ.strong count k = 1 := hr_strong.trans ((hf r.1 hcount).2.mp hlast)
      obtain ⟨hnew, hinUse⟩ := h.inUse_last hfewer hone hid
      rw [show (σ.giveBack f k).loans = σ.loans.dropRaw id from hloans]
      exact ⟨(hinUse ▸ h.kept).dropRaw hnew, Loans.snapshots_dropRaw⟩
  refine h.sameDictionaries hdictionary hloans.2 hloans.1 fun k' => ?_
  have hstrong : ((σ.call f Loans.dropRaw k).strong count k' + if k' = k then 1 else 0) = σ.strong count k' :=
    strong_call Loans.dropRaw hfewer h.pos
  have hcounted := h.counted k'
  rw [List.count_cons] at hcounted
  have hothers : (σ.giveBack f k).handles = σ.handles ∧ (σ.giveBack f k).held = σ.held := by
    unfold Exports.giveBack
    rw [call_eq hr]
    exact ⟨rfl, rfl⟩
  rw [hothers.1, hothers.2]
  unfold Exports.giveBack
  by_cases heq : k' = k
  · subst heq
    simp at hstrong hcounted
    omega
  · simp [heq, Ne.symm heq] at hstrong hcounted
    omega

/-! ### Calls -/

theorem Consistent.exportResource (hcounts : owned.Counts count) (h : Consistent count σ []) {dictionary? : Option Nat}
    (hle : σ.loans.snapshots.length ≤ loans.snapshots.length)
    (hnew : ∀ i, dictionary? = some i → σ.loans.snapshots.length ≤ i ∧ i < loans.snapshots.length)
    (hkept : loans.Kept ({i | dictionary? = some i} ∪ σ.inUse count)) (check : Except Rejection Unit) (output : ExportOutput) :
    Consistent count ({ σ with loans := loans }.exportResource owned dictionary? check output) [] := by
  have hprovider := h.fromProvider hcounts hle hnew hkept
  unfold Exports.exportResource
  cases check with
  | error e => exact hprovider.giveBack hcounts.drop
  | ok u => exact hprovider.write hcounts output

theorem setOf_some_union {id : Nat} {owned : Set Nat} : {i | some id = some i} ∪ owned = insert id owned := by
  ext i
  simp [eq_comm]

theorem Consistent.construct (hcounts : owned.Counts count) (h : Consistent count σ []) (F : Foreign) (arguments : Except Rejection Unit)
    (build : DictionaryWork)
    (check : Except Rejection Unit) (output : ExportOutput) : Consistent count (σ.construct abi owned F arguments build check output)
      [] := by
  unfold Exports.construct
  cases arguments with
  | error e => exact h
  | ok u =>
    dsimp only
    rcases hcaptured : ResourceDictionary.withCaptured abi F σ.loans build with ⟨loans, result⟩
    obtain ⟨hle, hfailed, hdone⟩ := ResourceDictionary.withCaptured_kept h.kept hcaptured
    split
    · rename_i loans' dictionary heq
      cases heq
      obtain ⟨hkept, hresource, hlength⟩ := hdone dictionary rfl
      refine h.exportResource hcounts hle (fun i hi => ?_) (setOf_some_union ▸ hkept) check output
      cases hi
      omega
    · rename_i loans' result' hne heq
      cases heq
      exact h.withLoans hle (hfailed fun dictionary heq => hne dictionary heq)

theorem Consistent.fzfRankRef (h : Consistent count σ []) (F : Foreign) (arguments : Except Rejection Unit) (build : DictionaryWork) :
    Consistent count (σ.fzfRankRef abi F arguments build) [] := by
  unfold Exports.fzfRankRef
  cases arguments with
  | error e => exact h
  | ok u =>
    dsimp only
    rcases hcaptured : ResourceDictionary.withCaptured abi F σ.loans build with ⟨loans, result⟩
    obtain ⟨hle, hfailed, hdone⟩ := ResourceDictionary.withCaptured_kept h.kept hcaptured
    split
    · rename_i loans' dictionary heq
      cases heq
      obtain ⟨hkept, hresource, hlength⟩ := hdone dictionary rfl
      have hnew : dictionary.resource ∉ σ.inUse count := fun hmem => (h.kept.lt hmem).ne hresource
      refine h.withLoans ?_ (hkept.dropRaw hnew)
      rw [Loans.snapshots_dropRaw]
      exact hle
    · rename_i loans' result' hne heq
      cases heq
      exact h.withLoans hle (hfailed fun dictionary heq => hne dictionary heq)

theorem Consistent.newWithoutDictionary (hcounts : owned.Counts count) (h : Consistent count σ []) (arguments : Except Rejection Unit)
    (output : ExportOutput) :
    Consistent count (σ.newWithoutDictionary owned arguments output) [] := by
  unfold Exports.newWithoutDictionary
  cases arguments with
  | error e => exact h
  | ok u =>
    refine h.exportResource hcounts le_rfl (fun i hi => by cases hi) ?_ (.ok ()) output
    have hempty : {i | (none : Option Nat) = some i} ∪ σ.inUse count = σ.inUse count := by
      ext i
      simp
    rw [hempty]
    exact h.kept

/-- A handle that a client has is one of the references to its resource. -/
theorem Consistent.handle_pos (h : Consistent count σ []) {handle : Nat} (hk : (σ.handles[handle]?).join = some k) :
    0 < σ.handles.count (some k) ∧ 0 < σ.strong count k := by
  have hget : σ.handles[handle]? = some (some k) := Option.join_eq_some_iff.mp hk
  have hcount : 0 < σ.handles.count (some k) := List.count_pos_iff.mpr (List.mem_of_getElem? hget)
  refine ⟨hcount, ?_⟩
  rw [h.counted k]
  omega

theorem Consistent.wfstResource (hcounts : owned.Counts count) (h : Consistent count σ []) (handle : Nat)
    (outResource : Except Rejection Unit) :
    Consistent count (σ.wfstResource owned handle outResource) [] := by
  unfold Exports.wfstResource
  split
  · rename_i k hk
    exact Consistent.intoRaw hcounts (h.acquire (n := 1) hcounts.clone (h.handle_pos hk).2)
  · exact h

theorem Consistent.held_pos (h : Consistent count σ []) (hk : 0 < σ.held k) : 0 < σ.strong count k := by
  rw [h.counted k]
  omega

theorem Consistent.resourceRetain (hcounts : owned.Counts count) (h : Consistent count σ []) (k : Nat) :
    Consistent count (σ.resourceRetain owned k) [] := by
  unfold Exports.resourceRetain
  split
  · rename_i hk
    exact (h.acquire (n := 1) hcounts.retain (h.held_pos hk)).intoClient
  · exact h

theorem Consistent.resourceRelease (hcounts : owned.Counts count) (h : Consistent count σ []) (k : Nat) :
    Consistent count (σ.resourceRelease owned k) [] := by
  unfold Exports.resourceRelease
  split
  · rename_i hk
    have htaken : Consistent count { σ with held := Function.update σ.held k (σ.held k - 1) } [k] := by
      refine h.transfer fun k' => ?_
      by_cases heq : k' = k
      · subst heq
        simp
        omega
      · simp [Function.update_of_ne heq, Ne.symm heq]
    exact htaken.giveBack hcounts.release
  · exact h

theorem Consistent.wfstFree (hcounts : owned.Counts count) (h : Consistent count σ []) (handle : Nat) :
    Consistent count (σ.wfstFree owned handle) [] := by
  unfold Exports.wfstFree
  split
  · exact h
  · rename_i k hk
    obtain ⟨hcount, -⟩ := h.handle_pos hk
    have hget : σ.handles[handle]? = some (some k) := Option.join_eq_some_iff.mp hk
    obtain ⟨hlt, hget⟩ := List.getElem?_eq_some_iff.mp hget
    have htaken : Consistent count { σ with handles := σ.handles.set handle none } [k] := by
      refine h.transfer fun k' => ?_
      rw [List.count_set hlt, hget]
      by_cases heq : k' = k
      · subst heq
        simp
        omega
      · simp [Ne.symm heq]
    exact htaken.giveBack hcounts.drop

theorem Consistent.step (hcounts : owned.Counts count) (h : Consistent count σ []) (call : ClientCall) :
    Consistent count (σ.step abi owned call) [] := by
  cases call with
  | wfstNew F arguments build outWfst => exact h.construct hcounts F arguments build outWfst .handle
  | wfstNewConfiguredRef F arguments build => exact h.construct hcounts F arguments build (.ok ()) .handle
  | fzfWfstNewRef F arguments build options => exact h.construct hcounts F arguments build options .handle
  | phoneticProductNewRef F arguments build => exact h.construct hcounts F arguments build (.ok ()) .resource
  | fzfRankRef F arguments build => exact h.fzfRankRef F arguments build
  | newWithoutDictionary arguments output => exact h.newWithoutDictionary hcounts arguments output
  | wfstResource handle outResource => exact h.wfstResource hcounts handle outResource
  | resourceRetain k => exact h.resourceRetain hcounts k
  | resourceRelease k => exact h.resourceRelease hcounts k
  | wfstFree handle => exact h.wfstFree hcounts handle
  | state k i nodes => exact h.state hcounts k i nodes

theorem Consistent.run (hcounts : owned.Counts count) (h : Consistent count σ []) (calls : List ClientCall) :
    Consistent count (σ.run abi owned calls) [] := by
  induction calls generalizing σ with
  | nil => exact h
  | cons call calls ih => exact ih (h.step hcounts call)

/-! ### Releases -/

theorem ended_iff {log : List ForeignCall} {i : Nat} :
    Custody.Ended ForeignCall.snapshot? ForeignCall.releases log i ↔ .release i ∈ log := by
  constructor
  · rintro ⟨c, hc, hreleases, hsnapshot⟩
    cases c with
    | release j =>
      cases hsnapshot
      exact hc
    | _ => cases hreleases
  · exact fun h => ⟨_, h, rfl, rfl⟩

/-- A snapshot is released once and not called any more then. It has one owner at most, and has been released when it has none or
    nobody refers to that one; a snapshot without a callback for it cannot be released. -/
structure ReleasesSnapshots (σ : Exports η) : Prop where
  once : ∀ {i newer older}, σ.loans.log = newer ++ .release i :: older → .release i ∉ older ∧ ∀ c ∈ newer, c.snapshot? ≠ some i
  owner : ∀ {k k' i : Nat}, σ.dictionary? k = some i → σ.dictionary? k' = some i → k = k'
  released : ∀ {i base}, σ.loans.snapshots[i]? = some base → base.release = true →
    (.release i ∈ σ.loans.log ↔ ∀ k : Nat, σ.dictionary? k = some i → σ.handles.count (some k) = 0 ∧ σ.held k = 0)

/-- However foreign code answers and wherever calls fail, snapshots are neither leaked nor used after their release. -/
theorem snapshots_released (owned : OwnedWfstResource η) (count : η → Nat) (hcounts : owned.Counts count) (abi : InteropAbi)
    (calls : List ClientCall) : ReleasesSnapshots (new.run abi owned calls) := by
  have h : Consistent count (new.run abi owned calls) [] := consistent_new.run hcounts calls
  generalize new.run abi owned calls = σ at h
  refine ⟨fun {i newer older} hlog => ?_, h.unique, fun {i base} hbase hrelease => ?_⟩
  · have horderly : Custody.Orderly ForeignCall.snapshot? ForeignCall.releases (newer ++ .release i :: older) := hlog ▸ h.kept.orderly
    refine ⟨fun hmem => ?_, horderly.not_used_after rfl rfl⟩
    exact horderly.of_append.1 i rfl (ended_iff.mpr hmem)
  · have hopened : i ∈ Set.Iio σ.loans.snapshots.length := Set.mem_Iio.mpr (List.getElem?_eq_some_iff.mp hbase).1
    have hzero : ∀ k, σ.strong count k = 0 ↔ σ.handles.count (some k) = 0 ∧ σ.held k = 0 := by
      intro k
      rw [h.counted k]
      simp
    constructor
    · intro hmem k hk
      refine (hzero k).mp (Nat.eq_zero_of_not_pos fun hpos => ?_)
      exact h.kept.live (mem_inUse.mpr ⟨k, hk, hpos⟩) (ended_iff.mpr hmem)
    · intro hfree
      refine ended_iff.mp (h.kept.ended hopened (fun howned => ?_) ?_)
      · obtain ⟨k, hk, hpos⟩ := mem_inUse.mp howned
        exact hpos.ne' ((hzero k).mpr (hfree k hk))
      · simp [hbase, hrelease]

/-- One count for the owned values and the raw retains, as an `Arc` keeps it. -/
def arcResource : OwnedWfstResource Nat where
  fromProviderWithCache := 1
  clone := fun s => s + 1
  intoRaw := fun s => s
  drop := fun s => (s - 1, s == 1)
  retain := fun s => s + 1
  release := fun s => (s - 1, s == 1)
  state := fun s _ => (s, true)

theorem counts_arcResource : arcResource.Counts fun s => s := by
  refine ⟨rfl, fun _ _ => rfl, fun _ _ => rfl, fun s hs => ?_, fun _ _ => rfl, fun s hs => ?_, fun _ _ _ => rfl⟩
  all_goals
    refine ⟨?_, by simp [arcResource]⟩
    show s - 1 + 1 = s
    omega

/-- A resource outlives its handle, and a constructor whose output slot is null releases what it has captured. -/
def outlives : List ClientCall :=
  let base : VtResourceVTable := ⟨40, 1, true, true, true⟩
  let table : VtDictionaryVTable := ⟨80, 1, .unicodeScalar, true, true, true, true, false⟩
  let F : Foreign := ⟨some base, fun _ _ => (some .ok, some table), fun _ => (some .ok, some base), fun _ => (some .ok, 0),
    fun _ => (some .ok, 0, 0)⟩
  let build : DictionaryWork := fun _ _ => (1, .done)
  [.wfstNew F (.ok ()) build (.ok ()), .wfstNew F (.ok ()) build (reject .nullPointer "out_wfst is null"), .wfstResource 0 (.ok ()),
    .wfstFree 0, .state 0 0 1, .resourceRelease 0]

theorem snapshots_released_outlives : let σ := new.run ⟨40, 1, 80, 1⟩ arcResource outlives
    ReleasesSnapshots σ ∧ σ.loans.log = [.release 0, .node 0, .release 1, .node 1, .root 1, .queryInterface (.captured 1), .snapshot,
      .queryInterface .caller, .node 0, .root 0, .queryInterface (.captured 0), .snapshot, .queryInterface .caller] :=
  ⟨snapshots_released arcResource (fun s => s) counts_arcResource _ outlives, by decide⟩

end Exports
end Duallity
