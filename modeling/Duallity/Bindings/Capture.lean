import Mathlib.Order.Interval.Set.Basic
import Duallity.Bindings.FaultScope
import Duallity.Generalized.Expansion
import Duallity.Lib.Custody

/-! Captured dictionaries (`DictionaryProvider::capture` in bindings.rs). A capture asks a foreign resource for a snapshot, which it
    owns, and releases it on every way out on which nobody else owns it then. -/

namespace Duallity

/-! ### Foreign tables -/

inductive VtUnitDomain
  | unicodeScalar
  | other (raw : Nat)
deriving DecidableEq, Repr

/-- The base table of a resource. Of a callback it says whether it is there. -/
structure VtResourceVTable where
  structSize : Nat
  abiVersion : Nat
  retain : Bool
  release : Bool
  queryInterface : Bool
deriving DecidableEq, Repr

structure VtDictionaryVTable where
  structSize : Nat
  interfaceVersion : Nat
  unitDomain : VtUnitDomain
  snapshot : Bool
  root : Bool
  nodeIsFinal : Bool
  nodeEdges : Bool
  len : Bool
deriving DecidableEq, Repr

/-- What the crate of the interface fixes. -/
structure InteropAbi where
  resourceTableSize : Nat
  abiVersion : Nat
  dictionaryTableSize : Nat
  dictionaryVersion : Nat

inductive BindingError
  | nullResource
  | incompatibleResourceAbi
  | missingDictionaryInterface
  | incompatibleDictionaryInterface
  | unitDomainMismatch (domain : VtUnitDomain)
  | provider (status : VtStatus)
  | invalidProviderOutput (message : String)
  | invalidArgument (message : String)
  | generalized (error : GeneralizedWfstError)
deriving DecidableEq, Repr

/-- The resource that a constructor has been passed, or a snapshot that has been captured. -/
inductive Party
  | caller
  | captured (id : Nat)
deriving DecidableEq, Repr

def Party.snapshot? : Party → Option Nat
  | .caller => none
  | .captured id => some id

inductive ForeignCall
  | queryInterface (resource : Party)
  | snapshot
  | root (id : Nat)
  | len (id : Nat)
  | node (id : Nat)
  | release (id : Nat)
deriving DecidableEq, Repr

namespace ForeignCall

/-- The snapshot that is called. -/
def snapshot? : ForeignCall → Option Nat
  | .queryInterface resource => resource.snapshot?
  | .snapshot => none
  | .root id => some id
  | .len id => some id
  | .node id => some id
  | .release id => some id

def releases : ForeignCall → Bool
  | .release _ => true
  | _ => false

end ForeignCall

/-- The resource of a call, null if there is none, and what foreign code answers after the calls so far. A status that is none is out
    of range. -/
structure Foreign where
  resource : Option VtResourceVTable
  queryInterface : List ForeignCall → Party → Option VtStatus × Option VtDictionaryVTable
  snapshot : List ForeignCall → Option VtStatus × Option VtResourceVTable
  root : List ForeignCall → Option VtStatus × Nat
  len : List ForeignCall → Option VtStatus × Nat × Nat

/-- The calls so far, the latest first, and the snapshots that have been captured. -/
structure Loans where
  log : List ForeignCall
  snapshots : List VtResourceVTable

namespace Loans
variable (self : Loans)

def call (c : ForeignCall) : Loans := { self with log := c :: self.log }

/-- `OwnedRaw::drop`. -/
def dropRaw (id : Nat) : Loans := if (self.snapshots[id]?).any VtResourceVTable.release then self.call (.release id) else self

/-- What an adapter asks the nodes of a snapshot. -/
def callNodes (id count : Nat) : Loans := { self with log := List.replicate count (.node id) ++ self.log }

end Loans

/-! ### Capture -/

/-- What a capture returns: the snapshot that it owns, its root and its length, if that is known. -/
structure ResourceDictionary where
  resource : Nat
  root : Nat
  len : Option Nat

/-- How the work on a captured dictionary ends, a check of its fault scope included. -/
inductive Attempt
  | done
  | failed (error : BindingError)
  | panicked

/-- The work on a captured dictionary after the calls so far: how often it asks the nodes, and how it ends. -/
abbrev DictionaryWork := List ForeignCall → ResourceDictionary → Nat × Attempt

namespace ResourceDictionary
variable (abi : InteropAbi) (F : Foreign) (self : Loans)

def status : Option VtStatus → Except BindingError Unit
  | none => .error (.invalidProviderOutput "provider returned an out-of-range status code")
  | some .ok => .ok ()
  | some value => .error (.provider value)

def discoverDictionary (resource : Party) : Option VtResourceVTable → Loans × Except BindingError VtDictionaryVTable
  | none => (self, .error .nullResource)
  | some base =>
    if base.structSize < abi.resourceTableSize ∨ base.abiVersion ≠ abi.abiVersion ∨ base.retain = false ∨ base.release = false ∨
        base.queryInterface = false then (self, .error .incompatibleResourceAbi)
    else
      let (result, interface) := F.queryInterface self.log resource
      (self.call (.queryInterface resource),
        if result = some .unsupported then .error .missingDictionaryInterface
        else do
          status result
          match interface with
          | none => .error (.invalidProviderOutput "query_interface returned null")
          | some table =>
            if table.structSize < abi.dictionaryTableSize ∨ table.interfaceVersion < abi.dictionaryVersion ∨ table.snapshot = false ∨
                table.root = false ∨ table.nodeIsFinal = false ∨ table.nodeEdges = false then .error .incompatibleDictionaryInterface
            else .ok table)

/-- The length of a snapshot, if it is known. -/
def captureLen (id : Nat) (table : VtDictionaryVTable) : Loans × Except BindingError (Option Nat) :=
  if table.len then
    let (result, len, known) := F.len self.log
    (self.call (.len id), do
      status result
      match known with
      | 0 => .ok none
      | 1 => .ok (some len)
      | _ => .error (.invalidProviderOutput "len known flag was not zero or one"))
  else (self, .ok none)

/-- The rest of a capture, once there is a snapshot. -/
def captureSnapshot (id : Nat) : Loans × Except BindingError ResourceDictionary :=
  match discoverDictionary abi F self (.captured id) self.snapshots[id]? with
  | (self, .error e) => (self, .error e)
  | (self, .ok table) =>
    if table.unitDomain ≠ .unicodeScalar then (self, .error (.unitDomainMismatch table.unitDomain))
    else
      let (result, root) := F.root self.log
      let self := self.call (.root id)
      match status result with
      | .error e => (self, .error e)
      | .ok () =>
        let (self, len) := captureLen F self id table
        (self, len.map fun len => ⟨id, root, len⟩)

/-- `DictionaryProvider::capture`. A snapshot that comes with an error is not handed over. -/
def capture : Loans × Except BindingError ResourceDictionary :=
  match discoverDictionary abi F self .caller F.resource with
  | (self, .error e) => (self, .error e)
  | (self, .ok _) =>
    let (result, snapshot) := F.snapshot self.log
    let self := self.call .snapshot
    match status result, snapshot with
    | .error e, _ => (self, .error e)
    | .ok (), none => (self, .error (.invalidProviderOutput "snapshot returned null"))
    | .ok (), some base =>
      let id := self.snapshots.length
      match captureSnapshot abi F { self with snapshots := self.snapshots ++ [base] } id with
      | (self, .error e) => (self.dropRaw id, .error e)
      | (self, .ok provider) => (self, .ok provider)

/-- `create_wfst_configured`, and `create_phonetic_product` and `duallity_fzf_rank_ref` from the capture on. No result is a panic, on
    which the dictionary is dropped as well. -/
def withCaptured (build : DictionaryWork) : Loans × Option (Except BindingError ResourceDictionary) :=
  match capture abi F self with
  | (self, .error e) => (self, some (.error e))
  | (self, .ok dictionary) =>
    let (count, attempt) := build self.log dictionary
    let self := self.callNodes dictionary.resource count
    match attempt with
    | .done => (self, some (.ok dictionary))
    | .failed e => (self.dropRaw dictionary.resource, some (.error e))
    | .panicked => (self.dropRaw dictionary.resource, none)

end ResourceDictionary

/-! ### What calls do with a snapshot -/

namespace Loans
variable {s : Loans} {owned : Set Nat} {id : Nat}

/-- The snapshots that are owned have not been released; the others have, if they can be. -/
def Kept (s : Loans) (owned : Set Nat) : Prop :=
  Custody.Kept ForeignCall.snapshot? ForeignCall.releases s.log (Set.Iio s.snapshots.length) owned
    {i | (s.snapshots[i]?).any VtResourceVTable.release = true}

theorem Kept.call {c : ForeignCall} (h : s.Kept owned) (hreleases : c.releases = false) (hc : ∀ i, c.snapshot? = some i → i ∈ owned) :
    (s.call c).Kept owned := h.use hreleases hc

theorem Kept.callNodes {count : Nat} (h : s.Kept owned) (hid : id ∈ owned) : (s.callNodes id count).Kept owned := by
  have hcalls : ∀ c ∈ List.replicate count (ForeignCall.node id), c = .node id := fun c hc => List.eq_of_mem_replicate hc
  refine h.use_all (fun c hc => ?_) fun c hc i hi => ?_
  · rw [hcalls c hc]
    rfl
  · rw [hcalls c hc] at hi
    exact Option.some.inj hi ▸ hid

/-- A snapshot that is dropped by its only owner is released, if it can be. -/
theorem Kept.dropRaw (h : s.Kept (insert id owned)) (hid : id ∉ owned) : (s.dropRaw id).Kept owned := by
  unfold Loans.dropRaw
  split
  · exact h.end hid rfl rfl
  · rename_i hrelease
    exact h.giveUp hrelease

theorem Kept.push (h : s.Kept owned) (base : VtResourceVTable) :
    Kept { s with snapshots := s.snapshots ++ [base] } (insert s.snapshots.length owned) := by
  have hopened : Set.Iio (s.snapshots ++ [base]).length = insert s.snapshots.length (Set.Iio s.snapshots.length) := by
    ext i
    rw [List.length_append, List.length_singleton, Set.mem_insert_iff, Set.mem_Iio, Set.mem_Iio]
    omega
  unfold Kept
  rw [hopened]
  refine Custody.Kept.open h (fun hmem => lt_irrefl _ (Set.mem_Iio.mp hmem)) fun j hj => ?_
  have hget : (s.snapshots ++ [base])[j]? = s.snapshots[j]? := List.getElem?_append_left (Set.mem_Iio.mp hj)
  simp [hget]

theorem Kept.lt (h : s.Kept owned) (hid : id ∈ owned) : id < s.snapshots.length := Set.mem_Iio.mp (h.owned_opened hid)

@[simp] theorem snapshots_call {c : ForeignCall} : (s.call c).snapshots = s.snapshots := rfl

@[simp] theorem snapshots_callNodes {count : Nat} : (s.callNodes id count).snapshots = s.snapshots := rfl

@[simp] theorem snapshots_dropRaw : (s.dropRaw id).snapshots = s.snapshots := by
  unfold Loans.dropRaw
  split <;> rfl

end Loans

namespace ResourceDictionary
variable {abi : InteropAbi} {F : Foreign} {s s' : Loans} {owned : Set Nat} {id : Nat}

theorem discoverDictionary_kept {resource : Party} {base : Option VtResourceVTable} {result : Except BindingError VtDictionaryVTable}
    (h : s.Kept owned) (hresource : ∀ i, resource.snapshot? = some i → i ∈ owned)
    (hrun : discoverDictionary abi F s resource base = (s', result)) : s'.Kept owned ∧ s'.snapshots = s.snapshots := by
  unfold discoverDictionary at hrun
  split at hrun
  · cases hrun
    exact ⟨h, rfl⟩
  · split at hrun
    · cases hrun
      exact ⟨h, rfl⟩
    · cases hrun
      exact ⟨h.call rfl hresource, rfl⟩

theorem captureLen_kept {table : VtDictionaryVTable} {result : Except BindingError (Option Nat)} (h : s.Kept owned) (hid : id ∈ owned)
    (hrun : captureLen F s id table = (s', result)) : s'.Kept owned ∧ s'.snapshots = s.snapshots := by
  unfold captureLen at hrun
  split at hrun
  · cases hrun
    exact ⟨h.call rfl fun i hi => Option.some.inj hi ▸ hid, rfl⟩
  · cases hrun
    exact ⟨h, rfl⟩

/-- A capture calls the snapshot only while it owns it. -/
theorem captureSnapshot_kept {result : Except BindingError ResourceDictionary} (h : s.Kept owned) (hid : id ∈ owned)
    (hrun : captureSnapshot abi F s id = (s', result)) :
    s'.Kept owned ∧ s'.snapshots = s.snapshots ∧ ∀ provider, result = .ok provider → provider.resource = id := by
  have hresource : ∀ i, Party.snapshot? (.captured id) = some i → i ∈ owned := fun i hi => Option.some.inj hi ▸ hid
  unfold captureSnapshot at hrun
  split at hrun
  · rename_i e hdiscover
    cases hrun
    obtain ⟨hkept, hsnapshots⟩ := discoverDictionary_kept h hresource hdiscover
    exact ⟨hkept, hsnapshots, nofun⟩
  · rename_i s₁ table hdiscover
    obtain ⟨hkept, hsnapshots⟩ := discoverDictionary_kept h hresource hdiscover
    split at hrun
    · cases hrun
      exact ⟨hkept, hsnapshots, nofun⟩
    · have hroot : (s₁.call (.root id)).Kept owned := hkept.call rfl fun i hi => Option.some.inj hi ▸ hid
      dsimp only at hrun
      split at hrun
      · cases hrun
        exact ⟨hroot, hsnapshots, nofun⟩
      · rcases hlen : captureLen F (s₁.call (.root id)) id table with ⟨s₂, len⟩
        rw [hlen] at hrun
        obtain ⟨hkept', hsnapshots'⟩ := captureLen_kept hroot hid hlen
        cases hrun
        refine ⟨hkept', hsnapshots'.trans hsnapshots, fun provider hprovider => ?_⟩
        cases len with
        | error e => cases hprovider
        | ok len =>
          cases hprovider
          rfl

/-- A capture that fails owns nothing more; otherwise it owns a snapshot that is new. -/
theorem capture_kept {result : Except BindingError ResourceDictionary} (h : s.Kept owned) (hrun : capture abi F s = (s', result)) :
    (∀ e, result = .error e → s'.Kept owned ∧ s.snapshots.length ≤ s'.snapshots.length) ∧
    ∀ provider, result = .ok provider → s'.Kept (insert provider.resource owned) ∧ provider.resource = s.snapshots.length ∧
      s'.snapshots.length = s.snapshots.length + 1 := by
  have hcaller : ∀ i, Party.snapshot? .caller = some i → i ∈ owned := nofun
  unfold capture at hrun
  split at hrun
  · rename_i hdiscover
    cases hrun
    obtain ⟨hkept, hsnapshots⟩ := discoverDictionary_kept h hcaller hdiscover
    exact ⟨fun _ _ => ⟨hkept, (congrArg List.length hsnapshots).ge⟩, nofun⟩
  · rename_i s₁ table hdiscover
    obtain ⟨hkept, hsnapshots⟩ := discoverDictionary_kept h hcaller hdiscover
    have hasked : (s₁.call .snapshot).Kept owned := hkept.call rfl nofun
    dsimp only at hrun
    split at hrun
    · cases hrun
      exact ⟨fun _ _ => ⟨hasked, (congrArg List.length hsnapshots).ge⟩, nofun⟩
    · cases hrun
      exact ⟨fun _ _ => ⟨hasked, (congrArg List.length hsnapshots).ge⟩, nofun⟩
    · rename_i base _ _
      have hpushed := hasked.push base
      have hnew : s₁.snapshots.length ∉ owned := fun hmem => lt_irrefl _ (hasked.lt hmem)
      split at hrun
      · rename_i s₂ e hcapture
        obtain ⟨hkept', hsnapshots', -⟩ := captureSnapshot_kept hpushed (Set.mem_insert _ _) hcapture
        cases hrun
        refine ⟨fun _ _ => ⟨hkept'.dropRaw hnew, ?_⟩, nofun⟩
        simp [hsnapshots', ← hsnapshots]
      · rename_i s₂ provider hcapture
        obtain ⟨hkept', hsnapshots', hresource⟩ := captureSnapshot_kept hpushed (Set.mem_insert _ _) hcapture
        cases hrun
        refine ⟨nofun, fun provider' heq => ?_⟩
        cases heq
        rw [hresource provider rfl]
        refine ⟨hkept', ?_, ?_⟩
        · simp [← hsnapshots]
        · simp [hsnapshots', ← hsnapshots]

/-- Work that does not end well releases the snapshot it has captured. -/
theorem withCaptured_kept {build : DictionaryWork} {result : Option (Except BindingError ResourceDictionary)} (h : s.Kept owned)
    (hrun : withCaptured abi F s build = (s', result)) : s.snapshots.length ≤ s'.snapshots.length ∧
    ((∀ provider, result ≠ some (.ok provider)) → s'.Kept owned) ∧
    ∀ provider, result = some (.ok provider) → s'.Kept (insert provider.resource owned) ∧ provider.resource = s.snapshots.length ∧
      s'.snapshots.length = s.snapshots.length + 1 := by
  unfold withCaptured at hrun
  split at hrun
  · rename_i s₁ e hcapture
    obtain ⟨hkept, hle⟩ := (capture_kept h hcapture).1 e rfl
    cases hrun
    exact ⟨hle, fun _ => hkept, nofun⟩
  · rename_i s₁ dictionary hcapture
    obtain ⟨hkept, hresource, hlength⟩ := (capture_kept h hcapture).2 dictionary rfl
    have hnew : dictionary.resource ∉ owned := fun hmem => (h.lt hmem).ne hresource
    have hasked : ∀ count, (s₁.callNodes dictionary.resource count).Kept (insert dictionary.resource owned) := fun count =>
      hkept.callNodes (Set.mem_insert _ _)
    dsimp only at hrun
    split at hrun
    · cases hrun
      refine ⟨by simp [hlength], fun hne => absurd rfl (hne dictionary), fun provider heq => ?_⟩
      cases heq
      exact ⟨hasked _, hresource, hlength⟩
    · cases hrun
      exact ⟨by simp [hlength], fun _ => (hasked _).dropRaw hnew, nofun⟩
    · cases hrun
      exact ⟨by simp [hlength], fun _ => (hasked _).dropRaw hnew, nofun⟩

end ResourceDictionary

end Duallity
