import Duallity.Ffi.Inspection
import Mathlib.Data.List.Perm.Subperm
import Mathlib.Algebra.Order.BigOperators.Group.List

/-! What accepted options contain. Every operation that parsing accepts fits conditions which name no memory; building and
    parsing back start from them. -/

namespace Duallity
variable {S : Type}

/-! ### Contents of substitution sets -/

/-- The bytes of an inserted pair. -/
def pairBytes (pair : String × String) : List UInt8 × List UInt8 := (utf8Bytes pair.1, utf8Bytes pair.2)

def pairLength (pair : String × String) : Nat := (utf8Bytes pair.1).length + (utf8Bytes pair.2).length

namespace SubstitutionLibrary

def insertAll (lib : SubstitutionLibrary S) (set : S) (inserted : List (String × String)) : S :=
  inserted.foldl (fun set pair => lib.allowStr set pair.1 pair.2) set

def listed (lib : SubstitutionLibrary S) (set : S) : List (List UInt8 × List UInt8) :=
  (lib.pairs set).map SubstitutionPair.texts

/-- `pairs` lists exactly the inserted pairs, with duplicates coalesced. -/
structure Lists (lib : SubstitutionLibrary S) : Prop where
  nodup : ∀ capacity inserted, (lib.listed (lib.insertAll (lib.withCapacity capacity) inserted)).Nodup
  mem : ∀ capacity inserted texts,
    texts ∈ lib.listed (lib.insertAll (lib.withCapacity capacity) inserted) ↔ ∃ pair ∈ inserted, pairBytes pair = texts

/-- Restriction sets are compared by the pairs that they list. -/
def SameApplicability (lib : SubstitutionLibrary S) : OperationApplicability S → OperationApplicability S → Prop
  | .any, .any => True
  | .equal, .equal => True
  | .adjacentTranspose, .adjacentTranspose => True
  | .listed set, .listed set' => ∀ texts, texts ∈ lib.listed set ↔ texts ∈ lib.listed set'
  | _, _ => False

structure SameOperation (lib : SubstitutionLibrary S) (operation operation' : OwnedOperationType S) : Prop where
  name : operation'.name = operation.name
  consumeX : operation'.consumeX = operation.consumeX
  consumeY : operation'.consumeY = operation.consumeY
  weight : operation'.weight = operation.weight
  applicability : lib.SameApplicability operation.applicability operation'.applicability

/-- Validation accepts a set of operations for what its operations say. -/
def ValidatesContents (lib : SubstitutionLibrary S) : Prop :=
  ∀ operations operations', List.Forall₂ lib.SameOperation operations operations' →
    lib.validate operations = .ok () → lib.validate operations' = .ok ()

end SubstitutionLibrary

/-! ### Conditions on an operation -/

structure PairFits (consumeX consumeY : Nat) (pair : String × String) : Prop where
  source : pair.1.length = consumeX ∧ utf8Bytes pair.1 ≠ []
  target : pair.2.length = consumeY ∧ utf8Bytes pair.2 ≠ []

/-- The applicability stands for the pairs `inserted`. -/
def Admits (lib : SubstitutionLibrary S) (consumeX consumeY : Nat) (inserted : List (String × String)) :
    OperationApplicability S → Prop
  | .any => inserted = []
  | .equal => inserted = [] ∧ consumeX = consumeY
  | .adjacentTranspose => inserted = [] ∧ consumeX = 2 ∧ consumeY = 2
  | .listed set => inserted ≠ [] ∧ (∃ capacity, set = lib.insertAll (lib.withCapacity capacity) inserted) ∧
      ∀ pair ∈ inserted, PairFits consumeX consumeY pair

structure OperationFits (lib : SubstitutionLibrary S) (operation : OwnedOperationType S) (inserted : List (String × String)) :
    Prop where
  consumed : operation.consumeX + operation.consumeY ≠ 0
  finite : operation.weight.isFinite = true
  nonnegative : operation.weight.isNegative = false
  zeroCost : operation.weight.isZero = true → operation.consumeX = operation.consumeY
  name : utf8Bytes operation.name ≠ [] ∧ (utf8Bytes operation.name).length ≤ 1024 ∧ 0 ∉ utf8Bytes operation.name
  applicability : Admits lib operation.consumeX operation.consumeY inserted operation.applicability

namespace OperationProgress

def add (progress : OperationProgress S) (operation : OwnedOperationType S) (inserted : List (String × String)) :
    OperationProgress S :=
  ⟨progress.totalTextBytes + (utf8Bytes operation.name).length + (inserted.map pairLength).sum,
    progress.totalPairs + inserted.length, progress.totalConsumption + (operation.consumeX + operation.consumeY),
    progress.operations ++ [operation]⟩

structure WithinLimits (progress : OperationProgress S) : Prop where
  text : progress.totalTextBytes ≤ configMaxCustomTextBytes
  pairs : progress.totalPairs ≤ configMaxRestrictionPairs
  consumption : progress.totalConsumption ≤ configMaxOperations

/-- No total is larger. -/
structure TotalsLe (progress progress' : OperationProgress S) : Prop where
  text : progress.totalTextBytes ≤ progress'.totalTextBytes
  pairs : progress.totalPairs ≤ progress'.totalPairs
  consumption : progress.totalConsumption ≤ progress'.totalConsumption

theorem TotalsLe.withinLimits {progress progress' : OperationProgress S} (h : progress.TotalsLe progress')
    (hlimits : progress'.WithinLimits) : progress.WithinLimits :=
  ⟨h.text.trans hlimits.text, h.pairs.trans hlimits.pairs, h.consumption.trans hlimits.consumption⟩

theorem TotalsLe.trans {progress progress' progress'' : OperationProgress S} (h : progress.TotalsLe progress')
    (h' : progress'.TotalsLe progress'') : progress.TotalsLe progress'' :=
  ⟨h.text.trans h'.text, h.pairs.trans h'.pairs, h.consumption.trans h'.consumption⟩

theorem le_add (progress : OperationProgress S) (operation : OwnedOperationType S) (inserted : List (String × String)) :
    progress.TotalsLe (progress.add operation inserted) := by
  constructor <;> simp [add, Nat.add_assoc]

/-- After operations with the pairs that they list. -/
def addAll (progress : OperationProgress S) (added : List (OwnedOperationType S × List (String × String))) :
    OperationProgress S :=
  added.foldl (fun progress entry => progress.add entry.1 entry.2) progress

theorem le_addAll (progress : OperationProgress S) (added : List (OwnedOperationType S × List (String × String))) :
    progress.TotalsLe (progress.addAll added) := by
  induction added generalizing progress with
  | nil => exact ⟨le_rfl, le_rfl, le_rfl⟩
  | cons entry added ih => exact (progress.le_add entry.1 entry.2).trans (ih _)

theorem operations_addAll (progress : OperationProgress S) (added : List (OwnedOperationType S × List (String × String))) :
    (progress.addAll added).operations = progress.operations ++ added.map Prod.fst := by
  induction added generalizing progress with
  | nil => simp [addAll]
  | cons entry added ih =>
    have := ih (progress.add entry.1 entry.2)
    simpa [addAll, add] using this

end OperationProgress

/-! ### What parsing accepts -/

namespace Config
open OperationProgress
variable {lib : SubstitutionLibrary S} {memory : Memory}

theorem parseRestriction_ok {operation : DuallityOperationV1} {consumeX consumeY pairIndex : Nat} {progress result : S × Nat}
    (h : parseRestriction lib memory operation consumeX consumeY progress pairIndex = .ok result) :
    ∃ pair, PairFits consumeX consumeY pair ∧ result.1 = lib.allowStr progress.1 pair.1 pair.2 ∧
      result.2 = progress.2 + pairLength pair ∧ result.2 ≤ configMaxCustomTextBytes := by
  simp only [parseRestriction, Access.parseRestriction, Traced.result_bind, Traced.result_lift, Traced.result_pure,
    Access.result_arrayElement, Access.result_record, Access.result_utf8, pure_bind, bind_eq_ok, rejectIf_eq_ok, pure_eq_ok, utf8_eq_ok,
    not_or, not_not] at h
  obtain ⟨record, -, -, -, source, ⟨-, ⟨hs, hs'⟩, ⟨hst, -⟩, -⟩, target, ⟨-, ⟨ht, ht'⟩, ⟨htt, hmax⟩, -⟩, -, ⟨hx, hy⟩, rfl⟩ := h
  refine ⟨(source.1, target.1), ⟨⟨hx, hs'⟩, hy, ht'⟩, rfl, ?_, hmax⟩
  simp [pairLength, htt, hst, hs, ht, Nat.add_assoc]

/-- The pairs that a run over restriction records inserts. -/
theorem parseRestrictions_ok {operation : DuallityOperationV1} {consumeX consumeY : Nat} {indices : List Nat}
    {progress result : S × Nat} (hmax : progress.2 ≤ configMaxCustomTextBytes)
    (h : indices.foldlM (parseRestriction lib memory operation consumeX consumeY) progress = .ok result) :
    ∃ inserted, inserted.length = indices.length ∧ (∀ pair ∈ inserted, PairFits consumeX consumeY pair) ∧
      result.1 = lib.insertAll progress.1 inserted ∧ result.2 = progress.2 + (inserted.map pairLength).sum ∧
      result.2 ≤ configMaxCustomTextBytes := by
  induction indices generalizing progress with
  | nil =>
    simp only [List.foldlM_nil, pure_eq_ok] at h
    subst h
    exact ⟨[], by simp [SubstitutionLibrary.insertAll, hmax]⟩
  | cons index indices ih =>
    simp only [List.foldlM_cons, bind_eq_ok] at h
    obtain ⟨next, hnext, hrest⟩ := h
    obtain ⟨pair, hpair, hset, htotal, hle⟩ := parseRestriction_ok hnext
    obtain ⟨inserted, hlen, hfits, hset', htotal', hle'⟩ := ih hle hrest
    refine ⟨pair :: inserted, by simp [hlen], List.forall_mem_cons.mpr ⟨hpair, hfits⟩, ?_, ?_, hle'⟩
    · rw [hset', hset]
      rfl
    · simp [htotal', htotal, Nat.add_assoc]

theorem parseApplicability_ok {operation : DuallityOperationV1} {index consumeX consumeY pairCount totalTextBytes : Nat}
    {result : OperationApplicability S × Nat} (hmax : totalTextBytes ≤ configMaxCustomTextBytes)
    (h : parseApplicability lib memory operation index consumeX consumeY pairCount totalTextBytes = .ok result) :
    ∃ inserted, inserted.length = pairCount ∧ Admits lib consumeX consumeY inserted result.1 ∧
      result.2 = totalTextBytes + (inserted.map pairLength).sum ∧ result.2 ≤ configMaxCustomTextBytes := by
  simp only [parseApplicability, Access.parseApplicability, Traced.result_ite, Traced.result_bind, Traced.result_lift, Traced.result_pure,
    Traced.result_foldlM, Access.result_parseRestriction] at h
  split at h
  · rename_i hcond
    cases h
    exact ⟨[], by simp [Admits, hcond.2, hmax]⟩
  split at h
  · rename_i hcond
    cases h
    exact ⟨[], by simp [Admits, hcond.2, hmax]⟩
  split at h
  · rename_i hcond
    cases h
    exact ⟨[], by simp [Admits, hcond.2, hmax]⟩
  split at h
  · rename_i hcond
    simp only [bind_eq_ok, pure_eq_ok] at h
    obtain ⟨parsed, hparsed, rfl⟩ := h
    obtain ⟨inserted, hlen, hfits, hset, htotal, hle⟩ := parseRestrictions_ok hmax hparsed
    rw [List.length_range'] at hlen
    refine ⟨inserted, hlen, ⟨?_, ⟨pairCount, hset⟩, hfits⟩, htotal, hle⟩
    rintro rfl
    exact (Nat.lt_irrefl 0) (by simpa [← hlen] using hcond.2)
  · exact absurd h reject_ne_ok

theorem parseOperation_ok {operations : Pointer} {stride index : Nat} {progress result : OperationProgress S}
    (h : parseOperation lib memory operations stride progress index = .ok result) :
    ∃ operation inserted, OperationFits lib operation inserted ∧ result = progress.add operation inserted ∧
      result.WithinLimits := by
  simp only [parseOperation, Access.parseOperation, Traced.result_bind, Traced.result_lift, Traced.result_pure,
    Access.result_arrayElement, Access.result_record, Access.result_utf8, Access.result_parseApplicability, pure_bind, bind_eq_ok,
    rejectIf_eq_ok, integer_eq_ok, okOrReject_eq_ok, pure_eq_ok, checkedAdd_eq_some, utf8_eq_ok, arrayShape_eq_ok, not_or, not_lt,
    not_not, not_and] at h
  obtain ⟨record, -, -, -, x, ⟨rfl, -⟩, y, ⟨rfl, -⟩, _, ⟨rfl, -⟩, _, ⟨rfl, -⟩, -, hwidth, -, ⟨hconsumed, hfinite, hneg⟩, -,
    hzero, name, ⟨-, ⟨hname, hname'⟩, ⟨htext, hmax⟩, -⟩, -, ⟨hlong, hnul⟩, _, ⟨rfl, -⟩, _, ⟨rfl, -⟩, -, hpairs, applicability,
    happ, rfl⟩ := h
  obtain ⟨inserted, hlen, hadmits, htotal, hle⟩ := parseApplicability_ok hmax happ
  refine ⟨⟨_, _, _, applicability.1, name.1⟩, inserted, ⟨hconsumed, hfinite, by simpa using hneg, hzero,
    ⟨hname', hlong, hnul⟩, hadmits⟩, ?_, hle, hpairs, hwidth⟩
  simp [add, htotal, htext, hlen, hname]

/-- The operations that a run over operation records adds. -/
theorem parseOperations_ok {operations : Pointer} {stride : Nat} {indices : List Nat} {progress result : OperationProgress S}
    (hlimits : progress.WithinLimits)
    (h : indices.foldlM (parseOperation lib memory operations stride) progress = .ok result) :
    ∃ added, added.length = indices.length ∧ (∀ entry ∈ added, OperationFits lib entry.1 entry.2) ∧
      result = progress.addAll added ∧ result.WithinLimits := by
  induction indices generalizing progress with
  | nil =>
    simp only [List.foldlM_nil, pure_eq_ok] at h
    subst h
    exact ⟨[], rfl, by simp, rfl, hlimits⟩
  | cons index indices ih =>
    simp only [List.foldlM_cons, bind_eq_ok] at h
    obtain ⟨next, hnext, hrest⟩ := h
    obtain ⟨operation, inserted, hfits, rfl, hnext⟩ := parseOperation_ok hnext
    obtain ⟨added, hlen, hadded, hresult, hle⟩ := ih hnext hrest
    exact ⟨(operation, inserted) :: added, by simp [hlen], List.forall_mem_cons.mpr ⟨hfits, hadded⟩, hresult, hle⟩

end Config

end Duallity
