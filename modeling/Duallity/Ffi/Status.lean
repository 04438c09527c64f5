import Mathlib.Init

/-! Statuses of the C boundary (`ffi.rs`). -/

namespace Duallity

inductive DuallityStatus where
  | ok
  | invalidArgument
  | invalidUtf8
  | nullPointer
  | panic
  | incompatibleResource
  | providerError
  | limitExceeded
deriving DecidableEq, Repr

/-- A status, and the text that `set_error` keeps for it. -/
structure Rejection where
  status : DuallityStatus
  message : String
deriving DecidableEq, Repr

def reject {α : Type} (status : DuallityStatus) (message : String) : Except Rejection α := .error ⟨status, message⟩

/-- `if bad { return Err(reject(..)) }`. -/
def rejectIf (bad : Prop) [Decidable bad] (status : DuallityStatus) (message : String) : Except Rejection Unit :=
  if bad then reject status message else .ok ()

/-- `ok_or_else(|| reject(..))`. -/
def okOrReject {α : Type} (value : Option α) (status : DuallityStatus) (message : String) : Except Rejection α :=
  match value with
  | some value => .ok value
  | none => reject status message

/-- The status of an operation; `none` is a caught panic. -/
def boundary {α : Type} : Option (Except Rejection α) → DuallityStatus
  | some (.ok _) => .ok
  | some (.error rejection) => rejection.status
  | none => .panic

/-! ### When a checked computation goes through -/

section Checks
variable {α β : Type} {status : DuallityStatus} {message : String}

@[simp] theorem reject_ne_ok {value : α} : ¬reject status message = .ok value := by simp [reject]

@[simp] theorem rejectIf_eq_ok {bad : Prop} [Decidable bad] {u : Unit} : rejectIf bad status message = .ok u ↔ ¬bad := by
  by_cases h : bad <;> simp [rejectIf, h]

@[simp] theorem okOrReject_eq_ok {value : Option α} {result : α} :
    okOrReject value status message = .ok result ↔ value = some result := by
  cases value <;> simp [okOrReject]

@[simp] theorem bind_eq_ok {x : Except Rejection α} {f : α → Except Rejection β} {result : β} :
    x >>= f = .ok result ↔ ∃ value, x = .ok value ∧ f value = .ok result := by
  cases x <;> simp [bind, Except.bind]

@[simp] theorem pure_eq_ok {value result : α} : (pure value : Except Rejection α) = .ok result ↔ value = result := by
  simp [pure, Except.pure]

end Checks

end Duallity
