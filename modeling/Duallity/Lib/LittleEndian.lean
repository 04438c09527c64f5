import Mathlib.Algebra.Group.Nat.Defs
import Mathlib.Data.Nat.Basic
import Mathlib.Data.List.Basic

/-! Numbers as bytes, the least significant first. -/

/-- The bytes of a number in a given width. -/
def leBytes : Nat → Nat → List Nat
  | 0, _ => []
  | width + 1, n => n % 256 :: leBytes width (n / 256)

namespace LittleEndian
variable {width n m : Nat}

@[simp] theorem length_leBytes : (leBytes width n).length = width := by
  induction width generalizing n with
  | zero => rfl
  | succ width ih => simp [leBytes, ih]

theorem leBytes_injective (hn : n < 256 ^ width) (hm : m < 256 ^ width) (h : leBytes width n = leBytes width m) : n = m := by
  induction width generalizing n m with
  | zero => simp_all
  | succ width ih =>
    obtain ⟨hmod, hrest⟩ := List.cons.inj h
    rw [Nat.pow_succ] at hn hm
    have hdiv := ih (Nat.div_lt_of_lt_mul (by rwa [Nat.mul_comm])) (Nat.div_lt_of_lt_mul (by rwa [Nat.mul_comm])) hrest
    calc n = 256 * (n / 256) + n % 256 := (Nat.div_add_mod n 256).symm
      _ = 256 * (m / 256) + m % 256 := by rw [hdiv, hmod]
      _ = m := Nat.div_add_mod m 256

/-- Numbers in a width, one after the other, are told by their bytes. -/
theorem flatMap_leBytes_injective {l l' : List Nat} (hl : ∀ n ∈ l, n < 256 ^ width) (hl' : ∀ n ∈ l', n < 256 ^ width)
    (hlength : l.length = l'.length) (h : l.flatMap (leBytes width) = l'.flatMap (leBytes width)) : l = l' := by
  induction l generalizing l' with
  | nil => exact (List.length_eq_zero_iff.mp hlength.symm).symm
  | cons n l ih =>
    cases l' with
    | nil => cases hlength
    | cons m l' =>
      obtain ⟨hn, hl⟩ := List.forall_mem_cons.mp hl
      obtain ⟨hm, hl'⟩ := List.forall_mem_cons.mp hl'
      obtain ⟨hhead, htail⟩ := List.append_inj h (by rw [length_leBytes, length_leBytes])
      rw [leBytes_injective hn hm hhead, ih hl hl' (Nat.succ.inj hlength) htail]

end LittleEndian
