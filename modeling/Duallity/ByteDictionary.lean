import Duallity.TrieDictionary
import Mathlib

/-! Dictionaries of bytes. Their terms are stored in UTF-8, and `u8` converts to the character of the same code point. -/

namespace Duallity

theorem toNat_ofUInt8 (byte : UInt8) : (Char.ofUInt8 byte).toNat = byte.toNat := by
  simp [Char.ofUInt8, Char.toNat]

/-- `char::from(u8)`, and `u8::try_from(char)`. -/
instance : CharUnit UInt8 where
  toChar byte := Char.ofUInt8 byte
  ofChar? c := if c.toNat < 256 then some (UInt8.ofNat c.toNat) else none
  ofChar?_eq_some := by
    intro c byte
    rw [Option.ite_none_right_eq_some]
    refine ⟨?_, ?_⟩
    · rintro ⟨hlt, h⟩
      obtain rfl := Option.some.inj h
      refine Char.toNat_inj.mp ?_
      rw [toNat_ofUInt8, UInt8.toNat_ofNat', Nat.mod_eq_of_lt hlt]
    · rintro rfl
      rw [toNat_ofUInt8]
      exact ⟨byte.toNat_lt, by rw [UInt8.ofNat_toNat]⟩

/-- The characters that the bytes of a term convert to. -/
def byteLabels (term : List Char) : List Char := term.flatMap fun c => (String.utf8EncodeChar c).map CharUnit.toChar

def IsAscii (term : List Char) : Prop := ∀ c ∈ term, c.toNat < 128

instance (term : List Char) : Decidable (IsAscii term) := List.decidableBAll (fun c : Char => c.toNat < 128) term

theorem byteLabels_cons (c : Char) (term : List Char) :
    byteLabels (c :: term) = (String.utf8EncodeChar c).map CharUnit.toChar ++ byteLabels term := List.flatMap_cons

/-- An ASCII term has one byte for each character. -/
theorem byteLabels_of_isAscii {term : List Char} (h : IsAscii term) : byteLabels term = term := by
  induction term with
  | nil => rfl
  | cons c term ih =>
    have hc : c.val.toNat < 128 := h c List.mem_cons_self
    have hbyte : (String.utf8EncodeChar c).map CharUnit.toChar = [c] := by
      have hle : c.val.toNat ≤ 127 := Nat.le_of_lt_succ hc
      have hchar : CharUnit.ofChar? c = some (UInt8.ofNat c.toNat) := if_pos (by exact hc.trans (by decide))
      rw [String.utf8EncodeChar]
      simp only [if_pos hle, List.map_cons, List.map_nil]
      exact congrArg (fun d => [d]) (CharUnit.ofChar?_eq_some.mp hchar)
    rw [byteLabels_cons, hbyte, ih fun d hd => h d (List.mem_cons_of_mem c hd)]
    rfl

/-! ### The bytes of a dictionary -/

namespace Dictionary
variable {N U : Type} [CharUnit U]

/-- A dictionary of characters as one of other units: the edges whose labels are units. -/
def withUnits (U : Type) [CharUnit U] (D : Dictionary N Char) : Dictionary N U where
  root := D.root
  isFinal := D.isFinal
  edges n := (D.edges n).filterMap fun e => (CharUnit.ofChar? e.1).map fun unit => (unit, e.2)
  hasEdge n unit := D.hasEdge n (CharUnit.toChar unit)
  edgeCount _ := none

variable {D : Dictionary N Char} {n m : N} {c : Char} {p : List Char}

theorem withUnits_step? : (D.withUnits U).step? n c = if (CharUnit.ofChar? (U := U) c).isSome then D.step? n c else none := by
  unfold step? withUnits
  dsimp only
  induction D.edges n with
  | nil => simp
  | cons e es ih =>
    have hchar : CharUnit.toChar e.1 = e.1 := rfl
    cases hunit : CharUnit.ofChar? (U := U) e.1 with
    | none =>
      rw [List.filterMap_cons_none (by rw [hunit]; rfl), ih, List.find?_cons, hchar]
      by_cases heq : e.1 = c
      · obtain rfl := heq
        simp [hunit]
      · have hne : (e.1 == c) = false := by simpa using heq
        rw [hne]
    | some unit =>
      have hlabel : CharUnit.toChar unit = e.1 := CharUnit.ofChar?_eq_some.mp hunit
      rw [List.filterMap_cons_some (by rw [hunit]; rfl), List.find?_cons, List.find?_cons, hchar, hlabel]
      by_cases heq : e.1 = c
      · obtain rfl := heq
        simp [hunit]
      · have hne : (e.1 == c) = false := by simpa using heq
        rw [hne, ih]

theorem withUnits_node? : (D.withUnits U).node? p =
    if ∀ c ∈ p, (CharUnit.ofChar? (U := U) c).isSome then D.node? p else none := by
  induction p using List.reverseRecOn with
  | nil => simp [withUnits]
  | append_singleton p c ih =>
    have hstep : (fun m => (D.withUnits U).step? m c) = fun m =>
        if (CharUnit.ofChar? (U := U) c).isSome then D.step? m c else none := funext fun _ => withUnits_step?
    simp only [node?_snoc, ih, hstep, List.forall_mem_append, List.forall_mem_singleton]
    by_cases hp : ∀ c ∈ p, (CharUnit.ofChar? (U := U) c).isSome
    · by_cases hc : (CharUnit.ofChar? (U := U) c).isSome
      · simp only [if_pos hp, if_pos hc, if_pos (And.intro hp hc)]
      · simp [hc]
    · simp [hp]

theorem mem_words_withUnits : p ∈ (D.withUnits U).words ↔ p ∈ D.words ∧ ∀ c ∈ p, (CharUnit.ofChar? (U := U) c).isSome := by
  simp only [words, Set.mem_ofPred, withUnits_node?]
  by_cases hp : ∀ c ∈ p, (CharUnit.ofChar? (U := U) c).isSome
  · simp only [if_pos hp, and_iff_left hp]
    rfl
  · simp [hp]

theorem prefixes_withUnits_subset : (D.withUnits U).prefixes ⊆ D.prefixes := by
  intro p hp
  simp only [prefixes, Set.mem_ofPred, withUnits_node?] at hp ⊢
  split at hp
  · exact hp
  · cases hp

end Dictionary

/-- A finite dictionary of characters as one of other units. -/
def FiniteDictionary.withUnits {N : Type} (U : Type) [CharUnit U] (D : FiniteDictionary N Char) : FiniteDictionary N U where
  toDictionary := D.toDictionary.withUnits U
  labels_nodup n := by
    refine (D.labels_nodup n).sublist ?_
    simp only [Dictionary.withUnits]
    induction D.edges n with
    | nil => exact .slnil
    | cons e es ih =>
      cases hunit : CharUnit.ofChar? (U := U) e.1 with
      | none =>
        rw [List.filterMap_cons_none (by rw [hunit]; rfl), List.map_cons]
        exact ih.cons _
      | some unit =>
        have hlabel : CharUnit.toChar unit = e.1 := CharUnit.ofChar?_eq_some.mp hunit
        rw [List.filterMap_cons_some (by rw [hunit]; rfl), List.map_cons, List.map_cons, hlabel]
        exact ih.cons_cons _
  hasEdge_iff n unit := by
    have hedge : D.hasEdge n (CharUnit.toChar unit) = true ↔ _ := D.hasEdge_iff n (CharUnit.toChar unit)
    refine hedge.trans (exists_congr fun m => ?_)
    simp only [Dictionary.withUnits, List.mem_filterMap, Option.map_eq_some_iff, CharUnit.ofChar?_eq_some, Prod.mk.injEq]
    refine ⟨fun h => ⟨_, h, unit, rfl, rfl, rfl⟩, ?_⟩
    rintro ⟨e, he, _, hlabel, rfl, rfl⟩
    exact hlabel ▸ he
  edgeCount_eq n c h := by cases h
  finite := D.finite.subset Dictionary.prefixes_withUnits_subset

end Duallity
