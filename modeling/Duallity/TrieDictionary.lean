import Duallity.Dictionary
import Mathlib.Data.List.Infix

/-! The dictionary of a list of words, as a trie whose nodes are the prefixes of the words. -/

namespace Duallity.TrieDictionary

/-- The labels below a prefix. -/
def labels (ws : List (List Char)) (p : List Char) : List Char :=
  (ws.filterMap fun w => if p.isPrefixOf w then w[p.length]? else none).dedup

theorem mem_labels {ws : List (List Char)} {p : List Char} {c : Char} :
    c ∈ labels ws p ↔ ∃ w ∈ ws, p ++ [c] <+: w := by
  rw [labels, List.mem_dedup, List.mem_filterMap]
  refine exists_congr fun w => and_congr_right fun _ => ?_
  rw [Option.ite_none_right_eq_some, List.isPrefixOf_iff_prefix]
  constructor
  · rintro ⟨⟨t, rfl⟩, hc⟩
    rw [List.getElem?_append_right le_rfl, Nat.sub_self] at hc
    obtain ⟨t', rfl⟩ : ∃ t', t = c :: t' := by
      cases t with
      | nil => cases hc
      | cons b t' => cases hc; exact ⟨t', rfl⟩
    exact ⟨t', by simp⟩
  · rintro ⟨t, rfl⟩
    exact ⟨⟨c :: t, by simp⟩, by simp⟩

def toDictionary (ws : List (List Char)) : Dictionary (List Char) Char where
  root := []
  isFinal p := decide (p ∈ ws)
  edges p := (labels ws p).map fun c => (c, p ++ [c])
  hasEdge p c := decide (c ∈ labels ws p)
  edgeCount p := some (labels ws p).length

variable {ws : List (List Char)} {p : List Char}

theorem step?_eq_some {m : List Char} {c : Char} :
    (toDictionary ws).step? p c = some m ↔ c ∈ labels ws p ∧ m = p ++ [c] := by
  simp only [Dictionary.step?, toDictionary, List.find?_map, Option.map_eq_some_iff, Function.comp_def,
    CharUnit.toChar]
  constructor
  · rintro ⟨_, ⟨c', h, rfl⟩, rfl⟩
    have hmem := List.mem_of_find?_eq_some h
    have heq : c' = c := by simpa using List.find?_some h
    exact ⟨heq ▸ hmem, by rw [heq]⟩
  · rintro ⟨hc, rfl⟩
    cases h : (labels ws p).find? fun c' => c' == c with
    | none => exact absurd (List.find?_eq_none.mp h c hc) (by simp)
    | some c' =>
      have heq : c' = c := by simpa using List.find?_some h
      exact ⟨_, ⟨c', rfl, rfl⟩, by rw [heq]⟩

theorem node?_eq_some {n : List Char} :
    (toDictionary ws).node? p = some n ↔ n = p ∧ (p = [] ∨ ∃ w ∈ ws, p <+: w) := by
  induction p using List.reverseRecOn generalizing n with
  | nil => simp [toDictionary, eq_comm]
  | append_singleton p c ih =>
    rw [Dictionary.node?_snoc, Option.bind_eq_some_iff]
    constructor
    · rintro ⟨m, hm, hstep⟩
      obtain ⟨rfl, -⟩ := ih.mp hm
      obtain ⟨hc, rfl⟩ := step?_eq_some.mp hstep
      exact ⟨rfl, Or.inr (mem_labels.mp hc)⟩
    · rintro ⟨rfl, h | ⟨w, hw, hp⟩⟩
      · exact absurd h (by simp)
      · exact ⟨p, ih.mpr ⟨rfl, Or.inr ⟨w, hw, (List.prefix_append p [c]).trans hp⟩⟩,
          step?_eq_some.mpr ⟨mem_labels.mpr ⟨w, hw, hp⟩, rfl⟩⟩

theorem mem_prefixes : p ∈ (toDictionary ws).prefixes ↔ p = [] ∨ ∃ w ∈ ws, p <+: w := by
  rw [Dictionary.mem_prefixes]
  simp only [node?_eq_some, exists_eq_left]

theorem prefixes_eq : (toDictionary ws).prefixes = ([] :: ws.flatMap List.inits).toFinset := by
  ext p
  simp [mem_prefixes]

/-- The words of the trie are those of the list. -/
theorem words_eq : (toDictionary ws).words = {w | w ∈ ws} := by
  ext w
  constructor
  · rintro ⟨n, hn, hfinal⟩
    obtain ⟨rfl, -⟩ := node?_eq_some.mp hn
    exact of_decide_eq_true hfinal
  · intro hw
    exact ⟨w, node?_eq_some.mpr ⟨rfl, Or.inr ⟨w, hw, List.prefix_refl w⟩⟩, decide_eq_true hw⟩

end TrieDictionary

open TrieDictionary in
/-- The trie of a list of words. -/
def trie (ws : List (List Char)) : FiniteDictionary (List Char) Char where
  toDictionary := toDictionary ws
  labels_nodup n := by
    have h : ((toDictionary ws).edges n).map (fun e => CharUnit.toChar e.1) = labels ws n := by
      simp [toDictionary, CharUnit.toChar, Function.comp_def]
    rw [h]
    exact List.nodup_dedup _
  hasEdge_iff n u := by simp [toDictionary]
  edgeCount_eq n c h := by
    simp only [toDictionary, Option.some.injEq] at h
    simp [toDictionary, h]
  finite := by
    rw [prefixes_eq]
    exact Finset.finite_toSet _

end Duallity
