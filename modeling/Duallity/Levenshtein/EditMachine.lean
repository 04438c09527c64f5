import Duallity.Dictionary
import Duallity.Levenshtein.Codec
import Duallity.Lib.EditDistance
import Duallity.Lib.Transducer

/-! The abstract Levenshtein machine: it reads the query and spells a path of the dictionary, within the
    bound, by edit operations of which the two-symbol ones take two steps. Its accepting paths are the
    alignments of a prefix of the query with a word; the final weight pays for deleting the rest. -/

namespace Duallity
open EditDistance Alignment

/-- The dictionary path spelled so far and the automaton state. -/
structure EditState where
  spelled : List Char
  automaton : AutomatonState
deriving DecidableEq

namespace EditMachine
variable {N U : Type} [CharUnit U] (D : Dictionary N U) (q : List Char) (k : Nat) (algorithm : Algorithm)

inductive Step : EditState → Option Char → Option Char → Nat → EditState → Prop
  | matchOrSubstitute {p : List Char} {i d : Nat} {a c : Char} :
      q[i]? = some a → p ++ [c] ∈ D.prefixes → d + (if a = c then 0 else 1) ≤ k →
      Step ⟨p, .normal i d⟩ (some a) (some c) (if a = c then 0 else 1)
        ⟨p ++ [c], .normal (i + 1) (d + if a = c then 0 else 1)⟩
  | insert {p : List Char} {i d : Nat} {c : Char} :
      p ++ [c] ∈ D.prefixes → d < k →
      Step ⟨p, .normal i d⟩ none (some c) 1 ⟨p ++ [c], .normal i (d + 1)⟩
  | delete {p : List Char} {i d : Nat} {a : Char} :
      q[i]? = some a → d < k → Step ⟨p, .normal i d⟩ (some a) none 1 ⟨p, .normal (i + 1) (d + 1)⟩
  | transpose {p : List Char} {i d : Nat} {a b : Char} :
      algorithm.supportsTransposition = true → q[i]? = some a → q[i + 1]? = some b → a ≠ b →
      p ++ [b] ++ [a] ∈ D.prefixes → d < k →
      Step ⟨p, .normal i d⟩ (some a) (some b) 1 ⟨p ++ [b], .transposeSecond i (d + 1)⟩
  | transposeSecond {p : List Char} {i d : Nat} {a b : Char} :
      q[i]? = some a → q[i + 1]? = some b → p ++ [a] ∈ D.prefixes →
      Step ⟨p, .transposeSecond i d⟩ (some b) (some a) 0 ⟨p ++ [a], .normal (i + 2) d⟩
  | merge {p : List Char} {i d : Nat} {a b c : Char} :
      algorithm.supportsMergeSplit = true → q[i]? = some a → q[i + 1]? = some b → p ++ [c] ∈ D.prefixes → d < k →
      Step ⟨p, .normal i d⟩ (some a) (some c) 1 ⟨p ++ [c], .mergeSecond i (d + 1)⟩
  | mergeSecond {p : List Char} {i d : Nat} {b : Char} :
      q[i + 1]? = some b → Step ⟨p, .mergeSecond i d⟩ (some b) none 0 ⟨p, .normal (i + 2) d⟩
  | split {p : List Char} {i d : Nat} {a c c' : Char} :
      algorithm.supportsMergeSplit = true → q[i]? = some a → p ++ [c] ++ [c'] ∈ D.prefixes → d < k →
      Step ⟨p, .normal i d⟩ (some a) (some c) 1 ⟨p ++ [c], .splitSecond i (d + 1)⟩
  | splitSecond {p : List Char} {i d : Nat} {a c : Char} :
      q[i]? = some a → p ++ [c] ∈ D.prefixes →
      Step ⟨p, .splitSecond i d⟩ none (some c) 0 ⟨p ++ [c], .normal (i + 1) d⟩

/-- A word is accepted from a normal state when deleting the rest of the query stays within the bound. -/
inductive Final : EditState → Nat → Prop
  | normal {w : List Char} {i d : Nat} : w ∈ D.words → i ≤ q.length → d + (q.length - i) ≤ k →
      Final ⟨w, .normal i d⟩ (q.length - i)

/-- The machine of the bounded edit distance to the words of a dictionary. -/
def machine : Transducer EditState Char Char Nat where
  step := Step D q k algorithm
  final := Final D q k

def start : EditState := ⟨[], .normal 0 0⟩

/-- The edit operations of an algorithm. -/
abbrev Op : List Char → List Char → Nat → Prop :=
  EditOp (algorithm.supportsTransposition = true) (algorithm.supportsMergeSplit = true)

/-- The least cost of edits that turn the query `x` into `w`. -/
noncomputable def cost (x w : List Char) : Nat :=
  editCost (algorithm.supportsTransposition = true) (algorithm.supportsMergeSplit = true) x w

/-- Without further operations it is the Levenshtein distance. -/
theorem cost_standard : cost .standard = levenshtein := by
  funext x w
  rw [← editCost_eq_levenshtein]
  simp only [cost, Algorithm.standard, Bool.false_eq_true]

theorem mem_prefixes_of_step {D : Dictionary N U} {q : List Char} {k : Nat} {algorithm : Algorithm}
    {p : List Char} {a : AutomatonState} {i : Option Char} {c : Char} {w : Nat} {s : EditState}
    (h : Step D q k algorithm ⟨p, a⟩ i (some c) w s) : p ++ [c] ∈ D.prefixes := by
  cases h with
  | matchOrSubstitute _ hp | insert hp | transposeSecond _ _ hp | merge _ _ _ hp | splitSecond _ hp => exact hp
  | transpose _ _ _ _ hp | split _ _ hp => exact Dictionary.mem_prefixes_of_append hp

/-! ### Paths are alignments -/

/-- What a path from the start to a state has read and spelled, at weight `v`: an alignment, of which the
    last operation may be half done. -/
def Reached (x y : List Char) (v : Nat) (s : EditState) : Prop :=
  s.spelled = y ∧ s.automaton.editCost = v ∧ v ≤ k ∧
    match s.automaton with
    | .normal i _ => i ≤ q.length ∧ x = q.take i ∧ Align (Op algorithm) x y v
    | .transposeSecond i d => ∃ a b p, algorithm.supportsTransposition = true ∧ q[i]? = some a ∧
        q[i + 1]? = some b ∧ a ≠ b ∧ x = q.take i ++ [a] ∧ y = p ++ [b] ∧ d ≠ 0 ∧ Align (Op algorithm) (q.take i) p (d - 1)
    | .mergeSecond i d => ∃ a c p, algorithm.supportsMergeSplit = true ∧ q[i]? = some a ∧ (q[i + 1]?).isSome ∧
        x = q.take i ++ [a] ∧ y = p ++ [c] ∧ d ≠ 0 ∧ Align (Op algorithm) (q.take i) p (d - 1)
    | .splitSecond i d => ∃ a c p, algorithm.supportsMergeSplit = true ∧ q[i]? = some a ∧
        x = q.take i ++ [a] ∧ y = p ++ [c] ∧ d ≠ 0 ∧ Align (Op algorithm) (q.take i) p (d - 1)

variable {D q k algorithm}

theorem take_succ_of_getElem? {i : Nat} {a : Char} (h : q[i]? = some a) : q.take (i + 1) = q.take i ++ [a] := by
  rw [List.take_add_one, h, Option.toList_some]

theorem length_le_of_getElem? {i : Nat} {a : Char} (h : q[i]? = some a) : i + 1 ≤ q.length :=
  (List.getElem?_eq_some_iff.mp h).1

theorem reached_start : Reached q k algorithm [] [] 0 start :=
  ⟨rfl, rfl, Nat.zero_le _, Nat.zero_le _, rfl, .nil⟩

/-- A step extends the alignment by an operation, or by the first or the second half of one. -/
theorem Reached.step {x y : List Char} {v u : Nat} {s t : EditState} {a b : Option Char}
    (hs : Reached q k algorithm x y v s) (h : Step D q k algorithm s a b u t) :
    Reached q k algorithm (x ++ a.toList) (y ++ b.toList) (v + u) t := by
  cases h with
  | @matchOrSubstitute p i d a c ha _ hk =>
    obtain ⟨rfl, rfl, -, -, rfl, halign⟩ := hs
    refine ⟨rfl, rfl, hk, length_le_of_getElem? ha, (take_succ_of_getElem? ha).symm, halign.snoc ?_⟩
    split
    · rename_i hac
      subst hac
      exact .keep a
    · exact .replace ‹_›
  | @insert p i d c _ hk =>
    obtain ⟨rfl, rfl, -, hi, rfl, halign⟩ := hs
    refine ⟨rfl, rfl, hk, hi, by simp, halign.snoc (.insert c)⟩
  | @delete p i d a ha hk =>
    obtain ⟨rfl, rfl, -, -, rfl, halign⟩ := hs
    exact ⟨by simp, rfl, hk, length_le_of_getElem? ha, (take_succ_of_getElem? ha).symm, halign.snoc (.delete a)⟩
  | @transpose p i d a b ht ha hb hab _ hk =>
    obtain ⟨rfl, rfl, -, -, rfl, halign⟩ := hs
    exact ⟨rfl, rfl, hk, a, b, _, ht, ha, hb, hab, rfl, rfl, Nat.succ_ne_zero _, halign⟩
  | @transposeSecond p i d a b ha hb _ =>
    obtain ⟨rfl, rfl, hk, a', b', p', ht, ha', hb', hab, rfl, hp, hd, halign⟩ := hs
    cases ha.symm.trans ha'
    cases hb.symm.trans hb'
    obtain rfl : p = p' ++ [b] := hp
    refine ⟨rfl, rfl, hk, length_le_of_getElem? hb, ?_, ?_⟩
    · rw [take_succ_of_getElem? hb, take_succ_of_getElem? ha, Option.toList_some]
    · have := halign.snoc (EditOp.swap ht hab)
      rw [Nat.sub_add_cancel (Nat.one_le_iff_ne_zero.mpr hd)] at this
      simpa [AutomatonState.editCost] using this
  | @merge p i d a b c hm ha hb _ hk =>
    obtain ⟨rfl, rfl, -, -, rfl, halign⟩ := hs
    exact ⟨rfl, rfl, hk, a, c, _, hm, ha, by simp [hb], rfl, rfl, Nat.succ_ne_zero _, halign⟩
  | @mergeSecond p i d b hb =>
    obtain ⟨rfl, rfl, hk, a, c, p', hm, ha, -, rfl, hp, hd, halign⟩ := hs
    obtain rfl : p = p' ++ [c] := hp
    refine ⟨by simp, rfl, hk, length_le_of_getElem? hb, ?_, ?_⟩
    · rw [take_succ_of_getElem? hb, take_succ_of_getElem? ha, Option.toList_some]
    · have := halign.snoc (EditOp.merge a b c hm)
      rw [Nat.sub_add_cancel (Nat.one_le_iff_ne_zero.mpr hd)] at this
      simpa [AutomatonState.editCost] using this
  | @split p i d a c _ hm ha _ hk =>
    obtain ⟨rfl, rfl, -, -, rfl, halign⟩ := hs
    exact ⟨rfl, rfl, hk, a, c, _, hm, ha, rfl, rfl, Nat.succ_ne_zero _, halign⟩
  | @splitSecond p i d a c ha _ =>
    obtain ⟨rfl, rfl, hk, a', c', p', hm, ha', rfl, hp, hd, halign⟩ := hs
    cases ha.symm.trans ha'
    obtain rfl : p = p' ++ [c'] := hp
    refine ⟨rfl, rfl, hk, length_le_of_getElem? ha, ?_, ?_⟩
    · rw [take_succ_of_getElem? ha, Option.toList_none, List.append_nil]
    · have := halign.snoc (EditOp.split a c' c hm)
      rw [Nat.sub_add_cancel (Nat.one_le_iff_ne_zero.mpr hd)] at this
      simpa [AutomatonState.editCost] using this

theorem reached {x y : List Char} {v : Nat} {s : EditState} (h : (machine D q k algorithm).Path start x y v s) :
    Reached q k algorithm x y v s := by
  refine Transducer.Path.snocInduction (motive := fun x y v s => Reached q k algorithm x y v s) reached_start ?_ h
  intro x y v s a b u t _ hs hstep
  exact hs.step hstep

/-! ### Alignments are paths -/

theorem getElem?_of_drop {i : Nat} {u x : List Char} (h : q.drop i = u ++ x) (j : Nat) (hj : j < u.length) :
    q[i + j]? = u[j]? := by
  have := congrArg (·[j]?) h
  simpa [List.getElem?_append_left hj] using this

theorem Step.path {s t : EditState} {a b : Option Char} {u : Nat} (h : Step D q k algorithm s a b u t) :
    (machine D q k algorithm).Path s a.toList b.toList u t := .single h

/-- One operation is a path between normal states, through its continuation state when it has one. -/
theorem path_of_op {p u v x : List Char} {i d c : Nat} (hop : Op algorithm u v c) (hq : q.drop i = u ++ x)
    (hp : p ++ v ∈ D.prefixes) (hk : d + c ≤ k) :
    (machine D q k algorithm).Path ⟨p, .normal i d⟩ u v c ⟨p ++ v, .normal (i + u.length) (d + c)⟩ := by
  have hget := getElem?_of_drop hq
  cases hop with
  | keep a =>
    have ha : q[i]? = some a := hget 0 (by simp)
    have hstep : Step D q k algorithm ⟨p, .normal i d⟩ _ _ _ _ := .matchOrSubstitute ha hp (by rwa [if_pos rfl])
    rw [if_pos rfl] at hstep
    exact hstep.path
  | @replace a b hab =>
    have ha : q[i]? = some a := hget 0 (by simp)
    have hstep : Step D q k algorithm ⟨p, .normal i d⟩ _ _ _ _ := .matchOrSubstitute ha hp (by rwa [if_neg hab])
    rw [if_neg hab] at hstep
    exact hstep.path
  | insert b => exact (Step.insert hp hk).path
  | delete a =>
    have ha : q[i]? = some a := hget 0 (by simp)
    rw [List.append_nil]
    exact (Step.delete ha hk).path
  | @swap a b ht hab =>
    have ha : q[i]? = some a := hget 0 (by simp)
    have hb : q[i + 1]? = some b := hget 1 (by simp)
    have hp' : p ++ [b] ++ [a] ∈ D.prefixes := by simpa using hp
    have h1 : Step D q k algorithm ⟨p, .normal i d⟩ _ _ _ _ := .transpose ht ha hb hab hp' hk
    have h2 : Step D q k algorithm ⟨p ++ [b], .transposeSecond i (d + 1)⟩ _ _ _ _ := .transposeSecond ha hb hp'
    have := h1.path.append h2.path
    simpa using this
  | merge a b c hm =>
    have ha : q[i]? = some a := hget 0 (by simp)
    have hb : q[i + 1]? = some b := hget 1 (by simp)
    have h1 : Step D q k algorithm ⟨p, .normal i d⟩ _ _ _ _ := .merge hm ha hb hp hk
    have h2 : Step D q k algorithm ⟨p ++ [c], .mergeSecond i (d + 1)⟩ _ _ _ _ := .mergeSecond hb
    have := h1.path.append h2.path
    simpa using this
  | split a b c hm =>
    have ha : q[i]? = some a := hget 0 (by simp)
    have hp' : p ++ [b] ++ [c] ∈ D.prefixes := by simpa using hp
    have h1 : Step D q k algorithm ⟨p, .normal i d⟩ _ _ _ _ := .split hm ha hp' hk
    have h2 : Step D q k algorithm ⟨p ++ [b], .splitSecond i (d + 1)⟩ _ _ _ _ := .splitSecond ha hp'
    have := h1.path.append h2.path
    simpa using this

/-- Every alignment of a part of the query within the bound is a path between normal states. -/
theorem path_of_align {x y : List Char} {c : Nat} (h : Align (Op algorithm) x y c) {p z : List Char} {i d : Nat}
    (hq : q.drop i = x ++ z) (hp : p ++ y ∈ D.prefixes) (hk : d + c ≤ k) :
    (machine D q k algorithm).Path ⟨p, .normal i d⟩ x y c ⟨p ++ y, .normal (i + x.length) (d + c)⟩ := by
  induction h generalizing p i d with
  | nil =>
    rw [List.append_nil]
    exact .nil _
  | @cons u x v y c e hop _ ih =>
    rw [List.append_assoc] at hq
    rw [← List.append_assoc] at hp
    have hcu : d + c ≤ k := by omega
    have h1 := path_of_op hop hq (Dictionary.mem_prefixes_of_append hp) hcu
    have hq' : q.drop (i + u.length) = x ++ z := by rw [← List.drop_drop, hq, List.drop_left]
    have hce : d + c + e ≤ k := by omega
    have h2 := ih hq' hp hce
    have := h1.append h2
    simpa [Nat.add_assoc] using this

/-! ### The accepted relation -/

/-- The machine accepts a prefix of the query with a word when aligning the two and deleting the rest of the
    query stays within the bound, at that cost. -/
theorem accepts_iff {x w : List Char} {v : Nat} : (machine D q k algorithm).Accepts start x w v ↔
    w ∈ D.words ∧ ∃ c, x <+: q ∧ Align (Op algorithm) x w c ∧ v = c + (q.length - x.length) ∧ v ≤ k := by
  constructor
  · rintro ⟨s, v, f, hpath, hfinal, rfl⟩
    have hs := reached hpath
    cases hfinal with
    | @normal w i d hw hi hk =>
      obtain ⟨rfl, rfl, -, -, rfl, halign⟩ := hs
      refine ⟨hw, _, List.take_prefix i q, halign, ?_, hk⟩
      rw [List.length_take, Nat.min_eq_left hi]
  · rintro ⟨hw, c, ⟨z, hz⟩, halign, rfl, hk⟩
    have hq : q.drop 0 = x ++ z := hz.symm
    have hp : [] ++ w ∈ D.prefixes := Dictionary.words_subset_prefixes hw
    have hk' : 0 + c ≤ k := by omega
    have hpath := path_of_align halign hq hp hk'
    simp only [List.nil_append, Nat.zero_add] at hpath
    have hlen : x.length ≤ q.length := by simp [← hz]
    exact ⟨_, c, _, hpath, .normal hw hlen hk, rfl⟩

end EditMachine
end Duallity
