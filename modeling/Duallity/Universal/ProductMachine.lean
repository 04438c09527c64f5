import Duallity.Lib.Transducer
import Duallity.Universal.StateSource

/-! The abstract product of a dictionary path, the universal automaton and the query cursor. The automaton
    reads the path; the cursor moves with the path until the query ends, or alone. -/

namespace Duallity

/-- The dictionary path spelled so far and the query characters read so far. -/
structure SpelledState where
  spelled : List Char
  cursor : Nat
deriving DecidableEq

namespace UniversalProduct
variable {N U σ β κ : Type} [CharUnit U] (A : UniversalAutomaton σ β κ) (D : Dictionary N U) (q : List Char) (k : Nat)

/-- The transition on a dictionary character, against the window of the depth it leads to. -/
def read (s : σ) (depth : Nat) (c : Char) : Option σ :=
  let window := relevantWindowAt q k (depth + 1)
  A.transition s (A.fromPaddedUnits c window.falsePrefix window.units) (depth + 1)

def runFrom (s : σ) (depth : Nat) : List Char → Option σ
  | [] => some s
  | c :: w => (read A q k s depth c).bind fun t => runFrom t (depth + 1) w

/-- The state after the per-depth windows of a word. -/
def run (w : List Char) : Option σ := runFrom A q k (A.initial k) 0 w

inductive Step : SpelledState → Option Char → Option Char → Nat → SpelledState → Prop
  | edge {p : List Char} {i : Nat} {c : Char} : p ++ [c] ∈ D.prefixes → (run A q k (p ++ [c])).isSome →
      Step ⟨p, i⟩ q[i]? (some c) 0 ⟨p ++ [c], i + (q[i]?).isSome.toNat⟩
  | skip {p : List Char} {i : Nat} {a : Char} : q[i]? = some a → Step ⟨p, i⟩ (some a) none 0 ⟨p, i + 1⟩

inductive Final : SpelledState → Nat → Prop
  | accept {w : List Char} {s : σ} {f : Nat} : w ∈ D.words → run A q k w = some s →
      A.acceptingDistance s q.length w.length = some f → f ≤ 9007199254740992 → Final ⟨w, q.length⟩ f

/-- The product machine of a dictionary and a query. -/
def machine : Transducer SpelledState Char Char Nat where
  step := Step A D q k
  final := Final A D q k

def start : SpelledState := ⟨[], 0⟩

variable {A D q k}

theorem runFrom_append {s : σ} {d : Nat} {w w' : List Char} :
    runFrom A q k s d (w ++ w') = (runFrom A q k s d w).bind fun t => runFrom A q k t (d + w.length) w' := by
  induction w generalizing s d with
  | nil => rfl
  | cons c w ih =>
    simp only [List.cons_append, runFrom, Option.bind_assoc, List.length_cons]
    congr 1
    funext t
    rw [ih, Nat.add_assoc, Nat.add_comm 1]

theorem run_snoc {w : List Char} {c : Char} :
    run A q k (w ++ [c]) = (run A q k w).bind fun s => read A q k s w.length c := by
  rw [run, runFrom_append, Nat.zero_add]
  congr 1
  funext s
  simp [runFrom]

theorem run_isSome_of_append {w w' : List Char} (h : (run A q k (w ++ w')).isSome) : (run A q k w).isSome := by
  rw [run, runFrom_append] at h
  exact Option.isSome_of_isSome_bind h

/-- The cursor moves until the query ends. -/
theorem cursor_advance {i : Nat} (h : i ≤ q.length) : i + (q[i]?).isSome.toNat = min (i + 1) q.length := by
  rcases Nat.lt_or_ge i q.length with hlt | hge
  · rw [List.getElem?_eq_getElem hlt]
    simp only [Option.isSome_some, Bool.toNat_true]
    omega
  · rw [List.getElem?_eq_none hge]
    simp only [Option.isSome_none, Bool.toNat_false]
    omega

theorem take_advance {i : Nat} : q.take i ++ (q[i]?).toList = q.take (i + (q[i]?).isSome.toNat) := by
  cases h : q[i]? with
  | none => simp
  | some a => simp [List.take_add_one, h]

variable (A q k) in
/-- What a path from the start has read and spelled. -/
structure Reached (x y : List Char) (v : Nat) (s : SpelledState) : Prop where
  spelled : s.spelled = y
  input : x = q.take s.cursor
  cursor_le : s.cursor ≤ q.length
  le_cursor : min y.length q.length ≤ s.cursor
  run : (run A q k y).isSome
  weight : v = 0

theorem reached_start : Reached A q k [] [] 0 start := ⟨rfl, rfl, Nat.zero_le _, Nat.min_le_left _ _, rfl, rfl⟩

theorem Reached.step {x y : List Char} {v u : Nat} {s t : SpelledState} {a b : Option Char}
    (hs : Reached A q k x y v s) (h : Step A D q k s a b u t) :
    Reached A q k (x ++ a.toList) (y ++ b.toList) (v + u) t := by
  obtain ⟨rfl, rfl, hle, hcursor, hrun, rfl⟩ := hs
  cases h with
  | @edge p i c _ hrun' =>
    have hadvance := cursor_advance hle
    refine ⟨rfl, take_advance, ?_, ?_, hrun', rfl⟩
    · simp only [hadvance]
      exact Nat.min_le_right _ _
    · simp only [hadvance, List.length_append, Option.toList_some, List.length_singleton]
      simp only at hcursor
      omega
  | @skip p i c hc =>
    have hlt : i < q.length := (List.getElem?_eq_some_iff.mp hc).1
    refine ⟨by simp, ?_, hlt, ?_, by simpa using hrun, rfl⟩
    · rw [List.take_add_one, hc, Option.toList_some]
    · simp only [Option.toList_none, List.append_nil]
      exact hcursor.trans (Nat.le_succ _)

theorem reached {x y : List Char} {v : Nat} {s : SpelledState} (h : (machine A D q k).Path start x y v s) :
    Reached A q k x y v s := by
  refine Transducer.Path.snocInduction (motive := fun x y v s => Reached A q k x y v s) reached_start ?_ h
  intro x y v s a b u t _ hs hstep
  exact hs.step hstep

/-- Reading a prefix of the dictionary moves the cursor along with it. -/
theorem path_spell {w : List Char} (hw : w ∈ D.prefixes) (hrun : (run A q k w).isSome) :
    (machine A D q k).Path start (q.take w.length) w 0 ⟨w, min w.length q.length⟩ := by
  induction w using List.reverseRecOn with
  | nil => simpa [start] using Transducer.Path.nil start
  | append_singleton p c ih =>
    have hpath := ih (Dictionary.mem_prefixes_of_append hw) (run_isSome_of_append hrun)
    have hstep : (machine A D q k).step ⟨p, min p.length q.length⟩ _ _ _ _ := Step.edge hw hrun
    have := hpath.snoc hstep
    rw [cursor_advance (Nat.min_le_right _ _)] at this
    have hmin : min (min p.length q.length + 1) q.length = min (p ++ [c]).length q.length := by
      rw [List.length_append, List.length_singleton]
      omega
    have htake : q.take p.length ++ (q[min p.length q.length]?).toList = q.take (p ++ [c]).length := by
      rw [List.length_append, List.length_singleton]
      rcases Nat.le_or_ge p.length q.length with h | h
      · rw [Nat.min_eq_left h, List.take_add_one]
      · rw [Nat.min_eq_right h, List.getElem?_eq_none le_rfl, List.take_of_length_le h,
          List.take_of_length_le (by omega), Option.toList_none, List.append_nil]
    rwa [hmin, htake, Nat.add_zero] at this

/-- Query characters are read at the same node. -/
theorem path_skip (A : UniversalAutomaton σ β κ) (D : Dictionary N U) (k : Nat) {w : List Char} {i j : Nat} (hij : i ≤ j)
    (hj : j ≤ q.length) : (machine A D q k).Path ⟨w, i⟩ ((q.take j).drop i) [] 0 ⟨w, j⟩ := by
  induction j, hij using Nat.le_induction with
  | base => simpa using Transducer.Path.nil (⟨w, i⟩ : SpelledState)
  | succ j hij ih =>
    have hstep : (machine A D q k).step ⟨w, j⟩ _ _ _ _ := Step.skip (List.getElem?_eq_getElem hj)
    have := (ih (Nat.le_of_succ_le hj)).snoc hstep
    rw [List.take_add_one, List.getElem?_eq_getElem hj, List.drop_append_of_le_length (by rw [List.length_take]; omega)]
    exact this

/-- The machine accepts the query with the words whose state accepts, at the distance that it reports. -/
theorem accepts_iff {x w : List Char} {v : Nat} : (machine A D q k).Accepts start x w v ↔
    x = q ∧ w ∈ D.words ∧ ∃ s, run A q k w = some s ∧ A.acceptingDistance s q.length w.length = some v ∧
      v ≤ 9007199254740992 := by
  constructor
  · rintro ⟨t, v, f, hpath, hfinal, rfl⟩
    obtain ⟨rfl, rfl, -, -, -, rfl⟩ := reached hpath
    cases hfinal with
    | @accept w s f hw hrun hacc hf =>
      rw [Nat.zero_add]
      exact ⟨List.take_length, hw, s, hrun, hacc, hf⟩
  · rintro ⟨rfl, hw, s, hrun, hacc, hv⟩
    have hspell := path_spell (A := A) (D := D) (q := x) (k := k) (D.words_subset_prefixes hw) (by rw [hrun]; rfl)
    have hskip := path_skip A D k (w := w) (Nat.min_le_right w.length x.length) (Nat.le_refl x.length)
    rw [List.take_length] at hskip
    have hpath := hspell.append hskip
    have hinput : x.take w.length ++ x.drop (min w.length x.length) = x := by
      rcases Nat.le_or_ge w.length x.length with h | h
      · rw [Nat.min_eq_left h, List.take_append_drop]
      · rw [Nat.min_eq_right h, List.take_of_length_le h, List.drop_length, List.append_nil]
    rw [hinput, List.append_nil] at hpath
    exact ⟨_, _, v, hpath, .accept hw hrun hacc hv, (Nat.zero_add v).symm⟩

end UniversalProduct
end Duallity
