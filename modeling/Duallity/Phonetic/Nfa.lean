import Mathlib.Data.List.Dedup
import Duallity.Lib.AnchoredAutomaton
import Duallity.Lib.Worklist
import Duallity.StateEncoding

/-! Phonetic NFAs as the crate reads them, and their anchors (`phonetic_anchors.rs`). -/

namespace Duallity

/-- A character class; `matchesChar` is its method `matches`. -/
structure CharClassChar where
  ranges : List (Char × Char)
  negated : Bool
  matchesChar : Char → Bool

/-- The labels of transitions; `other` are those that the crate looks at nowhere. -/
inductive TransitionLabelChar where
  | char (c : Char)
  | charClass (cls : CharClassChar)
  | any
  | epsilon
  | startOfLine
  | startOfInput
  | endOfLine
  | endOfInput
  | endOfInputStrict
  | other (kind : Nat)

namespace TransitionLabelChar

def isEpsilon : TransitionLabelChar → Bool
  | epsilon => true
  | _ => false

def consumesInput : TransitionLabelChar → Bool
  | char _ | charClass _ | any => true
  | _ => false

def isStartAnchor : TransitionLabelChar → Bool
  | startOfLine | startOfInput => true
  | _ => false

def isEndAnchor : TransitionLabelChar → Bool
  | endOfLine | endOfInput | endOfInputStrict => true
  | _ => false

/-- The characters that a label reads. -/
def reads : TransitionLabelChar → Char → Bool
  | char c, d => c == d
  | charClass cls, d => cls.matchesChar d
  | any, _ => true
  | _, _ => false

end TransitionLabelChar

structure NfaTransition where
  label : TransitionLabelChar
  target : Nat

/-- What the crate reads of an NFA. A state set is the list of its states in the order of `iter`, each once; the closures follow the
    epsilon transitions. -/
structure NFAChar where
  start : Nat
  numStates : Nat
  transitionsFrom : Nat → List NfaTransition
  isFinal : Nat → Bool
  epsilonClosure : List Nat → List Nat
  epsilonClosureSingle : Nat → List Nat
  numStates_le : numStates ≤ u32Count
  transition_lt : ∀ p, ∀ t ∈ transitionsFrom p, p < numStates ∧ t.target < numStates
  final_lt : ∀ p, isFinal p = true → p < numStates
  nodup_epsilonClosure : ∀ S, (epsilonClosure S).Nodup
  nodup_epsilonClosureSingle : ∀ p, (epsilonClosureSingle p).Nodup
  mem_epsilonClosure : ∀ S q, q ∈ epsilonClosure S ↔ ∃ p ∈ S,
    Relation.ReflTransGen (fun p q => ∃ t ∈ transitionsFrom p, t.label.isEpsilon = true ∧ t.target = q) p q
  mem_epsilonClosureSingle : ∀ p q, q ∈ epsilonClosureSingle p ↔
    Relation.ReflTransGen (fun p q => ∃ t ∈ transitionsFrom p, t.label.isEpsilon = true ∧ t.target = q) p q

/-- What the crate changes of an NFA. -/
structure NfaEditor where
  addEpsilon : NFAChar → Nat → Nat → NFAChar
  setFinal : NFAChar → Nat → Bool → NFAChar
  finalize : NFAChar → NFAChar
  start_addEpsilon : ∀ nfa p q, (addEpsilon nfa p q).start = nfa.start
  numStates_addEpsilon : ∀ nfa p q, p < nfa.numStates → q < nfa.numStates → (addEpsilon nfa p q).numStates = nfa.numStates
  isFinal_addEpsilon : ∀ nfa p q, (addEpsilon nfa p q).isFinal = nfa.isFinal
  mem_transitions_addEpsilon : ∀ nfa p q s t, p < nfa.numStates → q < nfa.numStates →
    (t ∈ (addEpsilon nfa p q).transitionsFrom s ↔ t ∈ nfa.transitionsFrom s ∨ s = p ∧ t = ⟨.epsilon, q⟩)
  start_setFinal : ∀ nfa p b, (setFinal nfa p b).start = nfa.start
  numStates_setFinal : ∀ nfa p b, (setFinal nfa p b).numStates = nfa.numStates
  transitions_setFinal : ∀ nfa p b, (setFinal nfa p b).transitionsFrom = nfa.transitionsFrom
  isFinal_setFinal : ∀ nfa p b s, p < nfa.numStates → (setFinal nfa p b).isFinal s = if s = p then b else nfa.isFinal s
  start_finalize : ∀ nfa, (finalize nfa).start = nfa.start
  isFinal_finalize : ∀ nfa, (finalize nfa).isFinal = nfa.isFinal
  mem_transitions_finalize : ∀ nfa s t, t ∈ (finalize nfa).transitionsFrom s ↔ t ∈ nfa.transitionsFrom s

namespace NFAChar

/-! ### Construction -/

section Construction
variable {start numStates : Nat} {transitionsFrom : Nat → List NfaTransition} {isFinal : Nat → Bool}

theorem mem_closure_epsilon (transition_lt : ∀ p, ∀ t ∈ transitionsFrom p, p < numStates ∧ t.target < numStates) (S : List Nat)
    (q : Nat) : q ∈ Worklist.closure (fun state => ((transitionsFrom state).filter fun t => t.label.isEpsilon).map
        NfaTransition.target) numStates S ↔ ∃ p ∈ S,
      Relation.ReflTransGen (fun p q => ∃ t ∈ transitionsFrom p, t.label.isEpsilon = true ∧ t.target = q) p q := by
  have hnext : ∀ p, ((transitionsFrom p).filter fun t => t.label.isEpsilon).map NfaTransition.target ⊆ List.range numStates := by
    intro p q hq
    obtain ⟨t, ht, rfl⟩ := List.mem_map.mp hq
    exact List.mem_range.mpr (transition_lt p t (List.mem_filter.mp ht).1).2
  have hmem : q ∈ Worklist.closure _ (List.range numStates).length S ↔ _ := Worklist.mem_closure _ hnext
  rw [List.length_range] at hmem
  simpa only [List.mem_map, List.mem_filter, and_assoc] using hmem

/-- An NFA whose closures are computed by a worklist. -/
def ofTransitions (start numStates : Nat) (transitionsFrom : Nat → List NfaTransition) (isFinal : Nat → Bool)
    (numStates_le : numStates ≤ u32Count) (transition_lt : ∀ p, ∀ t ∈ transitionsFrom p, p < numStates ∧ t.target < numStates)
    (final_lt : ∀ p, isFinal p = true → p < numStates) : NFAChar where
  start := start
  numStates := numStates
  transitionsFrom := transitionsFrom
  isFinal := isFinal
  epsilonClosure S := Worklist.closure (fun state => ((transitionsFrom state).filter fun t => t.label.isEpsilon).map
    NfaTransition.target) numStates S.dedup
  epsilonClosureSingle p := Worklist.closure (fun state => ((transitionsFrom state).filter fun t => t.label.isEpsilon).map
    NfaTransition.target) numStates [p]
  numStates_le := numStates_le
  transition_lt := transition_lt
  final_lt := final_lt
  nodup_epsilonClosure S := Worklist.nodup_closure S.nodup_dedup
  nodup_epsilonClosureSingle p := Worklist.nodup_closure (List.nodup_singleton p)
  mem_epsilonClosure S q := by
    rw [mem_closure_epsilon transition_lt]
    simp only [List.mem_dedup]
  mem_epsilonClosureSingle p q := by
    rw [mem_closure_epsilon transition_lt]
    simp only [List.mem_singleton, exists_eq_left]

/-- The NFA of a table that lists the transitions of each state. -/
def ofTable (start : Nat) (table : List (List NfaTransition)) (finals : List Nat) (hlength : table.length ≤ u32Count)
    (htargets : ∀ row ∈ table, ∀ t ∈ row, t.target < table.length) (hfinals : ∀ q ∈ finals, q < table.length) : NFAChar :=
  ofTransitions start table.length (fun p => (table[p]?).getD []) (fun p => decide (p ∈ finals)) hlength
    (by
      intro p t ht
      cases hrow : table[p]? with
      | none => simp [hrow] at ht
      | some row =>
        rw [hrow, Option.getD_some] at ht
        exact ⟨(List.getElem?_eq_some_iff.mp hrow).1, htargets row (List.mem_of_getElem? hrow) t ht⟩)
    (fun p hp => hfinals p (of_decide_eq_true hp))

theorem mem_ofTable {table : List (List NfaTransition)} {finals : List Nat} {hlength : table.length ≤ u32Count}
    {htargets : ∀ row ∈ table, ∀ t ∈ row, t.target < table.length} {hfinals : ∀ q ∈ finals, q < table.length} {p : Nat} {t : NfaTransition} :
    t ∈ (ofTable start table finals hlength htargets hfinals).transitionsFrom p ↔ ∃ row, table[p]? = some row ∧ t ∈ row := by
  show t ∈ (table[p]?).getD [] ↔ _
  cases table[p]? <;> simp

end Construction

variable (nfa : NFAChar)

/-! ### Anchors -/

def positionAnchorClosure (initial : List Nat) (anchorMatches : TransitionLabelChar → Bool) : List Nat :=
  Worklist.closure (fun state => ((nfa.transitionsFrom state).filter fun t => t.label.isEpsilon || anchorMatches t.label).map
    NfaTransition.target) nfa.numStates initial

def startAnchorClosure : List Nat :=
  nfa.positionAnchorClosure (nfa.epsilonClosureSingle nfa.start) TransitionLabelChar.isStartAnchor

def canReachFinalThroughEndAnchors (stateSet : List Nat) : Bool :=
  (nfa.positionAnchorClosure stateSet TransitionLabelChar.isEndAnchor).any nfa.isFinal

/-- The first loop of `normalize_full_string_anchors`. -/
def enterStartClosure (ops : NfaEditor) : NFAChar :=
  nfa.startAnchorClosure.foldl (fun result state => if state ≠ nfa.start then ops.addEpsilon result nfa.start state else result) nfa

/-- One round of its second loop. -/
def markFinal (ops : NfaEditor) (nfa : NFAChar) (state : Nat) : NFAChar :=
  if nfa.canReachFinalThroughEndAnchors [state] then ops.setFinal nfa state true else nfa

def normalizeFullStringAnchors (ops : NfaEditor) : NFAChar :=
  let entered := nfa.enterStartClosure ops
  ops.finalize (((List.range entered.numStates).takeWhile fun state => state ≤ u32Max).foldl (markFinal ops) entered)

/-! ### Meaning -/

/-- The NFA as an automaton with anchors. -/
def automaton : AnchoredAutomaton Nat Char where
  start := nfa.start
  final q := nfa.isFinal q = true
  eps p q := ∃ t ∈ nfa.transitionsFrom p, t.label.isEpsilon = true ∧ t.target = q
  opening p q := ∃ t ∈ nfa.transitionsFrom p, t.label.isStartAnchor = true ∧ t.target = q
  closing p q := ∃ t ∈ nfa.transitionsFrom p, t.label.isEndAnchor = true ∧ t.target = q
  read c p q := ∃ t ∈ nfa.transitionsFrom p, t.label.reads c = true ∧ t.target = q

/-- Epsilons and the matching anchors. -/
def AnchorStep (anchorMatches : TransitionLabelChar → Bool) (p q : Nat) : Prop :=
  ∃ t ∈ nfa.transitionsFrom p, (t.label.isEpsilon = true ∨ anchorMatches t.label = true) ∧ t.target = q

variable {nfa} {anchorMatches : TransitionLabelChar → Bool} {initial : List Nat} {p q : Nat}

theorem mem_positionAnchorClosure : q ∈ nfa.positionAnchorClosure initial anchorMatches ↔
    ∃ p ∈ initial, Relation.ReflTransGen (nfa.AnchorStep anchorMatches) p q := by
  have hnext : ∀ p, ((nfa.transitionsFrom p).filter fun t => t.label.isEpsilon || anchorMatches t.label).map
      NfaTransition.target ⊆ List.range nfa.numStates := by
    intro p q hq
    obtain ⟨t, ht, rfl⟩ := List.mem_map.mp hq
    exact List.mem_range.mpr (nfa.transition_lt p t (List.mem_filter.mp ht).1).2
  have hmem : q ∈ Worklist.closure _ (List.range nfa.numStates).length initial ↔ _ := Worklist.mem_closure _ hnext
  rw [List.length_range] at hmem
  have hstep : ∀ p q, q ∈ ((nfa.transitionsFrom p).filter fun t => t.label.isEpsilon || anchorMatches t.label).map
      NfaTransition.target ↔ nfa.AnchorStep anchorMatches p q := by
    intro p q
    simp only [List.mem_map, List.mem_filter, Bool.or_eq_true, AnchorStep, and_assoc]
  simp only [hstep] at hmem
  exact hmem

theorem nodup_startAnchorClosure : nfa.startAnchorClosure.Nodup := Worklist.nodup_closure (nfa.nodup_epsilonClosureSingle _)

theorem anchorStep_start : nfa.AnchorStep TransitionLabelChar.isStartAnchor p q ↔ nfa.automaton.eps p q ∨ nfa.automaton.opening p q := by
  simp only [AnchorStep, automaton, or_and_right, and_or_left, exists_or]

theorem anchorStep_end : nfa.AnchorStep TransitionLabelChar.isEndAnchor p q ↔ nfa.automaton.eps p q ∨ nfa.automaton.closing p q := by
  simp only [AnchorStep, automaton, or_and_right, and_or_left, exists_or]

theorem anchorStep_start_eq : nfa.AnchorStep TransitionLabelChar.isStartAnchor =
    fun p q => nfa.automaton.eps p q ∨ nfa.automaton.opening p q := funext₂ fun _ _ => propext anchorStep_start

theorem anchorStep_end_eq : nfa.AnchorStep TransitionLabelChar.isEndAnchor =
    fun p q => nfa.automaton.eps p q ∨ nfa.automaton.closing p q := funext₂ fun _ _ => propext anchorStep_end

/-- The start anchor closure has the states before the first character. -/
theorem mem_startAnchorClosure : q ∈ nfa.startAnchorClosure ↔ q ∈ nfa.automaton.initial := by
  rw [startAnchorClosure, mem_positionAnchorClosure, anchorStep_start_eq]
  constructor
  · rintro ⟨p, hp, hreach⟩
    exact (Relation.ReflTransGen.mono (fun _ _ h => .inl h) _ _ ((nfa.mem_epsilonClosureSingle _ _).mp hp)).trans hreach
  · intro h
    exact ⟨nfa.start, (nfa.mem_epsilonClosureSingle _ _).mpr .refl, h⟩

theorem canReachFinal_iff {S : List Nat} : nfa.canReachFinalThroughEndAnchors S = true ↔
    nfa.automaton.Accepting {q | q ∈ S} := by
  rw [canReachFinalThroughEndAnchors, List.any_eq_true]
  constructor
  · rintro ⟨f, hf, hfinal⟩
    obtain ⟨p, hp, hreach⟩ := mem_positionAnchorClosure.mp hf
    rw [anchorStep_end_eq] at hreach
    exact ⟨p, hp, f, hreach, hfinal⟩
  · rintro ⟨p, hp, f, hreach, hfinal⟩
    refine ⟨f, mem_positionAnchorClosure.mpr ⟨p, hp, ?_⟩, hfinal⟩
    rw [anchorStep_end_eq]
    exact hreach

end NFAChar
end Duallity
