import Mathlib.Data.List.TakeWhile
import Duallity.Phonetic.Nfa

/-! The normalization of full-string anchors. The epsilons that replace the start anchors stay usable when the start is entered
    again, so the language is kept exactly when crossing start anchors there accepts nothing more. -/

namespace Duallity.NFAChar
open AnchoredAutomaton
variable {ops : NfaEditor} {nfa N : NFAChar} {S : List Nat} {p q : Nat} {x : List Char}

/-! ### Start anchors -/

/-- A state that another reaches is one of the NFA. -/
theorem lt_of_reaches {anchorMatches : TransitionLabelChar → Bool} (h : Relation.ReflTransGen (nfa.AnchorStep anchorMatches) p q)
    (hne : q ≠ p) : p < nfa.numStates ∧ q < nfa.numStates := by
  have hsource : ∀ {p q}, nfa.AnchorStep anchorMatches p q → p < nfa.numStates ∧ q < nfa.numStates := by
    rintro p _ ⟨t, ht, -, rfl⟩
    exact nfa.transition_lt p t ht
  rcases Relation.ReflTransGen.cases_head h with heq | ⟨r, hfirst, -⟩
  · exact absurd heq.symm hne
  · rcases Relation.ReflTransGen.cases_tail h with heq | ⟨r', -, hlast⟩
    · exact absurd heq hne
    · exact ⟨(hsource hfirst).1, (hsource hlast).2⟩

/-- The NFA with epsilons from the start to some states. -/
structure Enters (nfa N : NFAChar) (S : List Nat) : Prop where
  start : N.start = nfa.start
  numStates : N.numStates = nfa.numStates
  isFinal : N.isFinal = nfa.isFinal
  transitions : ∀ s t, t ∈ N.transitionsFrom s ↔
    t ∈ nfa.transitionsFrom s ∨ s = nfa.start ∧ ∃ q ∈ S, q ≠ nfa.start ∧ t = ⟨.epsilon, q⟩

theorem enters_foldl (hS : ∀ q ∈ S, q ≠ nfa.start → nfa.start < nfa.numStates ∧ q < nfa.numStates) :
    Enters nfa (S.foldl (fun result state => if state ≠ nfa.start then ops.addEpsilon result nfa.start state else result) nfa) S := by
  induction S using List.reverseRecOn with
  | nil => exact ⟨rfl, rfl, rfl, fun s t => by simp⟩
  | append_singleton S q ih =>
    have h := ih fun q hq => hS q (List.mem_append_left _ hq)
    rw [List.foldl_append, List.foldl_cons, List.foldl_nil]
    generalize S.foldl _ nfa = N at h
    by_cases hq : q = nfa.start
    · rw [if_neg (not_not.mpr hq)]
      refine ⟨h.start, h.numStates, h.isFinal, ?_⟩
      intro s t
      simp [h.transitions, hq, or_and_right, exists_or]
    · obtain ⟨hstart, hlt⟩ := hS q (List.mem_append_right _ List.mem_cons_self) hq
      rw [← h.numStates] at hstart hlt
      rw [if_pos hq]
      refine ⟨(ops.start_addEpsilon _ _ _).trans h.start, (ops.numStates_addEpsilon _ _ _ hstart hlt).trans h.numStates,
        (ops.isFinal_addEpsilon _ _ _).trans h.isFinal, ?_⟩
      intro s t
      rw [ops.mem_transitions_addEpsilon _ _ _ _ _ hstart hlt, h.transitions]
      simp [hq, or_and_right, exists_or, or_assoc, and_or_left]

theorem enters_enterStartClosure : Enters nfa (nfa.enterStartClosure ops) nfa.startAnchorClosure := by
  refine enters_foldl ?_
  intro q hq hne
  have hopens : Relation.ReflTransGen _ nfa.start q := mem_startAnchorClosure.mp hq
  rw [← anchorStep_start_eq] at hopens
  exact lt_of_reaches hopens hne

namespace Enters
variable (h : Enters nfa N nfa.startAnchorClosure)
include h

/-- A transition of the entered NFA is one of the NFA, or an epsilon to an initial state. -/
theorem exists_transition (P : TransitionLabelChar → Prop) : (∃ t ∈ N.transitionsFrom p, P t.label ∧ t.target = q) ↔
    (∃ t ∈ nfa.transitionsFrom p, P t.label ∧ t.target = q) ∨
      p = nfa.start ∧ (q ∈ nfa.automaton.initial ∧ q ≠ nfa.start) ∧ P .epsilon := by
  simp only [h.transitions]
  constructor
  · rintro ⟨t, ht | ⟨hp, q', hq', hne, rfl⟩, hlabel, rfl⟩
    · exact .inl ⟨t, ht, hlabel, rfl⟩
    · exact .inr ⟨hp, ⟨mem_startAnchorClosure.mp hq', hne⟩, hlabel⟩
  · rintro (⟨t, ht, hlabel, rfl⟩ | ⟨hp, ⟨hq, hne⟩, hlabel⟩)
    · exact ⟨t, .inl ht, hlabel, rfl⟩
    · exact ⟨⟨.epsilon, q⟩, .inr ⟨hp, q, mem_startAnchorClosure.mpr hq, hne, rfl⟩, hlabel, rfl⟩

theorem eps_iff : N.automaton.eps p q ↔ nfa.automaton.normalize.eps p q := by
  refine (h.exists_transition fun label => label.isEpsilon = true).trans (or_congr_right ?_)
  exact and_congr_right fun _ => and_iff_left rfl

theorem closing_iff : N.automaton.closing p q ↔ nfa.automaton.closing p q :=
  (h.exists_transition fun label => label.isEndAnchor = true).trans (or_iff_left fun h => Bool.false_ne_true h.2.2)

theorem read_iff {c : Char} : N.automaton.read c p q ↔ nfa.automaton.read c p q :=
  (h.exists_transition fun label => label.reads c = true).trans (or_iff_left fun h => Bool.false_ne_true h.2.2)

/-- The states from which a final one lies behind epsilons and end anchors of the entered NFA. -/
theorem accepting_iff : N.automaton.Accepting {q' | q' ∈ [q]} ↔ nfa.automaton.normalize.final q := by
  have hstep : (fun p q => N.automaton.eps p q ∨ N.automaton.closing p q) =
      fun p q => nfa.automaton.normalize.eps p q ∨ nfa.automaton.closing p q :=
    funext₂ fun p q => propext (or_congr h.eps_iff h.closing_iff)
  have hfinal : ∀ f, N.automaton.final f ↔ nfa.automaton.final f := fun f => by
    show N.isFinal f = true ↔ nfa.isFinal f = true
    rw [h.isFinal]
  constructor
  · rintro ⟨p, hp, f, hreach, hf⟩
    cases List.mem_singleton.mp hp
    rw [Closes, hstep] at hreach
    exact ⟨f, hreach, (hfinal f).mp hf⟩
  · rintro ⟨f, hreach, hf⟩
    refine ⟨q, List.mem_singleton_self q, f, ?_, (hfinal f).mpr hf⟩
    rw [Closes, hstep]
    exact hreach

end Enters

/-! ### End anchors -/

/-- The NFA whose final states are joined by those of a list from which a final one lies behind end anchors. -/
structure Marks (N M : NFAChar) (done : List Nat) : Prop where
  start : M.start = N.start
  numStates : M.numStates = N.numStates
  transitions : M.transitionsFrom = N.transitionsFrom
  isFinal : ∀ q, M.isFinal q = true ↔ N.isFinal q = true ∨ q ∈ done ∧ N.automaton.Accepting {q' | q' ∈ [q]}

variable {M : NFAChar} {done : List Nat}

/-- What is final only through a mark does not make others accepting. -/
theorem Marks.accepting_iff (h : Marks N M done) : M.automaton.Accepting {q' | q' ∈ [q]} ↔ N.automaton.Accepting {q' | q' ∈ [q]} := by
  have hcloses : M.automaton.Closes = N.automaton.Closes := by
    unfold Closes automaton
    dsimp only
    rw [h.transitions]
  constructor
  · rintro ⟨p, hp, f, hreach, hf⟩
    rw [hcloses] at hreach
    rcases (h.isFinal f).mp hf with hf | ⟨-, f', hf', g, hreach', hg⟩
    · exact ⟨p, hp, f, hreach, hf⟩
    · cases List.mem_singleton.mp hf'
      exact ⟨p, hp, g, Relation.ReflTransGen.trans hreach hreach', hg⟩
  · rintro ⟨p, hp, f, hreach, hf⟩
    exact ⟨p, hp, f, hcloses ▸ hreach, (h.isFinal f).mpr (.inl hf)⟩

theorem marks_foldl (hlt : ∀ q ∈ done, q < N.numStates) : Marks N (done.foldl (markFinal ops) N) done := by
  induction done using List.reverseRecOn with
  | nil => exact ⟨rfl, rfl, rfl, fun q => by simp⟩
  | append_singleton done i ih =>
    have h := ih fun q hq => hlt q (List.mem_append_left _ hq)
    have hi := hlt i (List.mem_append_right _ List.mem_cons_self)
    rw [List.foldl_append, List.foldl_cons, List.foldl_nil]
    generalize done.foldl (markFinal ops) N = M at h
    have hmark : M.canReachFinalThroughEndAnchors [i] = true ↔ N.automaton.Accepting {q' | q' ∈ [i]} :=
      canReachFinal_iff.trans h.accepting_iff
    unfold markFinal
    split
    · rename_i hreach
      refine ⟨(ops.start_setFinal _ _ _).trans h.start, (ops.numStates_setFinal _ _ _).trans h.numStates,
        (ops.transitions_setFinal _ _ _).trans h.transitions, ?_⟩
      intro q
      rw [ops.isFinal_setFinal _ _ _ _ (h.numStates.symm ▸ hi)]
      by_cases hq : q = i
      · subst hq
        exact iff_of_true (if_pos rfl) (.inr ⟨List.mem_append_right _ List.mem_cons_self, hmark.mp hreach⟩)
      · simp [hq, h.isFinal]
    · rename_i hreach
      refine ⟨h.start, h.numStates, h.transitions, ?_⟩
      intro q
      rw [h.isFinal, List.mem_append, List.mem_singleton, or_and_right]
      refine or_congr_right (or_iff_left ?_).symm
      rintro ⟨rfl, haccepting⟩
      exact hreach (hmark.mpr haccepting)

/-- The states above those of the NFA are not accepting. -/
theorem or_iff_accepting : (N.isFinal q = true ∨ q < N.numStates ∧ N.automaton.Accepting {q' | q' ∈ [q]}) ↔
    N.automaton.Accepting {q' | q' ∈ [q]} := by
  constructor
  · rintro (hq | ⟨-, hq⟩)
    · exact ⟨q, List.mem_singleton_self q, q, .refl, hq⟩
    · exact hq
  · rintro ⟨p, hp, f, hreach, hf⟩
    cases List.mem_singleton.mp hp
    by_cases heq : f = q
    · exact .inl (heq ▸ hf)
    · have hlt := hreach
      rw [Closes, ← anchorStep_end_eq] at hlt
      exact .inr ⟨(lt_of_reaches hlt heq).1, q, List.mem_singleton_self q, f, hreach, hf⟩

/-! ### Normalization -/

/-- The normalized NFA accepts, without anchors, what the NFA accepts when it may cross start anchors each time that it is at its
    start. -/
theorem plainlyAccepts_normalize : (nfa.normalizeFullStringAnchors ops).automaton.PlainlyAccepts x ↔
    nfa.automaton.ReentrantRun nfa.start x := by
  rw [← normalize_plainRun_iff]
  have hE : Enters nfa (nfa.enterStartClosure ops) nfa.startAnchorClosure := enters_enterStartClosure
  generalize hN : nfa.enterStartClosure ops = N at hE
  have hall : (List.range N.numStates).takeWhile (fun state => state ≤ u32Max) = List.range N.numStates := by
    refine List.takeWhile_eq_self_iff.mpr ?_
    intro q hq
    have := (List.mem_range.mp hq).trans_le N.numStates_le
    exact decide_eq_true (Nat.le_of_lt_succ this)
  have hM : Marks N ((List.range N.numStates).foldl (markFinal ops) N) (List.range N.numStates) :=
    marks_foldl fun q hq => List.mem_range.mp hq
  have hnormal : nfa.normalizeFullStringAnchors ops = ops.finalize ((List.range N.numStates).foldl (markFinal ops) N) := by
    rw [normalizeFullStringAnchors, hN, hall]
  generalize (List.range N.numStates).foldl (markFinal ops) N = M at hM hnormal
  rw [hnormal]
  have hstart : (ops.finalize M).start = nfa.start := (ops.start_finalize M).trans (hM.start.trans hE.start)
  have htransitions : ∀ s t, t ∈ (ops.finalize M).transitionsFrom s ↔ t ∈ N.transitionsFrom s := by
    intro s t
    rw [ops.mem_transitions_finalize, hM.transitions]
  have heps : ∀ p q, (ops.finalize M).automaton.eps p q ↔ nfa.automaton.normalize.eps p q := by
    intro p q
    refine Iff.trans ?_ hE.eps_iff
    simp only [automaton, htransitions]
  have hread : ∀ c p q, (ops.finalize M).automaton.read c p q ↔ nfa.automaton.normalize.read c p q := by
    intro c p q
    refine Iff.trans ?_ hE.read_iff
    simp only [automaton, htransitions]
  have hfinal : ∀ q, (ops.finalize M).automaton.final q ↔ nfa.automaton.normalize.final q := by
    intro q
    rw [← hE.accepting_iff]
    show (ops.finalize M).isFinal q = true ↔ _
    rw [ops.isFinal_finalize, hM.isFinal, List.mem_range, or_iff_accepting]
  rw [PlainlyAccepts, show (ops.finalize M).automaton.start = nfa.start from hstart]
  constructor
  · exact fun h => h.mono (fun q => (hfinal q).mp) (fun p q => (heps p q).mp) fun c p q => (hread c p q).mp
  · exact fun h => h.mono (fun q => (hfinal q).mpr) (fun p q => (heps p q).mpr) fun c p q => (hread c p q).mpr

/-- Without anchors, the normalized NFA accepts the anchored language just when crossing start anchors at a later visit of the
    start accepts nothing more; so it does when no transition leads back to the start. -/
theorem normalize_language_iff (ops : NfaEditor) (nfa : NFAChar) :
    ((∀ x, (nfa.normalizeFullStringAnchors ops).automaton.PlainlyAccepts x ↔ nfa.automaton.Accepts x) ↔
      ∀ x, nfa.automaton.ReentrantRun nfa.start x → nfa.automaton.Accepts x) ∧
    ((∀ s, ∀ t ∈ nfa.transitionsFrom s, t.target ≠ nfa.start) →
      ∀ x, (nfa.normalizeFullStringAnchors ops).automaton.PlainlyAccepts x ↔ nfa.automaton.Accepts x) := by
  have hiff : (∀ x, (nfa.normalizeFullStringAnchors ops).automaton.PlainlyAccepts x ↔ nfa.automaton.Accepts x) ↔
      ∀ x, nfa.automaton.ReentrantRun nfa.start x → nfa.automaton.Accepts x := by
    refine forall_congr' fun x => ?_
    rw [plainlyAccepts_normalize]
    exact ⟨Iff.mp, fun h => ⟨h, Accepts.reentrant⟩⟩
  refine ⟨hiff, ?_⟩
  intro hentered
  have hunentered : nfa.automaton.Unentered := by
    intro p
    refine ⟨?_, ?_, ?_, ?_⟩
    · rintro ⟨t, ht, -, htarget⟩
      exact hentered p t ht htarget
    · rintro ⟨t, ht, -, htarget⟩
      exact hentered p t ht htarget
    · rintro ⟨t, ht, -, htarget⟩
      exact hentered p t ht htarget
    · rintro c ⟨t, ht, -, htarget⟩
      exact hentered p t ht htarget
  exact hiff.mpr fun x => hunentered.accepts_of_reentrant

/-! ### Editing -/

/-- The edits of NFAs whose closures are computed. -/
def editor : NfaEditor where
  addEpsilon nfa p q :=
    if h : p < nfa.numStates ∧ q < nfa.numStates then
      ofTransitions nfa.start nfa.numStates
        (fun s => if s = p then nfa.transitionsFrom s ++ [⟨.epsilon, q⟩] else nfa.transitionsFrom s) nfa.isFinal nfa.numStates_le
        (by
          intro s t ht
          split at ht
          · rename_i hs
            rcases List.mem_append.mp ht with ht | ht
            · exact nfa.transition_lt s t ht
            · rw [List.mem_singleton.mp ht, hs]
              exact h
          · exact nfa.transition_lt s t ht)
        nfa.final_lt
    else nfa
  setFinal nfa p b :=
    ofTransitions nfa.start nfa.numStates nfa.transitionsFrom
      (fun s => if s = p ∧ p < nfa.numStates then b else nfa.isFinal s) nfa.numStates_le nfa.transition_lt
      (by
        intro s hs
        split at hs
        · rename_i h
          exact h.1 ▸ h.2
        · exact nfa.final_lt s hs)
  finalize nfa := nfa
  start_addEpsilon nfa p q := by
    split
    · rfl
    · rfl
  numStates_addEpsilon nfa p q hp hq := by
    rw [dif_pos ⟨hp, hq⟩]
    rfl
  isFinal_addEpsilon nfa p q := by
    split
    · rfl
    · rfl
  mem_transitions_addEpsilon nfa p q s t hp hq := by
    rw [dif_pos ⟨hp, hq⟩]
    show t ∈ (if s = p then _ else _) ↔ _
    split
    · rename_i hs
      simp [hs]
    · rename_i hs
      simp [hs]
  start_setFinal _ _ _ := rfl
  numStates_setFinal _ _ _ := rfl
  transitions_setFinal _ _ _ := rfl
  isFinal_setFinal nfa p b s hp := by
    show (if s = p ∧ p < nfa.numStates then b else nfa.isFinal s) = _
    simp only [hp, and_true]
  start_finalize _ := rfl
  isFinal_finalize _ := rfl
  mem_transitions_finalize _ _ _ := Iff.rfl

/-- The start `0` leads over a start anchor to the final state `1`, which leads back to it over `a`. -/
def reentrantNfa : NFAChar :=
  ofTransitions 0 2 (fun s => if s = 0 then [⟨.startOfInput, 1⟩] else if s = 1 then [⟨.char 'a', 0⟩] else []) (fun s => s == 1)
    (by decide)
    (by
      intro s t ht
      split at ht
      · rename_i hs
        rw [List.mem_singleton.mp ht, hs]
        exact ⟨by decide, by decide⟩
      · split at ht
        · rename_i hs
          rw [List.mem_singleton.mp ht, hs]
          exact ⟨by decide, by decide⟩
        · cases ht)
    (by
      intro s hs
      rw [eq_of_beq hs]
      decide)

/-- The start has an epsilon beside its anchor, and is entered again over `a`. -/
def loopNfa : NFAChar := ofTable 0 [[⟨.startOfInput, 1⟩, ⟨.epsilon, 1⟩], [⟨.char 'a', 0⟩]] [1] (by decide) (by decide) (by decide)

/-- Anchors stand before and behind a loop over `a`. -/
def anchoredNfa : NFAChar :=
  ofTable 0 [[⟨.startOfInput, 1⟩], [⟨.char 'a', 1⟩, ⟨.endOfInput, 2⟩], []] [2] (by decide) (by decide) (by decide)

/-- The normalization of the one and of the other keeps the language. -/
theorem normalize_language_iff_loops :
    (∀ x, (loopNfa.normalizeFullStringAnchors editor).automaton.PlainlyAccepts x ↔ loopNfa.automaton.Accepts x) ∧
    loopNfa.automaton.Accepts ['a'] ∧
    (∀ x, (anchoredNfa.normalizeFullStringAnchors editor).automaton.PlainlyAccepts x ↔ anchoredNfa.automaton.Accepts x) ∧
    anchoredNfa.automaton.Accepts ['a', 'a'] := by
  have hepsilon : loopNfa.automaton.eps 0 1 := ⟨⟨.epsilon, 1⟩, List.mem_cons_of_mem _ List.mem_cons_self, rfl, rfl⟩
  have hsilent : ∀ p q, loopNfa.automaton.opening p q → loopNfa.automaton.eps p q := by
    rintro p q ⟨t, ht, hlabel, rfl⟩
    obtain ⟨row, hrow, ht⟩ := mem_ofTable.mp ht
    match p with
    | 0 =>
      cases hrow
      rcases List.mem_pair.mp ht with rfl | rfl
      · exact hepsilon
      · cases hlabel
    | 1 =>
      cases hrow
      cases List.mem_singleton.mp ht
      cases hlabel
    | p + 2 => cases hrow
  have hunentered : ∀ s, ∀ t ∈ anchoredNfa.transitionsFrom s, t.target ≠ anchoredNfa.start := by
    intro s t ht
    obtain ⟨row, hrow, ht⟩ := mem_ofTable.mp ht
    have hrows : ∀ row ∈ [[⟨.startOfInput, 1⟩], [⟨.char 'a', 1⟩, ⟨.endOfInput, 2⟩], []], ∀ t : NfaTransition, t ∈ row → t.target ≠ 0 := by
      simp
    exact hrows row (List.mem_of_getElem? hrow) t ht
  have hread : anchoredNfa.automaton.read 'a' 1 1 := ⟨⟨.char 'a', 1⟩, List.mem_cons_self, rfl, rfl⟩
  have hclosing : anchoredNfa.automaton.closing 1 2 := ⟨⟨.endOfInput, 2⟩, List.mem_cons_of_mem _ List.mem_cons_self, rfl, rfl⟩
  refine ⟨(normalize_language_iff editor loopNfa).1.mpr fun x hx => (hx.inside hsilent).before (by decide), ?_,
    (normalize_language_iff editor anchoredNfa).2 hunentered, ?_⟩
  · have hloop : loopNfa.automaton.read 'a' 1 0 := ⟨⟨.char 'a', 0⟩, List.mem_cons_self, rfl, rfl⟩
    exact .eps hepsilon (.read (by decide) hloop (.eps hepsilon (.stop rfl)))
  · have hopening : anchoredNfa.automaton.opening 0 1 := ⟨⟨.startOfInput, 1⟩, List.mem_cons_self, rfl, rfl⟩
    exact .opening hopening (.read (by decide) hread (.read (by decide) hread (.closing hclosing (.stop rfl))))

/-- The normalization accepts `a`, which ends at the start; the anchor is not crossed again there. -/
theorem not_normalize_language : (reentrantNfa.normalizeFullStringAnchors editor).automaton.PlainlyAccepts ['a'] ∧
    ¬reentrantNfa.automaton.Accepts ['a'] := by
  have hopening : reentrantNfa.automaton.opening 0 1 := ⟨⟨.startOfInput, 1⟩, List.mem_cons_self, rfl, rfl⟩
  have hread : reentrantNfa.automaton.read 'a' 1 0 := ⟨⟨.char 'a', 0⟩, List.mem_cons_self, rfl, rfl⟩
  have hinitial : 1 ∈ reentrantNfa.automaton.initial := .single (.inr hopening)
  have hfinal : reentrantNfa.automaton.final 1 := rfl
  refine ⟨plainlyAccepts_normalize.mpr (.enter hinitial (.read hread (.enter hinitial (.stop hfinal)))), ?_⟩
  intro haccepts
  obtain ⟨q, -, hrun⟩ := run_before_iff.mp haccepts
  obtain ⟨p, q', -, hread', hrun⟩ := run_cons hrun rfl
  -- The character is read into the start, from where only the anchor leads on.
  have hstart : q' = 0 := by
    obtain ⟨t, ht, hlabel, rfl⟩ := hread'
    change t ∈ (if p = 0 then [⟨.startOfInput, 1⟩] else if p = 1 then [⟨.char 'a', 0⟩] else []) at ht
    split at ht
    · cases List.mem_singleton.mp ht
      cases hlabel
    · split at ht
      · cases List.mem_singleton.mp ht
        rfl
      · cases ht
  subst hstart
  obtain ⟨f, hcloses, hf⟩ := hrun.closes (by decide) rfl
  rcases Relation.ReflTransGen.cases_head hcloses with rfl | ⟨r, ⟨t, ht, hlabel, -⟩ | ⟨t, ht, hlabel, -⟩, -⟩
  · cases hf
  · cases List.mem_singleton.mp ht
    cases hlabel
  · cases List.mem_singleton.mp ht
    cases hlabel

end Duallity.NFAChar
