import Duallity.Phonetic.NfaWfst

/-! The candidates and the successors of a state set. Each character of the alphabet that a label reads is a candidate, and the
    successors of a candidate are the targets of the transitions that read it. -/

namespace Duallity

/-! ### Candidates -/

namespace CandidateChars
variable {chars chars' chars'' : CandidateChars} {c d : Char}

/-- The candidates are distinct, and the hash set has just them. -/
structure WellFormed (chars : CandidateChars) : Prop where
  nodup : chars.ordered.Nodup
  seen : ∀ seen, chars.seen = some seen → ∀ c, c ∈ seen ↔ c ∈ chars.ordered

theorem wellFormed_empty : WellFormed empty := ⟨.nil, nofun⟩

/-- Candidates are added to well-formed ones. -/
structure Extends (chars chars' : CandidateChars) : Prop where
  wellFormed : WellFormed chars'
  subset : chars.ordered ⊆ chars'.ordered

theorem WellFormed.extends_self (h : WellFormed chars) : Extends chars chars := ⟨h, List.Subset.refl _⟩

theorem Extends.trans (h : Extends chars chars') (h' : Extends chars' chars'') : Extends chars chars'' :=
  ⟨h'.wellFormed, List.Subset.trans h.subset h'.subset⟩

theorem WellFormed.snoc (h : WellFormed chars) (hc : c ∉ chars.ordered) {seen : Option (List Char)}
    (hseen : ∀ s, seen = some s → ∀ d, d ∈ s ↔ d = c ∨ d ∈ chars.ordered) :
    Extends chars ⟨chars.ordered ++ [c], seen⟩ where
  wellFormed := by
    refine ⟨List.nodup_append.mpr ⟨h.nodup, List.nodup_singleton c, ?_⟩, ?_⟩
    · intro x hx y hy heq
      rw [heq, List.mem_singleton.mp hy] at hx
      exact hc hx
    · intro s hs d
      rw [hseen s hs d, List.mem_append, List.mem_singleton]
      exact or_comm
  subset := List.subset_append_left _ _

theorem WellFormed.pushUnique (h : WellFormed chars) (c : Char) :
    Extends chars (chars.pushUnique c) ∧ c ∈ (chars.pushUnique c).ordered := by
  unfold CandidateChars.pushUnique
  split
  · rename_i seen hseen
    split
    · rename_i hc
      exact ⟨h.extends_self, (h.seen seen hseen c).mp (List.contains_iff_mem.mp hc)⟩
    · rename_i hc
      have hnew : c ∉ chars.ordered := fun hmem => hc (List.contains_iff_mem.mpr ((h.seen seen hseen c).mpr hmem))
      refine ⟨h.snoc hnew ?_, List.mem_append_right _ List.mem_cons_self⟩
      rintro _ ⟨⟩ d
      rw [List.mem_cons, h.seen seen hseen]
  · split
    · rename_i hc
      exact ⟨h.extends_self, List.contains_iff_mem.mp hc⟩
    · rename_i hc
      have hnew : c ∉ chars.ordered := fun hmem => hc (List.contains_iff_mem.mpr hmem)
      split
      · refine ⟨h.snoc hnew ?_, List.mem_append_right _ List.mem_cons_self⟩
        rintro _ ⟨⟩ d
        exact List.mem_cons
      · exact ⟨h.snoc hnew nofun, List.mem_append_right _ List.mem_cons_self⟩

/-- A loop whose rounds add candidates adds what each of them does. -/
theorem WellFormed.foldl {α : Type} {f : CandidateChars → α → CandidateChars} (h : WellFormed chars)
    (hf : ∀ chars x, WellFormed chars → Extends chars (f chars x)) (xs : List α) :
    Extends chars (xs.foldl f chars) ∧
      ∀ x ∈ xs, ∀ c, (∀ chars, WellFormed chars → c ∈ (f chars x).ordered) → c ∈ (xs.foldl f chars).ordered := by
  induction xs generalizing chars with
  | nil => exact ⟨h.extends_self, nofun⟩
  | cons x xs ih =>
    have hx := hf chars x h
    obtain ⟨hext, hmem⟩ := ih hx.wellFormed
    refine ⟨hx.trans hext, ?_⟩
    intro y hy c hc
    rcases List.mem_cons.mp hy with rfl | hy
    · exact hext.subset (hc chars h)
    · exact hmem y hy c hc

theorem WellFormed.pushBoundedCharRange (h : WellFormed chars) (start stop : Char) :
    Extends chars (Duallity.pushBoundedCharRange chars start stop) := by
  unfold Duallity.pushBoundedCharRange
  split
  · exact h.extends_self
  · split
    · exact h.extends_self
    · refine (h.foldl ?_ _).1
      intro chars offset h
      split
      · exact (h.pushUnique _).1
      · exact h.extends_self

end CandidateChars

namespace PhoneticNfaWfst
open CandidateChars
variable {W : PhoneticNfaWfst} {chars : CandidateChars} {c : Char} {stateSet : List Nat} {p q : Nat}

theorem collectCharClassCandidates_spec (h : WellFormed chars) (cls : CharClassChar) :
    Extends chars (W.collectCharClassCandidates cls chars) ∧
      ∀ c ∈ W.alphabet, cls.matchesChar c = true → c ∈ (W.collectCharClassCandidates cls chars).ordered := by
  have halphabet := h.foldl (f := fun chars candidate => if cls.matchesChar candidate then chars.pushUnique candidate else chars)
    (fun chars candidate h => by
      split
      · exact (h.pushUnique _).1
      · exact h.extends_self) W.alphabet
  have hmem : ∀ c ∈ W.alphabet, cls.matchesChar c = true → _ := fun c hc hmatches =>
    halphabet.2 c hc c fun chars h => by
      rw [if_pos hmatches]
      exact (h.pushUnique c).2
  unfold collectCharClassCandidates
  dsimp only
  split
  · exact ⟨halphabet.1, hmem⟩
  · have hranges := halphabet.1.wellFormed.foldl (f := fun chars range => Duallity.pushBoundedCharRange chars range.1 range.2)
      (fun chars range h => h.pushBoundedCharRange range.1 range.2) cls.ranges
    exact ⟨halphabet.1.trans hranges.1, fun c hc hmatches => hranges.1.subset (hmem c hc hmatches)⟩

theorem collectLabelCandidates_spec (h : WellFormed chars) (label : TransitionLabelChar) :
    Extends chars (W.collectLabelCandidates label chars) ∧
      ∀ c ∈ W.alphabet, label.reads c = true → c ∈ (W.collectLabelCandidates label chars).ordered := by
  cases label with
  | char d =>
    refine ⟨(h.pushUnique d).1, ?_⟩
    intro c _ hreads
    rw [← eq_of_beq hreads]
    exact (h.pushUnique d).2
  | charClass cls => exact collectCharClassCandidates_spec h cls
  | any =>
    have hall := h.foldl (fun chars candidate h => (h.pushUnique candidate).1) W.alphabet
    exact ⟨hall.1, fun c hc _ => hall.2 c hc c fun chars h => (h.pushUnique c).2⟩
  | _ => exact ⟨h.extends_self, fun _ _ hreads => absurd hreads Bool.false_ne_true⟩

theorem consumesInput_of_reads {label : TransitionLabelChar} (h : label.reads c = true) : label.consumesInput = true := by
  cases label <;> first | rfl | cases h

/-- The candidates are distinct, and a character of the alphabet is one when a transition reads it. -/
theorem candidates_spec : (W.candidates stateSet).ordered.Nodup ∧ ∀ p ∈ stateSet, ∀ t ∈ W.nfa.transitionsFrom p,
    ∀ c ∈ W.alphabet, t.label.reads c = true → c ∈ (W.candidates stateSet).ordered := by
  have htransition : ∀ chars (t : NfaTransition), WellFormed chars →
      Extends chars (if t.label.consumesInput then W.collectLabelCandidates t.label chars else chars) := by
    intro chars t h
    split
    · exact (collectLabelCandidates_spec h t.label).1
    · exact h.extends_self
  have hstates := wellFormed_empty.foldl (fun chars state h => (h.foldl htransition (W.nfa.transitionsFrom state)).1) stateSet
  refine ⟨hstates.1.wellFormed.nodup, ?_⟩
  intro p hp t ht c hc hreads
  refine hstates.2 p hp c fun chars h => (h.foldl htransition _).2 t ht c fun chars h => ?_
  rw [if_pos (consumesInput_of_reads hreads)]
  exact (collectLabelCandidates_spec h t.label).2 c hc hreads

end PhoneticNfaWfst

/-! ### Successors -/

namespace LabelSuccessors
variable {slots : LabelSuccessors} {c : Char} {q : Nat} {label : TransitionLabelChar} {target : Nat}

/-- A state is among the successors of a candidate. -/
def Has (slots : LabelSuccessors) (c : Char) (q : Nat) : Prop := ∃ successors, (c, successors) ∈ slots ∧ q ∈ successors

theorem mem_insertState {states : List Nat} {state : Nat} : q ∈ insertState states state ↔ q ∈ states ∨ q = state := by
  unfold insertState
  split
  · rename_i hmem
    exact (or_iff_left_of_imp fun h => h ▸ List.contains_iff_mem.mp hmem).symm
  · rw [List.mem_append, List.mem_singleton]

theorem map_fst_insertWhere {pass : Char → Bool} : (slots.insertWhere pass target).map Prod.fst = slots.map Prod.fst := by
  rw [insertWhere, List.map_map]
  refine List.map_congr_left ?_
  rintro ⟨candidate, successors⟩ -
  dsimp only [Function.comp_apply]
  split
  · rfl
  · rfl

theorem has_insertWhere {pass : Char → Bool} : (slots.insertWhere pass target).Has c q ↔
    slots.Has c q ∨ c ∈ slots.map Prod.fst ∧ pass c = true ∧ q = target := by
  constructor
  · rintro ⟨successors, hmem, hq⟩
    obtain ⟨⟨candidate, old⟩, hslot, heq⟩ := List.mem_map.mp hmem
    dsimp only at heq
    split at heq
    · rename_i hpass
      cases heq
      rcases mem_insertState.mp hq with hq | rfl
      · exact .inl ⟨old, hslot, hq⟩
      · exact .inr ⟨List.mem_map_of_mem hslot, hpass, rfl⟩
    · cases heq
      exact .inl ⟨_, hslot, hq⟩
  · rintro (⟨successors, hslot, hq⟩ | ⟨hmem, hpass, rfl⟩)
    · by_cases hpass : pass c = true
      · exact ⟨_, List.mem_map.mpr ⟨_, hslot, if_pos hpass⟩, mem_insertState.mpr (.inl hq)⟩
      · exact ⟨_, List.mem_map.mpr ⟨_, hslot, if_neg hpass⟩, hq⟩
    · obtain ⟨⟨candidate, successors⟩, hslot, rfl⟩ := List.mem_map.mp hmem
      exact ⟨_, List.mem_map.mpr ⟨_, hslot, if_pos hpass⟩, mem_insertState.mpr (.inr rfl)⟩

theorem insertWhere_of_false {pass : Char → Bool} (h : ∀ slot ∈ slots, pass slot.1 = false) : slots.insertWhere pass target = slots := by
  rw [insertWhere]
  refine (List.map_congr_left ?_).trans (List.map_id slots)
  rintro ⟨candidate, successors⟩ hslot
  exact if_neg (Bool.eq_false_iff.mp (h _ hslot))

/-- The slot of a literal is the only one that it reads. -/
theorem modify_slot (hslots : (slots.map Prod.fst).Nodup) (d : Char) :
    (match slot? slots d with
      | some i => slots.modify i fun (candidate, successors) => (candidate, insertState successors target)
      | none => slots) = insertWhere slots (fun c => d == c) target := by
  induction slots with
  | nil => rfl
  | cons slot slots ih =>
    obtain ⟨hnew, hslots⟩ := List.nodup_cons.mp hslots
    have hcons : slot? (slot :: slots) d = if d == slot.1 then some 0 else (slot? slots d).map (· + 1) := List.findIdx?_cons
    rw [hcons]
    by_cases hd : (d == slot.1) = true
    · have hrest : insertWhere slots (fun c => d == c) target = slots := by
        refine insertWhere_of_false ?_
        intro other hother
        refine beq_eq_false_iff_ne.mpr ?_
        intro heq
        rw [← eq_of_beq hd, heq] at hnew
        exact hnew (List.mem_map_of_mem hother)
      rw [if_pos hd]
      dsimp only
      rw [List.modify_zero_cons]
      show _ = (if d == slot.1 then _ else _) :: insertWhere slots (fun c => d == c) target
      rw [if_pos hd, hrest]
    · rw [if_neg hd]
      show _ = (if d == slot.1 then _ else _) :: insertWhere slots (fun c => d == c) target
      rw [if_neg hd, ← ih hslots]
      cases slot? slots d with
      | none => rfl
      | some i => rfl

/-- A label inserts its target for the candidates that it reads. -/
theorem collectLabelSuccessors_eq (hslots : (slots.map Prod.fst).Nodup) :
    collectLabelSuccessors label target slots = slots.insertWhere label.reads target := by
  cases label with
  | char d => exact modify_slot hslots d
  | charClass cls => rfl
  | any => rfl
  | _ => exact (insertWhere_of_false fun _ _ => rfl).symm

/-- The targets of a list of transitions. -/
theorem foldl_collect (hslots : (slots.map Prod.fst).Nodup) (ts : List NfaTransition) :
    (ts.foldl (fun slots t => collectLabelSuccessors t.label t.target slots) slots).map Prod.fst = slots.map Prod.fst ∧
      ∀ c q, (ts.foldl (fun slots t => collectLabelSuccessors t.label t.target slots) slots).Has c q ↔
        slots.Has c q ∨ c ∈ slots.map Prod.fst ∧ ∃ t ∈ ts, t.label.reads c = true ∧ t.target = q := by
  induction ts generalizing slots with
  | nil => exact ⟨rfl, by simp⟩
  | cons t ts ih =>
    have hfst : (collectLabelSuccessors t.label t.target slots).map Prod.fst = slots.map Prod.fst := by
      rw [collectLabelSuccessors_eq hslots, map_fst_insertWhere]
    obtain ⟨hmap, hhas⟩ := ih (hfst.symm ▸ hslots)
    rw [List.foldl_cons]
    refine ⟨hmap.trans hfst, fun c q => (hhas c q).trans ?_⟩
    rw [hfst, collectLabelSuccessors_eq hslots, has_insertWhere, or_assoc, ← and_or_left]
    simp only [List.mem_cons, exists_eq_or_imp, eq_comm (a := q)]

end LabelSuccessors

namespace PhoneticNfaWfst
open LabelSuccessors
variable {W : PhoneticNfaWfst} {c : Char} {stateSet : List Nat} {q : Nat}

theorem foldl_states {slots : LabelSuccessors} (hslots : (slots.map Prod.fst).Nodup) (states : List Nat) :
    (states.foldl (fun slots state => (W.nfa.transitionsFrom state).foldl (fun slots t =>
        collectLabelSuccessors t.label t.target slots) slots) slots).map Prod.fst = slots.map Prod.fst ∧
      ∀ c q, (states.foldl (fun slots state => (W.nfa.transitionsFrom state).foldl (fun slots t =>
        collectLabelSuccessors t.label t.target slots) slots) slots).Has c q ↔
        slots.Has c q ∨ c ∈ slots.map Prod.fst ∧ ∃ p ∈ states, W.nfa.automaton.read c p q := by
  induction states generalizing slots with
  | nil => exact ⟨rfl, by simp⟩
  | cons state states ih =>
    obtain ⟨hfst, hstate⟩ := foldl_collect hslots (W.nfa.transitionsFrom state)
    obtain ⟨hmap, hhas⟩ := ih (hfst.symm ▸ hslots)
    rw [List.foldl_cons]
    refine ⟨hmap.trans hfst, fun c q => (hhas c q).trans ?_⟩
    rw [hfst, hstate, or_assoc, ← and_or_left]
    simp only [List.mem_cons, exists_eq_or_imp, NFAChar.automaton]

/-- The successors of a candidate are the targets of the transitions that read it. -/
theorem successorsByChar_spec : (W.successorsByChar stateSet).map Prod.fst = (W.candidates stateSet).ordered ∧
    ∀ c q, (W.successorsByChar stateSet).Has c q ↔
      c ∈ (W.candidates stateSet).ordered ∧ ∃ p ∈ stateSet, W.nfa.automaton.read c p q := by
  have hnew : (LabelSuccessors.new (W.candidates stateSet).ordered).map Prod.fst = (W.candidates stateSet).ordered := by
    rw [LabelSuccessors.new, List.map_map]
    exact List.map_id _
  obtain ⟨hmap, hhas⟩ := foldl_states (hnew.symm ▸ candidates_spec.1) stateSet
  refine ⟨hmap.trans hnew, fun c q => (hhas c q).trans ?_⟩
  rw [hnew]
  refine or_iff_right ?_
  rintro ⟨successors, hmem, hq⟩
  obtain ⟨candidate, -, heq⟩ := List.mem_map.mp hmem
  cases heq
  cases hq

theorem nodup_successorsByChar : ((W.successorsByChar stateSet).map Prod.fst).Nodup :=
  successorsByChar_spec.1.symm ▸ candidates_spec.1

/-! ### Pending targets -/

theorem mem_pendingTargets_iff {next key : List Nat} : (c, next, key) ∈ W.pendingTargets stateSet ↔
    ∃ successors, (c, successors) ∈ W.successorsByChar stateSet ∧ successors ≠ [] ∧ next = W.nfa.epsilonClosure successors ∧
      key = stateSetToKey next := by
  unfold pendingTargets
  rw [List.mem_filterMap]
  constructor
  · rintro ⟨⟨c', successors⟩, hslot, h⟩
    dsimp only at h
    obtain ⟨hne, h⟩ := Option.ite_none_left_eq_some.mp h
    cases h
    exact ⟨successors, hslot, fun hnil => hne (List.isEmpty_iff.mpr hnil), rfl, rfl⟩
  · rintro ⟨successors, hslot, hne, rfl, rfl⟩
    exact ⟨_, hslot, if_neg fun hnil => hne (List.isEmpty_iff.mp hnil)⟩

/-- The characters of the pending targets are distinct. -/
theorem nodup_pendingTargets : ((W.pendingTargets stateSet).map Prod.fst).Nodup := by
  refine List.Nodup.sublist ?_ (@nodup_successorsByChar W stateSet)
  unfold pendingTargets
  generalize W.successorsByChar stateSet = slots
  induction slots with
  | nil => exact List.Sublist.refl _
  | cons slot slots ih =>
    rw [List.filterMap_cons]
    split
    · exact ih.cons _
    · rename_i target htarget
      obtain ⟨-, h⟩ := Option.ite_none_left_eq_some.mp htarget
      cases h
      exact ih.cons_cons _

theorem candidate_of_mem_pendingTargets {next key : List Nat} (h : (c, next, key) ∈ W.pendingTargets stateSet) :
    c ∈ (W.candidates stateSet).ordered := by
  obtain ⟨successors, hslot, -⟩ := mem_pendingTargets_iff.mp h
  rw [← successorsByChar_spec.1]
  exact List.mem_map_of_mem hslot

/-- A pending target is the state set after its character. -/
theorem mem_pendingTargets {next key : List Nat} (h : (c, next, key) ∈ W.pendingTargets stateSet) :
    next.Nodup ∧ key = stateSetToKey next ∧ {q | q ∈ next} = W.nfa.automaton.next {q | q ∈ stateSet} c ∧ next ≠ [] := by
  obtain ⟨successors, hslot, hne, rfl, hkey⟩ := mem_pendingTargets_iff.mp h
  have hhas : ∀ q, q ∈ successors ↔ ∃ p ∈ stateSet, W.nfa.automaton.read c p q := by
    intro q
    have hmem := candidate_of_mem_pendingTargets h
    refine Iff.trans ⟨fun hq => ⟨successors, hslot, hq⟩, ?_⟩ ((successorsByChar_spec.2 c q).trans (and_iff_right hmem))
    rintro ⟨successors', hslot', hq⟩
    cases List.inj_on_of_nodup_map nodup_successorsByChar hslot hslot' rfl
    exact hq
  refine ⟨W.nfa.nodup_epsilonClosure _, hkey, ?_, ?_⟩
  · ext q
    show q ∈ W.nfa.epsilonClosure successors ↔ _
    rw [W.nfa.mem_epsilonClosure]
    constructor
    · rintro ⟨p', hp', hreach⟩
      obtain ⟨p, hp, hread⟩ := (hhas p').mp hp'
      exact ⟨p, hp, p', hread, hreach⟩
    · rintro ⟨p, hp, p', hread, hreach⟩
      exact ⟨p', (hhas p').mpr ⟨p, hp, hread⟩, hreach⟩
  · intro hnil
    obtain ⟨q, hq⟩ := List.exists_mem_of_ne_nil _ hne
    have hmem := (W.nfa.mem_epsilonClosure successors q).mpr ⟨q, hq, .refl⟩
    rw [hnil] at hmem
    cases hmem

/-- A state set that reading a character of the alphabet leads to is pending. -/
theorem exists_pendingTarget (hc : c ∈ W.alphabet) (hq : q ∈ W.nfa.automaton.next {q | q ∈ stateSet} c) :
    ∃ next key, (c, next, key) ∈ W.pendingTargets stateSet := by
  obtain ⟨p, hp, p', hread, -⟩ := hq
  obtain ⟨t, ht, hreads, -⟩ := id hread
  have hcandidate := candidates_spec.2 p hp t ht c hc hreads
  obtain ⟨successors, hslot, hp'⟩ := (successorsByChar_spec.2 c p').mpr ⟨hcandidate, p, hp, hread⟩
  exact ⟨_, _, mem_pendingTargets_iff.mpr ⟨successors, hslot, List.ne_nil_of_mem hp', rfl, rfl⟩⟩

end PhoneticNfaWfst
end Duallity
