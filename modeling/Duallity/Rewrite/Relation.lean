import Duallity.Lib.Alignment
import Duallity.Rewrite.Chains
import Duallity.Rewrite.Prune

/-! The relation of a rewrite transducer. A path from home to home applies one rule, or copies one character, after the other;
    pruning leaves the cheapest of the arcs that differ in their weight only. -/

namespace Duallity

/-- What is rewritten at once: a rule that is not empty, or a printable character that stays. -/
def RewritePiece (rules : List RewriteRule) (allowIdentity : Bool) (u v : List Char) (c : ℚ) : Prop :=
  (∃ rule ∈ rules, (rule.input ≠ [] ∨ rule.output ≠ []) ∧ u = rule.input ∧ v = rule.output ∧ c = rule.cost) ∨
    (allowIdentity = true ∧ ∃ ch : Char, 0x20 ≤ ch.toNat ∧ ch.toNat ≤ 0x7e ∧ u = [ch] ∧ v = [ch] ∧ c = 0)

namespace RewriteWfst
variable {wfst : RewriteWfst} {rule : RewriteRule} {i step s t : Nat} {x y : List Char} {v : ℚ}

/-! ### Transitions -/

/-- Where a rule leads after some steps: home when it is done. -/
def stepTarget (wfst : RewriteWfst) (i : Nat) (rule : RewriteRule) (step : Nat) : Nat :=
  if step = (PreparedRewriteRule.new rule).steps then 0 else wfst.stepState i step

/-- The arc of one step of a rule. -/
def ruleArc (wfst : RewriteWfst) (i : Nat) (rule : RewriteRule) (step : Nat) : Arc Nat Char Char ℚ :=
  ⟨wfst.stepState i step, rule.input[step]?, rule.output[step]?, wfst.stepTarget i rule (step + 1), if step = 0 then rule.cost else 0⟩

theorem Prepared.ruleStepTransition (h : wfst.Prepared) (hfit : wfst.ChainsFit) (hrule : wfst.rules[i]? = some rule) :
    wfst.ruleStepTransition i step =
      if step < (PreparedRewriteRule.new rule).steps then some (wfst.ruleArc i rule step) else none := by
  rw [RewriteWfst.ruleStepTransition, h.prepared, List.getElem?_map, hrule, Option.map_some, Option.bind_some]
  by_cases hlt : step < (PreparedRewriteRule.new rule).steps
  · have hsource : (if step = 0 then some 0 else wfst.continuationState i step) = some (wfst.stepState i step) := by
      cases step with
      | zero => rfl
      | succ step => rw [if_neg (Nat.succ_ne_zero step), h.continuationState hfit hrule hlt]
    have htarget : (if step + 1 = (PreparedRewriteRule.new rule).steps then some 0 else wfst.continuationState i (step + 1)) =
        some (wfst.stepTarget i rule (step + 1)) := by
      unfold stepTarget
      split
      · rfl
      · exact h.continuationState hfit hrule (by omega)
    rw [if_pos hlt, if_neg (by omega), hsource, htarget, Option.bind_some, Option.map_some]
    rfl
  · rw [if_neg hlt, if_pos (Or.inr (Nat.le_of_not_lt hlt))]

theorem mem_identityAlphabet {c : Char} : c ∈ identityAlphabet ↔ 0x20 ≤ c.toNat ∧ c.toNat ≤ 0x7e := by
  rw [identityAlphabet, List.mem_map]
  refine ⟨?_, ?_⟩
  · intro ⟨n, hn, hc⟩
    obtain ⟨hge, hlt⟩ := List.mem_range'_1.mp hn
    have hvalid : n.isValidChar := Or.inl (by omega)
    have htoNat : (Char.ofNat n).toNat = n := by
      rw [Char.ofNat, dif_pos hvalid]
      rfl
    rw [← hc, htoNat]
    omega
  · intro ⟨hge, hle⟩
    exact ⟨c.toNat, List.mem_range'_1.mpr ⟨hge, by omega⟩, Char.ofNat_toNat c⟩

/-- Home has an arc for the first step of each rule that is not empty, and the identity arcs. -/
theorem Prepared.mem_candidates_home (h : wfst.Prepared) (hfit : wfst.ChainsFit) {arc : Arc Nat Char Char ℚ} :
    arc ∈ wfst.transitionCandidates 0 ↔
      (∃ i rule, wfst.rules[i]? = some rule ∧ 0 < (PreparedRewriteRule.new rule).steps ∧ wfst.ruleArc i rule 0 = arc) ∨
        (wfst.allowIdentity = true ∧ ∃ c : Char, 0x20 ≤ c.toNat ∧ c.toNat ≤ 0x7e ∧ ⟨0, some c, some c, 0, 0⟩ = arc) := by
  rw [transitionCandidates, List.mem_append, if_pos rfl, List.mem_filterMap]
  refine or_congr ⟨?_, ?_⟩ ?_
  · intro ⟨i, hi, harc⟩
    have hlt := List.mem_range.mp (h.order.mem_iff.mp hi)
    have hrule : wfst.rules[i]? = some wfst.rules[i] := List.getElem?_eq_getElem hlt
    rw [h.ruleStepTransition hfit hrule] at harc
    obtain ⟨hpos, harc⟩ := Option.ite_none_right_eq_some.mp harc
    exact ⟨i, _, hrule, hpos, Option.some.inj harc⟩
  · intro ⟨i, rule, hrule, hpos, harc⟩
    refine ⟨i, h.order.mem_iff.mpr (List.mem_range.mpr (List.getElem?_eq_some_iff.mp hrule).1), ?_⟩
    rw [h.ruleStepTransition hfit hrule, if_pos hpos, harc]
  · by_cases hidentity : wfst.allowIdentity = true
    · rw [if_pos ⟨hidentity, rfl⟩, identityTransitions, List.mem_map]
      refine ⟨?_, ?_⟩
      · intro ⟨c, hc, harc⟩
        obtain ⟨hge, hle⟩ := mem_identityAlphabet.mp hc
        exact ⟨hidentity, c, hge, hle, harc⟩
      · intro ⟨_, c, hge, hle, harc⟩
        exact ⟨c, mem_identityAlphabet.mpr ⟨hge, hle⟩, harc⟩
    · rw [if_neg fun h => hidentity h.1]
      exact iff_of_false List.not_mem_nil fun h => hidentity h.1

/-- A continuation state has the arc of the next step of its rule. -/
theorem Prepared.candidates_step (h : wfst.Prepared) (hfit : wfst.ChainsFit) (hrule : wfst.rules[i]? = some rule)
    (hone : 1 ≤ step) (hstep : step < (PreparedRewriteRule.new rule).steps) :
    wfst.transitionCandidates (wfst.stepState i step) = [wfst.ruleArc i rule step] := by
  have hdecode := h.decode_eq_some_iff.mpr ⟨rule, hrule, hone, hstep, rfl⟩
  obtain ⟨step, rfl⟩ := Nat.exists_eq_add_of_le' hone
  have hne : wfst.stepState i (step + 1) ≠ 0 := Nat.succ_ne_zero _
  rw [transitionCandidates, if_neg hne, if_neg fun h => hne h.2, hdecode, Option.bind_some, List.append_nil]
  show (wfst.ruleStepTransition i (step + 1)).toList = _
  rw [h.ruleStepTransition hfit hrule, if_pos hstep]
  rfl

/-- Every candidate has a step that weighs at most as much. -/
theorem step_of_candidate {arc : Arc Nat Char Char ℚ} (hknown : wfst.isKnownState s = true)
    (harc : arc ∈ wfst.transitionCandidates s) :
    ∃ w ≤ arc.weight, (ArcPath.machine wfst.expandState).step s arc.input arc.output w arc.target := by
  obtain ⟨kept, hkept, hkey, hle⟩ := (reduces_prune _).least arc harc
  injection hkey with _ hkey
  injection hkey with hinput hkey
  injection hkey with houtput htarget
  refine ⟨kept.weight, hle, _, if_pos hknown, kept, ?_, hinput, houtput, rfl, htarget⟩
  rw [computeTransitions, if_pos hknown]
  exact hkept

theorem candidate_of_step {a b : Option Char} {w : ℚ} (h : (ArcPath.machine wfst.expandState).step s a b w t) :
    ∃ arc ∈ wfst.transitionCandidates s, arc.input = a ∧ arc.output = b ∧ arc.weight = w ∧ arc.target = t := by
  obtain ⟨e, he, arc, harc, heq⟩ := h
  obtain ⟨hknown, he⟩ := Option.ite_none_right_eq_some.mp he
  cases he
  rw [computeTransitions, if_pos hknown] at harc
  exact ⟨arc, (reduces_prune _).sub arc harc, heq⟩

/-! ### Paths -/

/-- What a path from home has done: whole pieces, and at a continuation state the first steps of its rule. -/
def Rewritten (wfst : RewriteWfst) (x y : List Char) (v : ℚ) (t : Nat) : Prop :=
  (t = 0 ∧ Alignment.Align (RewritePiece wfst.rules wfst.allowIdentity) x y v) ∨
    ∃ i rule step x₀ y₀ c, wfst.rules[i]? = some rule ∧ 1 ≤ step ∧ step < (PreparedRewriteRule.new rule).steps ∧
      t = wfst.stepState i step ∧ Alignment.Align (RewritePiece wfst.rules wfst.allowIdentity) x₀ y₀ c ∧
        x = x₀ ++ rule.input.take step ∧ y = y₀ ++ rule.output.take step ∧ v = c + rule.cost

theorem steps_pos_iff : 0 < (PreparedRewriteRule.new rule).steps ↔ rule.input ≠ [] ∨ rule.output ≠ [] := by
  rw [← List.length_pos_iff, ← List.length_pos_iff]
  exact lt_max_iff

theorem take_steps : rule.input.take (PreparedRewriteRule.new rule).steps = rule.input ∧
    rule.output.take (PreparedRewriteRule.new rule).steps = rule.output :=
  ⟨List.take_of_length_le (Nat.le_max_left _ _), List.take_of_length_le (Nat.le_max_right _ _)⟩

/-- One more step of a rule, after the pieces before it. -/
theorem Rewritten.next (hrule : wfst.rules[i]? = some rule) (hstep : step < (PreparedRewriteRule.new rule).steps)
    {c : ℚ} (hpieces : Alignment.Align (RewritePiece wfst.rules wfst.allowIdentity) x y c) :
    wfst.Rewritten (x ++ rule.input.take (step + 1)) (y ++ rule.output.take (step + 1)) (c + rule.cost)
      (wfst.stepTarget i rule (step + 1)) := by
  unfold stepTarget
  split
  · rename_i hdone
    rw [hdone, take_steps.1, take_steps.2]
    have hne := steps_pos_iff.mp (Nat.zero_lt_of_lt hstep)
    exact Or.inl ⟨rfl, hpieces.snoc (Or.inl ⟨rule, List.mem_of_getElem? hrule, hne, rfl, rfl, rfl⟩)⟩
  · exact Or.inr ⟨i, rule, step + 1, x, y, c, hrule, Nat.succ_pos step, by omega, rfl, hpieces, rfl, rfl, rfl⟩

theorem Prepared.rewritten (h : wfst.Prepared) (hfit : wfst.ChainsFit)
    (hpath : (ArcPath.machine wfst.expandState).Path start x y v t) : wfst.Rewritten x y v t := by
  refine Transducer.Path.snocInduction (motive := fun x y v t => wfst.Rewritten x y v t) (Or.inl ⟨rfl, .nil⟩) ?_ hpath
  intro x y v s a b w u _ ih hs
  obtain ⟨arc, harc, rfl, rfl, rfl, rfl⟩ := candidate_of_step hs
  rcases ih with ⟨rfl, hpieces⟩ | ⟨i, rule, step, x₀, y₀, c, hrule, hone, hstep, rfl, hpieces, rfl, rfl, rfl⟩
  · rcases (h.mem_candidates_home hfit).mp harc with ⟨i, rule, hrule, hpos, rfl⟩ | ⟨hidentity, ch, hge, hle, rfl⟩
    · have hnext := Rewritten.next hrule hpos hpieces
      rw [List.take_add_one, List.take_add_one, List.take_zero, List.take_zero] at hnext
      exact hnext
    · exact Or.inl ⟨rfl, hpieces.snoc (Or.inr ⟨hidentity, ch, hge, hle, rfl, rfl, rfl⟩)⟩
  · rw [h.candidates_step hfit hrule hone hstep] at harc
    rw [List.mem_singleton.mp harc]
    have hnext := Rewritten.next hrule hstep hpieces
    rw [List.take_add_one, List.take_add_one, ← List.append_assoc, ← List.append_assoc] at hnext
    have hweight : (wfst.ruleArc i rule step).weight = 0 := if_neg (Nat.ne_of_gt hone)
    rw [hweight, add_zero]
    exact hnext

/-- The first steps of a rule cost at most what the rule costs. -/
theorem Prepared.path_steps (h : wfst.Prepared) (hfit : wfst.ChainsFit) (hrule : wfst.rules[i]? = some rule)
    (hstep : step < (PreparedRewriteRule.new rule).steps) : ∃ v ≤ rule.cost, (ArcPath.machine wfst.expandState).Path start
      (rule.input.take (step + 1)) (rule.output.take (step + 1)) v (wfst.stepTarget i rule (step + 1)) := by
  have hknown : ∀ step, step < (PreparedRewriteRule.new rule).steps → wfst.isKnownState (wfst.stepState i step) = true := by
    intro step hstep
    rw [h.isKnownState hfit]
    exact decide_eq_true (stepState_le hrule hstep)
  induction step with
  | zero =>
    obtain ⟨w, hw, hs⟩ := step_of_candidate (hknown 0 hstep)
      ((h.mem_candidates_home hfit).mpr (Or.inl ⟨i, rule, hrule, hstep, rfl⟩))
    refine ⟨w, hw, ?_⟩
    rw [List.take_add_one, List.take_add_one]
    exact Transducer.Path.single hs
  | succ step ih =>
    obtain ⟨v, hv, hpath⟩ := ih (Nat.lt_of_succ_lt hstep)
    obtain ⟨w, hw, hs⟩ := step_of_candidate (hknown _ hstep)
      (by rw [h.candidates_step hfit hrule (Nat.succ_pos step) hstep]; exact List.mem_cons_self)
    rw [stepTarget, if_neg (Nat.ne_of_lt hstep)] at hpath
    refine ⟨v + w, ?_, ?_⟩
    · calc v + w ≤ rule.cost + 0 := add_le_add hv hw
        _ = rule.cost := add_zero _
    · rw [List.take_add_one, List.take_add_one (l := rule.output)]
      exact hpath.snoc hs

theorem Prepared.path_piece (h : wfst.Prepared) (hfit : wfst.ChainsFit) {u u' : List Char} {c : ℚ}
    (hpiece : RewritePiece wfst.rules wfst.allowIdentity u u' c) :
    ∃ v ≤ c, (ArcPath.machine wfst.expandState).Path start u u' v start := by
  rcases hpiece with ⟨rule, hmem, hne, rfl, rfl, rfl⟩ | ⟨hidentity, ch, hge, hle, rfl, rfl, rfl⟩
  · obtain ⟨i, hrule⟩ := List.getElem?_of_mem hmem
    have hpos := steps_pos_iff.mpr hne
    obtain ⟨v, hv, hpath⟩ := h.path_steps hfit hrule (Nat.sub_lt hpos Nat.one_pos)
    rw [Nat.sub_add_cancel hpos, take_steps.1, take_steps.2, stepTarget, if_pos rfl] at hpath
    exact ⟨v, hv, hpath⟩
  · have hknown : wfst.isKnownState 0 = true := by
      rw [h.isKnownState hfit]
      exact decide_eq_true (Nat.zero_le _)
    obtain ⟨w, hw, hs⟩ := step_of_candidate hknown
      ((h.mem_candidates_home hfit).mpr (Or.inr ⟨hidentity, ch, hge, hle, rfl⟩))
    exact ⟨w, hw, Transducer.Path.single hs⟩

theorem Prepared.path_pieces (h : wfst.Prepared) (hfit : wfst.ChainsFit) {c : ℚ}
    (hpieces : Alignment.Align (RewritePiece wfst.rules wfst.allowIdentity) x y c) :
    ∃ v ≤ c, (ArcPath.machine wfst.expandState).Path start x y v start := by
  induction hpieces with
  | nil => exact ⟨0, le_rfl, .nil _⟩
  | cons hpiece _ ih =>
    obtain ⟨v, hv, hpath⟩ := h.path_piece hfit hpiece
    obtain ⟨w, hw, hrest⟩ := ih
    exact ⟨v + w, add_le_add hv hw, hpath.append hrest⟩

theorem Prepared.pieces_of_path (h : wfst.Prepared) (hfit : wfst.ChainsFit)
    (hpath : (ArcPath.machine wfst.expandState).Path start x y v start) :
    Alignment.Align (RewritePiece wfst.rules wfst.allowIdentity) x y v := by
  rcases h.rewritten hfit hpath with ⟨_, hpieces⟩ | ⟨i, rule, step, _, _, _, _, hone, _, hhome, _⟩
  · exact hpieces
  · obtain ⟨step, rfl⟩ := Nat.exists_eq_add_of_le' hone
    cases hhome

theorem Prepared.exists_path_iff (h : wfst.Prepared) (hfit : wfst.ChainsFit) :
    (∃ v, (ArcPath.machine wfst.expandState).Path start x y v start) ↔
      ∃ c, Alignment.Align (RewritePiece wfst.rules wfst.allowIdentity) x y c := by
  constructor
  · rintro ⟨v, hpath⟩
    exact ⟨v, h.pieces_of_path hfit hpath⟩
  · rintro ⟨c, hpieces⟩
    obtain ⟨v, -, hpath⟩ := h.path_pieces hfit hpieces
    exact ⟨v, hpath⟩

/-- A splitting has a path that weighs no more, and a path is a splitting. -/
theorem Prepared.isLeast_path_iff (h : wfst.Prepared) (hfit : wfst.ChainsFit) {w : ℚ} :
    IsLeast {v | (ArcPath.machine wfst.expandState).Path start x y v start} w ↔
      Alignment.LeastCost (RewritePiece wfst.rules wfst.allowIdentity) x y w := by
  constructor
  · rintro ⟨hpath, hle⟩
    refine ⟨h.pieces_of_path hfit hpath, ?_⟩
    intro c hpieces
    obtain ⟨v, hv, hpath⟩ := h.path_pieces hfit hpieces
    exact (hle hpath).trans hv
  · rintro ⟨hpieces, hle⟩
    obtain ⟨v, hv, hpath⟩ := h.path_pieces hfit hpieces
    have heq : v = w := le_antisymm hv (hle (h.pieces_of_path hfit hpath))
    exact ⟨heq ▸ hpath, fun v' hpath' => hle (h.pieces_of_path hfit hpath')⟩

/-- Home is the only final state. -/
theorem Prepared.accepts_iff (h : wfst.Prepared) (hfit : wfst.ChainsFit) {v : ℚ} :
    (ArcPath.machine wfst.expandState).Accepts start x y v ↔ (ArcPath.machine wfst.expandState).Path start x y v start := by
  constructor
  · intro ⟨t, w, f, hpath, ⟨e, he, hf⟩, hv⟩
    obtain ⟨_, he⟩ := Option.ite_none_right_eq_some.mp he
    cases he
    obtain ⟨⟨_, hhome⟩, hf⟩ := Option.ite_none_right_eq_some.mp hf
    cases hf
    rw [hv, add_zero]
    rw [hhome] at hpath
    exact hpath
  · intro hpath
    have hknown : wfst.isKnownState 0 = true := by
      rw [h.isKnownState hfit]
      exact decide_eq_true (Nat.zero_le _)
    exact ⟨start, v, 0, hpath, ⟨_, if_pos hknown, if_pos ⟨hknown, rfl⟩⟩, (add_zero v).symm⟩

/-- Finitely many costs, and no piece is empty. -/
theorem piece_cost {rules : List RewriteRule} {allowIdentity : Bool} {u u' : List Char} {c : ℚ}
    (h : RewritePiece rules allowIdentity u u' c) :
    c ∈ {c | c ∈ 0 :: rules.map RewriteRule.cost} ∧ 0 < u.length + u'.length := by
  rcases h with ⟨rule, hmem, hne, rfl, rfl, rfl⟩ | ⟨_, ch, _, _, rfl, rfl, rfl⟩
  · refine ⟨List.mem_cons_of_mem _ (List.mem_map_of_mem hmem), ?_⟩
    rcases hne with hne | hne
    · exact Nat.add_pos_left (List.length_pos_of_ne_nil hne) _
    · exact Nat.add_pos_right _ (List.length_pos_of_ne_nil hne)
  · exact ⟨List.mem_cons_self, Nat.succ_pos _⟩

/-- The paths from home to home spell the pairs that split into rules and printable characters, and the least weight of a
    pair is the least cost of a splitting. -/
theorem denotes_rewrites (wfst : RewriteWfst) (hbuilt : wfst.Built) (hfit : wfst.ChainsFit) (x y : List Char) :
    ((∃ v, (ArcPath.machine wfst.expandState).Path start x y v start) ↔
      ∃ c, Alignment.Align (RewritePiece wfst.rules wfst.allowIdentity) x y c) ∧
    (∀ w, IsLeast {v | (ArcPath.machine wfst.expandState).Path start x y v start} w ↔
      Alignment.LeastCost (RewritePiece wfst.rules wfst.allowIdentity) x y w) ∧
    ((∃ c, Alignment.Align (RewritePiece wfst.rules wfst.allowIdentity) x y c) →
      ∃ w, Alignment.LeastCost (RewritePiece wfst.rules wfst.allowIdentity) x y w) ∧
    (∀ v, (ArcPath.machine wfst.expandState).Accepts start x y v ↔
      (ArcPath.machine wfst.expandState).Path start x y v start) ∧
    ∀ rules, withRules rules = some wfst →
      ((∃ v, (ArcPath.machine wfst.expandState).Path start x y v start) ↔ ∃ c, Alignment.Align (RewritePiece rules true) x y c) ∧
      ∀ w, IsLeast {v | (ArcPath.machine wfst.expandState).Path start x y v start} w ↔
        Alignment.LeastCost (RewritePiece rules true) x y w := by
  have h := hbuilt.prepared
  have hpaths := h.exists_path_iff (x := x) (y := y) hfit
  have hleast := fun w => h.isLeast_path_iff (x := x) (y := y) hfit (w := w)
  refine ⟨hpaths, hleast, ?_, fun v => h.accepts_iff hfit, ?_⟩
  · exact Alignment.exists_leastCost (List.finite_toSet _) piece_cost
  · intro rules hrules
    obtain ⟨-, -, rfl⟩ := Option.map_eq_some_iff.mp hrules
    exact ⟨hpaths, hleast⟩

/-- Rules that are given whole: `phi` is rewritten to `fi`, of which the `i` stays. -/
theorem denotes_rewrites_ph : ∃ wfst, withRules [⟨['p', 'h'], ['f'], 1, 0⟩] = some wfst ∧
    ∃ v, (ArcPath.machine wfst.expandState).Path start ['p', 'h', 'i'] ['f', 'i'] v start := by
  have hrules : withRules [⟨['p', 'h'], ['f'], 1, 0⟩] =
      some ⟨PreparedRuleMetadata.fromRules [⟨['p', 'h'], ['f'], 1, 0⟩], [⟨['p', 'h'], ['f'], 1, 0⟩], true⟩ := by
    have hvalid : validateRewriteRules [⟨['p', 'h'], ['f'], 1, 0⟩] = some () := by decide
    rw [withRules, hvalid]
    rfl
  have hph : RewritePiece [⟨['p', 'h'], ['f'], 1, 0⟩] true ['p', 'h'] ['f'] 1 :=
    Or.inl ⟨_, List.mem_cons_self, Or.inl (List.cons_ne_nil _ _), rfl, rfl, rfl⟩
  have hi : RewritePiece [⟨['p', 'h'], ['f'], 1, 0⟩] true ['i'] ['i'] 0 :=
    Or.inr ⟨rfl, 'i', by decide, by decide, rfl, rfl, rfl⟩
  have hpieces := (Alignment.Align.single hph).append (.single hi)
  obtain ⟨-, -, -, -, hwithRules⟩ := denotes_rewrites _ (.withRules hrules) (by unfold ChainsFit; decide) ['p', 'h', 'i'] ['f', 'i']
  exact ⟨_, hrules, (hwithRules _ hrules).1.mpr ⟨_, hpieces⟩⟩

end RewriteWfst
end Duallity
