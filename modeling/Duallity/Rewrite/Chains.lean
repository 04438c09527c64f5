import Duallity.Lib.Blocks
import Duallity.Lib.LeastByKey
import Duallity.Rewrite.Wfst
import Mathlib.Data.List.Perm.Basic
import Mathlib.Algebra.Order.Ring.Rat

/-! The chains of a rewrite transducer. However the rules come in, the chain of a rule is a block behind those of the rules
    before it, so a continuation state belongs to one rule and one step. -/

namespace Duallity

/-- The lengths of the chains. -/
def chainLengths (rules : List RewriteRule) : List Nat := rules.map fun rule => (PreparedRewriteRule.new rule).continuationSteps

/-- The state at a cell of the blocks of chains. -/
def continuationAt (c : Nat × Nat) : ContinuationState := ⟨c.1, c.2 + 1⟩

/-- The tables of a transducer are those of its rules. -/
structure RewriteWfst.Prepared (wfst : RewriteWfst) : Prop where
  prepared : wfst.preparedRules = wfst.rules.map PreparedRewriteRule.new
  lookup : wfst.continuationLookup = (Blocks.cells (chainLengths wfst.rules)).map continuationAt
  offsets : wfst.continuationEndOffsets = (List.range wfst.rules.length).map fun i => Blocks.start (chainLengths wfst.rules) (i + 1)
  states : (chainLengths wfst.rules).sum ≤ usizeMax → wfst.continuationStates = (chainLengths wfst.rules).sum
  order : wfst.priorityOrder.Perm (List.range wfst.rules.length)

section Tables
variable {rules : List RewriteRule} {rule : RewriteRule}

theorem chainLengths_snoc : chainLengths (rules ++ [rule]) =
    chainLengths rules ++ [(PreparedRewriteRule.new rule).continuationSteps] := by
  rw [chainLengths, List.map_append]
  rfl

theorem length_chainLengths : (chainLengths rules).length = rules.length := List.length_map _

theorem continuationsOf_eq (ruleIndex : Nat) (prepared : PreparedRewriteRule) : continuationsOf ruleIndex prepared =
    ((List.range prepared.continuationSteps).map fun pos => (ruleIndex, pos)).map continuationAt := by
  rw [continuationsOf, List.range'_eq_map_range, List.map_map, List.map_map, PreparedRewriteRule.continuationSteps]
  refine List.map_congr_left ?_
  intro pos _
  exact congrArg (ContinuationState.mk ruleIndex) (Nat.add_comm 1 pos)

/-- The chain of one more rule stands behind the others. -/
theorem cells_snoc : (Blocks.cells (chainLengths (rules ++ [rule]))).map continuationAt =
    (Blocks.cells (chainLengths rules)).map continuationAt ++ continuationsOf rules.length (PreparedRewriteRule.new rule) := by
  rw [chainLengths_snoc, Blocks.cells_snoc, List.map_append, length_chainLengths, continuationsOf_eq]

theorem offsets_snoc : ((List.range (rules ++ [rule]).length).map fun i => Blocks.start (chainLengths (rules ++ [rule])) (i + 1)) =
    ((List.range rules.length).map fun i => Blocks.start (chainLengths rules) (i + 1)) ++
      [(chainLengths (rules ++ [rule])).sum] := by
  rw [List.length_append, List.length_singleton, List.range_succ, List.map_append, List.map_singleton]
  congr 1
  · refine List.map_congr_left ?_
    intro i hi
    rw [chainLengths_snoc, Blocks.start, List.take_append_of_le_length, Blocks.start]
    rw [length_chainLengths]
    exact List.mem_range.mp hi
  · rw [← Blocks.start_length, length_chainLengths, List.length_append, List.length_singleton]

theorem length_continuations : ((Blocks.cells (chainLengths rules)).map continuationAt).length = (chainLengths rules).sum := by
  rw [List.length_map, Blocks.length_cells]

theorem foldl_pushContinuations : (rules.map PreparedRewriteRule.new).zipIdx.foldl pushContinuations ([], []) =
    ((List.range rules.length).map fun i => Blocks.start (chainLengths rules) (i + 1),
      (Blocks.cells (chainLengths rules)).map continuationAt) := by
  induction rules using List.reverseRecOn with
  | nil => rfl
  | append_singleton rules rule ih =>
    rw [List.map_append, List.map_singleton, List.zipIdx_append, List.foldl_append, ih, List.zipIdx_singleton, List.foldl_cons,
      List.foldl_nil, pushContinuations, offsets_snoc, cells_snoc, Nat.zero_add, List.length_map]
    dsimp only
    rw [← cells_snoc, length_continuations]

theorem foldl_saturatingAdd (lens : List PreparedRewriteRule) {n : Nat} (hn : n ≤ usizeMax) :
    lens.foldl (fun states prepared => saturatingAdd usizeMax states prepared.continuationSteps) n =
      min (n + (lens.map PreparedRewriteRule.continuationSteps).sum) usizeMax := by
  induction lens generalizing n with
  | nil => exact (min_eq_left hn).symm
  | cons prepared lens ih =>
    have hle : saturatingAdd usizeMax n prepared.continuationSteps ≤ usizeMax := min_le_right _ _
    rw [List.foldl_cons, ih hle, List.map_cons, List.sum_cons, saturatingAdd]
    omega

theorem continuationSteps_map : ((rules.map PreparedRewriteRule.new).map PreparedRewriteRule.continuationSteps) = chainLengths rules :=
  List.map_map

theorem RewriteWfst.prepared_new : RewriteWfst.new.Prepared := ⟨rfl, rfl, rfl, fun _ => rfl, List.Perm.refl _⟩

theorem RewriteWfst.prepared_fromRules (allowIdentity : Bool) :
    RewriteWfst.Prepared ⟨PreparedRuleMetadata.fromRules rules, rules, allowIdentity⟩ where
  prepared := rfl
  lookup := congrArg Prod.snd foldl_pushContinuations
  offsets := congrArg Prod.fst foldl_pushContinuations
  states h := by
    show List.foldl _ 0 (rules.map PreparedRewriteRule.new) = _
    rw [foldl_saturatingAdd _ (Nat.zero_le _), Nat.zero_add, continuationSteps_map]
    exact min_eq_left h
  order := List.mergeSort_perm _ _

theorem RewriteWfst.Prepared.append {wfst : RewriteWfst} (h : wfst.Prepared) : (wfst.appendValidatedRule rule).Prepared := by
  have hlookup : (wfst.appendValidatedRule rule).continuationLookup =
      (Blocks.cells (chainLengths (wfst.rules ++ [rule]))).map continuationAt := by
    rw [cells_snoc, ← h.lookup]
    rfl
  refine ⟨?_, hlookup, ?_, ?_, ?_⟩
  · show wfst.preparedRules ++ [_] = (wfst.rules ++ [rule]).map _
    rw [h.prepared, List.map_append]
    rfl
  · show wfst.continuationEndOffsets ++ [(wfst.appendValidatedRule rule).continuationLookup.length] = _
    rw [hlookup, length_continuations, h.offsets]
    exact offsets_snoc.symm
  · intro _
    show (wfst.appendValidatedRule rule).continuationLookup.length = _
    rw [hlookup, length_continuations]
    rfl
  · show (wfst.priorityOrder.insertIdx (wfst.insertionIndex rule) wfst.rules.length).Perm (List.range (wfst.rules ++ [rule]).length)
    rw [List.length_append, List.length_singleton, List.range_succ]
    refine (List.perm_insertIdx _ _ ?_).trans ((List.Perm.cons _ h.order).trans (List.perm_append_singleton _ _).symm)
    exact (List.takeWhile_sublist _).length_le

theorem RewriteWfst.Built.prepared {wfst : RewriteWfst} (h : wfst.Built) : wfst.Prepared := by
  induction h with
  | new => exact prepared_new
  | withRules h =>
    obtain ⟨_, -, rfl⟩ := Option.map_eq_some_iff.mp h
    exact prepared_fromRules true
  | addRule _ h ih =>
    obtain ⟨_, -, rfl⟩ := Option.map_eq_some_iff.mp h
    exact ih.append
  | addRewriteRule _ h ih =>
    obtain ⟨_, -, rfl⟩ := Option.map_eq_some_iff.mp h
    exact ih.append
  | setAllowIdentity allow _ ih => exact ⟨ih.prepared, ih.lookup, ih.offsets, ih.states, ih.order⟩

end Tables

/-! ### Continuation states -/

namespace RewriteWfst
variable {wfst : RewriteWfst} {rule : RewriteRule} {i step id : Nat}

/-- The chains get an id for each of their states, besides home. -/
def ChainsFit (wfst : RewriteWfst) : Prop := 1 + (chainLengths wfst.rules).sum ≤ u32Count

/-- The id of a step of a rule; every rule starts at home. -/
def stepState (wfst : RewriteWfst) (i : Nat) : Nat → Nat
  | 0 => 0
  | step + 1 => Blocks.start (chainLengths wfst.rules) i + step + 1

theorem getElem?_chainLengths (hrule : wfst.rules[i]? = some rule) :
    (chainLengths wfst.rules)[i]? = some ((PreparedRewriteRule.new rule).steps - 1) := by
  rw [chainLengths, List.getElem?_map, hrule]
  rfl

theorem Prepared.continuationStart (h : wfst.Prepared) (hi : i < wfst.rules.length) :
    wfst.continuationStart i = Blocks.start (chainLengths wfst.rules) i := by
  rw [RewriteWfst.continuationStart, h.offsets]
  cases i with
  | zero => rfl
  | succ i => rw [if_neg (Nat.succ_ne_zero i), Nat.add_sub_cancel, List.getElem?_map, List.getElem?_range (Nat.lt_of_succ_lt hi)]; rfl

theorem stepState_le (hrule : wfst.rules[i]? = some rule) (hstep : step < (PreparedRewriteRule.new rule).steps) :
    wfst.stepState i step ≤ (chainLengths wfst.rules).sum := by
  cases step with
  | zero => exact Nat.zero_le _
  | succ step =>
    have := Blocks.start_add_le (getElem?_chainLengths hrule)
    rw [stepState]
    omega

theorem Prepared.continuationState (h : wfst.Prepared) (hfit : wfst.ChainsFit) (hrule : wfst.rules[i]? = some rule)
    (hstep : step + 1 < (PreparedRewriteRule.new rule).steps) :
    wfst.continuationState i (step + 1) = some (wfst.stepState i (step + 1)) := by
  have hle := stepState_le hrule hstep
  have hsum : wfst.continuationStart i + (step + 1) = wfst.stepState i (step + 1) := by
    rw [h.continuationStart (List.getElem?_eq_some_iff.mp hrule).1, stepState]
    rfl
  unfold ChainsFit u32Count at hfit
  have hraw : saturatingAdd usizeMax (wfst.continuationStart i) (step + 1) = wfst.stepState i (step + 1) := by
    rw [saturatingAdd_of_le (by rw [hsum]; unfold usizeMax; omega), hsum]
  rw [RewriteWfst.continuationState, hraw]
  exact if_pos (by unfold u32Max; omega)

theorem Prepared.isKnownState (h : wfst.Prepared) (hfit : wfst.ChainsFit) :
    wfst.isKnownState id = decide (id ≤ (chainLengths wfst.rules).sum) := by
  unfold ChainsFit u32Count at hfit
  have hstates := h.states (by unfold usizeMax; omega)
  have hcount : wfst.numStates = (chainLengths wfst.rules).sum + 1 := by
    rw [numStates, rewriteStateCount, hstates, saturatingAdd_of_le (by unfold usizeMax; omega)]
    exact Nat.min_eq_left (by unfold u32Count; omega)
  rw [RewriteWfst.isKnownState, hcount]
  exact decide_eq_decide.mpr Nat.lt_succ_iff

/-- A continuation state is a step of one rule. -/
theorem Prepared.decode_eq_some_iff (h : wfst.Prepared) : wfst.decodeContinuationState id = some (i, step) ↔
    ∃ rule, wfst.rules[i]? = some rule ∧ 1 ≤ step ∧ step < (PreparedRewriteRule.new rule).steps ∧ id = wfst.stepState i step := by
  have hget : ∀ id i step, wfst.continuationLookup[id]? = some ⟨i, step⟩ ↔
      ∃ rule, wfst.rules[i]? = some rule ∧ 1 ≤ step ∧ step < (PreparedRewriteRule.new rule).steps ∧
        id + 1 = wfst.stepState i step := by
    intro id i step
    rw [h.lookup, List.getElem?_map, Option.map_eq_some_iff]
    refine ⟨?_, ?_⟩
    · intro ⟨c, hc, heq⟩
      obtain ⟨n, hn, hpos, rfl⟩ := Blocks.getElem?_cells.mp hc
      cases heq
      rw [chainLengths, List.getElem?_map] at hn
      obtain ⟨rule, hrule, rfl⟩ := Option.map_eq_some_iff.mp hn
      exact ⟨rule, hrule, Nat.succ_pos _, Nat.add_lt_of_lt_sub hpos, rfl⟩
    · intro ⟨rule, hrule, hone, hstep, hid⟩
      obtain ⟨step, rfl⟩ := Nat.exists_eq_add_of_le' hone
      refine ⟨(i, step), Blocks.getElem?_cells.mpr ⟨_, getElem?_chainLengths hrule, Nat.lt_sub_of_add_lt hstep, ?_⟩, rfl⟩
      exact Nat.succ.inj hid
  cases id with
  | zero =>
    rw [decodeContinuationState, if_pos rfl]
    refine iff_of_false (Option.some_ne_none _).symm ?_
    intro ⟨rule, _, hone, _, hid⟩
    obtain ⟨step, rfl⟩ := Nat.exists_eq_add_of_le' hone
    cases hid
  | succ id =>
    rw [decodeContinuationState, if_neg (Nat.succ_ne_zero id), Nat.add_sub_cancel]
    refine ⟨?_, ?_⟩
    · intro hdecode
      obtain ⟨c, hc, hdecode⟩ := Option.bind_eq_some_iff.mp hdecode
      obtain ⟨prepared, _, hdecode⟩ := Option.bind_eq_some_iff.mp hdecode
      obtain ⟨_, heq⟩ := Option.ite_none_right_eq_some.mp hdecode
      cases heq
      exact (hget id _ _).mp hc
    · intro hrule
      have hc := (hget id i step).mpr hrule
      obtain ⟨rule, hrule, _, hstep, _⟩ := hrule
      rw [hc, Option.bind_some, h.prepared, List.getElem?_map, hrule, Option.map_some, Option.bind_some]
      exact if_pos hstep

end RewriteWfst
end Duallity
