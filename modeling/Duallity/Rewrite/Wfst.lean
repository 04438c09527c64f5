import Duallity.Lib.ArcPath
import Duallity.StateEncoding
import Mathlib.Data.Rat.Defs

/-! The rewrite transducer (`phonetic_rewrite_wfst.rs`, `phonetic_rewrite_support.rs`). State 0 is home; a rule of several
    steps leads through a chain of states of its own, which stand behind those of the rules before it. Costs are exact, and
    only the finite ones, which validation lets through, have a value here. -/

namespace Duallity

structure RewriteRule where
  input : List Char
  output : List Char
  cost : ℚ
  priority : Int
deriving DecidableEq, Repr

def validateFiniteNonnegativeWeight (weight : ℚ) : Option ℚ := if 0 ≤ weight then some weight else none

namespace RewriteRule

def new (input output : List Char) : RewriteRule := ⟨input, output, 0, 0⟩

def withCost (input output : List Char) (cost : ℚ) : Option RewriteRule :=
  (validateFiniteNonnegativeWeight cost).map fun cost => ⟨input, output, cost, 0⟩

end RewriteRule

def validateRewriteRule (rule : RewriteRule) : Option Unit := (validateFiniteNonnegativeWeight rule.cost).map fun _ => ()

def validateRewriteRules (rules : List RewriteRule) : Option Unit := rules.forM validateRewriteRule

structure PreparedRewriteRule where
  input : List Char
  output : List Char
  costWeight : ℚ
  steps : Nat
deriving DecidableEq, Repr

namespace PreparedRewriteRule

def new (rule : RewriteRule) : PreparedRewriteRule :=
  ⟨rule.input, rule.output, rule.cost, max rule.input.length rule.output.length⟩

def continuationSteps (prepared : PreparedRewriteRule) : Nat := prepared.steps - 1

end PreparedRewriteRule

structure ContinuationState where
  ruleIndex : Nat
  step : Nat
deriving DecidableEq, Repr

structure PreparedRuleMetadata where
  preparedRules : List PreparedRewriteRule
  priorityOrder : List Nat
  continuationEndOffsets : List Nat
  continuationLookup : List ContinuationState
  continuationStates : Nat
deriving DecidableEq, Repr

/-- The states of a chain, one for each step but the first. -/
def continuationsOf (ruleIndex : Nat) (prepared : PreparedRewriteRule) : List ContinuationState :=
  (List.range' 1 (prepared.steps - 1)).map fun step => ⟨ruleIndex, step⟩

/-- One turn of the loop that numbers the chains: the ends of the chains so far, and their states. -/
def pushContinuations (acc : List Nat × List ContinuationState) (prepared : PreparedRewriteRule × Nat) :
    List Nat × List ContinuationState :=
  (acc.1 ++ [(acc.2 ++ continuationsOf prepared.2 prepared.1).length], acc.2 ++ continuationsOf prepared.2 prepared.1)

/-- Higher priorities first, rules of one priority in their order. -/
def priorityLe (rules : List RewriteRule) (left right : Nat) : Bool :=
  match rules[left]?, rules[right]? with
  | some l, some r => decide (r.priority < l.priority ∨ (r.priority = l.priority ∧ left ≤ right))
  | _, _ => true

namespace PreparedRuleMetadata

def fromRules (rules : List RewriteRule) : PreparedRuleMetadata :=
  let preparedRules := rules.map PreparedRewriteRule.new
  let chains := preparedRules.zipIdx.foldl pushContinuations ([], [])
  { preparedRules
    priorityOrder := (List.range rules.length).mergeSort (priorityLe rules)
    continuationEndOffsets := chains.1
    continuationLookup := chains.2
    continuationStates := preparedRules.foldl (fun states prepared => saturatingAdd usizeMax states prepared.continuationSteps) 0 }

end PreparedRuleMetadata

/-! ### Dominated transitions -/

def hashPruneThreshold : Nat := 16

section Prune
variable {W : Type} [LT W] [DecidableLT W]

/-- `RewriteTransitionKey`. -/
def rewriteTransitionKey (t : Arc Nat Char Char W) : Nat × Option Char × Option Char × Nat :=
  (t.source, t.input, t.output, t.target)

def pruneStepLinear (pruned : List (Arc Nat Char Char W)) (t : Arc Nat Char Char W) : List (Arc Nat Char Char W) :=
  match pruned.findIdx? fun existing => rewriteTransitionKey existing = rewriteTransitionKey t with
  | none => pruned ++ [t]
  | some index => pruned.modify index fun existing => if t.weight < existing.weight then t else existing

def pruneDominatedTransitionsLinear (transitions : List (Arc Nat Char Char W)) : List (Arc Nat Char Char W) :=
  transitions.foldl pruneStepLinear []

def pruneStepHashed (acc : List (Arc Nat Char Char W) × List ((Nat × Option Char × Option Char × Nat) × Nat))
    (t : Arc Nat Char Char W) :
    List (Arc Nat Char Char W) × List ((Nat × Option Char × Option Char × Nat) × Nat) :=
  match acc.2.lookup (rewriteTransitionKey t) with
  | none => (acc.1 ++ [t], (rewriteTransitionKey t, acc.1.length) :: acc.2)
  | some index => (acc.1.modify index fun existing => if t.weight < existing.weight then t else existing, acc.2)

def pruneDominatedTransitions (transitions : List (Arc Nat Char Char W)) : List (Arc Nat Char Char W) :=
  if transitions.length < 2 then transitions
  else if transitions.length < hashPruneThreshold then pruneDominatedTransitionsLinear transitions
  else (transitions.foldl pruneStepHashed ([], [])).1

end Prune

/-! ### The transducer -/

def rewriteStateCount (continuationStates : Nat) : Nat := min (saturatingAdd usizeMax continuationStates 1) u32Count

structure RewriteWfst extends PreparedRuleMetadata where
  rules : List RewriteRule
  allowIdentity : Bool
deriving DecidableEq, Repr

namespace RewriteWfst

def new : RewriteWfst := ⟨⟨[], [], [], [], 0⟩, [], true⟩

def withRules (rules : List RewriteRule) : Option RewriteWfst :=
  (validateRewriteRules rules).map fun _ => ⟨PreparedRuleMetadata.fromRules rules, rules, true⟩

variable (wfst : RewriteWfst)

/-- `partition_point` of the rules that go before the new one. -/
def insertionIndex (rule : RewriteRule) : Nat :=
  (wfst.priorityOrder.takeWhile fun existingIndex => (wfst.rules[existingIndex]?).elim false fun existing =>
    decide (rule.priority < existing.priority ∨ (existing.priority = rule.priority ∧ existingIndex < wfst.rules.length))).length

def appendValidatedRule (rule : RewriteRule) : RewriteWfst :=
  let prepared := PreparedRewriteRule.new rule
  let continuationLookup := wfst.continuationLookup ++ continuationsOf wfst.rules.length prepared
  { wfst with
    continuationLookup
    continuationStates := continuationLookup.length
    continuationEndOffsets := wfst.continuationEndOffsets ++ [continuationLookup.length]
    preparedRules := wfst.preparedRules ++ [prepared]
    priorityOrder := wfst.priorityOrder.insertIdx (wfst.insertionIndex rule) wfst.rules.length
    rules := wfst.rules ++ [rule] }

def addRule (input output : List Char) (cost : ℚ) : Option RewriteWfst :=
  (RewriteRule.withCost input output cost).map wfst.appendValidatedRule

def addRewriteRule (rule : RewriteRule) : Option RewriteWfst :=
  (validateRewriteRule rule).map fun _ => wfst.appendValidatedRule rule

def setAllowIdentity (allow : Bool) : RewriteWfst := { wfst with allowIdentity := allow }

def start : Nat := 0

def numStates : Nat := rewriteStateCount wfst.continuationStates

def isKnownState (state : Nat) : Bool := state < wfst.numStates

def continuationStart (ruleIndex : Nat) : Nat :=
  if ruleIndex = 0 then 0 else (wfst.continuationEndOffsets[ruleIndex - 1]?).getD 0

def continuationState (ruleIndex step : Nat) : Option Nat :=
  let rawState := saturatingAdd usizeMax (wfst.continuationStart ruleIndex) step
  if rawState ≤ u32Max then some rawState else none

def decodeContinuationState (stateId : Nat) : Option (Nat × Nat) :=
  if stateId = 0 then none
  else wfst.continuationLookup[stateId - 1]?.bind fun continuation =>
    wfst.preparedRules[continuation.ruleIndex]?.bind fun prepared =>
      if continuation.step < prepared.steps then some (continuation.ruleIndex, continuation.step) else none

def ruleStepTransition (ruleIndex step : Nat) : Option (Arc Nat Char Char ℚ) :=
  wfst.preparedRules[ruleIndex]?.bind fun prepared =>
    if prepared.steps = 0 ∨ prepared.steps ≤ step then none
    else (if step = 0 then some 0 else wfst.continuationState ruleIndex step).bind fun source =>
      (if step + 1 = prepared.steps then some 0 else wfst.continuationState ruleIndex (step + 1)).map fun target =>
        ⟨source, prepared.input[step]?, prepared.output[step]?, target, if step = 0 then prepared.costWeight else 0⟩

/-- The fixed rewrite alphabet, `' '..='~'`. -/
def identityAlphabet : List Char := (List.range' 0x20 95).map Char.ofNat

def identityTransitions : List (Arc Nat Char Char ℚ) := identityAlphabet.map fun c => ⟨0, some c, some c, 0, 0⟩

/-- The transitions of a state before the dominated ones are pruned. -/
def transitionCandidates (stateId : Nat) : List (Arc Nat Char Char ℚ) :=
  (if stateId = 0 then wfst.priorityOrder.filterMap fun ruleIndex => wfst.ruleStepTransition ruleIndex 0
    else ((wfst.decodeContinuationState stateId).bind fun (ruleIndex, step) => wfst.ruleStepTransition ruleIndex step).toList) ++
  if wfst.allowIdentity ∧ stateId = 0 then identityTransitions else []

def computeTransitions (stateId : Nat) : Expansion Nat Char Char ℚ where
  arcs := if wfst.isKnownState stateId then pruneDominatedTransitions (wfst.transitionCandidates stateId) else []
  final? := if wfst.isKnownState stateId ∧ stateId = 0 then some 0 else none

def expandState (state : Nat) : Option (Expansion Nat Char Char ℚ) :=
  if wfst.isKnownState state then some (wfst.computeTransitions state) else none

/-- The transducers the constructors and setters build. -/
inductive Built : RewriteWfst → Prop
  | new : Built new
  | withRules {rules : List RewriteRule} {wfst : RewriteWfst} : withRules rules = some wfst → Built wfst
  | addRule {wfst wfst' : RewriteWfst} {input output : List Char} {cost : ℚ} :
      Built wfst → wfst.addRule input output cost = some wfst' → Built wfst'
  | addRewriteRule {wfst wfst' : RewriteWfst} {rule : RewriteRule} :
      Built wfst → wfst.addRewriteRule rule = some wfst' → Built wfst'
  | setAllowIdentity {wfst : RewriteWfst} (allow : Bool) : Built wfst → Built (wfst.setAllowIdentity allow)

end RewriteWfst
end Duallity
