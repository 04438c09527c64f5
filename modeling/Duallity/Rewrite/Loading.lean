import Duallity.CachedSource
import Duallity.Rewrite.Chains

/-! Rules that come one at a time, between expansions (`phonetic_rewrite_wfst.rs`). A rule that is added is inserted behind the
    rules of its priority and clears the cache, so the tables are those of the whole list, sorted once, and what is cached
    was computed from them. -/

namespace Duallity

/-! ### The cached transducer -/

structure LazyRewriteWfst where
  wfst : RewriteWfst
  cache : LazyStateCache (Expansion Nat Char Char ℚ)

/-- A call on a transducer; the rejected ones leave it as it is. -/
inductive RewriteCall
  | addRule (input output : List Char) (cost : ℚ)
  | addRewriteRule (rule : RewriteRule)
  | expand (state : UInt32)
  | clearCache
  | setCachePolicy (policy : CachePolicy)

namespace LazyRewriteWfst

def defaultMaxCacheSize : Nat := 10000

def new : LazyRewriteWfst := ⟨.new, .new defaultMaxCacheSize⟩

def withRules (rules : List RewriteRule) : Option LazyRewriteWfst :=
  (RewriteWfst.withRules rules).map fun wfst => ⟨wfst, .new defaultMaxCacheSize⟩

variable (self : LazyRewriteWfst)

def addRule (input output : List Char) (cost : ℚ) : Option LazyRewriteWfst :=
  (self.wfst.addRule input output cost).map fun wfst => ⟨wfst, self.cache.clear⟩

def addRewriteRule (rule : RewriteRule) : Option LazyRewriteWfst :=
  (self.wfst.addRewriteRule rule).map fun wfst => ⟨wfst, self.cache.clear⟩

def ensureState (state : UInt32) : LazyRewriteWfst × Option ExpansionStatus :=
  let (cache, cached) := self.cache.touchIfCached state.toNat
  if cached then ({ self with cache }, cachedCharStateStatus cache state.toNat)
  else if self.wfst.isKnownState state.toNat then
    let expansion := self.wfst.computeTransitions state.toNat
    ({ self with cache := cache.insert state.toNat expansion }, some (expansionStatus expansion))
  else ({ self with cache }, none)

def isFinal (state : UInt32) : Bool := ((self.cache.get state.toNat).map fun e => e.final?.isSome).getD (state = 0)

/-- No weight is `TropicalWeight::zero`. -/
def finalWeight (state : UInt32) : Option ℚ :=
  ((self.cache.get state.toNat).map Expansion.final?).getD (if state = 0 then some 0 else none)

def transitions (state : UInt32) : List (Arc Nat Char Char ℚ) := ((self.cache.get state.toNat).map Expansion.arcs).getD []

def transitionsLazy (state : UInt32) : LazyRewriteWfst × List (Arc Nat Char Char ℚ) :=
  let wfst := (self.ensureState state).1
  (wfst, wfst.transitions state)

def call : RewriteCall → LazyRewriteWfst
  | .addRule input output cost => (self.addRule input output cost).getD self
  | .addRewriteRule rule => (self.addRewriteRule rule).getD self
  | .expand state => (self.ensureState state).1
  | .clearCache => { self with cache := self.cache.clear }
  | .setCachePolicy policy => { self with cache := self.cache.setPolicy policy }

def run (calls : List RewriteCall) : LazyRewriteWfst := calls.foldl call self

end LazyRewriteWfst

/-- The rule that a call adds. -/
def RewriteCall.added : RewriteCall → Option RewriteRule
  | .addRule input output cost => RewriteRule.withCost input output cost
  | .addRewriteRule rule => (validateRewriteRule rule).map fun _ => rule
  | _ => none

/-! ### The order of the rules -/

/-- A list stays sorted when an element goes in front of the first one that does not go before it. -/
theorem pairwise_insertIdx_takeWhile {α : Type} {R : α → α → Prop} {p : α → Bool} {x : α} {l : List α} (h : l.Pairwise R)
    (hbefore : ∀ a ∈ l, p a = true → R a x) (hafter : ∀ a ∈ l, p a = false → R x a)
    (htrans : ∀ a b, R x a → R a b → R x b) : (l.insertIdx (l.takeWhile p).length x).Pairwise R := by
  induction l with
  | nil => exact List.pairwise_singleton R x
  | cons a l ih =>
    obtain ⟨ha, hl⟩ := List.pairwise_cons.mp h
    cases hp : p a with
    | true =>
      rw [List.takeWhile_cons_of_pos hp, List.length_cons, List.insertIdx_succ_cons]
      refine List.pairwise_cons.mpr ⟨?_, ih hl (fun b hb => hbefore b (List.mem_cons_of_mem a hb))
        (fun b hb => hafter b (List.mem_cons_of_mem a hb))⟩
      intro b hb
      rcases List.eq_or_mem_of_mem_insertIdx hb with rfl | hb
      · exact hbefore a List.mem_cons_self hp
      · exact ha b hb
    | false =>
      rw [List.takeWhile_cons_of_neg (by simp [hp]), List.length_nil, List.insertIdx_zero]
      have hx := hafter a List.mem_cons_self hp
      refine List.pairwise_cons.mpr ⟨?_, h⟩
      intro b hb
      rcases List.mem_cons.mp hb with rfl | hb
      · exact hx
      · exact htrans a b hx (ha b hb)

/-- The priority of a rule, by its index. -/
def rulePriority (rules : List RewriteRule) (i : Nat) : Int := (rules[i]?).elim 0 RewriteRule.priority

/-- Rules go by priority, then by age. -/
def Precedes (rules : List RewriteRule) (left right : Nat) : Prop :=
  rulePriority rules right < rulePriority rules left ∨ (rulePriority rules right = rulePriority rules left ∧ left ≤ right)

instance (rules : List RewriteRule) : DecidableRel (Precedes rules) := fun _ _ => inferInstanceAs (Decidable (_ ∨ _))

section Priority
variable {rules : List RewriteRule} {rule : RewriteRule} {a b c i : Nat}

theorem Precedes.trans (hab : Precedes rules a b) (hbc : Precedes rules b c) : Precedes rules a c := by
  unfold Precedes at *
  omega

theorem Precedes.total : Precedes rules a b ∨ Precedes rules b a := by
  unfold Precedes
  omega

theorem Precedes.antisymm (hab : Precedes rules a b) (hba : Precedes rules b a) : a = b := by
  unfold Precedes at *
  omega

theorem priorityLe_eq (ha : a < rules.length) (hb : b < rules.length) : priorityLe rules a b = decide (Precedes rules a b) := by
  simp only [priorityLe, Precedes, rulePriority, List.getElem?_eq_getElem ha, List.getElem?_eq_getElem hb, Option.elim_some]

/-- Sorting once. -/
theorem pairwise_priorityOrder (rules : List RewriteRule) :
    ((List.range rules.length).mergeSort (priorityLe rules)).Pairwise (Precedes rules) := by
  have hle : (List.range rules.length).mergeSort (priorityLe rules) =
      (List.range rules.length).mergeSort fun a b => decide (Precedes rules a b) := by
    have := List.map_mergeSort (r := priorityLe rules) (s := fun a b => decide (Precedes rules a b)) (f := id)
      (l := List.range rules.length) (fun a ha b hb => priorityLe_eq (List.mem_range.mp ha) (List.mem_range.mp hb))
    simpa using this
  rw [hle]
  refine (List.pairwise_mergeSort ?_ ?_ _).imp of_decide_eq_true
  · intro a b c hab hbc
    exact decide_eq_true ((of_decide_eq_true hab).trans (of_decide_eq_true hbc))
  · intro a b
    rw [Bool.or_eq_true, decide_eq_true_eq, decide_eq_true_eq]
    exact Precedes.total

theorem rulePriority_snoc (hi : i < rules.length) : rulePriority (rules ++ [rule]) i = rulePriority rules i := by
  rw [rulePriority, List.getElem?_append_left hi, rulePriority]

theorem rulePriority_eq {existing : RewriteRule} (hi : rules[i]? = some existing) :
    rulePriority (rules ++ [rule]) i = existing.priority := by
  rw [rulePriority_snoc (List.getElem?_eq_some_iff.mp hi).1, rulePriority, hi, Option.elim_some]

theorem rulePriority_last : rulePriority (rules ++ [rule]) rules.length = rule.priority := by
  simp [rulePriority]

end Priority

/-! ### The tables -/

namespace RewriteWfst
variable {wfst : RewriteWfst} {rules : List RewriteRule} {rule : RewriteRule}

/-- The tables are those of the rules, which are `rules`, and the order is the one of their priorities. -/
structure Loaded (rules : List RewriteRule) (wfst : RewriteWfst) : Prop where
  rules_eq : wfst.rules = rules
  tables : wfst.Prepared
  sorted : wfst.priorityOrder.Pairwise (Precedes wfst.rules)
  states : min wfst.continuationStates usizeMax = min wfst.continuationLookup.length usizeMax

theorem loaded_new : Loaded [] new := ⟨rfl, prepared_new, List.Pairwise.nil, rfl⟩

/-- A rule goes behind the ones of its priority, which were there before it. -/
theorem Loaded.append (h : Loaded rules wfst) (rule : RewriteRule) : Loaded (rules ++ [rule]) (wfst.appendValidatedRule rule) := by
  refine ⟨congrArg (· ++ [rule]) h.rules_eq, h.tables.append, ?_, rfl⟩
  have hlt : ∀ i ∈ wfst.priorityOrder, i < wfst.rules.length := fun i hi => List.mem_range.mp (h.tables.order.mem_iff.mp hi)
  have hkept : wfst.priorityOrder.Pairwise (Precedes (wfst.rules ++ [rule])) := by
    refine h.sorted.imp_of_mem ?_
    intro a b ha hb hab
    rw [Precedes, rulePriority_snoc (hlt a ha), rulePriority_snoc (hlt b hb)]
    exact hab
  refine pairwise_insertIdx_takeWhile hkept ?_ ?_ fun _ _ => Precedes.trans
  · intro a ha hp
    have hlt := hlt a ha
    have hexisting := List.getElem?_eq_getElem hlt
    rw [hexisting, Option.elim_some, decide_eq_true_eq] at hp
    unfold Precedes
    rw [show (wfst.appendValidatedRule rule).rules = wfst.rules ++ [rule] from rfl, rulePriority_eq hexisting, rulePriority_last]
    omega
  · intro a ha hp
    have hlt := hlt a ha
    have hexisting := List.getElem?_eq_getElem hlt
    rw [hexisting, Option.elim_some, decide_eq_false_iff_not] at hp
    unfold Precedes
    rw [show (wfst.appendValidatedRule rule).rules = wfst.rules ++ [rule] from rfl, rulePriority_eq hexisting, rulePriority_last]
    omega

theorem loaded_fromRules (rules : List RewriteRule) (allowIdentity : Bool) :
    Loaded rules ⟨PreparedRuleMetadata.fromRules rules, rules, allowIdentity⟩ := by
  have hprepared : Prepared ⟨PreparedRuleMetadata.fromRules rules, rules, allowIdentity⟩ := prepared_fromRules allowIdentity
  refine ⟨rfl, hprepared, pairwise_priorityOrder rules, ?_⟩
  have hlength := congrArg List.length hprepared.lookup
  rw [length_continuations] at hlength
  show min (List.foldl _ 0 (rules.map PreparedRewriteRule.new)) usizeMax = _
  rw [hlength, foldl_saturatingAdd _ (Nat.zero_le _), Nat.zero_add, continuationSteps_map, min_assoc, min_self]

/-- The tables depend on the rules alone. -/
theorem Loaded.tables_eq {wfst' : RewriteWfst} (h : Loaded rules wfst) (h' : Loaded rules wfst') :
    wfst.rules = wfst'.rules ∧ wfst.preparedRules = wfst'.preparedRules ∧ wfst.priorityOrder = wfst'.priorityOrder ∧
      wfst.continuationEndOffsets = wfst'.continuationEndOffsets ∧ wfst.continuationLookup = wfst'.continuationLookup ∧
      wfst.numStates = wfst'.numStates := by
  have hrules : wfst.rules = wfst'.rules := h.rules_eq.trans h'.rules_eq.symm
  have hlookup : wfst.continuationLookup = wfst'.continuationLookup := by
    rw [h.tables.lookup, h'.tables.lookup, hrules]
  refine ⟨hrules, ?_, ?_, ?_, hlookup, ?_⟩
  · rw [h.tables.prepared, h'.tables.prepared, hrules]
  · have hsorted' := h'.sorted
    have horder' := h'.tables.order
    rw [← hrules] at hsorted' horder'
    exact List.Perm.eq_of_pairwise (fun a b _ _ => Precedes.antisymm) h.sorted hsorted' (h.tables.order.trans horder'.symm)
  · rw [h.tables.offsets, h'.tables.offsets, hrules]
  · have hstates := h.states.trans ((congrArg (fun l => min l.length usizeMax) hlookup).trans h'.states.symm)
    unfold numStates rewriteStateCount saturatingAdd
    omega

/-- What a state expands to depends on the tables. -/
theorem Loaded.computeTransitions_eq {wfst' : RewriteWfst} (h : Loaded rules wfst) (h' : Loaded rules wfst')
    (hallow : wfst.allowIdentity = wfst'.allowIdentity) (state : Nat) : wfst.isKnownState state = wfst'.isKnownState state ∧
      wfst.decodeContinuationState state = wfst'.decodeContinuationState state ∧
      wfst.computeTransitions state = wfst'.computeTransitions state := by
  obtain ⟨-, hprepared, horder, hoffsets, hlookup, hnum⟩ := h.tables_eq h'
  have hknown : wfst.isKnownState state = wfst'.isKnownState state := by rw [isKnownState, hnum, isKnownState]
  have hdecode : wfst.decodeContinuationState state = wfst'.decodeContinuationState state := by
    rw [decodeContinuationState, hlookup, hprepared, decodeContinuationState]
  have hcontinuation : ∀ i step, wfst.continuationState i step = wfst'.continuationState i step := by
    intro i step
    rw [continuationState, RewriteWfst.continuationStart, hoffsets, continuationState, RewriteWfst.continuationStart]
  have hstep : ∀ i step, wfst.ruleStepTransition i step = wfst'.ruleStepTransition i step := by
    intro i step
    simp only [ruleStepTransition, hprepared, hcontinuation]
  have hcandidates : wfst.transitionCandidates state = wfst'.transitionCandidates state := by
    simp only [transitionCandidates, horder, hdecode, hstep, hallow]
  refine ⟨hknown, hdecode, ?_⟩
  rw [computeTransitions, hknown, hcandidates, computeTransitions]

end RewriteWfst

/-! ### What is cached -/

namespace LazyRewriteWfst
open RewriteWfst LazyStateCache
variable {self bulk : LazyRewriteWfst} {rules : List RewriteRule}

/-- Everything cached is what the transducer of `rules` computes. -/
structure Current (rules : List RewriteRule) (w : LazyRewriteWfst) : Prop where
  loaded : Loaded rules w.wfst
  identity : w.wfst.allowIdentity = true
  cached : w.cache.Holds fun state e => w.wfst.expandState state = some e
  refines : ∃ m, w.cache.Refines m

theorem Current.cleared (h : Current rules self) {rules' : List RewriteRule} {wfst : RewriteWfst} (hloaded : Loaded rules' wfst)
    (hidentity : wfst.allowIdentity = self.wfst.allowIdentity) : Current rules' ⟨wfst, self.cache.clear⟩ := by
  obtain ⟨m, hrefines⟩ := h.refines
  exact ⟨hloaded, hidentity.trans h.identity, holds_clear, _, hrefines.clear.1⟩

/-- After a call to expand, the state is cached with what the transducer computes; a state that is not known is not. -/
theorem Current.ensureState (h : Current rules self) (state : UInt32) : Current rules (self.ensureState state).1 ∧
    (self.ensureState state).1.wfst = self.wfst ∧
    (self.ensureState state).1.cache.get state.toNat = self.wfst.expandState state.toNat ∧
    (self.ensureState state).2 = (self.wfst.expandState state.toNat).map expansionStatus := by
  obtain ⟨m, hrefines⟩ := h.refines
  have hcached := @Holds.touchIfCached _ _ _ state.toNat h.cached
  have hrefines' : (self.cache.touchIfCached state.toNat).1.Refines _ := (hrefines.touchIfCached state).1
  have hget := hrefines.get_touchIfCached state state.toNat
  have hsnd : (self.cache.touchIfCached state.toNat).2 = (self.cache.get state.toNat).isSome := touchIfCached_snd
  unfold LazyRewriteWfst.ensureState cachedCharStateStatus
  generalize self.cache.touchIfCached state.toNat = touched at hcached hrefines' hget hsnd
  obtain ⟨cache, cached⟩ := touched
  dsimp only at hcached hrefines' hget hsnd ⊢
  split
  · rename_i htouched
    obtain ⟨e, he⟩ := Option.isSome_iff_exists.mp (hsnd.symm.trans htouched)
    have hexpand := h.cached.get he
    refine ⟨⟨h.loaded, h.identity, hcached, _, hrefines'⟩, rfl, ?_, ?_⟩
    · rw [hget, he, hexpand]
    · rw [hget, he, hexpand]
  · rename_i htouched
    have hnone : self.cache.get state.toNat = none := by
      rw [hsnd] at htouched
      exact Option.not_isSome_iff_eq_none.mp htouched
    split
    · rename_i hknown
      have hexpand : self.wfst.expandState state.toNat = some (self.wfst.computeTransitions state.toNat) := if_pos hknown
      refine ⟨⟨h.loaded, h.identity, hcached.insert hexpand, _, (hrefines'.insert state _).1⟩, rfl, ?_, ?_⟩
      · rw [hrefines'.get_insert, hexpand]
      · rw [hexpand, Option.map_some]
    · rename_i hknown
      have hexpand : self.wfst.expandState state.toNat = none := if_neg hknown
      refine ⟨⟨h.loaded, h.identity, hcached, _, hrefines'⟩, rfl, ?_, ?_⟩
      · rw [hget, hnone, hexpand]
      · rw [hexpand, Option.map_none]

theorem Current.call (h : Current rules self) (c : RewriteCall) : Current (rules ++ c.added.toList) (self.call c) := by
  cases c with
  | addRule input output cost =>
    rw [LazyRewriteWfst.call, LazyRewriteWfst.addRule, RewriteWfst.addRule, RewriteCall.added]
    cases RewriteRule.withCost input output cost with
    | none => simpa using h
    | some rule => exact h.cleared (h.loaded.append rule) rfl
  | addRewriteRule rule =>
    rw [LazyRewriteWfst.call, LazyRewriteWfst.addRewriteRule, RewriteWfst.addRewriteRule, RewriteCall.added]
    cases validateRewriteRule rule with
    | none => simpa using h
    | some _ => exact h.cleared (h.loaded.append rule) rfl
  | expand state => simpa [RewriteCall.added, LazyRewriteWfst.call] using (h.ensureState state).1
  | clearCache => simpa [RewriteCall.added, LazyRewriteWfst.call] using h.cleared h.loaded rfl
  | setCachePolicy policy =>
    obtain ⟨m, hrefines⟩ := h.refines
    have hcurrent : Current rules ⟨self.wfst, self.cache.setPolicy policy⟩ :=
      ⟨h.loaded, h.identity, holds_clear, _, (hrefines.setPolicy policy).1⟩
    simpa [RewriteCall.added, LazyRewriteWfst.call] using hcurrent

theorem Current.run (h : Current rules self) (calls : List RewriteCall) :
    Current (rules ++ calls.filterMap RewriteCall.added) (self.run calls) := by
  induction calls generalizing rules self with
  | nil => simpa [LazyRewriteWfst.run] using h
  | cons c calls ih =>
    have hrun : Current _ (self.run (c :: calls)) := ih (h.call c)
    rw [List.append_assoc] at hrun
    rw [List.filterMap_cons]
    cases hadded : c.added with
    | none => simpa [hadded] using hrun
    | some rule => simpa [hadded] using hrun

theorem current_new : Current [] new := ⟨loaded_new, rfl, holds_new, _, refines_new _⟩

theorem valid_of_added {c : RewriteCall} {rule : RewriteRule} (h : c.added = some rule) : validateRewriteRule rule = some () := by
  cases c with
  | addRule input output cost =>
    obtain ⟨validated, hvalid, rfl⟩ := Option.map_eq_some_iff.mp h
    obtain ⟨hle, heq⟩ := Option.ite_none_right_eq_some.mp hvalid
    cases heq
    rw [validateRewriteRule, validateFiniteNonnegativeWeight, if_pos hle, Option.map_some]
  | addRewriteRule added =>
    obtain ⟨_, hvalid, rfl⟩ := Option.map_eq_some_iff.mp h
    exact hvalid
  | expand state => cases h
  | clearCache => cases h
  | setCachePolicy policy => cases h

theorem validateRewriteRules_eq_some (h : ∀ rule ∈ rules, validateRewriteRule rule = some ()) : validateRewriteRules rules = some () := by
  unfold validateRewriteRules
  induction rules with
  | nil => rfl
  | cons rule rules ih =>
    rw [List.forM_eq_forM, List.forM_cons, h rule List.mem_cons_self]
    exact ih fun r hr => h r (List.mem_cons_of_mem rule hr)

/-- The rules that calls added can be loaded at once. -/
theorem exists_withRules (calls : List RewriteCall) : ∃ bulk, withRules (calls.filterMap RewriteCall.added) = some bulk ∧
    Current (calls.filterMap RewriteCall.added) bulk := by
  have hvalid : validateRewriteRules (calls.filterMap RewriteCall.added) = some () := by
    refine validateRewriteRules_eq_some ?_
    intro rule hrule
    obtain ⟨c, _, hadded⟩ := List.mem_filterMap.mp hrule
    exact valid_of_added hadded
  generalize calls.filterMap RewriteCall.added = rules at hvalid
  refine ⟨⟨⟨PreparedRuleMetadata.fromRules rules, rules, true⟩, .new defaultMaxCacheSize⟩, ?_, ?_⟩
  · rw [withRules, RewriteWfst.withRules, hvalid]
    rfl
  · exact ⟨loaded_fromRules _ true, rfl, holds_new, _, refines_new _⟩

theorem Current.final? (h : Current rules self) {state : UInt32} {e : Expansion Nat Char Char ℚ}
    (he : self.cache.get state.toNat = some e) : e.final? = if state = 0 then some 0 else none := by
  obtain ⟨hknown, heq⟩ := Option.ite_none_right_eq_some.mp (h.cached.get he)
  cases heq
  have hzero : state.toNat = 0 ↔ state = 0 := by
    rw [← UInt32.toNat_inj]
    rfl
  simp only [computeTransitions, hknown, hzero, true_and]

/-- Home alone is final, whether it is cached or not. -/
theorem Current.isFinal_eq (h : Current rules self) (state : UInt32) : self.isFinal state = decide (state = 0) ∧
    self.finalWeight state = if state = 0 then some 0 else none := by
  unfold LazyRewriteWfst.isFinal LazyRewriteWfst.finalWeight
  cases hget : self.cache.get state.toNat with
  | none => exact ⟨rfl, rfl⟩
  | some e =>
    simp only [Option.map_some, Option.getD_some, h.final? hget, and_true]
    split
    · rename_i heq
      simp [heq]
    · rename_i hne
      simp [hne]

/-- However the rules were added, and whatever was expanded in between, the tables are those of the whole list, nothing cached is
    stale, and every state expands to the same arcs and is as final as in a transducer that was built at once. -/
theorem loading_agrees (calls : List RewriteCall) : ∃ bulk, withRules (calls.filterMap RewriteCall.added) = some bulk ∧
    ((new.run calls).wfst.rules = bulk.wfst.rules ∧ (new.run calls).wfst.preparedRules = bulk.wfst.preparedRules ∧
      (new.run calls).wfst.priorityOrder = bulk.wfst.priorityOrder ∧
      (new.run calls).wfst.continuationEndOffsets = bulk.wfst.continuationEndOffsets ∧
      (new.run calls).wfst.continuationLookup = bulk.wfst.continuationLookup ∧
      (new.run calls).wfst.numStates = bulk.wfst.numStates) ∧
    (∀ state, (new.run calls).wfst.isKnownState state = bulk.wfst.isKnownState state ∧
      (new.run calls).wfst.decodeContinuationState state = bulk.wfst.decodeContinuationState state ∧
      (new.run calls).wfst.computeTransitions state = bulk.wfst.computeTransitions state) ∧
    (∀ state e, (new.run calls).cache.get state = some e → bulk.wfst.expandState state = some e) ∧
    ∀ (expanded : List UInt32) (state : UInt32),
      ((new.run calls).ensureState state).2 = ((bulk.run (expanded.map .expand)).ensureState state).2 ∧
      ((new.run calls).transitionsLazy state).2 = ((bulk.run (expanded.map .expand)).transitionsLazy state).2 ∧
      (new.run calls).isFinal state = (bulk.run (expanded.map .expand)).isFinal state ∧
      (new.run calls).finalWeight state = (bulk.run (expanded.map .expand)).finalWeight state := by
  obtain ⟨bulk, hbulk, hcurrent⟩ := exists_withRules calls
  have h := current_new.run calls
  rw [List.nil_append] at h
  have hcompute := h.loaded.computeTransitions_eq hcurrent.loaded (h.identity.trans hcurrent.identity.symm)
  have hexpand : ∀ {w : LazyRewriteWfst}, Current (calls.filterMap RewriteCall.added) w →
      ∀ state, (new.run calls).wfst.expandState state = w.wfst.expandState state := by
    intro w hw state
    obtain ⟨hknown, -, harcs⟩ := h.loaded.computeTransitions_eq hw.loaded (h.identity.trans hw.identity.symm) state
    rw [expandState, hknown, harcs, expandState]
  refine ⟨bulk, hbulk, h.loaded.tables_eq hcurrent.loaded, hcompute, ?_, ?_⟩
  · intro state e he
    rw [← hexpand hcurrent]
    exact h.cached.get he
  · intro expanded state
    have hrun := hcurrent.run (expanded.map .expand)
    have hnone : (expanded.map RewriteCall.expand).filterMap RewriteCall.added = [] := by
      simp [List.filterMap_eq_nil_iff, RewriteCall.added]
    rw [hnone, List.append_nil] at hrun
    obtain ⟨-, -, hget, hstatus⟩ := h.ensureState state
    obtain ⟨-, -, hget', hstatus'⟩ := hrun.ensureState state
    obtain ⟨hfinal, hweight⟩ := h.isFinal_eq state
    obtain ⟨hfinal', hweight'⟩ := hrun.isFinal_eq state
    refine ⟨?_, ?_, hfinal.trans hfinal'.symm, hweight.trans hweight'.symm⟩
    · rw [hstatus, hstatus', hexpand hrun]
    · unfold LazyRewriteWfst.transitionsLazy LazyRewriteWfst.transitions
      dsimp only
      rw [hget, hget', hexpand hrun]

end LazyRewriteWfst
end Duallity
