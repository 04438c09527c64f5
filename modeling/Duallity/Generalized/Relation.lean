import Duallity.Generalized.Chains

/-! The relation of a Generalized transducer. A state stands for a point of the abstract product: a product state for its path,
    position and cost, and an emission state for the rest of the labels of its operation. Expansions return the steps of the
    abstract product, whatever other clones publish meanwhile. -/

namespace Duallity
namespace GeneralizedWfst
open GeneralizedOps DictionaryNodeRegistry OperationMachine StateRegistry LazySource
variable {N R : Type} {D : Dictionary N Char} {src : GeneralizedWfst N R} {env : Environment N} {r r' : Registries N} {state : Nat}

/-! ### Explorations -/

/-- An expansion takes its place among the answers of the environment, which are given one after the other. -/
def expand (src : GeneralizedWfst N R) (env : Environment N) (r : Registries N × Nat) (state : Nat) :
    (Registries N × Nat) × Option CachedCharState :=
  match src.tryComputeRegisteredState env state (.fresh r.1 r.2) with
  | (.ok value, s) => ((s.registries, s.tick), some value)
  | (.error _, s) => ((s.registries, s.tick), none)

def source (src : GeneralizedWfst N R) (env : Environment N) : LazySource (Registries N × Nat) Nat Char Char ℚ where
  valid r state := (r.1.states.get state).isSome
  expand := src.expand env

/-! ### Denotations -/

/-- A product state that stands for a point. -/
def DenotesProduct (src : GeneralizedWfst N R) (r : Registries N) (state : Nat) (p : ProductPoint) : Prop :=
  p.consumed ≤ src.query.length ∧ ∃ node, Spells r.dictionaryNodes node p.spelled ∧
    r.states.get state = some (.product ⟨node, utf8Len (src.query.take p.consumed), p.cost⟩)

/-- What a state stands for. -/
def Denotes (src : GeneralizedWfst N R) (r : Registries N) (state : Nat) : Point → Prop
  | .product p => src.DenotesProduct r state p
  | .emit input output position target => ∃ product next, r.states.get state = some (.emit ⟨⟨input, output, product⟩, position, next⟩) ∧
      src.DenotesProduct r product target

theorem DenotesProduct.mono {p : ProductPoint} (h : src.DenotesProduct r state p) (hr : Published D r r') : src.DenotesProduct r' state p := by
  obtain ⟨hle, node, hspells, hget⟩ := h
  exact ⟨hle, node, hr.spells hspells, get_mono hr.states_prefix hget⟩

theorem Denotes.mono {point : Point} (h : src.Denotes r state point) (hr : Published D r r') : src.Denotes r' state point := by
  cases point with
  | product p => exact DenotesProduct.mono h hr
  | emit input output position target =>
    obtain ⟨product, next, hget, hproduct⟩ := h
    exact ⟨product, next, get_mono hr.states_prefix hget, hproduct.mono hr⟩

theorem DenotesProduct.unique (hr : r.WellFormed D) {p p' : ProductPoint} (h : src.DenotesProduct r state p)
    (h' : src.DenotesProduct r state p') : p = p' := by
  obtain ⟨hle, node, hspells, hget⟩ := h
  obtain ⟨hle', node', hspells', hget'⟩ := h'
  rw [hget', Option.some.injEq, RegisteredState.product.injEq, ProductState.mk.injEq] at hget
  obtain ⟨rfl, hpos, hcost⟩ := hget
  have hspelled := hr.nodes.path_unique hspells hspells'
  have hconsumed := utf8Len_take_injective hle hle' hpos.symm
  cases p
  cases p'
  simp_all

theorem Denotes.unique (hr : r.WellFormed D) {point point' : Point} (h : src.Denotes r state point) (h' : src.Denotes r state point') :
    point = point' := by
  cases point with
  | product p =>
    cases point' with
    | product p' => rw [DenotesProduct.unique hr h h']
    | emit input output position target =>
      obtain ⟨-, node, -, hget⟩ := h
      obtain ⟨product, next, hget', -⟩ := h'
      cases hget.symm.trans hget'
  | emit input output position target =>
    obtain ⟨product, next, hget, hproduct⟩ := h
    cases point' with
    | product p' =>
      obtain ⟨-, node, -, hget'⟩ := h'
      cases hget.symm.trans hget'
    | emit input' output' position' target' =>
      obtain ⟨product', next', hget', hproduct'⟩ := h'
      rw [hget', Option.some.injEq, RegisteredState.emit.injEq, EmitState.mk.injEq, EmissionChain.mk.injEq] at hget
      obtain ⟨⟨rfl, rfl, rfl⟩, rfl, -⟩ := hget
      rw [hproduct.unique hr hproduct']

theorem denotes_start (owner : Nat) :
    src.Denotes (src.newRegistries owner) start (.product OperationMachine.start) := by
  refine ⟨Nat.zero_le _, 0, .root, ?_⟩
  simp [newRegistries, StateRegistry.new, StateRegistry.get, GeneralizedWfst.start, startState, OperationMachine.start, utf8Len]

/-! ### Expansions of denoted states -/

/-- A state in a chain has the rest of the labels to emit. -/
theorem denotes_next (hr : r.WellFormed D) {chain : EmissionChain} {first position : Nat} {target : ProductPoint}
    (hid : r.states.chainId chain = some first) (hlt : position < chain.width) (hproduct : src.DenotesProduct r chain.target target) :
    src.Denotes r (chain.next first position) (.after chain.input chain.output position target) := by
  unfold EmissionChain.next Point.after
  by_cases hlast : position + 1 = chain.width
  · rw [if_pos hlast, if_pos (hlast ▸ le_rfl)]
    exact hproduct
  · have hmore : ¬max chain.input.length chain.output.length ≤ position + 1 := by
      have : chain.width = max chain.input.length chain.output.length := rfl
      omega
    rw [if_neg hlast, if_neg hmore]
    exact ⟨chain.target, _, hr.states.chain_get hid (position + 1) (Nat.succ_pos position) (by omega), hproduct⟩

/-- The transition of an operation leads to what its abstract step leads to. -/
theorem Emits.denotes (hr : r.WellFormed D) {t : GeneralizedTransition} {arc : OperationArc} {target : Nat}
    (h : Emits src r state t arc target) (hle : arc.target.consumed ≤ src.query.length) :
    src.Denotes r t.target (.after arc.input arc.output 0 arc.target) := by
  obtain ⟨node, hget, hspells⟩ := h.product
  have hproduct : src.DenotesProduct r target arc.target := ⟨hle, node, hspells, hget⟩
  have hchain := h.chain
  split at hchain
  · rename_i hwidth
    rw [Point.after, if_pos (by omega), hchain]
    exact hproduct
  · rename_i hwidth
    have hgt : 1 < (⟨arc.input, arc.output, target⟩ : EmissionChain).width := Nat.lt_of_not_le hwidth
    have hnext := denotes_next hr hchain (Nat.zero_lt_of_lt hgt) hproduct
    rwa [EmissionChain.next, if_neg hgt.ne, Nat.add_zero] at hnext

/-- What an emission state stands for emits the next labels. -/
theorem expandsTo_emit (hr : r.WellFormed D) {emit : EmitState} {point : Point} (hget : r.states.get state = some (.emit emit))
    (hden : src.Denotes r state point) :
    (∃ b, src.Denotes r emit.next b ∧ Step D src point emit.chain.input[emit.position]? emit.chain.output[emit.position]? 0 b) ∧
    (∀ i o w b, Step D src point i o w b → emit.chain.input[emit.position]? = i ∧ emit.chain.output[emit.position]? = o ∧ 0 = w ∧
      src.Denotes r emit.next b) ∧ ∀ f, ¬Final D src point f := by
  cases point with
  | product p =>
    obtain ⟨-, node, -, hproduct⟩ := hden
    cases hget.symm.trans hproduct
  | emit input output position target =>
    obtain ⟨product, next, hemit, hproduct⟩ := hden
    cases hget.symm.trans hemit
    obtain ⟨hlt, first, hfirst, hnext⟩ := hr.states.chain_of_emit hget
    have hden := denotes_next hr hfirst hlt hproduct
    rw [← hnext] at hden
    refine ⟨⟨_, hden, .emission⟩, fun i o w b hstep => ?_, fun f hfinal => nomatch hfinal⟩
    cases hstep
    exact ⟨rfl, rfl, rfl, hden⟩

/-- What a product state stands for has the steps of its operations. -/
theorem expandsTo_product {scale : CostScale} {operations : OperationSet R} (hD : D.DistinctLabels) (hsrc : src.PreparedFrom scale operations)
    (hdictionary : src.dictionary = D.provider) (hr : r.WellFormed D) {p : ProductPoint} {product : ProductState} {n : N}
    {value : CachedCharState} (hp : p.consumed ≤ src.query.length) (hcost : p.cost ≤ src.maxCost) (hn : D.node? p.spelled = some n)
    (hproduct : product.queryBytePos = utf8Len (src.query.take p.consumed) ∧ product.cost = p.cost)
    (hfinal : value.final? = src.productFinalWeight product n)
    (harcs : List.Forall₂ (fun t arc => ∃ target, Emits src r state t arc target) value.arcs (operationArcs D src n p)) :
    (∀ arc ∈ value.arcs, ∃ b, src.Denotes r arc.target b ∧ Step D src (.product p) arc.input arc.output arc.weight b) ∧
    (∀ i o w b, Step D src (.product p) i o w b → ∃ arc ∈ value.arcs, arc.input = i ∧ arc.output = o ∧ arc.weight = w ∧
      src.Denotes r arc.target b) ∧ ∀ f, value.final? = some f ↔ Final D src (.product p) f := by
  have hdenotes : ∀ {t arc target}, arc ∈ operationArcs D src n p → Emits src r state t arc target →
      src.Denotes r t.target (.after arc.input arc.output 0 arc.target) := by
    intro t arc target harc hemits
    obtain ⟨d, -, -, -, hle, -, htarget⟩ := mem_operationArcs hsrc hD harc
    exact hemits.denotes hr (by rwa [htarget])
  refine ⟨fun t ht => ?_, fun i o w b hstep => ?_, fun f => ?_⟩
  · obtain ⟨arc, harc, target, hemits⟩ := exists_mem_of_forall₂ harcs ht
    refine ⟨_, hdenotes harc hemits, ?_⟩
    rw [hemits.input, hemits.output, hemits.weight]
    exact .operation hn harc
  · cases hstep with
    | @operation _ n' arc hn' harc =>
      obtain rfl := Option.some.inj (hn'.symm.trans hn)
      obtain ⟨t, ht, target, hemits⟩ := exists_mem_of_forall₂ harcs.flip harc
      exact ⟨t, ht, hemits.input, hemits.output, hemits.weight, hdenotes harc hemits⟩
  · rw [hfinal, productFinalWeight, hproduct.1, hproduct.2, hdictionary]
    constructor
    · intro hf
      split at hf
      · cases hf
      · rename_i hnot
        simp only [not_or, Ne, not_not, Bool.not_eq_false] at hnot
        cases hf
        exact .accept ((utf8Len_take_eq hp).mp hnot.1) hcost ⟨n, hn, hnot.2.2⟩
    · intro hf
      cases hf with
      | accept hconsumed _ hword =>
        obtain ⟨n', hn', hisFinal⟩ := hword
        obtain rfl := Option.some.inj (hn'.symm.trans hn)
        have hpos := (utf8Len_take_eq hp).mpr hconsumed
        simp [hpos, hcost.not_gt, Dictionary.provider, hisFinal]

/-! ### The relation -/

theorem expand_spec (hD : D.DistinctLabels) (hsrc : src.dictionary = D.provider) (hslots : src.SlotsFit) (henv : env.Publishes D)
    {s s' : Registries N × Nat} {o : Option CachedCharState} (hs : s.1.WellFormed D) (h : src.expand env s state = (s', o)) :
    Published D s.1 s'.1 ∧ ∀ value, o = some value → ExpandsTo D src s'.1 state value := by
  unfold expand at h
  rcases hrun : src.tryComputeRegisteredState env state (.fresh s.1 s.2) with ⟨result, s''⟩
  have hpublished : Published D s.1 s''.registries := published_tryComputeRegisteredState hD hsrc henv hslots hs hrun
  rw [hrun] at h
  cases result with
  | error e =>
    cases h
    exact ⟨hpublished, nofun⟩
  | ok value =>
    cases h
    refine ⟨hpublished, ?_⟩
    intro value' heq
    cases heq
    exact ((tryComputeRegisteredState_fits hD hsrc henv hslots state (fun _ => True) fun _ => trivial).ok ⟨hs, trivial⟩ hrun).2.2

/-- What a denoted state expands to are the steps of its point. -/
theorem ExpandsTo.steps {scale : CostScale} {operations : OperationSet R} (hD : D.DistinctLabels) (hsrc : src.PreparedFrom scale operations)
    (hdictionary : src.dictionary = D.provider) (hr : r.WellFormed D) {value : CachedCharState} {point : Point}
    (h : ExpandsTo D src r state value) (hden : src.Denotes r state point) :
    (∀ arc ∈ value.arcs, ∃ b, src.Denotes r arc.target b ∧ Step D src point arc.input arc.output arc.weight b) ∧
    (∀ i o w b, Step D src point i o w b → ∃ arc ∈ value.arcs, arc.input = i ∧ arc.output = o ∧ arc.weight = w ∧
      src.Denotes r arc.target b) ∧ ∀ f, value.final? = some f ↔ Final D src point f := by
  rcases h with ⟨emit, hget, rfl⟩ | ⟨product, base, n, position, hget, hspells, hn, hle, hpos, hcost, hfinal, harcs⟩
  · obtain ⟨hstep, hsteps, hnotFinal⟩ := expandsTo_emit (D := D) hr hget hden
    refine ⟨?_, fun i o w b h => ⟨_, List.mem_singleton_self _, hsteps i o w b h⟩, fun f => ⟨nofun, fun hf => absurd hf (hnotFinal f)⟩⟩
    intro arc harc
    rw [List.mem_singleton.mp harc]
    exact hstep
  · have hstart : src.Denotes r state (.product ⟨base, position, product.cost⟩) :=
      ⟨hle, product.dictNodeId, hspells, by rw [hget, ← hpos]⟩
    obtain rfl := Denotes.unique hr hstart hden
    exact expandsTo_product hD hsrc hdictionary hr hle hcost hn ⟨hpos, rfl⟩ hfinal harcs

variable [DecidableEq R] {lib : OperationLibrary R} {query : List Char} {maxDistance owner tick : Nat} {operations : OperationSet R}
  {limits : GeneralizedWfstLimits} {log : List (Nat × CachedCharState)} {s : Registries N × Nat}

/-- Expansions of denoted states return the steps of the abstract product. -/
theorem exact (hD : D.DistinctLabels) (h : tryNewWithLimits D.provider lib query maxDistance operations limits = .ok src)
    (henv : env.Publishes D) : Exact ((src.source env).restrict fun s state => ∃ point, src.Denotes s.1 state point) (machine D src)
      (fun s => s.1.WellFormed D) fun s state point => src.Denotes s.1 state point := by
  obtain ⟨hdictionary, -⟩ := arguments_eq h
  obtain ⟨scale, -, -, hsrc⟩ := preparedFrom h
  have hspec : ∀ {s : Registries N × Nat} {state s' o}, s.1.WellFormed D → src.expand env s state = (s', o) →
      Published D s.1 s'.1 ∧ ∀ value, o = some value → ExpandsTo D src s'.1 state value :=
    fun hs hexpand => expand_spec hD hdictionary (slotsFit h) henv hs hexpand
  have hsteps : ∀ {s : Registries N × Nat} {state point s' value}, s.1.WellFormed D → src.Denotes s.1 state point →
      src.expand env s state = (s', some value) → _ := fun {s state point s' value} hs hden hexpand =>
    ((hspec hs hexpand).2 value rfl).steps hD hsrc hdictionary ((hspec hs hexpand).1.wellFormed hs) (hden.mono (hspec hs hexpand).1)
  exact {
    inv_expand := fun hs hexpand => (hspec hs hexpand).1.wellFormed hs
    den_expand := fun hs hexpand hden => hden.mono (hspec hs hexpand).1
    den_unique := fun hs hden hden' => hden.unique hs hden'
    den_of_valid := fun _ hvalid => hvalid.2
    arcs := fun hs hden hexpand => (hsteps hs hden hexpand).1
    final := fun hs hden hexpand hf => ((hsteps hs hden hexpand).2.2 _).mp hf
    steps := fun hs hden _ hexpand => fun hstep => (hsteps hs hden hexpand).2.1 _ _ _ _ hstep
    finals := fun hs hden _ hexpand hf => ((hsteps hs hden hexpand).2.2 _).mpr hf }

/-- A complete exploration accepts the query with the words that align with it by operations of the original set, within the
    scaled budget, and its least weights are those of such alignments. -/
theorem generalized_relation (hD : D.DistinctLabels)
    (h : tryNewWithLimits D.provider lib query maxDistance operations limits = .ok src) (henv : env.Publishes D)
    (hE : (src.source env).ExploresFrom start (src.newRegistries owner, tick) log s) (hc : Complete log start) :
    ∃ scale, lib.costScaleFor operations = some scale ∧ scale.scaleBudget maxDistance = some src.maxCost ∧
      (∀ x y c, (graph log).Accepts start x y c ↔ x = query ∧ y ∈ D.words ∧
        ∃ d ≤ src.maxCost, Alignment.Align (Consumes lib scale operations) y x (c, d)) ∧
      ∀ y c, (graph log).LeastWeight start query y c ↔ y ∈ D.words ∧
        IsLeast {c | ∃ d ≤ src.maxCost, Alignment.Align (Consumes lib scale operations) y query (c, d)} c := by
  obtain ⟨hdictionary, hlibrary, hquery⟩ := arguments_eq h
  obtain ⟨scale, hscale, hbudget, hsrc⟩ := preparedFrom h
  have hstart : src.Denotes _ _ _ := denotes_start owner
  have hwellFormed := wellFormed_newRegistries hdictionary owner
  have hexplores := (exact hD h henv).toSound.exploresFrom_restrict hE hwellFormed hstart
  have haccepts : ∀ x y c, (graph log).Accepts start x y c ↔ x = query ∧ y ∈ D.words ∧
      ∃ d ≤ src.maxCost, Alignment.Align (Consumes lib scale operations) y x (c, d) := by
    intro x y c
    rw [(exact hD h henv).accepts_iff hexplores.explores hwellFormed hc hstart, OperationMachine.accepts_iff hsrc hD, hlibrary, hquery]
  refine ⟨scale, hscale, hbudget, haccepts, fun y c => ?_⟩
  exact Transducer.leastWeight_iff fun v => by rw [haccepts, eq_self, true_and]; rfl

instance (src : GeneralizedWfst N R) (env : Environment N) (r : Registries N × Nat) (state : Nat) :
    Decidable ((src.source env).valid r state) := inferInstanceAs (Decidable ((r.1.states.get state).isSome = true))

/-- Whether the states are all that an exploration of a constructed source meets. -/
def meetsAll (constructed : Except GeneralizedWfstError (GeneralizedWfst (List Char) Unit)) (states : List Nat) : Bool :=
  match constructed with
  | .ok src => ((src.source (.alone _)).exploreAll start (src.newRegistries 0, 0) [] states).any fun explored =>
      start ∈ explored.1.map Prod.fst ∧ ∀ l ∈ explored.1, ∀ arc ∈ l.2.arcs, arc.target ∈ explored.1.map Prod.fst
  | .error _ => false

theorem exists_exploration_of_meetsAll {constructed : Except GeneralizedWfstError (GeneralizedWfst (List Char) Unit)}
    {states : List Nat} (h : meetsAll constructed states = true) : ∃ src log s, constructed = .ok src ∧
      (src.source (.alone _)).ExploresFrom start (src.newRegistries 0, 0) log s ∧ Complete log start := by
  unfold meetsAll at h
  split at h
  · rename_i src
    obtain ⟨⟨log, s⟩, hlog, hclosed⟩ := (Option.any_eq_true _ _).mp h
    obtain ⟨hstart, hclosed⟩ := of_decide_eq_true hclosed
    exact ⟨src, log, s, rfl, ExploresFrom.exploreAll (.nil _) hlog, Sound.complete_of_closed hstart hclosed⟩
  · cases h

/-- The transposing source accepts the query `ab` with its word `ba`. -/
theorem generalized_relation_transposing : ∃ src log s, transposing = .ok src ∧
    (src.source (.alone _)).ExploresFrom start (src.newRegistries 0, 0) log s ∧ Complete log start ∧
      (graph log).Accepts start ['a', 'b'] ['b', 'a'] 1 := by
  have hmeets : meetsAll transposing [0, 2, 1] = true := by decide +kernel
  obtain ⟨src, log, s, hsrc, hE, hc⟩ := exists_exploration_of_meetsAll hmeets
  obtain ⟨scale, hscale, hbudget, haccepts, -⟩ := generalized_relation (trie [['b', 'a']]).labels_nodup hsrc (.alone _) hE hc
  obtain rfl := Option.some.inj hscale
  have hmax : 1 = src.maxCost := Option.some.inj hbudget
  refine ⟨src, log, s, hsrc, hE, hc, (haccepts _ _ _).mpr ⟨rfl, ?_, 1, hmax.le, ?_⟩⟩
  · exact ⟨['b', 'a'], by decide +kernel, by decide +kernel⟩
  · exact .single ⟨⟨2, 2, 1, .adjacentTranspose⟩, List.mem_singleton_self _, rfl, rfl, by decide, rfl, by decide +kernel⟩

end GeneralizedWfst
end Duallity
