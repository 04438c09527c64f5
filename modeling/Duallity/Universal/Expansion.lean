import Duallity.Universal.Refinement

/-! Expansions of the Universal source keep the invariant and return steps and final weights of the product
    machine only. -/

namespace Duallity.UniversalLevenshteinStateSource
open DictionaryNodeRegistry StateEncoding UniversalProduct LazySource
variable {N U σ β κ : Type} [CharUnit U] [DecidableEq κ] {A : UniversalAutomaton σ β κ} {D : FiniteDictionary N U}
  {q : List Char} {k : Nat} {r r' : UniversalRegistries N σ κ} {id depth s state : Nat} {n : N} {u : σ} {t : SpelledState}

/-! ### Expansions keep the invariant -/

theorem expandState_fst (A : UniversalAutomaton σ β κ) (D : FiniteDictionary N U) (q : List Char) (k : Nat)
    (r : UniversalRegistries N σ κ) (state : Nat) : ((sourceOf A D q k).expandState r state).1 = r ∨
    ∃ id depth s n registered, r.1.getNode id = some (n, depth) ∧
      ((sourceOf A D q k).expandState r state).1 = ((sourceOf A D q k).skipQueryChar
        (followEdges (sourceOf A D q k) r id depth s n registered).1 id s registered).1 := by
  simp only [expandState]
  split
  · exact Or.inl rfl
  · rename_i id aid _
    cases hn : r.1.getNode id with
    | none => exact Or.inl (by simp only [computeTransitions, hn])
    | some m =>
      obtain ⟨n, depth⟩ := m
      cases hv : r.2.value? aid with
      | none => exact Or.inl (by simp only [computeTransitions, hn, hv])
      | some registered =>
        cases hs : (sourceOf A D q k).encodeProductState id aid with
        | none => exact Or.inl (by simp only [computeTransitions, hn, hv, hs])
        | some s => exact Or.inr ⟨id, depth, s, n, registered, hn, by simp only [computeTransitions, hn, hv, hs, followEdges]⟩

theorem wellFormed_followEdges (s : Nat) (registered : RegisteredUniversalState σ) (hr : WellFormed (sourceOf A D q k) r)
    (hn : r.1.getNode id = some (n, depth)) :
    WellFormed (sourceOf A D q k) (followEdges (sourceOf A D q k) r id depth s n registered).1 :=
  (Scan.inv_scan _ inv_followEdge ⟨hr, hn⟩).1

theorem wellFormed_expandState (state : Nat) (hr : WellFormed (sourceOf A D q k) r) :
    WellFormed (sourceOf A D q k) ((sourceOf A D q k).expandState r state).1 := by
  rcases expandState_fst A D q k r state with h | ⟨id, depth, s, n, registered, hn, h⟩ <;> rw [h]
  · exact hr
  · exact (wellFormed_followEdges s registered hr hn).skipQueryChar

theorem le_expandState (A : UniversalAutomaton σ β κ) (D : FiniteDictionary N U) (q : List Char) (k : Nat)
    (r : UniversalRegistries N σ κ) (state : Nat) : r ≤ ((sourceOf A D q k).expandState r state).1 := by
  rcases expandState_fst A D q k r state with h | ⟨id, depth, s, n, registered, -, h⟩ <;> rw [h]
  exact le_followEdges.trans le_skipQueryChar

/-! ### Arcs are steps -/

/-- Each arc of the loop comes from a pending edge, at the ids of its child and its state. -/
theorem of_mem_followEdges {registered : RegisteredUniversalState σ} {arc : UniversalTransition}
    (hr : WellFormed (sourceOf A D q k) r) (hn : r.1.getNode id = some (n, depth))
    (harc : arc ∈ (followEdges (sourceOf A D q k) r id depth s n registered).2) :
    ∃ edge ∈ (sourceOf A D q k).pendingEdges n depth registered, ∃ i j,
      (followEdges (sourceOf A D q k) r id depth s n registered).1.1.id? (.child id edge.dictChar) = some i ∧
      (followEdges (sourceOf A D q k) r id depth s n registered).1.2.id?
        ((sourceOf A D q k).stateKey edge.nextAutoState edge.nextQueryPos) = some j ∧
      (sourceOf A D q k).encodeProductState i j = some arc.target ∧
      arc = ⟨s, q[registered.queryPos]?, some edge.dictChar, arc.target, 0⟩ := by
  obtain ⟨edge, hedge, r₁, -, -, hle, harc⟩ := Scan.mem_scan (fun _ _ => le_followEdge) inv_followEdge ⟨hr, hn⟩ harc
  rcases followEdge_cases (sourceOf A D q k) r₁ id depth s ((sourceOf A D q k).queryChars[registered.queryPos]?) edge with
    h | ⟨i, j, target, hi, hj, ht, h⟩ <;> rw [h] at harc hle
  · cases harc
  · cases List.mem_singleton.mp harc
    exact ⟨edge, hedge, i, j, Interner.le_id? hle.1 (Interner.id?_register hi),
      Interner.le_id? hle.2 (Interner.id?_register hj), ht, rfl⟩

theorem of_mem_skipQueryChar {registered : RegisteredUniversalState σ} {arc : UniversalTransition}
    (harc : arc ∈ ((sourceOf A D q k).skipQueryChar r id s registered).2) :
    ∃ a j, q[registered.queryPos]? = some a ∧ ((sourceOf A D q k).skipQueryChar r id s registered).1.2.id?
        ((sourceOf A D q k).stateKey registered.state (registered.queryPos + 1)) = some j ∧
      (sourceOf A D q k).encodeProductState id j = some arc.target ∧ arc = ⟨s, some a, none, arc.target, 0⟩ := by
  rcases skipQueryChar_cases (sourceOf A D q k) r id s registered with h | ⟨a, j, target, ha, hj, ht, h⟩ <;>
    rw [h] at harc ⊢
  · cases harc
  · cases List.mem_singleton.mp harc
    exact ⟨a, j, ha, Interner.id?_register hj, ht, rfl⟩

/-- A registered child and state stand for the end of the machine's step along an edge. -/
theorem denotes_edge (hkey : Function.Injective A.key) {edge : PendingEdge N σ} {i j target : Nat}
    (hr' : WellFormed (sourceOf A D q k) r') (hid : Spells r'.1 id t.spelled) (hc : t.cursor ≤ q.length)
    (hl : min t.spelled.length q.length ≤ t.cursor) (hrun : run A q k t.spelled = some u)
    (hread : read A q k u t.spelled.length edge.dictChar = some edge.nextAutoState)
    (hpos : edge.nextQueryPos = t.cursor + (q[t.cursor]?).isSome.toNat)
    (hi : r'.1.id? (.child id edge.dictChar) = some i)
    (hj : r'.2.id? ((sourceOf A D q k).stateKey edge.nextAutoState edge.nextQueryPos) = some j)
    (ht : (sourceOf A D q k).encodeProductState i j = some target) :
    Denotes A D q k r' target ⟨t.spelled ++ [edge.dictChar], t.cursor + (q[t.cursor]?).isSome.toNat⟩ := by
  have hadvance := cursor_advance hc
  have hrun' := run_of_pending hrun hread
  refine .of_encode ?_ ?_ (.child hid hi) hrun' (hpos ▸ hr'.value_of_id hkey hj) ht
  · simp only [hadvance]
    exact Nat.min_le_right _ _
  · simp only [hadvance, List.length_append, List.length_singleton]
    omega

/-- A registered state with the next cursor stands for the end of the machine's skip. -/
theorem denotes_skip (hkey : Function.Injective A.key) {a : Char} {j target : Nat}
    (hr' : WellFormed (sourceOf A D q k) r') (hid : Spells r'.1 id t.spelled) (ha : q[t.cursor]? = some a)
    (hl : min t.spelled.length q.length ≤ t.cursor) (hrun : run A q k t.spelled = some u)
    (hj : r'.2.id? ((sourceOf A D q k).stateKey u (t.cursor + 1)) = some j)
    (ht : (sourceOf A D q k).encodeProductState id j = some target) :
    Denotes A D q k r' target ⟨t.spelled, t.cursor + 1⟩ := by
  have hlt : t.cursor < q.length := (List.getElem?_eq_some_iff.mp ha).1
  exact .of_encode hlt (hl.trans (Nat.le_succ _)) hid hrun (hr'.value_of_id hkey hj) ht

omit [DecidableEq κ] in
theorem registeredFinalWeight_eq_some {c f : Nat} :
    (sourceOf A D q k).registeredFinalWeight n u c q.length depth = some f ↔
      c = q.length ∧ D.isFinal n = true ∧ A.acceptingDistance u q.length depth = some f ∧ f ≤ 9007199254740992 := by
  simp only [registeredFinalWeight, Option.ite_none_left_eq_some, not_or, not_not, Bool.not_eq_false,
    Option.bind_eq_some_iff, boundedCountToF64, Option.ite_none_right_eq_some, Option.some.injEq]
  constructor
  · rintro ⟨⟨hc, hfinal⟩, g, hacc, hg, rfl⟩
    exact ⟨hc, hfinal, hacc, hg⟩
  · rintro ⟨hc, hfinal, hacc, hf⟩
    exact ⟨⟨hc, hfinal⟩, f, hacc, hf, rfl⟩

omit [DecidableEq κ] in
theorem step_of_edge {edge : PendingEdge N σ} (hnode : D.node? t.spelled = some n)
    (hchild : D.step? n edge.dictChar = some edge.child) (hrun : run A q k t.spelled = some u)
    (hread : read A q k u t.spelled.length edge.dictChar = some edge.nextAutoState) :
    Step A D.toDictionary q k t q[t.cursor]? (some edge.dictChar) 0
      ⟨t.spelled ++ [edge.dictChar], t.cursor + (q[t.cursor]?).isSome.toNat⟩ := by
  have hmem : t.spelled ++ [edge.dictChar] ∈ D.prefixes :=
    Dictionary.mem_prefixes.mpr ⟨_, by rw [Dictionary.node?_snoc, hnode, Option.bind_some, hchild]⟩
  exact .edge hmem (by rw [run_of_pending hrun hread]; rfl)

/-- Expansions return steps and final weights of the product machine only. -/
theorem sound (hkey : Function.Injective A.key) {valid : UniversalRegistries N σ κ → Nat → Prop}
    (hvalid : ∀ {r state}, valid r state → ∃ t, Denotes A D q k r state t) :
    Sound ⟨valid, (sourceOf A D q k).expandState⟩ (machine A D.toDictionary q k) (WellFormed (sourceOf A D q k))
      (Denotes A D q k) where
  inv_expand {r state r' o} hr he := by
    have := wellFormed_expandState state hr
    rwa [show (sourceOf A D q k).expandState r state = (r', o) from he] at this
  den_expand {r _ state _ r' o} _ he hs := by
    have := le_expandState A D q k r state
    rw [show (sourceOf A D q k).expandState r state = (r', o) from he] at this
    exact hs.mono this
  den_unique := by
    rintro r state ⟨p, c⟩ ⟨p', c'⟩ hr ⟨-, -, -, id, aid, u, hdecode, hspells, -, hv⟩
      ⟨-, -, -, id', aid', u', hdecode', hspells', -, hv'⟩
    cases hdecode.symm.trans hdecode'
    obtain rfl : p = p' := hr.nodes.path_unique hspells hspells'
    cases hv.symm.trans hv'
    rfl
  den_of_valid _ hv := hvalid hv
  arcs {r state t r' e} hr ht he arc harc := by
    obtain ⟨id, aid, u, n, hspells, hnode, hn, hrun, -, hv, heq⟩ := ht.expandState hr
    obtain ⟨-, hc, hl, -⟩ := ht
    have hd := hr.depth_lt hspells
    cases heq.symm.trans he
    have hr₁ := wellFormed_followEdges state ⟨u, t.cursor⟩ hr hn
    rcases List.mem_append.mp harc with harc | harc
    · obtain ⟨edge, hedge, i, j, hi, hj, htarget, harc⟩ := of_mem_followEdges hr hn harc
      obtain ⟨hchild, hread, hpos⟩ := (mem_pendingEdges hd hc).mp hedge
      have hden := denotes_edge hkey hr₁ (hspells.mono le_followEdges.1) hc hl hrun hread hpos hi hj htarget
      rw [harc]
      exact ⟨_, hden.mono le_skipQueryChar, step_of_edge hnode hchild hrun hread⟩
    · obtain ⟨a, j, ha, hj, htarget, harc⟩ := of_mem_skipQueryChar harc
      have hden := denotes_skip hkey hr₁.skipQueryChar ((hspells.mono le_followEdges.1).mono le_skipQueryChar.1) ha hl hrun
        hj htarget
      rw [harc]
      exact ⟨_, hden, .skip ha⟩
  final {r state t r' e f} hr ht he hf := by
    obtain ⟨id, aid, u, n, hspells, hnode, hn, hrun, -, hv, heq⟩ := ht.expandState hr
    cases heq.symm.trans he
    obtain ⟨p, c⟩ := t
    obtain ⟨hc, hfinal, hacc, hexact⟩ := registeredFinalWeight_eq_some.mp hf
    obtain rfl : c = q.length := hc
    exact .accept ⟨n, hnode, hfinal⟩ hrun hacc hexact

end Duallity.UniversalLevenshteinStateSource
