import Mathlib.Data.Finset.Sort
import Duallity.Fzf.Bound
import Duallity.Fzf.Paths
import Duallity.Fzf.Ranking
import Duallity.Lib.PrefixSearch

/-! The ranking is exact. The walk holds one column for each character of its prefix, keeps the best scores in one heap and the
    best hits in another, and leaves out a subtree only when none of its terms has a score above that of `topK` hits. -/

namespace Duallity.FzfRanking
open FzfStateSource (asciiTables)
variable {N : Type} {D : FiniteDictionary N Char} {core : FzfCore} {p : List Char} {c : Char} {s : FzfScorer}

/-! ### Scorer -/

/-- The columns of a prefix and of its prefixes, the longest first. -/
def columnsOf (core : FzfCore) (p : List Char) : List FzfColumn := p.inits.reverse.map core.column

theorem columnsOf_nil : columnsOf core [] = [core.initialColumn] := rfl

theorem columnsOf_snoc : columnsOf core (p ++ [c]) = core.column (p ++ [c]) :: columnsOf core p := by
  simp [columnsOf, List.inits_append]

theorem length_columnsOf : (columnsOf core p).length = p.length + 1 := by
  simp [columnsOf]

theorem columnsOf_eq_cons (core : FzfCore) (p : List Char) : ∃ columns, columnsOf core p = core.column p :: columns := by
  cases p using List.reverseRecOn with
  | nil => exact ⟨[], columnsOf_nil⟩
  | append_singleton p c => exact ⟨_, columnsOf_snoc⟩

/-- The scorer stands at a prefix. -/
structure At (core : FzfCore) (p : List Char) (s : FzfScorer) : Prop where
  core_eq : s.core = core
  columns_eq : s.columns = columnsOf core p

/-- Whether the walk goes on below a prefix. -/
def Enters (core : FzfCore) (p : List Char) (cutoff : Option Int) : Prop :=
  p.length ≤ core.config.maxCandidateChars ∧ FzfScorer.canSurvive (core.upperBound (core.column p)) cutoff = true

theorem enter_spec (h : At core p s) (c : Char) : ∃ entered s', s.enter c (p.length + 1) = some (entered, s') ∧
    At core (p ++ [c]) s' ∧ s'.topScores = s.topScores ∧ (entered = true ↔ Enters core (p ++ [c]) s.cutoff) := by
  obtain ⟨columns, hcolumns⟩ := columnsOf_eq_cons core p
  have hlast := h.columns_eq.trans hcolumns
  have hlen : p.length + 1 = s.columns.length := by rw [h.columns_eq, length_columnsOf]
  have hnext : core.advance (core.column p) c :: s.columns = columnsOf core (p ++ [c]) := by
    rw [columnsOf_snoc, FzfCore.column_snoc, h.columns_eq]
  have hsnoc : (p ++ [c]).length = p.length + 1 := by rw [List.length_append, List.length_singleton]
  unfold FzfScorer.enter Enters
  rw [hsnoc, FzfCore.column_snoc]
  split
  · rename_i hnil
    rw [hnil] at hlast
    cases hlast
  · rename_i last rest hcons
    rw [hcons] at hlast
    cases hlast
    rw [if_neg (not_not.mpr hlen), h.core_eq]
    dsimp only
    split
    · rename_i hlong
      exact ⟨_, _, rfl, ⟨rfl, hnext⟩, rfl, iff_of_false Bool.false_ne_true fun hin => absurd hin.1 (not_le.mpr hlong)⟩
    · rename_i hshort
      split
      · rename_i hsurvive
        exact ⟨_, _, rfl, ⟨rfl, hnext⟩, rfl, iff_of_true rfl ⟨not_lt.mp hshort, hsurvive⟩⟩
      · rename_i hpruned
        exact ⟨_, _, rfl, ⟨rfl, hnext⟩, rfl, iff_of_false Bool.false_ne_true fun hin => hpruned hin.2⟩

theorem leave_spec (h : At core (p ++ [c]) s) : ∃ s', s.leave (p.length + 1) = some s' ∧ At core p s' ∧
    s'.topScores = s.topScores := by
  obtain ⟨columns, hcolumns⟩ := columnsOf_eq_cons core p
  have hlast : s.columns = core.column (p ++ [c]) :: core.column p :: columns := by
    rw [h.columns_eq, columnsOf_snoc, hcolumns]
  have hlen : p.length + 1 + 1 = s.columns.length := by
    rw [h.columns_eq, length_columnsOf, List.length_append, List.length_singleton]
  unfold FzfScorer.leave
  rw [hlast] at hlen ⊢
  dsimp only
  rw [if_neg (not_not.mpr hlen)]
  exact ⟨_, rfl, ⟨h.core_eq, hcolumns.symm⟩, rfl⟩

theorem accept_spec (h : At core p s) (htop : 0 < core.config.topK) : ∃ s', s.accept = some ((core.column p).bestFullScore, s') ∧
    At core p s' ∧ s'.topScores = (core.column p).bestFullScore.elim s.topScores (TopK.keep core.config.topK s.topScores) := by
  obtain ⟨columns, hcolumns⟩ := columnsOf_eq_cons core p
  have hlast := h.columns_eq.trans hcolumns
  unfold FzfScorer.accept
  rw [hlast]
  dsimp only
  cases (core.column p).bestFullScore with
  | none => exact ⟨s, rfl, h, rfl⟩
  | some score =>
    refine ⟨_, rfl, ?_⟩
    unfold FzfScorer.observeScore
    rw [h.core_eq, if_neg (Nat.ne_of_gt htop)]
    exact ⟨⟨rfl, hcolumns.symm⟩, rfl⟩

/-! ### Candidates -/

/-- The terms that have a score, each with its score. -/
def candidates (D : FiniteDictionary N Char) (core : FzfCore) : Set RankedHit :=
  {hit | hit.term ∈ D.words ∧ core.scoreChars hit.term = .ok (some hit.score)}

theorem scoreChars_eq_some {v : Int} : core.scoreChars p = .ok (some v) ↔
    p.length ≤ core.config.maxCandidateChars ∧ (core.column p).bestFullScore = some v := by
  rw [FzfCore.scoreChars_eq]
  split
  · rename_i hlong
    exact iff_of_false nofun fun h => absurd h.1 (not_le.mpr hlong)
  · rename_i hshort
    rw [Except.ok.injEq]
    exact (and_iff_right (not_lt.mp hshort)).symm

theorem mem_candidates {hit : RankedHit} : hit ∈ candidates D core ↔ hit.term ∈ D.words ∧
    hit.term.length ≤ core.config.maxCandidateChars ∧ (core.column hit.term).bestFullScore = some hit.score :=
  and_congr_right fun _ => scoreChars_eq_some

theorem finite_candidates : (candidates D core).Finite := by
  refine ((D.finite.subset Dictionary.words_subset_prefixes).image fun t =>
    RankedHit.mk t ((core.column t).bestFullScore.getD 0)).subset ?_
  rintro ⟨term, score⟩ h
  obtain ⟨hword, -, hscore⟩ := mem_candidates.mp h
  refine ⟨term, hword, ?_⟩
  dsimp only at hscore ⊢
  rw [hscore, Option.getD_some]

/-- A prefix that is not entered has no candidate below it, but such as are below `topK` hits. -/
theorem beaten_of_not_enters (hcore : core.WellFormed) {seen : List RankedHit} {a : List Char}
    (hscores : TopK.Keeps core.config.topK (seen.map RankedHit.score) s.topScores) (hs : s.core = core)
    (h : ¬Enters core a s.cutoff) {hit : RankedHit} (hhit : hit ∈ candidates D core) (hpre : a <+: hit.term) :
    core.config.topK ≤ seen.countP (hit < ·) := by
  obtain ⟨-, hlen, hscore⟩ := mem_candidates.mp hhit
  obtain ⟨suffix, hterm⟩ := hpre
  rw [← hterm] at hlen hscore
  have hshort : a.length ≤ core.config.maxCandidateChars := by
    rw [List.length_append] at hlen
    exact (Nat.le_add_right _ _).trans hlen
  obtain ⟨upper, hupper, hle⟩ := FzfCore.upperBound_admissible hcore hlen hscore
  have hpruned : FzfScorer.canSurvive (some upper) s.cutoff = false := by
    rw [← hupper]
    exact Bool.eq_false_iff.mpr fun hin => h ⟨hshort, hin⟩
  unfold FzfScorer.cutoff at hpruned
  rw [hs] at hpruned
  split at hpruned
  · rename_i hfull
    cases hleast : s.topScores.head? with
    | none =>
      rw [hleast] at hpruned
      cases hpruned
    | some least =>
      rw [hleast] at hpruned
      have hlt : upper < least := not_le.mp (of_decide_eq_false hpruned)
      refine (hscores.le_countP hfull.2 hleast (hle.trans_lt hlt)).trans ?_
      rw [List.countP_map]
      refine List.countP_mono_left ?_
      intro other _ hother
      exact decide_eq_true (RankedHit.lt_of_score_lt (of_decide_eq_true hother))
  · cases hpruned

/-! ### Stack -/

/-- The roots of the subtrees that a stack has still to search. -/
def roots : List Char → List (WalkEvent N) → List (List Char)
  | _, [] => []
  | p, .enter unit _ _ :: stack => (p ++ [unit]) :: roots p stack
  | p, .leave _ _ :: stack => roots p.dropLast stack

/-- The stack of a walk at a prefix: the nodes to be entered there, and one event for each of its characters. -/
def StackOk (D : Dictionary N Char) : List Char → List (WalkEvent N) → Prop
  | p, [] => p = []
  | p, .enter unit node depth :: stack => D.node? (p ++ [unit]) = some node ∧ depth = p.length + 1 ∧ StackOk D p stack
  | p, .leave unit depth :: stack => ∃ q, p = q ++ [unit] ∧ depth = q.length + 1 ∧ StackOk D q stack

/-- How many events a stack can still come to. -/
def weight : List (WalkEvent N) → Nat
  | [] => 0
  | .enter _ _ _ :: stack => weight stack + 2
  | .leave _ _ :: stack => weight stack + 1

theorem roots_children (children : List (Char × N)) (depth : Nat) (stack : List (WalkEvent N)) :
    roots p (children.map (fun (unit, child) => WalkEvent.enter unit child depth) ++ stack) =
      (children.map Prod.fst).map (fun c => p ++ [c]) ++ roots p stack := by
  induction children with
  | nil => rfl
  | cons child children ih => exact congrArg (List.cons (p ++ [child.1])) ih

theorem stackOk_children {children : List (Char × N)} {stack : List (WalkEvent N)} (hstack : StackOk D.toDictionary p stack)
    (hchildren : ∀ child ∈ children, D.node? (p ++ [child.1]) = some child.2) :
    StackOk D.toDictionary p (children.map (fun (unit, child) => WalkEvent.enter unit child (p.length + 1)) ++ stack) := by
  induction children with
  | nil => exact hstack
  | cons child children ih =>
    exact ⟨hchildren child List.mem_cons_self, rfl, ih fun d hd => hchildren d (List.mem_cons_of_mem _ hd)⟩

theorem weight_children (children : List (Char × N)) (depth : Nat) (stack : List (WalkEvent N)) :
    weight (children.map (fun (unit, child) => WalkEvent.enter unit child depth) ++ stack) = weight stack + 2 * children.length := by
  induction children with
  | nil => rfl
  | cons child children ih =>
    rw [List.map_cons, List.cons_append, weight, ih, List.length_cons]
    omega

/-! ### Walk -/

/-- The scorer and the heap of a walk with subtrees to search and hits found. -/
structure Walk (D : FiniteDictionary N Char) (core : FzfCore) (limit : Nat) (pending : List (List Char)) (s : RankState N)
    (seen : List RankedHit) : Prop where
  scorer : At core s.activePrefix s.scorer
  heap : TopK.Keeps core.config.topK seen s.heap
  scores : TopK.Keeps core.config.topK (seen.map RankedHit.score) s.scorer.topScores
  covers : PrefixSearch.Covers RankedHit.term (candidates D core) core.config.topK pending seen
  work : s.work ≤ limit

/-- The walk between two events. -/
structure Walks (D : FiniteDictionary N Char) (core : FzfCore) (limit : Nat) (s : RankState N) (seen : List RankedHit) : Prop where
  walk : Walk D core limit (roots s.activePrefix s.stack) s seen
  stack : StackOk D.toDictionary s.activePrefix s.stack

/-- How many steps the walk can still take. -/
def fuelOf (limit : Nat) (s : RankState N) : Nat := weight s.stack + 2 * (limit - s.work)

variable {limit : Nat} {pending : List (List Char)} {r : RankState N} {seen : List RankedHit} {node : N}

/-- The hits at a node. -/
def hitsAt (D : FiniteDictionary N Char) (core : FzfCore) (node : N) (p : List Char) : List RankedHit :=
  if D.isFinal node then ((core.column p).bestFullScore.map fun score => RankedHit.mk p score).toList else []

theorem mem_hitsAt (hnode : D.node? p = some node) (hlen : p.length ≤ core.config.maxCandidateChars) {hit : RankedHit} :
    hit ∈ hitsAt D core node p ↔ hit ∈ candidates D core ∧ hit.term = p := by
  rw [mem_candidates, hitsAt]
  constructor
  · intro h
    split at h
    · rename_i hfinal
      obtain ⟨score, hscore, rfl⟩ := Option.map_eq_some_iff.mp (Option.mem_toList.mp h)
      exact ⟨⟨⟨node, hnode, hfinal⟩, hlen, hscore⟩, rfl⟩
    · cases h
  · rintro ⟨⟨⟨n, hn, hfinal⟩, -, hscore⟩, rfl⟩
    rw [hnode] at hn
    cases hn
    rw [if_pos hfinal, hscore]
    exact List.mem_cons_self

theorem nodup_hitsAt : (hitsAt D core node p).Nodup := by
  unfold hitsAt
  split
  · cases (core.column p).bestFullScore with
    | none => exact .nil
    | some score => exact List.nodup_singleton _
  · exact .nil

theorem acceptNode_spec (h : Walk D core limit pending r seen) (htop : 0 < core.config.topK) (node : N) :
    ∃ r', acceptNode D.toDictionary node r = some r' ∧ r'.activePrefix = r.activePrefix ∧ r'.stack = r.stack ∧ r'.work = r.work ∧
      At core r.activePrefix r'.scorer ∧
      TopK.Keeps core.config.topK (seen ++ hitsAt D core node r.activePrefix) r'.heap ∧
      TopK.Keeps core.config.topK ((seen ++ hitsAt D core node r.activePrefix).map RankedHit.score) r'.scorer.topScores := by
  obtain ⟨s', haccept, hat, htops⟩ := accept_spec h.scorer htop
  unfold acceptNode hitsAt
  split
  · rw [haccept]
    refine ⟨_, rfl, rfl, rfl, rfl, hat, ?_⟩
    dsimp only
    rw [htops, h.scorer.core_eq]
    cases (core.column r.activePrefix).bestFullScore with
    | none =>
      rw [Option.map_none, Option.toList_none, List.append_nil]
      exact ⟨h.heap, h.scores⟩
    | some score =>
      rw [Option.map_some, Option.toList_some, List.map_append]
      exact ⟨h.heap.step htop _, h.scores.step htop score⟩
  · rw [List.append_nil]
    exact ⟨r, rfl, rfl, rfl, rfl, h.scorer, h.heap, h.scores⟩

/-- A word of the dictionary below a node is the node's prefix, or is below a child. -/
theorem below_child (hnode : D.node? p = some node) {t : List Char} (ht : t ∈ D.words) (hpre : p <+: t) :
    t = p ∨ ∃ c ∈ (D.edges node).map Prod.fst, p ++ [c] <+: t := by
  obtain ⟨suffix, rfl⟩ := hpre
  cases suffix with
  | nil => exact .inl (List.append_nil p)
  | cons c suffix =>
    refine .inr ⟨c, ?_, ⟨suffix, by rw [List.append_assoc, List.singleton_append]⟩⟩
    obtain ⟨n, hn, -⟩ := ht
    rw [Dictionary.node?_append, hnode, Option.bind_some, Dictionary.walk?] at hn
    obtain ⟨m, hstep, -⟩ := Option.bind_eq_some_iff.mp hn
    obtain ⟨u, hedge, hu⟩ := FiniteDictionary.step?_eq_some.mp hstep
    cases hu
    exact List.mem_map_of_mem hedge

theorem node?_child (hnode : D.node? p = some node) {child : Char × N} (h : child ∈ D.edges node) :
    D.node? (p ++ [child.1]) = some child.2 := by
  rw [Dictionary.node?_snoc, hnode]
  exact FiniteDictionary.step?_eq_some.mpr ⟨child.1, h, rfl⟩

/-- A node is searched: its hit is taken, and its children are left to search, when the limit allows. -/
theorem visit_spec {stack : List (WalkEvent N)} (h : Walk D core limit (r.activePrefix :: roots r.activePrefix stack) r seen)
    (hstack : StackOk D.toDictionary r.activePrefix stack) (htop : 0 < core.config.topK) (hnode : D.node? r.activePrefix = some node)
    (hlen : r.activePrefix.length ≤ core.config.maxCandidateChars) :
    ∃ r', acceptNode D.toDictionary node r = some r' ∧ r'.stack = r.stack ∧
      (expandNode D.toDictionary limit node r.activePrefix.length { r' with stack } = .error workExceeded ∨
        ∃ r'' seen', expandNode D.toDictionary limit node r.activePrefix.length { r' with stack } = .ok r'' ∧
          Walks D core limit r'' seen' ∧ fuelOf limit r'' = weight stack + 2 * (limit - r.work)) := by
  obtain ⟨r', haccept, hpre, hkept, hwork, hat, hheap, hscores⟩ := acceptNode_spec h htop node
  refine ⟨r', haccept, hkept, ?_⟩
  unfold expandNode pushChildren
  rw [hwork]
  dsimp only
  split
  · exact .inl rfl
  · rename_i hroom
    have htake : (D.edges node).take (limit - r.work + 1) = D.edges node := by
      refine List.take_of_length_le ?_
      rw [List.length_take] at hroom
      omega
    have hle := h.work
    rw [htake] at hroom ⊢
    refine .inr ⟨_, seen ++ hitsAt D core node r.activePrefix, rfl, ⟨?_, ?_⟩, ?_⟩
    · dsimp only
      rw [hpre, roots_children]
      refine ⟨hpre.symm ▸ hat, hheap, hscores, ?_, ?_⟩
      · exact h.covers.visit (D.labels_nodup node) (fun hit hhit hpre => below_child hnode hhit.1 hpre)
          (fun hit => mem_hitsAt hnode hlen) nodup_hitsAt
      · dsimp only
        omega
    · dsimp only
      rw [hpre]
      exact stackOk_children hstack fun child hchild => node?_child hnode hchild
    · unfold fuelOf
      dsimp only
      rw [weight_children]
      omega

/-- One event of the walk. -/
theorem rankEvent_spec (hcore : core.WellFormed) (htop : 0 < core.config.topK) {event : WalkEvent N} {stack : List (WalkEvent N)}
    (hr : r.stack = event :: stack) (h : Walks D core limit r seen) :
    rankEvent D.toDictionary limit { r with stack } event = some (.error workExceeded) ∨
      ∃ r' seen', rankEvent D.toDictionary limit { r with stack } event = some (.ok r') ∧ Walks D core limit r' seen' ∧
        fuelOf limit r' < fuelOf limit r := by
  obtain ⟨hwalk, hstack⟩ := h
  rw [hr] at hwalk hstack
  have hfuel : fuelOf limit r = weight (event :: stack) + 2 * (limit - r.work) := by rw [fuelOf, hr]
  cases event with
  | leave unit depth =>
    obtain ⟨q, hq, rfl, hrest⟩ := hstack
    have hscorer := hwalk.scorer
    rw [hq] at hscorer
    obtain ⟨s', hleave, hat, htops⟩ := leave_spec hscorer
    have hpre : r.activePrefix.dropLast = q := by rw [hq, List.dropLast_concat]
    have hcovers := hwalk.covers
    rw [roots, hpre] at hcovers
    right
    unfold rankEvent
    dsimp only
    rw [hleave, hpre]
    refine ⟨_, seen, rfl, ⟨⟨hat, hwalk.heap, ?_, hcovers, hwalk.work⟩, hrest⟩, ?_⟩
    · dsimp only
      exact htops.symm ▸ hwalk.scores
    · rw [hfuel, weight, fuelOf]
      dsimp only
      omega
  | enter unit node depth =>
    obtain ⟨hnode, rfl, hrest⟩ := hstack
    obtain ⟨entered, s', henter, hat, htops, hiff⟩ := enter_spec hwalk.scorer unit
    have hscores : TopK.Keeps core.config.topK (seen.map RankedHit.score) s'.topScores := htops.symm ▸ hwalk.scores
    have hlength : (r.activePrefix ++ [unit]).length = r.activePrefix.length + 1 := by
      rw [List.length_append, List.length_singleton]
    unfold rankEvent
    dsimp only [Option.bind_eq_bind]
    rw [henter, Option.bind_some]
    dsimp only
    cases entered with
    | true =>
      -- The events of the children come before the one that leaves the node.
      have hstack' : StackOk D.toDictionary (r.activePrefix ++ [unit]) (.leave unit (r.activePrefix.length + 1) :: stack) :=
        ⟨_, rfl, rfl, hrest⟩
      have hcovers := hwalk.covers
      have hroots : roots (r.activePrefix ++ [unit]) (.leave unit (r.activePrefix.length + 1) :: stack) =
          roots r.activePrefix stack := by
        rw [roots, List.dropLast_concat]
      rw [roots, ← hroots] at hcovers
      let reached : RankState N := { r with stack, scorer := s', activePrefix := r.activePrefix ++ [unit] }
      have hwalk' : Walk D core limit (reached.activePrefix :: roots reached.activePrefix
          (.leave unit (r.activePrefix.length + 1) :: stack)) reached seen :=
        ⟨hat, hwalk.heap, hscores, hcovers, hwalk.work⟩
      obtain ⟨r', haccept, hkept, hexpand⟩ := visit_spec hwalk' hstack' htop hnode (hiff.mp rfl).1
      rw [if_pos rfl, haccept, Option.bind_some, hkept]
      rw [hlength] at hexpand
      rcases hexpand with hexpand | ⟨r'', seen', hexpand, hwalks, hle⟩
      · exact .inl (congrArg some hexpand)
      · refine .inr ⟨r'', seen', congrArg some hexpand, hwalks, ?_⟩
        have hwork : reached.work = r.work := rfl
        rw [hle, hfuel, hwork, weight.eq_2, weight.eq_3]
        omega
    | false =>
      obtain ⟨s'', hleave, hat', htops'⟩ := leave_spec hat
      have hnot : ¬Enters core (r.activePrefix ++ [unit]) r.scorer.cutoff := fun hin => Bool.false_ne_true (hiff.mpr hin)
      have hcovers := hwalk.covers.prune fun hit hhit hpre =>
        beaten_of_not_enters hcore hwalk.scores hwalk.scorer.core_eq hnot hhit hpre
      right
      rw [if_neg Bool.false_ne_true, hleave, Option.bind_some]
      refine ⟨_, seen, rfl, ⟨⟨hat', hwalk.heap, ?_, hcovers, hwalk.work⟩, hrest⟩, ?_⟩
      · dsimp only
        exact htops'.symm ▸ hscores
      · rw [hfuel, weight, fuelOf]
        dsimp only
        omega

/-- The loop ends, within the fuel, with every subtree searched or left out. -/
theorem rankLoop_spec (hcore : core.WellFormed) (htop : 0 < core.config.topK) (fuel : Nat) (h : Walks D core limit r seen)
    (hfuel : fuelOf limit r ≤ fuel) : rankLoop D.toDictionary limit fuel r = some (.error workExceeded) ∨
      ∃ r' seen', rankLoop D.toDictionary limit fuel r = some (.ok r') ∧ Walk D core limit [] r' seen' := by
  induction fuel generalizing r seen with
  | zero =>
    cases hr : r.stack with
    | nil =>
      have hwalk := h.walk
      rw [hr, roots] at hwalk
      exact .inr ⟨r, seen, by rw [rankLoop, hr]; rfl, hwalk⟩
    | cons event stack =>
      rw [fuelOf, hr] at hfuel
      cases event <;> · rw [weight] at hfuel; omega
  | succ fuel ih =>
    rw [rankLoop]
    split
    · rename_i hr
      have hwalk := h.walk
      rw [hr, roots] at hwalk
      exact .inr ⟨r, seen, rfl, hwalk⟩
    · rename_i event stack hr
      rcases rankEvent_spec hcore htop hr h with herror | ⟨r', seen', hok, hwalks, hlt⟩
      · rw [herror]
        exact .inl rfl
      · rw [hok]
        exact ih hwalks (by omega)

/-! ### Ranking -/

/-- The hits are the first `topK` candidates, by descending score and then by ascending term. -/
def Ranks (D : FiniteDictionary N Char) (core : FzfCore) (hits : List RankedHit) : Prop :=
  ∃ all : List RankedHit, all.Pairwise (· > ·) ∧ (∀ hit, hit ∈ all ↔ hit ∈ candidates D core) ∧
    hits = all.take core.config.topK

theorem Walk.ranks (h : Walk D core limit [] r seen) : Ranks D core (finish r).hits := by
  have hfinite : (candidates D core).Finite := finite_candidates
  have hsort : (hfinite.toFinset.sort (· ≥ ·)).Pairwise (· > ·) := hfinite.toFinset.sortedGT_sort.pairwise
  have hmem : ∀ hit, hit ∈ hfinite.toFinset.sort (· ≥ ·) ↔ hit ∈ candidates D core := fun hit =>
    (Finset.mem_sort _).trans hfinite.mem_toFinset
  exact ⟨_, hsort, hmem, h.covers.eq_take h.heap hsort hmem⟩

theorem ranked_spec (hcore : core.WellFormed) {tables : UnicodeTables} {query : List Char} {config : FzfConfig}
    (hnew : FzfCore.new tables query config = .ok core) (htop : 0 < config.topK) (workUnits : Nat) :
    ranked D.toDictionary tables query config workUnits = some (.error workExceeded) ∨
      ∃ ranking, ranked D.toDictionary tables query config workUnits = some (.ok ranking) ∧ Ranks D core ranking.hits := by
  have hconfig := FzfCore.config_of_new hnew
  rw [← hconfig] at htop
  let start : RankState N := ⟨⟨core, [core.initialColumn], [], ⟨0, 0, 0, 0, 0, 0⟩⟩, [], [], [], 0⟩
  have hstart : Walk D core workUnits (start.activePrefix :: roots start.activePrefix ([] : List (WalkEvent N))) start [] :=
    ⟨⟨rfl, rfl⟩, TopK.keeps_nil, TopK.keeps_nil, PrefixSearch.covers_start, Nat.zero_le _⟩
  obtain ⟨s, haccept, hkept, hexpand⟩ := visit_spec hstart rfl htop rfl (Nat.zero_le _)
  have hstack : { s with stack := [] } = s := by
    cases s
    cases hkept
    rfl
  rw [hstack] at hexpand
  unfold ranked
  rw [← hconfig, if_neg (Nat.ne_of_gt htop), FzfScorer.withConfig, hconfig, hnew]
  dsimp only [Except.map, Option.bind_eq_bind]
  rw [haccept, Option.bind_some]
  rcases hexpand with hexpand | ⟨s', seen, hexpand, hwalks, hfuel⟩
  · left
    rw [show expandNode D.toDictionary workUnits D.root 0 s = _ from hexpand]
  · rw [show expandNode D.toDictionary workUnits D.root 0 s = _ from hexpand]
    dsimp only
    have hle : fuelOf workUnits s' ≤ 2 * workUnits := by
      rw [hfuel, weight, Nat.zero_add]
      exact Nat.mul_le_mul_left 2 (Nat.sub_le _ _)
    rcases rankLoop_spec hcore htop (2 * workUnits) hwalks hle with herror | ⟨r, seen', hok, hwalk⟩
    · left
      rw [herror]
      rfl
    · right
      rw [hok]
      exact ⟨finish r, rfl, hwalk.ranks⟩

/-- A ranking has the first `topK` of the terms that have a score; without one, the output stays null. -/
theorem ranked_exact (D : FiniteDictionary N Char) (tables : UnicodeTables) (query : List Char) (config : FzfConfig) (workUnits : Nat)
    (htop : 0 < config.topK) :
    (∃ scorer ranking, FzfScorer.withConfig tables query config = .ok scorer ∧
      ranked D.toDictionary tables query config workUnits = some (.ok ranking) ∧
      fzfRankRef D.toDictionary tables query config workUnits = (.ok, some ranking) ∧
      ∃ all : List RankedHit, all.Pairwise (· > ·) ∧
        (∀ hit, hit ∈ all ↔ hit.term ∈ D.words ∧ scorer.score hit.term = .ok (some hit.score)) ∧
        (∀ hit ∈ all, hit.term.length ≤ config.maxCandidateChars) ∧ ranking.hits = all.take config.topK) ∨
    (∃ rejection, ranked D.toDictionary tables query config workUnits = some (.error rejection) ∧
      fzfRankRef D.toDictionary tables query config workUnits = (.limitExceeded, none) ∧
      (rejection = workExceeded ∨
        ∃ error, FzfScorer.withConfig tables query config = .error error ∧ rejection = ⟨.limitExceeded, error.toString⟩)) := by
  cases hnew : FzfCore.new tables query config with
  | error error =>
    have hranked : ranked D.toDictionary tables query config workUnits = some (.error ⟨.limitExceeded, error.toString⟩) := by
      unfold ranked FzfScorer.withConfig
      rw [if_neg (Nat.ne_of_gt htop), hnew]
      rfl
    refine .inr ⟨_, hranked, ?_, .inr ⟨error, ?_, rfl⟩⟩
    · rw [fzfRankRef, hranked]
      rfl
    · rw [FzfScorer.withConfig, hnew]
      rfl
  | ok core =>
    have hcore := FzfCore.wellFormed_of_new hnew
    have hconfig := FzfCore.config_of_new hnew
    rcases ranked_spec hcore hnew htop workUnits with hranked | ⟨ranking, hranked, all, hsorted, hmem, hhits⟩
    · refine .inr ⟨_, hranked, ?_, .inl rfl⟩
      rw [fzfRankRef, hranked]
      rfl
    · refine .inl ⟨⟨core, [core.initialColumn], [], ⟨0, 0, 0, 0, 0, 0⟩⟩, ranking, ?_, hranked, ?_, all, hsorted, hmem, ?_, ?_⟩
      · rw [FzfScorer.withConfig, hnew]
        rfl
      · rw [fzfRankRef, hranked]
        rfl
      · intro hit hhit
        exact hconfig ▸ (mem_candidates.mp ((hmem hit).mp hhit)).2.1
      · rw [hhits, hconfig]

/-- Three terms match. The first two are ranked, of which the shorter comes first, and `ab` has a lower score than both. -/
theorem ranked_exact_trie : ∃ ranking, ∃ all : List RankedHit,
    ranked (trie [['a', 'b'], ['b'], ['b', 'a'], ['c']]).toDictionary asciiTables ['b'] ⟨false, .default, 2, 1000, 1000000⟩ 10 =
      some (.ok ranking) ∧ ranking.hits = [⟨['b'], 36⟩, ⟨['b', 'a'], 36⟩] ∧ all.Pairwise (· > ·) ∧ ranking.hits = all.take 2 ∧
    (∀ hit, hit ∈ all ↔ hit.term ∈ (trie [['a', 'b'], ['b'], ['b', 'a'], ['c']]).words ∧
      FzfCore.scoreChars ⟨asciiTables, ['b'], ⟨false, .default, 2, 1000, 1000000⟩, 10⟩ hit.term = .ok (some hit.score)) ∧
    ⟨['a', 'b'], 16⟩ ∈ all := by
  generalize hconfig : (⟨false, .default, 2, 1000, 1000000⟩ : FzfConfig) = config
  have heval : (fzfRankRef (trie [['a', 'b'], ['b'], ['b', 'a'], ['c']]).toDictionary asciiTables ['b'] config 10).2.map
      DuallityFzfRanking.hits = some [⟨['b'], 36⟩, ⟨['b', 'a'], 36⟩] := by
    rw [← hconfig]
    decide +kernel
  have hscore : FzfCore.scoreChars ⟨asciiTables, ['b'], config, 10⟩ ['a', 'b'] = .ok (some 16) := by
    rw [← hconfig]
    decide +kernel
  have hword : ['a', 'b'] ∈ (trie [['a', 'b'], ['b'], ['b', 'a'], ['c']]).words := by
    rw [show (trie [['a', 'b'], ['b'], ['b', 'a'], ['c']]).words = _ from TrieDictionary.words_eq]
    exact List.mem_cons_self
  rcases ranked_exact (trie [['a', 'b'], ['b'], ['b', 'a'], ['c']]) asciiTables ['b'] config 10 (by rw [← hconfig]; decide) with
    ⟨scorer, ranking, hscorer, hranked, href, all, hsorted, hmem, -, hhits⟩ | ⟨rejection, -, href, -⟩
  · rw [href] at heval
    have hscorer : scorer.core = ⟨asciiTables, ['b'], config, 10⟩ := by
      rw [← hconfig] at hscorer ⊢
      cases hscorer
      rfl
    have htop : config.topK = 2 := by rw [← hconfig]
    refine ⟨ranking, all, hranked, Option.some.inj heval, hsorted, htop ▸ hhits, fun hit => ?_, ?_⟩
    · rw [hmem, ← hscorer]
      rfl
    · refine (hmem _).mpr ⟨hword, ?_⟩
      rw [← hscorer] at hscore
      exact hscore
  · rw [href] at heval
    cases heval

end Duallity.FzfRanking
