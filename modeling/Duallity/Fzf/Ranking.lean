import Mathlib.Data.Prod.Lex
import Mathlib.Order.OrderDual
import Duallity.Dictionary
import Duallity.Ffi.Status
import Duallity.Fzf.Column
import Duallity.Lib.TopK

/-! The depth-first walk that ranks the terms of a dictionary (`ffi/fzf.rs`) and the scorer that prunes it (`fzf_scorer.rs`). -/

namespace Duallity

/-! ### Scorer -/

structure FzfStats where
  columnsComputed : Nat
  candidatesScored : Nat
  prefixesPruned : Nat
  scoreBoundPrefixesPruned : Nat
  lengthPrefixesPruned : Nat
  upperBoundsComputed : Nat
deriving DecidableEq, Repr

/-- The columns stand latest first; the heap of top scores has its least one first. -/
structure FzfScorer where
  core : FzfCore
  columns : List FzfColumn
  topScores : List Int
  stats : FzfStats

namespace FzfScorer

def withConfig (tables : UnicodeTables) (query : List Char) (config : FzfConfig) : Except FzfError FzfScorer :=
  (FzfCore.new tables query config).map fun core => ⟨core, [core.initialColumn], [], ⟨0, 0, 0, 0, 0, 0⟩⟩

/-- `score`. -/
def score (s : FzfScorer) (candidate : List Char) : Except FzfError (Option Int) := s.core.scoreChars candidate

/-- The `k`th score, once there are as many. -/
def cutoff (s : FzfScorer) : Option Int :=
  if 0 < s.core.config.topK ∧ s.topScores.length = s.core.config.topK then s.topScores.head? else none

def observeScore (s : FzfScorer) (score : Int) : FzfScorer :=
  if s.core.config.topK = 0 then s else { s with topScores := TopK.keep s.core.config.topK s.topScores score }

/-- Whether a completion within the length limit can still come to the cutoff. -/
def canSurvive (bound cutoff : Option Int) : Bool :=
  match bound, cutoff with
  | none, _ => false
  | some _, none => true
  | some upper, some threshold => decide (threshold ≤ upper)

/-- `enter`; `none` is a failed assertion. -/
def enter (s : FzfScorer) (unit : Char) (depth : Nat) : Option (Bool × FzfScorer) :=
  match s.columns with
  | [] => none
  | last :: _ =>
    if depth ≠ s.columns.length then none
    else
      let next := s.core.advance last unit
      let stats := { s.stats with columnsComputed := s.stats.columnsComputed + 1 }
      if s.core.config.maxCandidateChars < depth then
        some (false, { s with
          columns := next :: s.columns
          stats := { stats with
            lengthPrefixesPruned := stats.lengthPrefixesPruned + 1
            prefixesPruned := stats.prefixesPruned + 1 } })
      else
        let stats := { stats with upperBoundsComputed := stats.upperBoundsComputed + 1 }
        if canSurvive (s.core.upperBound next) s.cutoff then some (true, { s with columns := next :: s.columns, stats })
        else
          some (false, { s with
            columns := next :: s.columns
            stats := { stats with
              scoreBoundPrefixesPruned := stats.scoreBoundPrefixesPruned + 1
              prefixesPruned := stats.prefixesPruned + 1 } })

/-- `leave`; `none` is a failed assertion. -/
def leave (s : FzfScorer) (depth : Nat) : Option FzfScorer :=
  match s.columns with
  | _ :: first :: columns => if depth + 1 ≠ s.columns.length then none else some { s with columns := first :: columns }
  | _ => none

/-- `permits_accept` and `accept`: the score of the active candidate, if it has one. -/
def accept (s : FzfScorer) : Option (Option Int × FzfScorer) :=
  match s.columns with
  | [] => none
  | last :: _ =>
    some (match last.bestFullScore with
      | none => (none, s)
      | some score =>
        (some score, observeScore { s with stats := { s.stats with candidatesScored := s.stats.candidatesScored + 1 } } score))

end FzfScorer

/-! ### Hits -/

structure RankedHit where
  term : List Char
  score : Int
deriving DecidableEq, Repr

namespace RankedHit

/-- The bytes by which strings are compared. -/
def utf8 (term : List Char) : List Nat := (term.flatMap String.utf8EncodeChar).map UInt8.toNat

theorem utf8_injective : Function.Injective utf8 := by
  intro t u h
  have hbytes : t.flatMap String.utf8EncodeChar = u.flatMap String.utf8EncodeChar :=
    List.map_injective_iff.mpr (fun a b h => UInt8.toNat_inj.mp h) h
  refine String.ofList_injective (String.toByteArray_inj.mp ?_)
  rw [String.toByteArray_ofList, String.toByteArray_ofList, List.utf8Encode, List.utf8Encode, hbytes]

/-- By score, then by descending term. -/
def key (hit : RankedHit) : Int ×ₗ (List Nat)ᵒᵈ := toLex (hit.score, OrderDual.toDual (utf8 hit.term))

theorem key_injective : Function.Injective key := by
  intro a b h
  obtain ⟨hscore, hterm⟩ := Prod.mk.inj (toLex.injective h)
  cases a
  cases b
  cases hscore
  cases utf8_injective (OrderDual.toDual.injective hterm)
  rfl

instance : LinearOrder RankedHit := LinearOrder.lift' key key_injective

theorem lt_iff {a b : RankedHit} : a < b ↔ a.score < b.score ∨ (a.score = b.score ∧ utf8 b.term < utf8 a.term) :=
  Prod.Lex.lt_iff

theorem lt_of_score_lt {a b : RankedHit} (h : a.score < b.score) : a < b := lt_iff.mpr (.inl h)

end RankedHit

/-! ### Walk -/

inductive WalkEvent (N : Type) where
  | enter (unit : Char) (node : N) (depth : Nat)
  | leave (unit : Char) (depth : Nat)

/-- The locals of `ranked`; the stack has its top first, the heap its least hit. -/
structure RankState (N : Type) where
  scorer : FzfScorer
  heap : List RankedHit
  stack : List (WalkEvent N)
  activePrefix : List Char
  work : Nat

structure DuallityFzfStatistics extends FzfStats where
  resultCount : Nat
  workUnits : Nat
deriving DecidableEq, Repr

structure DuallityFzfRanking where
  hits : List RankedHit
  stats : DuallityFzfStatistics
deriving DecidableEq, Repr

namespace FzfRanking
variable {N : Type} (D : Dictionary N Char) (limit : Nat)

def workExceeded : Rejection := ⟨.limitExceeded, "FZF traversal exceeded max_work_units"⟩

def pushChildren (node : N) (depth : Nat) (stack : List (WalkEvent N)) (work : Nat) :
    Except Rejection (List (WalkEvent N) × Nat) :=
  let remaining := limit - work
  let children := (D.edges node).take (remaining + 1)
  if remaining < children.length then .error workExceeded
  else .ok (children.map (fun (unit, child) => .enter unit child (depth + 1)) ++ stack, work + children.length)

/-- The scorer and the heap after a node was reached. -/
def acceptNode (node : N) (s : RankState N) : Option (RankState N) :=
  if D.isFinal node then
    s.scorer.accept.map fun (score, scorer) =>
      { s with
        scorer
        heap := score.elim s.heap fun score => TopK.keep s.scorer.core.config.topK s.heap ⟨s.activePrefix, score⟩ }
  else some s

/-- The children of a node that was reached. -/
def expandNode (node : N) (depth : Nat) (s : RankState N) : Except Rejection (RankState N) :=
  (pushChildren D limit node depth s.stack s.work).map fun (stack, work) => { s with stack, work }

/-- One event of the loop. -/
def rankEvent (s : RankState N) : WalkEvent N → Option (Except Rejection (RankState N))
  | .leave _ depth =>
    (s.scorer.leave depth).map fun scorer => .ok { s with scorer, activePrefix := s.activePrefix.dropLast }
  | .enter unit node depth => do
    let (entered, scorer) ← s.scorer.enter unit depth
    if entered then
      let s ← acceptNode D node { s with scorer, activePrefix := s.activePrefix ++ [unit] }
      return expandNode D limit node depth { s with stack := .leave unit depth :: s.stack }
    else
      let scorer ← scorer.leave depth
      return .ok { s with scorer }

/-- The loop of `ranked`; `none` is a panic, or that the events did not end. -/
def rankLoop : Nat → RankState N → Option (Except Rejection (RankState N))
  | 0, s => if s.stack.isEmpty then some (.ok s) else none
  | fuel + 1, s =>
    match s.stack with
    | [] => some (.ok s)
    | event :: stack =>
      match rankEvent D limit { s with stack } event with
      | some (.ok s) => rankLoop fuel s
      | outcome => outcome

/-- The ranking of what the walk has kept. -/
def finish (s : RankState N) : DuallityFzfRanking where
  hits := s.heap.insertionSort (· ≥ ·)
  stats := { s.scorer.stats with resultCount := s.heap.length, workUnits := s.work }

end FzfRanking

def FzfError.toString : FzfError → String
  | .queryTooLong actual maximum => s!"fzf query has {actual} characters, exceeding the configured maximum {maximum}"
  | .candidateTooLong actual maximum => s!"fzf candidate has {actual} characters, exceeding the configured maximum {maximum}"

open FzfRanking in
/-- `ranked`; an event takes at most two steps for each edge that the limit lets in. -/
def ranked {N : Type} (D : Dictionary N Char) (tables : UnicodeTables) (query : List Char) (config : FzfConfig) (workUnits : Nat) :
    Option (Except Rejection DuallityFzfRanking) :=
  if config.topK = 0 then some (reject .invalidArgument "FZF ranking requires top_k > 0")
  else
    match FzfScorer.withConfig tables query config with
    | .error error => some (reject .limitExceeded error.toString)
    | .ok scorer => do
      let s ← acceptNode D D.root ⟨scorer, [], [], [], 0⟩
      match expandNode D workUnits D.root 0 s with
      | .error rejection => some (.error rejection)
      | .ok s => (rankLoop D workUnits (2 * workUnits) s).map (Except.map finish)

/-- `duallity_fzf_rank_ref`: the status, and what its slot points to, if that is not null. -/
def fzfRankRef {N : Type} (D : Dictionary N Char) (tables : UnicodeTables) (query : List Char) (config : FzfConfig)
    (workUnits : Nat) : DuallityStatus × Option DuallityFzfRanking :=
  let result := ranked D tables query config workUnits
  (boundary result,
    match result with
    | some (.ok ranking) => some ranking
    | some (.error _) | none => none)

end Duallity
