import Duallity.Fzf.Score
import Duallity.Lib.LazyGraph
import Duallity.NodeRegistry

/-! The lazy source of fzf scores (`fzf_state_source.rs`, `fzf_state_support.rs`). A state stands for a label sequence: its
    key is its parent's id and the label of the edge, so sequences that lead to one dictionary node keep their own columns. -/

namespace Duallity

structure RegisteredFzfState (N : Type) where
  node : N
  column : FzfColumn
  pathScore : Int

namespace FzfColumn

/-- `best_full_score().unwrap_or(0)`. -/
def pathScore (column : FzfColumn) : Int := column.bestFullScore.getD 0

end FzfColumn

/-- The states and the ids of their keys; the start has the root key. -/
abbrev FzfStateRegistry (N : Type) := DictionaryNodeRegistry (RegisteredFzfState N)

namespace FzfStateRegistry
variable {N : Type}

def new (root : N) (rootColumn : FzfColumn) : FzfStateRegistry N :=
  DictionaryNodeRegistry.new ⟨root, rootColumn, rootColumn.pathScore⟩

def get (r : FzfStateRegistry N) (state : Nat) : Option (RegisteredFzfState N) := DictionaryNodeRegistry.getNode r state

def registerChild (r : FzfStateRegistry N) (parent : Nat) (label : Char) (node : N) (column : FzfColumn) :
    FzfStateRegistry N × Option Nat :=
  DictionaryNodeRegistry.registerNode r ⟨node, column, column.pathScore⟩ (DictionaryNodeKey.child parent label)

end FzfStateRegistry

/-- `i32::checked_sub`. -/
def checkedSubI32 (a b : Int) : Option Int := if i32Min ≤ a - b ∧ a - b ≤ i32Max then some (a - b) else none

structure FzfStateSource (N U : Type) where
  dictionary : Dictionary N U
  core : FzfCore

namespace FzfStateSource
variable {N U : Type} [CharUnit U] (src : FzfStateSource N U)

def initial : FzfStateRegistry N := .new src.dictionary.root src.core.initialColumn

def start : Nat := 0

/-- The loop over the edges of a state; nothing when the `expect` on a delta fails. -/
def followEdges (state : Nat) (registered : RegisteredFzfState N) :
    List (U × N) → FzfStateRegistry N → Option (FzfStateRegistry N × List (Arc Nat Char Char Int))
  | [], r => some (r, [])
  | (unit, child) :: edges, r =>
    let label := CharUnit.toChar unit
    let column := src.core.advance registered.column label
    (checkedSubI32 column.pathScore registered.pathScore).bind fun delta =>
      match r.registerChild state label child column with
      | (r, some childState) =>
        (followEdges state registered edges r).map fun (r, arcs) => (r, ⟨state, some label, some label, childState, delta⟩ :: arcs)
      | (r, none) => followEdges state registered edges r

/-- The expansion of a registered state; nothing when it panics. -/
def computeRegisteredState (r : FzfStateRegistry N) (state : Nat) :
    Option (FzfStateRegistry N × Option (Expansion Nat Char Char Int)) :=
  match r.get state with
  | none => some (r, none)
  | some registered => (src.followEdges state registered (src.dictionary.edges registered.node) r).map fun (r, arcs) =>
      (r, some { arcs
                 final? := if src.dictionary.isFinal registered.node ∧ registered.column.bestFullScore.isSome then some 0
                   else none })

/-- The registered `u32` states. -/
def source : LazySource (FzfStateRegistry N) Nat Char Char Int where
  valid r state := state ≤ u32Max ∧ (r.get state).isSome
  expand r state := (src.computeRegisteredState r state).getD (r, none)

end FzfStateSource

/-! ### Label sequences -/

namespace Dictionary
variable {N U : Type}

/-- The dictionary whose nodes carry the column of the labels that lead to them. -/
def scored (D : Dictionary N U) [CharUnit U] (core : FzfCore) : Dictionary (RegisteredFzfState N) U where
  root := ⟨D.root, core.initialColumn, core.initialColumn.pathScore⟩
  isFinal s := D.isFinal s.node
  edges s := (D.edges s.node).map fun e =>
    (e.1, ⟨e.2, core.advance s.column (CharUnit.toChar e.1), (core.advance s.column (CharUnit.toChar e.1)).pathScore⟩)
  hasEdge s := D.hasEdge s.node
  edgeCount s := D.edgeCount s.node

variable [CharUnit U] {D : Dictionary N U} {core : FzfCore} {p : List Char}

theorem scored_step? {s : RegisteredFzfState N} {c : Char} : (D.scored core).step? s c = (D.step? s.node c).map fun m =>
    ⟨m, core.advance s.column c, (core.advance s.column c).pathScore⟩ := by
  unfold step? scored
  dsimp only
  rw [List.find?_map]
  show Option.map _ (Option.map _ ((D.edges s.node).find? _)) = _
  cases h : (D.edges s.node).find? fun e => CharUnit.toChar e.1 == c with
  | none =>
    have h' : (D.edges s.node).find? ((fun e : U × RegisteredFzfState N => CharUnit.toChar e.1 == c) ∘ fun e : U × N =>
        (e.1, (⟨e.2, core.advance s.column (CharUnit.toChar e.1), (core.advance s.column (CharUnit.toChar e.1)).pathScore⟩ :
          RegisteredFzfState N))) = none := h
    rw [h']
    rfl
  | some e =>
    have h' : (D.edges s.node).find? ((fun e : U × RegisteredFzfState N => CharUnit.toChar e.1 == c) ∘ fun e : U × N =>
        (e.1, (⟨e.2, core.advance s.column (CharUnit.toChar e.1), (core.advance s.column (CharUnit.toChar e.1)).pathScore⟩ :
          RegisteredFzfState N))) = some e := h
    have hlabel : CharUnit.toChar e.1 = c := beq_iff_eq.mp (List.find?_some h :)
    rw [h']
    simp [hlabel]

theorem scored_node? : (D.scored core).node? p = (D.node? p).map fun n => ⟨n, core.column p, (core.column p).pathScore⟩ := by
  induction p using List.reverseRecOn with
  | nil => rfl
  | append_singleton p c ih =>
    rw [node?_snoc, node?_snoc, ih]
    cases D.node? p with
    | none => rfl
    | some n => rw [Option.map_some, Option.bind_some, Option.bind_some, scored_step?, FzfCore.column_snoc]

theorem scored_prefixes : (D.scored core).prefixes = D.prefixes := by
  ext p
  simp [prefixes, scored_node?]

end Dictionary
end Duallity
