import Mathlib.Data.List.Induction
import Mathlib.Data.Set.Basic
import Mathlib.Logic.Relation

/-! Automata with anchors. An opening anchor may be crossed only before the first symbol, a closing one only after the last
    symbol and after each opening one. -/

structure AnchoredAutomaton (σ κ : Type*) where
  start : σ
  final : σ → Prop
  eps : σ → σ → Prop
  opening : σ → σ → Prop
  closing : σ → σ → Prop
  read : κ → σ → σ → Prop

namespace AnchoredAutomaton
variable {σ κ : Type*} (M : AnchoredAutomaton σ κ)

/-- Where in a run: opening anchors may still follow, symbols may, or only closing anchors. -/
inductive Phase where
  | before
  | inside
  | after
deriving DecidableEq

/-- A run over a sequence that ends in a final state. -/
inductive Run : Phase → σ → List κ → Prop
  | stop {phase : Phase} {q : σ} : M.final q → Run phase q []
  | eps {phase : Phase} {p q : σ} {x : List κ} : M.eps p q → Run phase q x → Run phase p x
  | opening {p q : σ} {x : List κ} : M.opening p q → Run .before q x → Run .before p x
  | closing {phase : Phase} {p q : σ} {x : List κ} : M.closing p q → Run .after q x → Run phase p x
  | read {phase : Phase} {p q : σ} {c : κ} {x : List κ} : phase ≠ .after → M.read c p q → Run .inside q x → Run phase p (c :: x)

def Accepts (x : List κ) : Prop := M.Run .before M.start x

/-- A run that does not consult anchors. -/
inductive PlainRun : σ → List κ → Prop
  | stop {q : σ} : M.final q → PlainRun q []
  | eps {p q : σ} {x : List κ} : M.eps p q → PlainRun q x → PlainRun p x
  | read {p q : σ} {c : κ} {x : List κ} : M.read c p q → PlainRun q x → PlainRun p (c :: x)

def PlainlyAccepts (x : List κ) : Prop := M.PlainRun M.start x

/-! ### State sets -/

def Opens : σ → σ → Prop := Relation.ReflTransGen fun p q => M.eps p q ∨ M.opening p q

def Closes : σ → σ → Prop := Relation.ReflTransGen fun p q => M.eps p q ∨ M.closing p q

/-- The states before the first symbol. -/
def initial : Set σ := {q | M.Opens M.start q}

/-- The states after one more symbol. -/
def next (S : Set σ) (c : κ) : Set σ := {q | ∃ p ∈ S, ∃ p', M.read c p p' ∧ Relation.ReflTransGen M.eps p' q}

/-- Some final state lies behind closing anchors. -/
def Accepting (S : Set σ) : Prop := ∃ p ∈ S, ∃ f, M.Closes p f ∧ M.final f

/-- The states after a sequence. -/
def reach (x : List κ) : Set σ := x.foldl M.next M.initial

/-- A set with the targets of all its silent steps. -/
def Closed (S : Set σ) : Prop := ∀ p ∈ S, ∀ q, M.eps p q → q ∈ S

variable {M} {S : Set σ} {p q : σ} {c : κ} {x : List κ} {phase : Phase}

theorem closed_initial : M.Closed M.initial := fun _ hp _ h => hp.tail (.inl h)

theorem closed_next : M.Closed (M.next S c) := by
  intro p hp q h
  obtain ⟨a, ha, p', hread, hreach⟩ := hp
  exact ⟨a, ha, p', hread, hreach.tail h⟩

theorem Closed.of_reaches (hS : M.Closed S) (hp : p ∈ S) (h : Relation.ReflTransGen M.eps p q) : q ∈ S := by
  induction h with
  | refl => exact hp
  | tail _ hstep ih => exact hS _ ih _ hstep

/-! ### Runs -/

theorem Run.of_closes (h : M.Closes p q) (hq : M.final q) (hphase : phase ≠ .before) : M.Run phase p [] := by
  induction h using Relation.ReflTransGen.head_induction_on generalizing phase with
  | refl => exact .stop hq
  | head hstep _ ih =>
    rcases hstep with hstep | hstep
    · exact .eps hstep (ih hphase)
    · exact .closing hstep (ih (by decide))

theorem Run.closes (h : M.Run phase p x) (hphase : phase ≠ .before) (hx : x = []) : ∃ f, M.Closes p f ∧ M.final f := by
  induction h with
  | stop hq => exact ⟨_, .refl, hq⟩
  | eps hstep _ ih =>
    obtain ⟨f, hf, hfinal⟩ := ih hphase hx
    exact ⟨f, hf.head (.inl hstep), hfinal⟩
  | opening _ _ _ => exact absurd rfl hphase
  | closing hstep _ ih =>
    obtain ⟨f, hf, hfinal⟩ := ih (by decide) hx
    exact ⟨f, hf.head (.inr hstep), hfinal⟩
  | read _ _ _ _ => cases hx

theorem Run.of_eps (h : M.Run phase q x) (hreach : Relation.ReflTransGen M.eps p q) : M.Run phase p x := by
  induction hreach using Relation.ReflTransGen.head_induction_on with
  | refl => exact h
  | head hstep _ ih => exact .eps hstep ih

/-- Only the empty sequence is left behind a closing anchor. -/
theorem Run.eq_nil (h : M.Run phase p x) (hphase : phase = .after) : x = [] := by
  induction h with
  | stop _ => rfl
  | eps _ _ ih => exact ih hphase
  | opening _ _ _ => cases hphase
  | closing _ _ ih => exact ih rfl
  | read hne _ _ _ => exact absurd hphase hne

/-- A run inside may be one that starts before. -/
theorem Run.before (h : M.Run phase p x) (hphase : phase ≠ .after) : M.Run .before p x := by
  induction h with
  | stop hq => exact .stop hq
  | eps hstep _ ih => exact .eps hstep (ih hphase)
  | opening hstep _ ih => exact .opening hstep (ih hphase)
  | closing hstep hrun _ => exact .closing hstep hrun
  | read _ hread hrun _ => exact .read (by decide) hread hrun

/-- Opening anchors come first. -/
theorem run_before_iff : M.Run .before p x ↔ ∃ q, M.Opens p q ∧ M.Run .inside q x := by
  constructor
  · intro h
    generalize hphase : Phase.before = phase at h
    induction h with
    | stop hq => exact ⟨_, .refl, .stop hq⟩
    | eps hstep _ ih =>
      obtain ⟨q, hq, hrun⟩ := ih hphase
      exact ⟨q, hq.head (.inl hstep), hrun⟩
    | opening hstep _ ih =>
      obtain ⟨q, hq, hrun⟩ := ih hphase
      exact ⟨q, hq.head (.inr hstep), hrun⟩
    | closing hstep hrun _ => exact ⟨_, .refl, .closing hstep hrun⟩
    | read _ hread hrun _ => exact ⟨_, .refl, .read (by decide) hread hrun⟩
  · rintro ⟨q, hq, hrun⟩
    induction hq using Relation.ReflTransGen.head_induction_on with
    | refl => exact hrun.before (by decide)
    | head hstep _ ih =>
      rcases hstep with hstep | hstep
      · exact .eps hstep ih
      · exact .opening hstep ih

/-- The next symbol is read behind silent steps. -/
theorem run_cons (h : M.Run phase p (c :: x)) (hphase : phase = .inside) :
    ∃ p' q, Relation.ReflTransGen M.eps p p' ∧ M.read c p' q ∧ M.Run .inside q x := by
  generalize hy : c :: x = y at h
  induction h with
  | stop _ => cases hy
  | eps hstep _ ih =>
    obtain ⟨p', q, hreach, hread, hrun⟩ := ih hphase hy
    exact ⟨p', q, hreach.head hstep, hread, hrun⟩
  | opening _ _ _ => cases hphase
  | closing _ hrun _ => cases hy.trans (hrun.eq_nil rfl)
  | read _ hread hrun _ =>
    cases hy
    exact ⟨_, _, .refl, hread, hrun⟩

/-- The runs from a closed set are followed by its successor sets. -/
theorem run_inside_iff (hS : M.Closed S) : (∃ q ∈ S, M.Run .inside q x) ↔ M.Accepting (x.foldl M.next S) := by
  induction x generalizing S with
  | nil =>
    constructor
    · rintro ⟨q, hq, hrun⟩
      exact ⟨q, hq, hrun.closes (by decide) rfl⟩
    · rintro ⟨q, hq, f, hf, hfinal⟩
      exact ⟨q, hq, .of_closes hf hfinal (by decide)⟩
  | cons c x ih =>
    rw [List.foldl_cons, ← ih closed_next]
    constructor
    · rintro ⟨p, hp, hrun⟩
      obtain ⟨p', q, hreach, hread, hrun⟩ := run_cons hrun rfl
      exact ⟨q, ⟨p', hS.of_reaches hp hreach, q, hread, .refl⟩, hrun⟩
    · rintro ⟨q, ⟨p, hp, p', hread, hreach⟩, hrun⟩
      exact ⟨p, hp, .read (by decide) hread (hrun.of_eps hreach)⟩

/-- A sequence is accepted when the states after it are accepting. -/
theorem accepts_iff : M.Accepts x ↔ M.Accepting (M.reach x) := by
  rw [Accepts, run_before_iff]
  exact run_inside_iff closed_initial

/-! ### Automata without anchors -/

variable (M) in
/-- The automaton with silent steps from the start to the initial states, whose states are final when final ones lie behind
    closing anchors. -/
def normalize : AnchoredAutomaton σ κ where
  start := M.start
  final q := ∃ f, Relation.ReflTransGen (fun p q => (M.eps p q ∨ p = M.start ∧ q ∈ M.initial ∧ q ≠ M.start) ∨ M.closing p q) q f ∧ M.final f
  eps p q := M.eps p q ∨ p = M.start ∧ q ∈ M.initial ∧ q ≠ M.start
  opening := M.opening
  closing := M.closing
  read := M.read

variable (M) in
/-- A run that may cross opening anchors each time it is at the start. -/
inductive ReentrantRun : σ → List κ → Prop
  | stop {q : σ} : M.final q → ReentrantRun q []
  | eps {p q : σ} {x : List κ} : M.eps p q → ReentrantRun q x → ReentrantRun p x
  | enter {q : σ} {x : List κ} : q ∈ M.initial → ReentrantRun q x → ReentrantRun M.start x
  | closing {p q : σ} : M.closing p q → ReentrantRun q [] → ReentrantRun p []
  | read {p q : σ} {c : κ} {x : List κ} : M.read c p q → ReentrantRun q x → ReentrantRun p (c :: x)

theorem PlainRun.mono {M' : AnchoredAutomaton σ κ} (h : M.PlainRun p x) (hfinal : ∀ q, M.final q → M'.final q)
    (heps : ∀ p q, M.eps p q → M'.eps p q) (hread : ∀ c p q, M.read c p q → M'.read c p q) : M'.PlainRun p x := by
  induction h with
  | stop hq => exact .stop (hfinal _ hq)
  | eps hstep _ ih => exact .eps (heps _ _ hstep) ih
  | read hstep _ ih => exact .read (hread _ _ _ hstep) ih

theorem normalize_final_of_plainRun (h : M.normalize.PlainRun p x) (hx : x = []) : M.normalize.final p := by
  induction h with
  | stop hq => exact hq
  | eps hstep _ ih =>
    obtain ⟨f, hf, hfinal⟩ := ih hx
    exact ⟨f, hf.head (.inl hstep), hfinal⟩
  | read _ _ _ => cases hx

/-- The normalized automaton runs as the anchored one would if it crossed opening anchors at each visit of the start. -/
theorem normalize_plainRun_iff : M.normalize.PlainRun p x ↔ M.ReentrantRun p x := by
  constructor
  · intro h
    induction h with
    | stop hq =>
      obtain ⟨f, hf, hfinal⟩ := hq
      induction hf using Relation.ReflTransGen.head_induction_on with
      | refl => exact .stop hfinal
      | head hstep _ ih =>
        rcases hstep with (hstep | ⟨rfl, hq, -⟩) | hstep
        · exact .eps hstep ih
        · exact .enter hq ih
        · exact .closing hstep ih
    | eps hstep _ ih =>
      rcases hstep with hstep | ⟨rfl, hq, -⟩
      · exact .eps hstep ih
      · exact .enter hq ih
    | read hstep _ ih => exact .read hstep ih
  · intro h
    induction h with
    | stop hq => exact .stop ⟨_, .refl, hq⟩
    | eps hstep _ ih => exact .eps (.inl hstep) ih
    | @enter q _ hq _ ih =>
      by_cases hstart : q = M.start
      · exact hstart ▸ ih
      · exact .eps (.inr ⟨rfl, hq, hstart⟩) ih
    | closing hstep _ ih =>
      obtain ⟨f, hf, hfinal⟩ := normalize_final_of_plainRun ih rfl
      exact .stop ⟨f, hf.head (.inr hstep), hfinal⟩
    | read hstep _ ih => exact .read hstep ih

theorem Run.reentrant (h : M.Run phase p x) (hphase : phase ≠ .before) : M.ReentrantRun p x := by
  induction h with
  | stop hq => exact .stop hq
  | eps hstep _ ih => exact .eps hstep (ih hphase)
  | opening _ _ _ => exact absurd rfl hphase
  | closing hstep hrun ih =>
    cases hrun.eq_nil rfl
    exact .closing hstep (ih (by decide))
  | read _ hread _ ih => exact .read hread (ih (by decide))

theorem Accepts.reentrant (h : M.Accepts x) : M.ReentrantRun M.start x := by
  obtain ⟨q, hq, hrun⟩ := run_before_iff.mp h
  exact .enter hq (hrun.reentrant (by decide))

variable (M) in
/-- No step leads back to the start. -/
def Unentered : Prop := ∀ p, ¬M.eps p M.start ∧ ¬M.opening p M.start ∧ ¬M.closing p M.start ∧ ∀ c, ¬M.read c p M.start

/-- A run that crosses opening anchors at the start only crosses them first, when it does not come back. -/
theorem ReentrantRun.run (hM : M.Unentered) (h : M.ReentrantRun p x) : M.Run .inside p x ∨ p = M.start ∧ M.Accepts x := by
  have hinside : ∀ {q : σ} {x : List κ}, (M.Run .inside q x ∨ q = M.start ∧ M.Accepts x) → q ≠ M.start → M.Run .inside q x :=
    fun h hne => h.resolve_right fun h => hne h.1
  induction h with
  | stop hq => exact .inl (.stop hq)
  | @eps p q _ hstep _ ih =>
    refine .inl (.eps hstep (hinside ih ?_))
    rintro rfl
    exact (hM p).1 hstep
  | @enter q _ hq _ ih =>
    rcases ih with hrun | ⟨-, haccepts⟩
    · exact .inr ⟨rfl, run_before_iff.mpr ⟨q, hq, hrun⟩⟩
    · exact .inr ⟨rfl, haccepts⟩
  | @closing p q hstep _ ih =>
    have hrun := hinside ih (by
      rintro rfl
      exact (hM p).2.2.1 hstep)
    obtain ⟨f, hf, hfinal⟩ := hrun.closes (by decide) rfl
    exact .inl (.closing hstep (.of_closes hf hfinal (by decide)))
  | @read p q c _ hstep _ ih =>
    refine .inl (.read (by decide) hstep (hinside ih ?_))
    rintro rfl
    exact (hM p).2.2.2 c hstep

/-- When no step leads back to the start, the anchored language is that of the normalized automaton. -/
theorem Unentered.accepts_of_reentrant (hM : M.Unentered) (h : M.ReentrantRun M.start x) : M.Accepts x := by
  rcases h.run hM with hrun | ⟨-, haccepts⟩
  · exact hrun.before (by decide)
  · exact haccepts

section Silent
variable (hsilent : ∀ p q, M.opening p q → M.eps p q)
include hsilent

/-- When a silent step goes beside each opening anchor, these are crossed anywhere. -/
theorem Run.of_opens (h : M.Opens p q) (hrun : M.Run .inside q x) : M.Run .inside p x := by
  induction h using Relation.ReflTransGen.head_induction_on with
  | refl => exact hrun
  | head hstep _ ih => exact .eps (hstep.elim id (hsilent _ _)) ih

theorem ReentrantRun.inside (h : M.ReentrantRun p x) : M.Run .inside p x := by
  induction h with
  | stop hq => exact .stop hq
  | eps hstep _ ih => exact .eps hstep ih
  | enter hq _ ih => exact .of_opens hsilent hq ih
  | closing hstep _ ih =>
    obtain ⟨f, hcloses, hf⟩ := ih.closes (by decide) rfl
    exact .closing hstep (.of_closes hcloses hf (by decide))
  | read hstep _ ih => exact .read (by decide) hstep ih

end Silent

end AnchoredAutomaton
