import Duallity.Lib.Vocabulary
import Duallity.StateEncoding

/-! Dictionaries as lattice backends (`backend.rs`). Words are interned when they are first asked for, in the ids of `u32` but the
    last, which stands for exhaustion. -/

namespace Duallity

def VOCAB_ID_EXHAUSTED : Nat := u32Max

def nextVocabId (len : Nat) : Option Nat := if len < VOCAB_ID_EXHAUSTED then some len else none

/-- The words with ids, and the dictionary. -/
structure DictionaryBackend (δ : Type) where
  dictionary : δ
  vocabulary : Interner String String

/-- What a caller does to a backend; `dictionary` stands for changes through `dictionary_mut`. -/
inductive BackendAction (δ : Type)
  | tryIntern (word : String)
  | intern (word : String)
  | dictionary (dictionary : δ)

def BackendAction.word? {δ : Type} : BackendAction δ → Option String
  | .tryIntern word => some word
  | .intern word => some word
  | .dictionary _ => none

namespace DictionaryBackend
variable {δ : Type}

def new (dictionary : δ) : DictionaryBackend δ := ⟨dictionary, .empty⟩

def tryIntern (b : DictionaryBackend δ) (word : String) : DictionaryBackend δ × Option Nat :=
  match h : b.vocabulary.id? word with
  | some id => (b, some id)
  | none =>
    match nextVocabId b.vocabulary.size with
    | none => (b, none)
    | some id => ({ b with vocabulary := b.vocabulary.push word word h }, some id)

/-- Words are interned until one gets no id. -/
def withVocabulary (dictionary : δ) (terms : List String) : DictionaryBackend δ := go (new dictionary) terms
where
  go (b : DictionaryBackend δ) : List String → DictionaryBackend δ
    | [] => b
    | term :: terms =>
      match b.tryIntern term with
      | (b, none) => b
      | (b, some _) => go b terms

def tryWithVocabulary (dictionary : δ) (terms : List String) : Option (DictionaryBackend δ) := go (new dictionary) terms
where
  go (b : DictionaryBackend δ) : List String → Option (DictionaryBackend δ)
    | [] => some b
    | term :: terms =>
      match b.tryIntern term with
      | (_, none) => none
      | (b, some _) => go b terms

def hasVocabCapacity (b : DictionaryBackend δ) : Bool := (nextVocabId b.vocabulary.size).isSome

def intern (b : DictionaryBackend δ) (word : String) : DictionaryBackend δ × Nat :=
  let (b, id) := b.tryIntern word
  (b, id.getD VOCAB_ID_EXHAUSTED)

def lookup (b : DictionaryBackend δ) (id : Nat) : Option String := b.vocabulary.value? id

def vocabSize (b : DictionaryBackend δ) : Nat := b.vocabulary.size

/-- `dictionaryContains` is the dictionary's own answer. -/
def contains (dictionaryContains : δ → String → Bool) (b : DictionaryBackend δ) (word : String) : Bool :=
  (b.vocabulary.id? word).isSome || dictionaryContains b.dictionary word

def getId (b : DictionaryBackend δ) (word : String) : Option Nat := b.vocabulary.id? word

def iter (b : DictionaryBackend δ) : List (Nat × String) :=
  b.vocabulary.entries.zipIdx.filterMap fun e => (nextVocabId e.2).map fun id => (id, e.1)

def step (b : DictionaryBackend δ) : BackendAction δ → DictionaryBackend δ
  | .tryIntern word => (b.tryIntern word).1
  | .intern word => (b.intern word).1
  | .dictionary dictionary => { b with dictionary := dictionary }

def run (b : DictionaryBackend δ) (actions : List (BackendAction δ)) : DictionaryBackend δ := actions.foldl step b

variable {b : DictionaryBackend δ} {word : String} {terms : List String} {actions : List (BackendAction δ)} {dictionary : δ}

theorem tryIntern_eq : b.tryIntern word =
    ({ b with vocabulary := (b.vocabulary.register VOCAB_ID_EXHAUSTED word word).1 },
      (b.vocabulary.register VOCAB_ID_EXHAUSTED word word).2) := by
  unfold tryIntern
  split
  · rename_i id hid
    rw [Interner.register_of_some hid]
  · rename_i hnone
    rw [Interner.register_of_none hnone, nextVocabId]
    by_cases hroom : b.vocabulary.size < VOCAB_ID_EXHAUSTED
    · simp only [if_pos hroom]
    · simp only [if_neg hroom]

theorem vocabulary_run : (b.run actions).vocabulary =
    b.vocabulary.internAll VOCAB_ID_EXHAUSTED (actions.filterMap BackendAction.word?) := by
  induction actions generalizing b with
  | nil => rfl
  | cons action actions ih =>
    refine (ih (b := b.step action)).trans ?_
    cases action with
    | tryIntern word => rw [step, tryIntern_eq]; rfl
    | intern word => rw [step, intern, tryIntern_eq]; rfl
    | dictionary dictionary => rfl

/-- Stopping when there is no room interns nothing less. -/
theorem vocabulary_go : (withVocabulary.go b terms).vocabulary = b.vocabulary.internAll VOCAB_ID_EXHAUSTED terms := by
  induction terms generalizing b with
  | nil => rfl
  | cons term terms ih =>
    unfold withVocabulary.go
    rw [tryIntern_eq]
    cases hid : (b.vocabulary.register VOCAB_ID_EXHAUSTED term term).2 with
    | some id => exact ih
    | none =>
      rw [Interner.register_snd, Interner.candidate, Option.or_eq_none_iff, Interner.nextId] at hid
      have hfull : VOCAB_ID_EXHAUSTED ≤ b.vocabulary.size := by
        by_contra hroom
        simp [Nat.lt_of_not_le hroom] at hid
      rw [Interner.internAll_of_full hfull]
      simp [Interner.register_of_none hid.1, Nat.not_lt_of_le hfull]

theorem vocabulary_withVocabulary : (withVocabulary dictionary terms).vocabulary =
    (Interner.empty : Interner String String).internAll VOCAB_ID_EXHAUSTED terms := vocabulary_go

/-- Populating a backend fails when one of the terms has no id in the end. -/
theorem tryWithVocabulary_go (hsize : b.vocabulary.size ≤ VOCAB_ID_EXHAUSTED) : tryWithVocabulary.go b terms =
    if ∀ term ∈ terms, ((withVocabulary.go b terms).getId term).isSome then some (withVocabulary.go b terms) else none := by
  induction terms generalizing b with
  | nil => simp [tryWithVocabulary.go, withVocabulary.go]
  | cons term terms ih =>
    have hend : (withVocabulary.go b (term :: terms)).getId term = (b.tryIntern term).2 := by
      rw [getId, vocabulary_go, tryIntern_eq, ← List.nil_append (term :: terms)]
      exact Interner.id?_internAll hsize
    cases hid : (b.tryIntern term).2 with
    | none =>
      have hstop : tryWithVocabulary.go b (term :: terms) = none := by
        unfold tryWithVocabulary.go
        rw [show b.tryIntern term = ((b.tryIntern term).1, none) from Prod.ext rfl hid]
      rw [hstop, if_neg]
      exact fun hall => by simpa [hend, hid] using hall term List.mem_cons_self
    | some id =>
      have hpair : b.tryIntern term = ((b.tryIntern term).1, some id) := Prod.ext rfl hid
      have hgo : withVocabulary.go b (term :: terms) = withVocabulary.go (b.tryIntern term).1 terms := by
        rw [withVocabulary.go, hpair]
      have hsize' : (b.tryIntern term).1.vocabulary.size ≤ VOCAB_ID_EXHAUSTED := by
        rw [tryIntern_eq]
        exact Interner.size_register_le hsize
      have hterm : ((withVocabulary.go (b.tryIntern term).1 terms).getId term).isSome := by
        rw [← hgo, hend, hid]
        rfl
      rw [tryWithVocabulary.go, hpair]
      simp only [ih hsize', List.forall_mem_cons, hgo, hterm, true_and]

/-- The words that get ids: the first distinct ones. -/
def firstWords (words : List String) : List String := words.eraseDups.take VOCAB_ID_EXHAUSTED

/-- All terms get ids exactly when there are not too many. -/
theorem tryWithVocabulary_eq : tryWithVocabulary dictionary terms =
    if terms.eraseDups.length ≤ VOCAB_ID_EXHAUSTED then some (withVocabulary dictionary terms) else none := by
  have hown : (withVocabulary dictionary terms).vocabulary.OwnKeys := by
    rw [vocabulary_withVocabulary]
    exact Interner.ownKeys_empty.internAll
  have hid : ∀ term, ((withVocabulary dictionary terms).getId term).isSome ↔ term ∈ firstWords terms := by
    intro term
    rw [getId, hown.id?_eq, List.isSome_idxOf?, vocabulary_withVocabulary, Interner.entries_internAll]
    rfl
  refine (tryWithVocabulary_go (Nat.zero_le _)).trans (if_congr ?_ rfl rfl)
  change (∀ term ∈ terms, ((withVocabulary dictionary terms).getId term).isSome) ↔ _
  simp only [hid]
  constructor
  · intro hall
    by_contra hmany
    have hlt := Nat.lt_of_not_le hmany
    -- The first word beyond the last id is a term, but not among the words with ids.
    have hmem : terms.eraseDups[VOCAB_ID_EXHAUSTED] ∈ firstWords terms := hall _ (List.mem_eraseDups.mp (List.getElem_mem hlt))
    obtain ⟨i, hi, hget⟩ := List.mem_iff_getElem.mp hmem
    have hi' : i < VOCAB_ID_EXHAUSTED := (List.length_take ▸ hi : i < min _ _).trans_le (Nat.min_le_left _ _)
    have heq : terms.eraseDups[i] = terms.eraseDups[VOCAB_ID_EXHAUSTED] := by simpa [firstWords] using hget
    exact absurd (Interner.nodup_eraseDups.getElem_inj_iff.mp heq) (Nat.ne_of_lt hi')
  · intro hfits term hterm
    rw [firstWords, List.take_of_length_le hfits]
    simpa using hterm

/-- Whatever has happened to a backend, its vocabulary is the first distinct words in the order in which they were first
    interned, and each id stays what it was when it was returned. Exhaustion stands for no word. -/
theorem vocabulary_history (dictionary : δ) (terms : List String) :
    (∀ actions, let b := (withVocabulary dictionary terms).run actions
      let words := firstWords (terms ++ actions.filterMap BackendAction.word?)
      (∀ id, b.lookup id = words[id]?) ∧ (∀ word, b.getId word = words.idxOf? word) ∧ b.iter = words.zipIdx.map Prod.swap ∧
        b.vocabSize = words.length ∧ (b.hasVocabCapacity = true ↔ words.length < VOCAB_ID_EXHAUSTED) ∧
        b.lookup VOCAB_ID_EXHAUSTED = none) ∧
    (∀ before word after, let b := (withVocabulary dictionary terms).run before
      (b.tryIntern word).2 = ((withVocabulary dictionary terms).run (before ++ .tryIntern word :: after)).getId word ∧
        (b.intern word).2 =
          (((withVocabulary dictionary terms).run (before ++ .intern word :: after)).getId word).getD VOCAB_ID_EXHAUSTED) ∧
    tryWithVocabulary dictionary terms =
      if terms.eraseDups.length ≤ VOCAB_ID_EXHAUSTED then some (withVocabulary dictionary terms) else none := by
  have hrun : ∀ actions, ((withVocabulary dictionary terms).run actions).vocabulary =
      (Interner.empty : Interner String String).internAll VOCAB_ID_EXHAUSTED (terms ++ actions.filterMap BackendAction.word?) := by
    intro actions
    rw [vocabulary_run, vocabulary_withVocabulary, Interner.internAll_append]
  have hsize : ∀ actions, ((withVocabulary dictionary terms).run actions).vocabulary.size ≤ VOCAB_ID_EXHAUSTED := by
    intro actions
    rw [hrun]
    exact Interner.size_internAll_le (Nat.zero_le _)
  have hintern : ∀ before word (action : BackendAction δ) after, action.word? = some word →
      (((withVocabulary dictionary terms).run before).tryIntern word).2 =
        ((withVocabulary dictionary terms).run (before ++ action :: after)).getId word := by
    intro before word action after haction
    have hwords : terms ++ (before ++ action :: after).filterMap BackendAction.word? =
        (terms ++ before.filterMap BackendAction.word?) ++ word :: after.filterMap BackendAction.word? := by
      rw [List.filterMap_append, List.filterMap_cons_some haction, List.append_assoc]
    rw [tryIntern_eq, getId, hrun, hrun, hwords]
    exact (Interner.id?_internAll (Nat.zero_le _)).symm
  refine ⟨fun actions => ?_, fun before word after => ⟨hintern _ _ _ _ rfl, ?_⟩, tryWithVocabulary_eq⟩
  · have hentries : ((withVocabulary dictionary terms).run actions).vocabulary.entries =
        firstWords (terms ++ actions.filterMap BackendAction.word?) := by
      rw [hrun]
      exact Interner.entries_internAll
    have hown : ((withVocabulary dictionary terms).run actions).vocabulary.OwnKeys := by
      rw [hrun]
      exact Interner.ownKeys_empty.internAll
    refine ⟨fun id => ?_, fun word => ?_, ?_, ?_, ?_, ?_⟩
    · rw [lookup, Interner.value?, hentries]
    · rw [getId, hown.id?_eq, hentries]
    · rw [iter, hentries, ← List.filterMap_eq_map]
      refine List.filterMap_congr fun e he => ?_
      have hlt : e.2 < VOCAB_ID_EXHAUSTED := by
        rw [← hentries] at he
        exact (List.snd_lt_of_mem_zipIdx he).trans_le (hsize actions)
      simp only [nextVocabId, hlt, if_true, Option.map_some]
      rfl
    · rw [vocabSize, Interner.size, hentries]
    · rw [hasVocabCapacity, nextVocabId, Interner.size, hentries]
      split <;> simp_all
    · exact List.getElem?_eq_none (hsize actions)
  · exact congrArg (Option.getD · VOCAB_ID_EXHAUSTED) (hintern before word (.intern word) after rfl)

end DictionaryBackend
end Duallity
