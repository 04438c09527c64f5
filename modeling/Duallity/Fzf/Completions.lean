import Duallity.Fzf.Bound
import Duallity.Fzf.Paths

/-! What a candidate says about the candidates that start with it: its bound is above their scores, and its best score is kept. -/

namespace Duallity.FzfCore
variable {tables : UnicodeTables} {query : List Char} {config : FzfConfig} {core : FzfCore} {p : List Char} {c : Char} {v : Int}

theorem comparable_of_new (hnew : new tables query config = .ok core) :
    core.comparable = fun character => comparableChar tables character config.caseSensitive := by
  unfold new at hnew
  dsimp only at hnew
  split at hnew
  · cases hnew
  · cases hnew
    rfl

theorem query_of_new (hnew : new tables query config = .ok core) : core.query = query.map core.comparable := by
  rw [comparable_of_new hnew]
  unfold new at hnew
  dsimp only at hnew
  split at hnew
  · cases hnew
  · cases hnew
    rfl

theorem scoreChars_of_new (hnew : new tables query config = .ok core) (hlen : p.length ≤ config.maxCandidateChars) :
    core.scoreChars p = .ok (core.column p).bestFullScore := by
  rw [scoreChars_eq, config_of_new hnew, if_neg (Nat.not_lt.mpr hlen)]

/-! ### The bound -/

/-- The bound of a longer candidate is at most that of its prefix. -/
theorem upperBound_antitone (h : core.WellFormed) {b' : Int} (hlen : p.length < core.config.maxCandidateChars)
    (hbound : core.upperBound (core.column (p ++ [c])) = some b') : ∃ b, core.upperBound (core.column p) = some b ∧ b' ≤ b := by
  have htops : Tops _ (core.Potential (core.column p)) := tops_upperBound (core.column p)
  have htops' : Tops _ (core.Potential (core.column (p ++ [c]))) := tops_upperBound (core.column (p ++ [c]))
  obtain ⟨u, hu, hle⟩ := potential_advance h hlen (htops'.attained b' hbound)
  cases hbound' : core.upperBound (core.column p) with
  | none => exact absurd hu (htops.of_none hbound' u)
  | some b => exact ⟨b, rfl, hle.trans (htops.le b hbound' u hu)⟩

/-- The bound of a prefix is above the scores of its completions and the bounds of its extensions. -/
theorem upperBound_sound (hnew : new tables query config = .ok core) :
    (∀ (p s : List Char) (v : Int), p.length + s.length ≤ config.maxCandidateChars → core.scoreChars (p ++ s) = .ok (some v) →
      ∃ b, core.upperBound (core.column p) = some b ∧ v ≤ b) ∧
    (∀ (p : List Char) (c : Char) (b' : Int), p.length + 1 ≤ config.maxCandidateChars →
      core.upperBound (core.column (p ++ [c])) = some b' → ∃ b, core.upperBound (core.column p) = some b ∧ b' ≤ b) := by
  have hwf := wellFormed_of_new hnew
  have hconfig := config_of_new hnew
  refine ⟨?_, ?_⟩
  · intro p s v hlen hscore
    rw [← List.length_append] at hlen
    rw [scoreChars_of_new hnew hlen] at hscore
    exact upperBound_admissible hwf (hconfig ▸ hlen) (Except.ok.inj hscore)
  · intro p c b' hlen hbound
    exact upperBound_antitone hwf (hconfig ▸ hlen) hbound

theorem upperBound_sound_ab : ∃ b core, new FzfStateSource.asciiTables ['b'] FzfStateSource.defaultConfig = .ok core ∧
    core.upperBound (core.column ['a']) = some b ∧ 16 ≤ b := by
  have hnew : new FzfStateSource.asciiTables ['b'] FzfStateSource.defaultConfig =
      .ok ⟨FzfStateSource.asciiTables, ['b'], FzfStateSource.defaultConfig, 10⟩ := rfl
  obtain ⟨b, hbound, hle⟩ := (upperBound_sound hnew).1 ['a'] ['b'] 16 (by decide) rfl
  exact ⟨b, _, hnew, hbound, hle⟩

/-! ### The score -/

/-- The best score of a candidate is kept by its completions. -/
theorem best_append {s : List Char} (hv : (core.column p).bestFullScore = some v) :
    ∃ u, (core.column (p ++ s)).bestFullScore = some u ∧ v ≤ u := by
  induction s using List.reverseRecOn with
  | nil => exact ⟨v, by rwa [List.append_nil], le_rfl⟩
  | append_singleton s c ih =>
    obtain ⟨u, hu, hle⟩ := ih
    obtain ⟨w, hw, hle'⟩ := best_mono (c := c) hu
    rw [List.append_assoc] at hw
    exact ⟨w, hw, hle.trans hle'⟩

/-- Before a candidate begins, only the perfect score is in reach. -/
theorem WellFormed.best_le_maximumScore (h : core.WellFormed) (hlen : p.length ≤ core.config.maxCandidateChars)
    (hv : (core.column p).bestFullScore = some v) : v ≤ core.maximumScore := by
  have hpotential : ∃ u, core.Potential (core.column []) u ∧ v ≤ u :=
    potential_prefix h p (by simpa using hlen) (.best hv)
  obtain ⟨u, hu, hle⟩ := hpotential
  refine hle.trans ?_
  cases hu with
  | best hbest =>
    rw [column_nil, initialColumn] at hbest
    by_cases hquery : core.query = []
    · rw [if_pos hquery] at hbest
      obtain rfl := Option.some.inj hbest
      simp [maximumScore, hquery]
    · rw [if_neg hquery] at hbest
      cases hbest
  | cell hi hreachable hroom =>
    rw [cell_nil] at hreachable
    cases hreachable
  | unstarted hroom => exact le_rfl

/-- Within the limits a candidate has a score exactly when it contains the query, case folded; the score is between 0 and the
    perfect one, and appending never lowers it. -/
theorem scoreChars_spec (hnew : new tables query config = .ok core) (candidate : List Char)
    (hlen : candidate.length ≤ config.maxCandidateChars) :
    ∃ score, core.scoreChars candidate = .ok score ∧
      (score.isSome = true ↔
        (query.map fun character => comparableChar tables character config.caseSensitive).Sublist
          (candidate.map fun character => comparableChar tables character config.caseSensitive)) ∧
      (∀ v, score = some v → 0 ≤ v ∧ v ≤ core.maximumScore) ∧
      ∀ (s : List Char) (v : Int), (core.column candidate).bestFullScore = some v →
        ∃ u, (core.column (candidate ++ s)).bestFullScore = some u ∧ v ≤ u := by
  have hwf := wellFormed_of_new hnew
  have hcontains : (core.column candidate).bestFullScore.isSome = true ↔ core.Contains candidate := best_isSome_iff
  rw [Contains, query_of_new hnew, comparable_of_new hnew] at hcontains
  refine ⟨_, scoreChars_of_new hnew hlen, hcontains, ?_, fun s v hv => best_append hv⟩
  intro v hv
  exact ⟨(hwf.best_bounds hv).1, hwf.best_le_maximumScore (config_of_new hnew ▸ hlen) hv⟩

theorem scoreChars_spec_ab : ∃ core score, new FzfStateSource.asciiTables ['b'] FzfStateSource.defaultConfig = .ok core ∧
    core.scoreChars ['a', 'b'] = .ok score ∧ score.isSome = true := by
  have hnew : new FzfStateSource.asciiTables ['b'] FzfStateSource.defaultConfig =
      .ok ⟨FzfStateSource.asciiTables, ['b'], FzfStateSource.defaultConfig, 10⟩ := rfl
  obtain ⟨score, hscore, hiff, -⟩ := scoreChars_spec hnew ['a', 'b'] (by decide)
  exact ⟨_, score, hnew, hscore, hiff.mpr (by decide)⟩

end Duallity.FzfCore
