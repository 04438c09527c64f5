import Duallity.Phonetic.NfaRelation

/-! What the WFST of a phonetic NFA accepts. Its paths spell strings of the NFA, and every string of the alphabet has one path as long
    as the state sets have ids. -/

namespace Duallity.PhoneticNfaWfst
open LazySource
variable {W : PhoneticNfaWfst}

theorem mem_normalizeAlphabet {alphabet : List Char} {c : Char} : c ∈ normalizeAlphabet alphabet ↔ c ∈ alphabet := by
  suffices hfold : ∀ deduped : List Char, c ∈ alphabet.foldl (fun deduped candidate =>
      if deduped.contains candidate then deduped else deduped ++ [candidate]) deduped ↔ c ∈ deduped ∨ c ∈ alphabet from
    (hfold []).trans (or_iff_right List.not_mem_nil)
  induction alphabet with
  | nil => simp
  | cons d alphabet ih =>
    intro deduped
    rw [List.foldl_cons, ih, List.mem_cons, ← or_assoc]
    refine or_congr_left ?_
    split
    · rename_i hd
      exact (or_iff_left_of_imp fun h => h ▸ List.contains_iff_mem.mp hd).symm
    · rw [List.mem_append, List.mem_singleton]

theorem ncard_reachable_le : {S | W.Reachable S}.ncard ≤ 2 ^ (W.nfa.numStates + 1) := by
  have hfinite : {q | q < W.nfa.numStates}.Finite := Set.finite_lt_nat _
  have hunion : ({q | q < W.nfa.numStates} ∪ {W.nfa.start}).Finite := hfinite.union (Set.finite_singleton _)
  have hcard : ({q | q < W.nfa.numStates} ∪ {W.nfa.start}).ncard ≤ W.nfa.numStates + 1 := by
    refine (Set.ncard_union_le _ _).trans ?_
    rw [Set.ncard_singleton, show {q | q < W.nfa.numStates} = ↑(Finset.range W.nfa.numStates) from by ext q; simp,
      Set.ncard_coe_finset, Finset.card_range]
  calc {S | W.Reachable S}.ncard ≤ (𝒫 ({q | q < W.nfa.numStates} ∪ {W.nfa.start})).ncard :=
        Set.ncard_le_ncard (fun S h => reachable_subset h) hunion.finite_subsets
    _ = 2 ^ ({q | q < W.nfa.numStates} ∪ {W.nfa.start}).ncard := Set.ncard_powerset _ hunion
    _ ≤ 2 ^ (W.nfa.numStates + 1) := Nat.pow_le_pow_right (by decide) hcard

/-- Some exploration expands every state that it reaches. -/
theorem exists_exploration (W : PhoneticNfaWfst) : ∃ log r, W.source.Explores W.initial log r ∧ Complete log start := by
  have hsound : Sound (W.source.restrict fun _ state => state < u32Count) (machine W) (WellFormed W) Denotes :=
    { sound with den_of_valid := fun hr hs => sound.den_of_valid hr hs.1 }
  have hvalid : ∀ {r s S}, WellFormed W r → Denotes r s S → (W.source.restrict fun _ state => state < u32Count).valid r s := by
    rintro r s S hr ⟨v, hv, -⟩
    exact ⟨Option.isSome_iff_exists.mpr ⟨v, hv⟩, (Interner.lt_of_value? hv).trans_le hr.size_le⟩
  have htotal : ∀ {r s}, WellFormed W r → (W.source.restrict fun _ state => state < u32Count).valid r s →
      ∃ r' e, W.source.expand r s = (r', some e) := by
    rintro r s - ⟨hs, -⟩
    obtain ⟨v, hv⟩ := Option.isSome_iff_exists.mp hs
    exact ⟨_, _, expand_of_some hv⟩
  have hstates : ∀ {r s}, (W.source.restrict fun _ state => state < u32Count).valid r s → s ∈ Finset.range u32Count :=
    fun h => Finset.mem_range.mpr h.2
  obtain ⟨log, r, hE, hc⟩ := hsound.exists_complete hvalid htotal hstates wellFormed_initial.1 wellFormed_initial.2
  exact ⟨log, r, (hE.mono (fun _ _ h => h.1) rfl).explores, hc⟩

/-! ### Windows -/

/-- An NFA that accepts every string; its states tell which of the last `window` characters are `a`. -/
def windowNfa (window : Nat) (hpos : 0 < window) (hlt : window < u32Count) : NFAChar :=
  .ofTransitions 0 (window + 1)
    (fun p => if p = 0 then [⟨.any, 0⟩, ⟨.char 'a', 1⟩] else if p < window then [⟨.any, p + 1⟩] else []) (fun p => decide (p = 0))
    hlt
    (by
      intro p t ht
      split at ht
      · rcases List.mem_pair.mp ht with rfl | rfl
        · exact ⟨by omega, Nat.succ_pos _⟩
        · exact ⟨by omega, Nat.succ_lt_succ hpos⟩
      · split at ht
        · rw [List.mem_singleton.mp ht]
          exact ⟨by omega, Nat.succ_lt_succ (by assumption)⟩
        · cases ht)
    (by
      intro p hp
      rw [of_decide_eq_true hp]
      exact Nat.succ_pos _)

section Windows
variable {window : Nat} {hpos : 0 < window} {hlt : window < u32Count} {p q : Nat} {c : Char} {x : List Char}

theorem mem_transitionsFrom_windowNfa {t : NfaTransition} : t ∈ (windowNfa window hpos hlt).transitionsFrom p ↔
    p = 0 ∧ (t = ⟨.any, 0⟩ ∨ t = ⟨.char 'a', 1⟩) ∨ 0 < p ∧ p < window ∧ t = ⟨.any, p + 1⟩ := by
  show t ∈ (if p = 0 then [⟨.any, 0⟩, ⟨.char 'a', 1⟩] else if p < window then [⟨.any, p + 1⟩] else []) ↔ _
  split
  · rename_i hp
    simp [hp]
  · rename_i hp
    split
    · rename_i hlt
      simp [hp, hlt, Nat.pos_of_ne_zero hp]
    · rename_i hlt
      simp [hp, hlt]

theorem windowNfa_eps : ¬(windowNfa window hpos hlt).automaton.eps p q := by
  rintro ⟨t, ht, hlabel, -⟩
  rcases mem_transitionsFrom_windowNfa.mp ht with ⟨-, rfl | rfl⟩ | ⟨-, -, rfl⟩
  all_goals cases hlabel

theorem windowNfa_opening : ¬(windowNfa window hpos hlt).automaton.opening p q := by
  rintro ⟨t, ht, hlabel, -⟩
  rcases mem_transitionsFrom_windowNfa.mp ht with ⟨-, rfl | rfl⟩ | ⟨-, -, rfl⟩
  all_goals cases hlabel

theorem windowNfa_read : (windowNfa window hpos hlt).automaton.read c p q ↔
    p = 0 ∧ (q = 0 ∨ q = 1 ∧ c = 'a') ∨ 0 < p ∧ p < window ∧ q = p + 1 := by
  constructor
  · rintro ⟨t, ht, hlabel, rfl⟩
    rcases mem_transitionsFrom_windowNfa.mp ht with ⟨hp, rfl | rfl⟩ | ⟨hp, hwindow, rfl⟩
    · exact .inl ⟨hp, .inl rfl⟩
    · exact .inl ⟨hp, .inr ⟨rfl, (eq_of_beq hlabel).symm⟩⟩
    · exact .inr ⟨hp, hwindow, rfl⟩
  · rintro (⟨hp, rfl | ⟨rfl, rfl⟩⟩ | ⟨hp, hwindow, rfl⟩)
    · exact ⟨_, mem_transitionsFrom_windowNfa.mpr (.inl ⟨hp, .inl rfl⟩), rfl, rfl⟩
    · exact ⟨_, mem_transitionsFrom_windowNfa.mpr (.inl ⟨hp, .inr rfl⟩), rfl, rfl⟩
    · exact ⟨_, mem_transitionsFrom_windowNfa.mpr (.inr ⟨hp, hwindow, rfl⟩), rfl, rfl⟩

theorem mem_next_windowNfa {S : Set Nat} : q ∈ (windowNfa window hpos hlt).automaton.next S c ↔
    ∃ p ∈ S, p = 0 ∧ (q = 0 ∨ q = 1 ∧ c = 'a') ∨ 0 < p ∧ p < window ∧ q = p + 1 := by
  constructor
  · rintro ⟨p, hp, p', hread, hreach⟩
    rcases Relation.ReflTransGen.cases_tail hreach with rfl | ⟨_, _, hstep⟩
    · exact ⟨p, hp, windowNfa_read.mp hread⟩
    · exact absurd hstep windowNfa_eps
  · rintro ⟨p, hp, hread⟩
    exact ⟨p, hp, q, windowNfa_read.mpr hread, .refl⟩

/-- A state beyond the start is reached when the character of its place is `a`. -/
theorem mem_reach_windowNfa : 0 ∈ (windowNfa window hpos hlt).automaton.reach x ∧
    ∀ i < window, i + 1 ∈ (windowNfa window hpos hlt).automaton.reach x ↔ x.reverse[i]? = some 'a' := by
  induction x using List.reverseRecOn with
  | nil =>
    have hstep : ∀ p q, ¬((windowNfa window hpos hlt).automaton.eps p q ∨ (windowNfa window hpos hlt).automaton.opening p q) :=
      fun p q h => h.elim windowNfa_eps windowNfa_opening
    refine ⟨.refl, fun i _ => ⟨?_, nofun⟩⟩
    intro h
    rcases Relation.ReflTransGen.cases_tail h with h | ⟨_, _, h⟩
    · cases h
    · exact absurd h (hstep _ _)
  | append_singleton x c ih =>
    have hreach : ∀ q, q ∈ (windowNfa window hpos hlt).automaton.reach (x ++ [c]) ↔
        ∃ p ∈ (windowNfa window hpos hlt).automaton.reach x,
          p = 0 ∧ (q = 0 ∨ q = 1 ∧ c = 'a') ∨ 0 < p ∧ p < window ∧ q = p + 1 := by
      intro q
      rw [AnchoredAutomaton.reach, List.foldl_append]
      exact mem_next_windowNfa
    refine ⟨(hreach 0).mpr ⟨0, ih.1, .inl ⟨rfl, .inl rfl⟩⟩, ?_⟩
    intro i hi
    rw [hreach, List.reverse_append, List.reverse_singleton, List.singleton_append]
    cases i with
    | zero =>
      rw [List.getElem?_cons_zero, Option.some.injEq]
      constructor
      · rintro ⟨p, -, ⟨-, h | ⟨-, h⟩⟩ | ⟨hp, -, h⟩⟩
        · cases h
        · exact h
        · omega
      · exact fun h => ⟨0, ih.1, .inl ⟨rfl, .inr ⟨rfl, h⟩⟩⟩
    | succ i =>
      rw [List.getElem?_cons_succ, ← ih.2 i (Nat.lt_of_succ_lt hi)]
      constructor
      · rintro ⟨p, hp, ⟨-, h | ⟨h, -⟩⟩ | ⟨-, -, h⟩⟩
        · cases h
        · cases h
        · cases Nat.succ.inj h
          exact hp
      · exact fun h => ⟨i + 1, h, .inr ⟨Nat.succ_pos i, hi, rfl⟩⟩

theorem windowNfa_accepts : (windowNfa window hpos hlt).automaton.Accepts x :=
  AnchoredAutomaton.accepts_iff.mpr ⟨0, mem_reach_windowNfa.1, 0, .refl, rfl⟩

end Windows

/-! ### Language -/

/-- Accepted paths spell strings of the NFA, and each string of the alphabet that the NFA accepts has just one path, as long as the
    state sets have ids. -/
theorem denotes_language (nfa : NFAChar) (phoneticWeight : ℚ) (alphabet : List Char) {log : List (Nat × Expansion Nat Char Char ℚ)}
    {r : NfaStateRegistry} (hE : (withPhoneticWeightAndAlphabet nfa phoneticWeight alphabet).source.Explores
      (withPhoneticWeightAndAlphabet nfa phoneticWeight alphabet).initial log r) :
    (∀ x y w, (graph log).Accepts start x y w → y = x ∧ w = x.length * phoneticWeight ∧ nfa.automaton.Accepts x) ∧
    ({S | (withPhoneticWeightAndAlphabet nfa phoneticWeight alphabet).Reachable S}.ncard ≤ u32Count → Complete log start →
      ∀ x, (∀ c ∈ x, c ∈ alphabet) → nfa.automaton.Accepts x → ∃! arcs, ArcPath.IsAcceptingTrail log start x x arcs) ∧
    ∀ state e, (state, e) ∈ log → (e.arcs.map Arc.input).Nodup := by
  generalize hW : withPhoneticWeightAndAlphabet nfa phoneticWeight alphabet = W at hE ⊢
  have hnfa : W.nfa = nfa := hW ▸ rfl
  have hweight : W.phoneticWeight = phoneticWeight := hW ▸ rfl
  have halphabet : ∀ c, c ∈ alphabet → c ∈ W.alphabet := by
    subst hW
    exact fun c hc => mem_normalizeAlphabet.mpr hc
  subst hnfa hweight
  refine ⟨?_, ?_, ?_⟩
  · intro x y w h
    obtain ⟨S, v, f, hpath, ⟨haccepting, rfl⟩, rfl⟩ := sound.accepts hE wellFormed_initial.1 wellFormed_initial.2 h
    obtain ⟨rfl, rfl, rfl⟩ := machine_path hpath
    exact ⟨rfl, add_zero _, AnchoredAutomaton.accepts_iff.mpr haccepting⟩
  · intro hcard hc x hx haccepts
    have haccepting := AnchoredAutomaton.accepts_iff.mp haccepts
    obtain ⟨p, hp, -⟩ := id haccepting
    obtain ⟨t, w, hden, hpath⟩ := path_of_reach hE hcard hc x (fun c h => halphabet c (hx c h)) ⟨p, hp⟩
    obtain ⟨arcs, htrail, hinputs, houtputs, -⟩ := ArcPath.exists_isTrail hpath
    obtain ⟨e, he⟩ := hc _ _ _ _ hpath
    have hfinal : e.final?.isSome := by
      obtain ⟨r₁, v, hr₁, hle, hv, -, hfinal, -⟩ := logged_arcs hE he
      obtain ⟨v', hv', hset⟩ := hden
      cases (Interner.le_value? hle hv).symm.trans hv'
      rw [← hset, ← NFAChar.canReachFinal_iff, ← hr₁.isFinal hv] at haccepting
      rw [hfinal, if_pos haccepting]
      rfl
    refine ⟨arcs, ⟨t, e, htrail, he, hfinal, hinputs, houtputs⟩, ?_⟩
    rintro arcs' ⟨t', e', htrail', -, -, hinputs', -⟩
    refine htrail'.unique ?_ (logged_unique hE) htrail (hinputs'.trans hinputs.symm)
    intro s e he arc harc
    obtain ⟨r₁, v, -, -, -, harcs, -⟩ := logged_arcs hE he
    obtain ⟨c, -, -, -, -, -, rfl⟩ := mem_arcsOf (harcs ▸ harc)
    exact ⟨c, rfl⟩
  · intro state e he
    obtain ⟨r₁, v, -, -, -, harcs, -⟩ := logged_arcs hE he
    rw [harcs]
    exact nodup_arcsOf

/-- Strings of `a`, between anchors. Behind each character an epsilon leads back and another one on to the end anchor. -/
def lineNfa : NFAChar :=
  .ofTable 0 [[⟨.startOfInput, 1⟩], [⟨.char 'a', 2⟩], [⟨.epsilon, 1⟩, ⟨.epsilon, 3⟩], [⟨.endOfInput, 4⟩], []] [4] (by decide) (by decide)
    (by decide)

theorem lineNfa_accepts : lineNfa.automaton.Accepts ['a', 'a'] := by
  have hopening : lineNfa.automaton.opening 0 1 := ⟨⟨.startOfInput, 1⟩, List.mem_cons_self, rfl, rfl⟩
  have hread : lineNfa.automaton.read 'a' 1 2 := ⟨⟨.char 'a', 2⟩, List.mem_cons_self, rfl, rfl⟩
  have hback : lineNfa.automaton.eps 2 1 := ⟨⟨.epsilon, 1⟩, List.mem_cons_self, rfl, rfl⟩
  have hon : lineNfa.automaton.eps 2 3 := ⟨⟨.epsilon, 3⟩, List.mem_cons_of_mem _ List.mem_cons_self, rfl, rfl⟩
  have hclosing : lineNfa.automaton.closing 3 4 := ⟨⟨.endOfInput, 4⟩, List.mem_cons_self, rfl, rfl⟩
  exact .opening hopening (.read (by decide) hread (.eps hback (.read (by decide) hread (.eps hon (.closing hclosing (.stop rfl))))))

/-- The graph of the lines accepts `aa` on one path, and whatever it accepts at half the length. -/
theorem denotes_language_line : ∃ log r, (withPhoneticWeightAndAlphabet lineNfa (1 / 2) ['a', 'b']).source.Explores
    (withPhoneticWeightAndAlphabet lineNfa (1 / 2) ['a', 'b']).initial log r ∧ Complete log start ∧
    (∃! arcs, ArcPath.IsAcceptingTrail log start ['a', 'a'] ['a', 'a'] arcs) ∧
    ∀ x y w, (graph log).Accepts start x y w → y = x ∧ w = x.length * (1 / 2) := by
  obtain ⟨log, r, hE, hc⟩ := exists_exploration (withPhoneticWeightAndAlphabet lineNfa (1 / 2) ['a', 'b'])
  have hcard : {S | (withPhoneticWeightAndAlphabet lineNfa (1 / 2) ['a', 'b']).Reachable S}.ncard ≤ u32Count :=
    ncard_reachable_le.trans (by decide)
  obtain ⟨hsound, hcomplete, -⟩ := denotes_language lineNfa (1 / 2) ['a', 'b'] hE
  exact ⟨log, r, hE, hc, hcomplete hcard hc _ (by simp) lineNfa_accepts, fun x y w h => ⟨(hsound x y w h).1, (hsound x y w h).2.1⟩⟩

/-- The word whose places from the end are `a` where the marks are set. -/
def markedWord {window : Nat} (marks : Fin window → Bool) : List Char :=
  (List.ofFn fun i => if marks i then 'a' else 'b').reverse

theorem markedWord_alphabet {window : Nat} {marks : Fin window → Bool} : ∀ c ∈ markedWord marks, c ∈ ['a', 'b'] := by
  intro c hmem
  obtain ⟨i, rfl⟩ := (List.mem_ofFn' _ _).mp (List.mem_reverse.mp hmem)
  dsimp only
  split
  · exact List.mem_cons_self
  · exact List.mem_cons_of_mem _ List.mem_cons_self

/-- What is reached tells the marks. -/
theorem mem_reach_markedWord {window : Nat} {hpos : 0 < window} {hlt : window < u32Count} {marks : Fin window → Bool} {i : Fin window} :
    i.val + 1 ∈ (windowNfa window hpos hlt).automaton.reach (markedWord marks) ↔ marks i = true := by
  rw [mem_reach_windowNfa.2 i.val i.isLt, markedWord, List.reverse_reverse, List.getElem?_ofFn, dif_pos i.isLt]
  cases marks i with
  | true => simp
  | false => simp

/-- The states after 33 characters tell each of them, so they are more than there are ids. -/
theorem not_denotes_language : ¬∀ (nfa : NFAChar) (phoneticWeight : ℚ) (alphabet : List Char)
    (log : List (Nat × Expansion Nat Char Char ℚ)) (r : NfaStateRegistry),
    (withPhoneticWeightAndAlphabet nfa phoneticWeight alphabet).source.Explores
      (withPhoneticWeightAndAlphabet nfa phoneticWeight alphabet).initial log r → Complete log start →
    ∀ x, (∀ c ∈ x, c ∈ alphabet) → nfa.automaton.Accepts x → ∃! arcs, ArcPath.IsAcceptingTrail log start x x arcs := by
  intro h
  obtain ⟨log, r, hE, hc⟩ := exists_exploration (withPhoneticWeightAndAlphabet (windowNfa 33 (by decide) (by decide)) 1 ['a', 'b'])
  have hr := (wellFormed_initial.1.explores hE).1
  have hid : ∀ marks : Fin 33 → Bool, ∃ t : Fin u32Count, Denotes r t ((windowNfa 33 (by decide) (by decide)).automaton.reach (markedWord marks)) := by
    intro marks
    obtain ⟨arcs, ⟨t, e, htrail, -, -, hinputs, -⟩, -⟩ := h _ _ _ log r hE hc _ markedWord_alphabet windowNfa_accepts
    obtain ⟨S, hden, hpath⟩ := sound.path hE wellFormed_initial.1 (sound.den_explores hE wellFormed_initial.1 wellFormed_initial.2) htrail.path
    obtain ⟨-, -, rfl⟩ := machine_path hpath
    rw [hinputs] at hden
    obtain ⟨v, hv, -⟩ := id hden
    exact ⟨⟨t, (Interner.lt_of_value? hv).trans_le hr.size_le⟩, hden⟩
  choose index hid using hid
  have hinj : Function.Injective index := by
    intro marks marks' heq
    have hreach := sound.den_unique hr (hid marks) (heq ▸ hid marks')
    funext i
    exact Bool.eq_iff_iff.mpr (mem_reach_markedWord.symm.trans ((Set.ext_iff.mp hreach _).trans mem_reach_markedWord))
  have hle := Fintype.card_le_of_injective index hinj
  rw [Fintype.card_fun, Fintype.card_bool, Fintype.card_fin, Fintype.card_fin] at hle
  exact absurd hle (by decide)

end Duallity.PhoneticNfaWfst
