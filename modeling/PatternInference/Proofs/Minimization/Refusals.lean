import PatternInference.Proofs.Dump.Grammar
import PatternInference.Proofs.Minimization.Canonical
import PatternInference.Proofs.Trie.Additions
import PatternInference.Proofs.Trie.Walk

namespace PatternInference

variable {α : Type} {n i : Nat} {E : List (Transition α)} {F : List Nat} {s : Nat} {e : Error}

lemma Outcome.done_andThen {σ : Type} {s : σ} {next : σ → Outcome σ} : (done s).andThen next = next s := rfl

namespace Minimization

/-- The first fault in the order in which a minimization looks for it; without one the language is not empty. -/
inductive Refused (n i : Nat) (E : List (Transition α)) (F : List Nat) : Error → Prop
  | initial (hi : n ≤ i) : Refused n i E F (.outOfRange .initialState i n)
  | transitions {s : Nat} (hi : i < n) (hs : (E.flatMap fun e => [e.source, e.target]).find? (n ≤ ·) = some s) :
    Refused n i E F (.outOfRange .transitions s n)
  | accepting {s : Nat} (hi : i < n) (hE : ∀ e ∈ E, e.source < n ∧ e.target < n) (hs : F.find? (n ≤ ·) = some s) :
    Refused n i E F (.outOfRange .acceptingStates s n)
  | empty (hrange : Dump.InRange ⟨n, i, E, F⟩) (hnone : ∀ s ∈ F, ¬ Reachable E i s) :
    Refused n i E F (.invalid .acceptingStates .noReachableAccepting)

lemma findSome?_fault? (n : Nat) (E : List (Transition α)) : E.findSome? (Transition.fault? n) =
    ((E.flatMap fun e => [e.source, e.target]).find? (n ≤ ·)).map (.outOfRange .transitions · n) := by
  induction E with
  | nil => rfl
  | cons e E ih =>
    rw [List.findSome?_cons, ih, Transition.fault?]
    by_cases hsource : n ≤ e.source <;> by_cases htarget : n ≤ e.target <;> simp [hsource, htarget]

lemma findSome?_finalFault? (n : Nat) (F : List Nat) :
    F.findSome? (finalFault? n) = (F.find? (n ≤ ·)).map (.outOfRange .acceptingStates · n) := by
  induction F with
  | nil => rfl
  | cons s F ih =>
    rw [List.findSome?_cons, ih, finalFault?]
    by_cases hs : n ≤ s <;> simp [hs]

variable {m : Minimization α}

lemma Created.load_failed (h : Created m n i []) (hfault : E.findSome? (Transition.fault? n) = some e) :
    ∃ m', m.load E .never = .failed m' e := by
  obtain rfl := h.stateCount_eq
  rw [← Interrupt.accept_never_snd] at hfault
  have hr : m.refusal? .created .loaded .never = none := refusal?_eq_none_iff.mpr ⟨h.stage_eq, by simp⟩
  have ha : Interrupt.never.accept (Transition.fault? m.stateCount) E = (_, some e) := Prod.ext rfl hfault
  exact ⟨_, load_of_accept hr ha⟩

lemma Loaded.setFinals_failed (h : Loaded m n i E []) (hstage : m.stage = .loaded)
    (hfault : F.findSome? (finalFault? n) = some e) : ∃ m', m.setFinals F .never = .failed m' e := by
  obtain rfl := h.stateCount_eq
  obtain ⟨m', hm', _⟩ := h.reachLive?_spec fun s hs =>
    finalFault?_eq_none_iff.mp ((Interrupt.never.accept_sound (finalFault? m.stateCount) F).2 s hs)
  rw [← Interrupt.accept_never_snd] at hfault
  have hr : m.refusal? .loaded .finalsSet .never = none := refusal?_eq_none_iff.mpr ⟨hstage, by simp⟩
  have ha : Interrupt.never.accept (finalFault? m.stateCount) F = (_, some e) := Prod.ext rfl hfault
  exact ⟨m', setFinals_of_accept hr ha hm'⟩

variable [DecidableEq α] [OrderedSymbol α]

lemma run_of_create (h : create n i = .ok m) : run n i E F false = ((m.load E .never).andThen fun m =>
    (m.setFinals F .never).andThen (·.finish false)).toExcept := by
  rw [run, h]
  rfl

lemma run_of_refused (h : Refused n i E F e) : run n i E F false = .error e := by
  cases h with
  | initial hi =>
    rw [run, create, if_neg (Nat.not_lt.mpr hi)]
    rfl
  | transitions hi hs =>
    obtain ⟨m₀, h₀, hcreated⟩ : ∃ m : Minimization α, create n i = .ok m ∧ Created m n i [] := create_spec hi
    obtain ⟨m₁, h₁⟩ := hcreated.load_failed (by rw [findSome?_fault?, hs, Option.map_some])
    rw [run_of_create h₀, h₁]
    rfl
  | accepting hi hE hs =>
    obtain ⟨m₀, m₁, h₀, h₁, hstage, hloaded⟩ := exists_loaded hi hE
    obtain ⟨m₂, h₂⟩ := hloaded.setFinals_failed hstage (by rw [findSome?_finalFault?, hs, Option.map_some])
    rw [run_of_create h₀, h₁, Outcome.done_andThen, h₂]
    rfl
  | empty hrange hnone =>
    obtain ⟨m₀, m₁, m₂, h₀, h₁, h₂, hstage, hf, _, hset⟩ :=
      exists_finalsSet hrange.initial_lt hrange.ends_lt hrange.accepting_lt
    have h₃ := hset.partition_of_unreachable hf hstage hnone
    rw [run_of_create h₀, h₁, Outcome.done_andThen, h₂, Outcome.done_andThen, finish, h₃]
    rfl

lemma run_of_inRange (hrange : Dump.InRange ⟨n, i, E, F⟩) (hreach : ∃ s ∈ F, Reachable E i s) :
    ∃ m, run n i E F false = .ok m := by
  obtain ⟨m₀, m₁, m₂, m, h⟩ := exists_done hrange.initial_lt hrange.ends_lt hrange.accepting_lt hreach
  exact ⟨m, run_eq_ok_iff.mpr ⟨m₀, m₁, m₂, h⟩⟩

omit [DecidableEq α] [OrderedSymbol α] in
lemma inRange_or_refused (n i : Nat) (E : List (Transition α)) (F : List Nat) :
    Dump.InRange ⟨n, i, E, F⟩ ∧ (∃ s ∈ F, Reachable E i s) ∨ ∃ e, Refused n i E F e := by
  by_cases hi : n ≤ i
  · exact .inr ⟨_, .initial hi⟩
  have hi := Nat.not_le.mp hi
  cases hends : (E.flatMap fun e => [e.source, e.target]).find? (n ≤ ·) with
  | some s => exact .inr ⟨_, .transitions hi hends⟩
  | none =>
    have hE : ∀ e ∈ E, e.source < n ∧ e.target < n := by
      simpa using hends
    cases haccepting : F.find? (n ≤ ·) with
    | some s => exact .inr ⟨_, .accepting hi hE haccepting⟩
    | none =>
      have hrange : Dump.InRange ⟨n, i, E, F⟩ := ⟨hi, hE, by simpa using haccepting⟩
      by_cases hreach : ∃ s ∈ F, Reachable E i s
      · exact .inl ⟨hrange, hreach⟩
      · exact .inr ⟨_, .empty hrange (by simpa using hreach)⟩

lemma run_eq_error_iff : run n i E F false = .error e ↔ Refused n i E F e := by
  refine ⟨fun hrun => ?_, run_of_refused⟩
  rcases inRange_or_refused n i E F with ⟨hrange, hreach⟩ | ⟨e', h⟩
  · obtain ⟨m, hm⟩ := run_of_inRange hrange hreach
    cases hm.symm.trans hrun
  · rwa [Except.error.inj (hrun.symm.trans (run_of_refused h))]

lemma exists_run_iff :
    (∃ m, run n i E F false = .ok m) ↔ Dump.InRange ⟨n, i, E, F⟩ ∧ ∃ s ∈ F, Reachable E i s := by
  constructor
  · rintro ⟨m, hm⟩
    rcases inRange_or_refused n i E F with hadmitted | ⟨e, h⟩
    · exact hadmitted
    · cases hm.symm.trans (run_of_refused h)
  · exact fun h => run_of_inRange h.1 h.2

omit [DecidableEq α] [OrderedSymbol α] in
lemma refused_iff_of_inRange (h : Dump.InRange ⟨n, i, E, F⟩) : Refused n i E F e ↔
    e = .invalid .acceptingStates .noReachableAccepting ∧ ∀ s ∈ F, ¬ Reachable E i s := by
  constructor
  · intro hrefused
    cases hrefused with
    | initial hi => exact absurd h.initial_lt (Nat.not_lt.mpr hi)
    | transitions _ hs =>
      obtain ⟨e, he, hend⟩ := List.mem_flatMap.mp (List.mem_of_find?_eq_some hs)
      have hle := List.find?_some hs
      have hlt : e.source < n ∧ e.target < n := h.ends_lt e he
      simp only [List.mem_cons, List.not_mem_nil, or_false, decide_eq_true_eq] at hend hle
      omega
    | @accepting s _ _ hs =>
      have hle := List.find?_some hs
      have hlt : s < n := h.accepting_lt s (List.mem_of_find?_eq_some hs)
      simp only [decide_eq_true_eq] at hle
      omega
    | empty _ hnone => exact ⟨rfl, hnone⟩
  · rintro ⟨rfl, hnone⟩
    exact .empty h hnone

end Minimization

namespace Dump

variable [PrintedSymbol α] {d : Dump α}

lemma LinesOf.inRange {ls : List (List Char)} (h : LinesOf ls d) : d.InRange := by
  obtain ⟨⟨_, _, _, _, -, -, -, hinitial, -⟩, hedges, hfinals, -⟩ := h
  refine ⟨hinitial.2, forall_mem_of_forall₂ hedges ?_, forall_mem_of_forall₂ hfinals fun _ _ _ h => h.2⟩
  rintro _ t - ⟨_, _, _, -, -, -, hs, hu, -⟩
  exact ⟨hs.2, hu.2⟩

lemma inRange_of_parse {text : List Char} (h : parse text = .ok d) : d.InRange := by
  rw [parse, ofLines_eq_ok_iff] at h
  exact h.inRange

end Dump

namespace Trie.Holds

variable [DecidableEq α] {t : Trie α} {word : Nat → List α} {ws : List (List α)}

lemma inRange (h : Holds t word ws) : Dump.InRange ⟨t.stateCount, 0, t.transitions, t.accepted⟩ := by
  refine ⟨h.pos, fun e he => ?_, fun s hs => h.lt_of_mem_accepted hs⟩
  obtain ⟨hs, ht, _⟩ := h.mem_transitions_iff.mp he
  exact ⟨hs, ht⟩

lemma not_reachable_iff (h : Holds t word ws) : (∀ s ∈ t.accepted, ¬ Reachable t.transitions 0 s) ↔ ws = [] := by
  have hmem : ∀ w, w ∈ t.accepted.map word ↔ w ∈ ws := by
    intro w
    rw [← spellings, h.spellings_eq, List.mem_eraseDups]
  constructor
  · intro hnone
    refine List.eq_nil_iff_forall_not_mem.mpr fun w hw => ?_
    obtain ⟨s, hs, _⟩ := List.mem_map.mp ((hmem w).mpr hw)
    have hreads : Reads t.transitions 0 (word s) s :=
      (h.reads_iff h.pos).mpr ⟨h.lt_of_mem_accepted hs, by rw [h.root, List.nil_append]⟩
    exact hnone s hs ⟨word s, hreads⟩
  · rintro rfl s hs
    cases (hmem (word s)).mp (List.mem_map_of_mem hs)

end Trie.Holds

namespace Minimization

variable [DecidableEq α] [OrderedSymbol α]

theorem run_fails_on_first_fault (n i : Nat) (E : List (Transition α)) (F : List Nat) :
    (∀ e, run n i E F false = .error e ↔ Refused n i E F e) ∧
      ((∃ m, run n i E F false = .ok m) ↔ Dump.InRange ⟨n, i, E, F⟩ ∧ ∃ s ∈ F, Reachable E i s) ∧
      (∀ d, run n i E F false ≠ .error (.logic d)) ∧
      (∀ [PrintedSymbol α] (text : List Char) (d : Dump α), Dump.parse text = .ok d → ∀ e, ofDump d false = .error e ↔
        e = .invalid .acceptingStates .noReachableAccepting ∧
          ∀ s ∈ d.accepting, ¬ Reachable d.transitions d.initial s) ∧
      ∀ (additions : List (Trie.Addition α)) e, ofTrie (Trie.grownBy additions) false = .error e ↔
        e = .invalid .acceptingStates .noReachableAccepting ∧ additions.flatMap Trie.Addition.added = [] := by
  refine ⟨fun e => run_eq_error_iff, exists_run_iff, fun d hd => ?_, fun text d hd e => ?_, fun additions e => ?_⟩
  · cases run_eq_error_iff.mp hd
  · exact run_eq_error_iff.trans (refused_iff_of_inRange (Dump.inRange_of_parse hd))
  · obtain ⟨word, h⟩ : ∃ word, Trie.Holds (Trie.grownBy additions) word (additions.flatMap Trie.Addition.added) := by
      have hmany := Trie.holds_empty.insertMany (additions.flatMap Trie.Addition.added)
      rwa [List.nil_append, ← Trie.ofList, ← Trie.grownBy_eq] at hmany
    refine run_eq_error_iff.trans ((refused_iff_of_inRange h.inRange).trans ?_)
    rw [h.not_reachable_iff]

theorem run_fails_on_unreachable_accepting :
    (∃ d : Dump Char, Dump.parse "3 3 0 1\n0 a 1\n0 a 0\n1 b 0\n2\n".toList = .ok d ∧
        ofDump d false = .error (.invalid .acceptingStates .noReachableAccepting)) ∧
      (∃ m : Minimization Char, run 3 0 [⟨0, 'a', 1⟩, ⟨0, 'a', 0⟩, ⟨1, 'b', 0⟩] [2, 1] false = .ok m) ∧
      run 3 0 [⟨0, 'a', 1⟩, ⟨3, 'a', 7⟩, (⟨9, 'b', 0⟩ : Transition Char)] [8] false =
        .error (.outOfRange .transitions 3 3) := by
  have hparse : Dump.parse "3 3 0 1\n0 a 1\n0 a 0\n1 b 0\n2\n".toList =
      .ok (⟨3, 0, [⟨0, 'a', 1⟩, ⟨0, 'a', 0⟩, ⟨1, 'b', 0⟩], [2]⟩ : Dump Char) := by rfl
  have hunreachable : ∀ s ∈ [2], ¬ Reachable [⟨0, 'a', 1⟩, ⟨0, 'a', 0⟩, (⟨1, 'b', 0⟩ : Transition Char)] 0 s := by
    rintro s hs ⟨w, hw⟩
    have hlt : s < 2 := hw.target_lt (by decide) (by decide)
    rw [List.mem_singleton.mp hs] at hlt
    omega
  have hreachable : ∃ s ∈ [2, 1], Reachable [⟨0, 'a', 1⟩, ⟨0, 'a', 0⟩, (⟨1, 'b', 0⟩ : Transition Char)] 0 s :=
    ⟨1, by decide, ['a'], .cons (e := ⟨0, 'a', 1⟩) (by simp) (.nil 1)⟩
  obtain ⟨_, hok, _⟩ := run_fails_on_first_fault 3 0 [⟨0, 'a', 1⟩, ⟨0, 'a', 0⟩, (⟨1, 'b', 0⟩ : Transition Char)] [2, 1]
  obtain ⟨herror, _, _, hdump, _⟩ :=
    run_fails_on_first_fault 3 0 [⟨0, 'a', 1⟩, ⟨3, 'a', 7⟩, (⟨9, 'b', 0⟩ : Transition Char)] [8]
  refine ⟨⟨_, hparse, (hdump _ _ hparse _).mpr ⟨rfl, hunreachable⟩⟩, hok.mpr ⟨?_, hreachable⟩, (herror _).mpr ?_⟩
  · exact ⟨by decide, by decide, by decide⟩
  · exact .transitions (by decide) (by decide)

end Minimization
end PatternInference
