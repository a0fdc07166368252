import PatternInference.Proofs.Expr.Resolution

namespace PatternInference.Expr

/-- `f` stands in `e` at the end of this path: the numbers of branches, and 0 and 1 for the sides of a concatenation. -/
inductive At : Expr → List Nat → Expr → Prop
  | here (e : Expr) : At e [] e
  | branch {parts : List Expr} {i : Nat} {e f : Expr} {path : List Nat} (h : parts[i]? = some e) :
    At e path f → At (alt parts) (i :: path) f
  | left {e f right : Expr} {path : List Nat} : At e path f → At (seq e right) (0 :: path) f
  | right {e f left : Expr} {path : List Nat} : At e path f → At (seq left e) (1 :: path) f

variable {ρ : Nat → Language Char} {e f solution other : Expr} {parts : List Expr} {path : List Nat} {i n o state : Nat}
  {t : List Char}

lemma at_lit_iff : At (lit t) path f ↔ path = [] ∧ f = lit t := by
  refine ⟨?_, ?_⟩
  · rintro ⟨⟩
    exact ⟨rfl, rfl⟩
  · rintro ⟨rfl, rfl⟩
    exact .here _

lemma at_pending_iff : At (pending t o) path f ↔ path = [] ∧ f = pending t o := by
  refine ⟨?_, ?_⟩
  · rintro ⟨⟩
    exact ⟨rfl, rfl⟩
  · rintro ⟨rfl, rfl⟩
    exact .here _

lemma at_alt_nil_iff : At (alt parts) [] f ↔ f = alt parts := by
  refine ⟨?_, ?_⟩
  · rintro ⟨⟩
    rfl
  · rintro rfl
    exact .here _

lemma at_alt_cons_iff : At (alt parts) (i :: path) f ↔ ∃ e, parts[i]? = some e ∧ At e path f := by
  refine ⟨?_, fun ⟨_, hi, h⟩ => .branch hi h⟩
  rintro (_ | ⟨hi, h⟩)
  exact ⟨_, hi, h⟩

lemma at_seq_nil_iff {left right : Expr} : At (seq left right) [] f ↔ f = seq left right := by
  refine ⟨?_, ?_⟩
  · rintro ⟨⟩
    rfl
  · rintro rfl
    exact .here _

lemma at_seq_cons_iff {left right : Expr} :
    At (seq left right) (i :: path) f ↔ i = 0 ∧ At left path f ∨ i = 1 ∧ At right path f := by
  refine ⟨?_, ?_⟩
  · intro h
    cases h with
    | left h => exact .inl ⟨rfl, h⟩
    | right h => exact .inr ⟨rfl, h⟩
  · rintro (⟨rfl, h⟩ | ⟨rfl, h⟩)
    · exact .left h
    · exact .right h

lemma At.mem_origins (h : At e path (pending t o)) : o ∈ e.origins := by
  induction e using Expr.structural generalizing path with
  | lit => exact absurd (at_lit_iff.mp h).2 (by simp)
  | pending text origin =>
    cases (at_pending_iff.mp h).2
    simp [origins]
  | alt parts ih =>
    cases path with
    | nil => exact absurd (at_alt_nil_iff.mp h) (by simp)
    | cons i path =>
      obtain ⟨e, hi, h⟩ := at_alt_cons_iff.mp h
      have he := List.mem_of_getElem? hi
      exact mem_origins_alt.mpr ⟨e, he, ih e he h⟩
  | seq left right ihl ihr =>
    cases path with
    | nil => exact absurd (at_seq_nil_iff.mp h) (by simp)
    | cons i path =>
      rw [origins, List.mem_append]
      exact (at_seq_cons_iff.mp h).imp (fun h => ihl h.2) fun h => ihr h.2

lemma at_substitute_iff (h : solution.isSolved = true) :
    At (e.substitute state solution) path (pending t o) ↔ At e path (pending t o) ∧ o ≠ state := by
  induction e using Expr.structural generalizing path with
  | lit => simp [substitute, at_lit_iff]
  | pending text origin =>
    rw [substitute]
    split_ifs with horigin
    · apply iff_of_false
      · intro hat
        have hmem := hat.mem_origins
        rw [origins_followedBy h] at hmem
        cases hmem
      · rintro ⟨hat, hne⟩
        cases (at_pending_iff.mp hat).2
        exact hne horigin
    · rw [at_pending_iff, iff_self_and]
      rintro ⟨_, heq⟩ rfl
      cases heq
      exact horigin rfl
  | alt parts ih =>
    rw [substitute, substituteAll_eq_map]
    cases path with
    | nil => simp [at_alt_nil_iff]
    | cons i path =>
      rw [at_alt_cons_iff, at_alt_cons_iff, List.getElem?_map]
      cases hi : parts[i]? with
      | none => simp
      | some e => simpa using ih e (List.mem_of_getElem? hi)
  | seq left right ihl ihr =>
    rw [substitute]
    cases path with
    | nil => simp [at_seq_nil_iff]
    | cons i path => simp only [at_seq_cons_iff, ihl, ihr, or_and_right, and_assoc]

lemma awaitsOnly_iff : e.awaitsOnly state = true ↔ ∀ o ∈ e.origins, o = state := by
  induction e using Expr.structural with
  | lit => simp [awaitsOnly, origins]
  | pending => simp [awaitsOnly, origins]
  | alt parts ih =>
    simp only [awaitsOnly, awaitOnly_eq_all, List.all_eq_true, mem_origins_alt, forall_exists_index, and_imp]
    exact ⟨fun h o e he => (ih e he).mp (h e he) o, fun h e he => (ih e he).mpr fun o => h o e he⟩
  | seq left right ihl ihr =>
    simp only [awaitsOnly, Bool.and_eq_true, ihl, ihr, origins, List.forall_mem_append]

lemma awaitsOnly_eq_isSolved (h : solution.isSolved = true) :
    e.awaitsOnly state = (e.substitute state solution).isSolved := by
  rw [Bool.eq_iff_iff, awaitsOnly_iff, isSolved_iff]
  simp only [mem_origins_substitute h, not_and, not_not]

lemma substitute_of_isSolved (h : e.isSolved = true) : e.substitute state solution = e := by
  induction e using Expr.structural with
  | lit => rfl
  | pending => cases h
  | alt parts ih =>
    rw [isSolved, areSolved_eq_all, List.all_eq_true] at h
    rw [substitute, substituteAll_eq_map, List.map_congr_left fun e he => ih e he (h e he), List.map_id']
  | seq left right ihl ihr =>
    rw [isSolved, Bool.and_eq_true] at h
    rw [substitute, ihl h.1, ihr h.2]

lemma substitute_comm (h : solution.isSolved = true) (hother : other.isSolved = true) (hne : n ≠ state) :
    (e.substitute state solution).substitute n other = (e.substitute n other).substitute state solution := by
  induction e using Expr.structural with
  | lit => rfl
  | pending text origin =>
    -- what the one puts in is solved, so the other leaves it alone
    by_cases hstate : origin = state
    · have horigin : origin ≠ n := fun heq => hne (heq.symm.trans hstate)
      simp only [substitute, if_pos hstate, if_neg horigin, substitute_of_isSolved (isSolved_followedBy h)]
    · by_cases horigin : origin = n
      · simp only [substitute, if_neg hstate, if_pos horigin, substitute_of_isSolved (isSolved_followedBy hother)]
      · simp only [substitute, if_neg hstate, if_neg horigin]
  | alt parts ih =>
    simp only [substitute, substituteAll_eq_map, List.map_map, alt.injEq, List.map_inj_left]
    exact ih
  | seq left right ihl ihr => simp only [substitute, ihl, ihr]

theorem substitute_keeps_meaning (h : solution.isSolved = true) (hρ : ρ state = solution.language) :
    (e.substitute state solution).meaning ρ = e.meaning ρ ∧
      (∀ path t o, At (e.substitute state solution) path (pending t o) ↔ At e path (pending t o) ∧ o ≠ state) ∧
      e.awaitsOnly state = (e.substitute state solution).isSolved ∧
      ∀ n other, n ≠ state → other.isSolved = true →
        (e.substitute state solution).substitute n other = (e.substitute n other).substitute state solution := by
  exact ⟨meaning_substitute h (hρ.trans (meaning_of_isSolved h).symm), fun path t o => at_substitute_iff h,
    awaitsOnly_eq_isSolved h, fun n other hne hother => substitute_comm h hother hne⟩

theorem substitute_keeps_meaning_nested :
    let e := alt [seq (pending [] 1) (pending ['z'] 2), lit ['x'], alt [pending ['y'] 1]]
    let solution := seq (alt [lit ['a'], lit []]) (lit ['b'])
    (e.substitute 1 solution).meaning (fun _ => solution.language) = e.meaning (fun _ => solution.language) ∧
      At (e.substitute 1 solution) [0, 1] (pending ['z'] 2) ∧
      e.awaitsOnly 1 = false ∧ (e.substitute 1 solution).isSolved = false ∧
      (e.substitute 1 solution).substitute 2 (lit []) = (e.substitute 2 (lit [])).substitute 1 solution := by
  intro e solution
  obtain ⟨hmeaning, hat, hsolved, hcomm⟩ :=
    @substitute_keeps_meaning (fun _ => solution.language) e solution 1 rfl rfl
  exact ⟨hmeaning, (hat _ _ _).mpr ⟨.branch rfl (.right (.here _)), by decide⟩, rfl, hsolved.symm,
    hcomm 2 (lit []) (by decide) rfl⟩

end PatternInference.Expr
