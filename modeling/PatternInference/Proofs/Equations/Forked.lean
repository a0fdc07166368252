import PatternInference.Proofs.Equations.Elimination
import PatternInference.Proofs.Expr.Forked

namespace PatternInference.Equations

open PatternInference.Expr

variable {n initial s : Nat} {edges incoming : List (Transition Char)} {grouped : Bool} {q : Equations}
  {found : List (Nat × Expr)} {e : Expr}

lemma predecessors_ne (hne : incoming ≠ []) : predecessors grouped incoming ≠ [] := by
  obtain ⟨e, he⟩ := List.exists_mem_of_ne_nil _ hne
  obtain ⟨x, hx, _⟩ : ∃ x ∈ predecessors grouped incoming, x.1 = e.source := exists_source_iff.mpr ⟨e, he, rfl⟩
  exact List.ne_nil_of_mem hx

lemma symbols_ne {x : Nat × List Char} (hx : x ∈ predecessors grouped incoming) : x.2 ≠ [] := by
  rw [predecessors] at hx
  split at hx
  · obtain ⟨p, hp, rfl⟩ := List.mem_map.mp hx
    obtain ⟨e, he, rfl⟩ := List.mem_map.mp (List.mem_eraseDups.mp hp)
    apply List.ne_nil_of_mem (a := e.symbol)
    exact List.mem_map_of_mem (List.mem_filter.mpr ⟨he, by simp⟩)
  · obtain ⟨e, _, rfl⟩ := List.mem_map.mp hx
    simp

lemma term_forked {x : Nat × List Char} (hne : x.2 ≠ []) : (term x).Forked := by
  fun_cases term x with
  | case1 p c => exact .pending [c] p
  | case2 p cs =>
    apply Forked.seq (.pending [] p)
    apply Forked.union
    · simpa using hne
    · intro e he
      obtain ⟨c, _, rfl⟩ := List.mem_map.mp he
      exact .lit [c]

lemma equation_forkable (h : ∃ e ∈ edges, e.target = s) : (equation grouped edges s).Forkable := by
  obtain ⟨e, he, ht⟩ := h
  refine ⟨_, rfl, ?_, ?_⟩
  · have hmem : e ∈ edges.filter fun t => t.target == s := List.mem_filter.mpr ⟨he, beq_iff_eq.mpr ht⟩
    simpa using predecessors_ne (List.ne_nil_of_mem hmem)
  · intro f hf
    obtain ⟨x, hx, rfl⟩ := List.mem_map.mp hf
    exact term_forked (symbols_ne hx)

structure Shaped (q : Equations) (found : List (Nat × Expr)) : Prop where
  solved : ∀ s e, (s, e) ∈ q.solved → e.Forked
  found : ∀ s e, (s, e) ∈ found → e.Forked
  unsolved : ∀ s e, (s, e) ∈ q.unsolved → e.Forkable

lemma Accepted.shaped (h : Accepted n initial edges) : Shaped (start n initial edges grouped) [(initial, .epsilon)] := by
  have hinitial : ∀ s e, (s, e) ∈ [(initial, Expr.epsilon)] → e.Forked := by
    intro s e he
    cases List.mem_singleton.mp he
    exact .lit []
  refine ⟨hinitial, hinitial, ?_⟩
  intro s e he
  obtain ⟨s, hs, heq⟩ := List.mem_map.mp he
  obtain ⟨hlt, hne⟩ := mem_candidates.mp hs
  cases heq
  exact equation_forkable (h.entered s hlt hne)

lemma substituteIn_forkable (hfound : ∀ s e, (s, e) ∈ found → e.Forked) (he : e.Forkable) :
    (substituteIn found e).Forkable := by
  induction found generalizing e with
  | nil => exact he
  | cons x found ih =>
    rw [substituteIn, List.foldl_cons]
    apply ih
    · exact fun s e hs => hfound s e (by simp [hs])
    · exact he.substitute (hfound x.1 x.2 (by simp))

lemma Shaped.round (h : Shaped q found) : Shaped (q.round found).1 (q.round found).2 := by
  have hsolutions : ∀ s e, (s, e) ∈ q.solutions found → e.Forked := by
    intro s e he
    obtain ⟨f, hf, _, rfl⟩ := mem_solutions.mp he
    exact (substituteIn_forkable h.found (h.unsolved s f hf)).normalize
  rw [round_eq]
  refine ⟨?_, hsolutions, ?_⟩
  · intro s e he
    cases List.mem_append.mp he with
    | inl hold => exact h.solved s e hold
    | inr hnew => exact hsolutions s e hnew
  · intro s e he
    obtain ⟨f, hf, _, rfl⟩ := mem_remaining.mp he
    exact substituteIn_forkable h.found (h.unsolved s f hf)

lemma Accepted.solution_forked (h : Accepted n initial edges) (hsolve : (start n initial edges grouped).solve false = .done q)
    (he : q.solution? s = some e) : e.Forked := by
  obtain ⟨_, hshaped, -⟩ := solve_of_round (fun _ _ => Shaped.round) h.shaped hsolve
  apply hshaped.solved s
  obtain ⟨before, after, heq, _⟩ := List.lookup_eq_some_iff.mp he
  simp [heq]

lemma joined_forked {es : List Expr} (hne : es ≠ []) (hes : ∀ e ∈ es, e.Forked) : (joined es).Forked := by
  fun_cases joined es with
  | case1 e => exact hes e (by simp)
  | case2 => exact .union hne hes

end PatternInference.Equations
