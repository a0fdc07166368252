import Mathlib.Logic.Function.Iterate
import PatternInference.Equations.Elimination
import PatternInference.Proofs.Equations.Basic

/-! Solving in rounds ends with the path language of every state. -/

namespace PatternInference.Equations

open PatternInference.Expr

variable {n initial s t o : Nat} {edges : List (Transition Char)} {grouped : Bool} {ρ : Nat → Language Char}
  {w : List Char} {q : Equations} {found : List (Nat × Expr)} {e : Expr}

def keys (entries : List (Nat × Expr)) : List Nat := entries.map Prod.fst

def Sound (ρ : Nat → Language Char) (entries : List (Nat × Expr)) : Prop :=
  ∀ s e, (s, e) ∈ entries → e.isSolved = true ∧ e.meaning ρ = ρ s

lemma meaning_substituteIn (h : Sound ρ found) : (substituteIn found e).meaning ρ = e.meaning ρ := by
  induction found generalizing e with
  | nil => rfl
  | cons x found ih =>
    obtain ⟨hsolved, hmeaning⟩ := h x.1 x.2 (by simp)
    rw [substituteIn, List.foldl_cons]
    exact (ih fun s e he => h s e (by simp [he])).trans (meaning_substitute hsolved hmeaning.symm)

lemma mem_origins_substituteIn (h : Sound ρ found) :
    o ∈ (substituteIn found e).origins ↔ o ∈ e.origins ∧ o ∉ keys found := by
  induction found generalizing e with
  | nil => simp [substituteIn, keys]
  | cons x found ih =>
    rw [substituteIn, List.foldl_cons]
    refine (ih fun s e he => h s e (by simp [he])).trans ?_
    rw [mem_origins_substitute (h x.1 x.2 (by simp)).1]
    simp only [keys, List.map_cons, List.mem_cons, not_or, and_assoc]

/--
Solutions are right, the equations hold of the path languages, and they wait for predecessors only: for those that are
not solved, or were found last.
-/
structure Invariant (n initial : Nat) (edges : List (Transition Char)) (q : Equations) (found : List (Nat × Expr)) :
    Prop where
  stateCount_eq : q.stateCount = n
  keys_perm : (keys q.solved ++ keys q.unsolved).Perm (List.range n)
  solved_sound : Sound (paths edges initial) q.solved
  found_sub : ∀ x ∈ found, x ∈ q.solved
  found_ne : q.unsolved ≠ [] → found ≠ []
  equation_sound : ∀ s e, (s, e) ∈ q.unsolved → e.meaning (paths edges initial) = paths edges initial s
  awaits : ∀ s e, (s, e) ∈ q.unsolved → ∀ o ∈ e.origins, Precedes edges o s ∧ (o ∈ keys q.solved → o ∈ keys found)

lemma Accepted.invariant (h : Accepted n initial edges) :
    Invariant n initial edges (start n initial edges grouped) [(initial, .epsilon)] := by
  have hkeys : keys (start n initial edges grouped).unsolved = (List.range n).filter (· != initial) := by
    simp [keys, start, Function.comp_def]
  constructor
  case stateCount_eq => rfl
  case keys_perm =>
    rw [hkeys, ← List.nodup_range.erase_eq_filter]
    exact (List.perm_cons_erase (List.mem_range.mpr h.initial_lt)).symm
  case solved_sound =>
    intro s e hs
    simp only [start, List.mem_singleton, Prod.mk.injEq] at hs
    obtain ⟨rfl, rfl⟩ := hs
    rw [paths_initial fun e he => h.target_ne he]
    exact ⟨rfl, rfl⟩
  case found_sub => simp [start]
  case found_ne => simp
  case equation_sound =>
    intro s e hs
    simp only [start, List.mem_map, mem_candidates, Prod.mk.injEq] at hs
    obtain ⟨s, ⟨_, hne⟩, rfl, rfl⟩ := hs
    exact meaning_equation hne
  case awaits =>
    intro s e hs o ho
    simp only [start, List.mem_map, Prod.mk.injEq] at hs
    obtain ⟨s, _, rfl, rfl⟩ := hs
    exact ⟨mem_origins_equation.mp ho, id⟩

def solutions (q : Equations) (found : List (Nat × Expr)) : List (Nat × Expr) :=
  ((q.unsolved.map fun x => (x.1, substituteIn found x.2)).filter (·.2.isSolved)).map fun x => (x.1, x.2.normalize)

def remaining (q : Equations) (found : List (Nat × Expr)) : List (Nat × Expr) :=
  (q.unsolved.map fun x => (x.1, substituteIn found x.2)).filter (!·.2.isSolved)

lemma round_eq : q.round found =
    ({ q with unsolved := q.remaining found, solved := q.solved ++ q.solutions found }, q.solutions found) := by
  simp only [round, List.partition_eq_filter_filter]
  rfl

lemma rounds_done {fuel : Nat} (h : q.stateCount ≤ q.solved.length) : rounds fuel q found = .done q := by
  cases fuel <;> cases found <;> simp [rounds, h]

lemma rounds_cons {fuel : Nat} {x : Nat × Expr} (h : q.solved.length < q.stateCount) :
    rounds (fuel + 1) q (x :: found) = rounds fuel (q.round (x :: found)).1 (q.round (x :: found)).2 := by
  rw [rounds, if_neg (by omega)]
  simp

lemma rounds_of_round {P : Equations → List (Nat × Expr) → Prop} {fuel : Nat} {q' : Equations}
    (hround : ∀ q found, P q found → P (q.round found).1 (q.round found).2) (h : P q found)
    (hdone : rounds fuel q found = .done q') : ∃ found', P q' found' ∧ q'.stateCount ≤ q'.solved.length := by
  induction fuel generalizing q found with
  | zero =>
    by_cases hlen : q.stateCount ≤ q.solved.length
    · rw [rounds_done hlen] at hdone
      cases hdone
      exact ⟨found, h, hlen⟩
    · simp [rounds, hlen, Outcome.done, Outcome.failed] at hdone
  | succ fuel ih =>
    by_cases hlen : q.stateCount ≤ q.solved.length
    · rw [rounds_done hlen] at hdone
      cases hdone
      exact ⟨found, h, hlen⟩
    · cases found with
      | nil => simp [rounds, hlen, Outcome.done, Outcome.failed] at hdone
      | cons x found =>
        rw [rounds_cons (Nat.not_le.mp hlen)] at hdone
        exact ih (hround _ _ h) hdone

lemma solve_of_round {P : Equations → List (Nat × Expr) → Prop} {cancelled : Bool} {q' : Equations}
    (hround : ∀ q found, P q found → P (q.round found).1 (q.round found).2) (h : P q [(q.initial, .epsilon)])
    (hdone : q.solve cancelled = .done q') : ∃ found', P q' found' ∧ q'.stateCount ≤ q'.solved.length := by
  rw [solve] at hdone
  split at hdone
  · simp [Outcome.done, Outcome.failed] at hdone
  · exact rounds_of_round hround h hdone

lemma mem_solutions : (s, e) ∈ q.solutions found ↔
    ∃ f, (s, f) ∈ q.unsolved ∧ (substituteIn found f).isSolved = true ∧ (substituteIn found f).normalize = e := by
  simp only [solutions, List.mem_map, List.mem_filter, Prod.mk.injEq, Prod.exists]
  constructor
  · rintro ⟨_, _, ⟨⟨s, f, hf, rfl, rfl⟩, hsolved⟩, rfl, rfl⟩
    exact ⟨f, hf, hsolved, rfl⟩
  · rintro ⟨f, hf, hsolved, rfl⟩
    exact ⟨s, _, ⟨⟨s, f, hf, rfl, rfl⟩, hsolved⟩, rfl, rfl⟩

lemma mem_remaining : (s, e) ∈ q.remaining found ↔
    ∃ f, (s, f) ∈ q.unsolved ∧ (substituteIn found f).isSolved = false ∧ substituteIn found f = e := by
  simp only [remaining, List.mem_map, List.mem_filter, Prod.mk.injEq, Prod.exists, Bool.not_eq_true']
  constructor
  · rintro ⟨⟨s, f, hf, rfl, rfl⟩, hsolved⟩
    exact ⟨f, hf, hsolved, rfl⟩
  · rintro ⟨f, hf, hsolved, rfl⟩
    exact ⟨⟨s, f, hf, rfl, rfl⟩, hsolved⟩

lemma keys_append (xs ys : List (Nat × Expr)) : keys (xs ++ ys) = keys xs ++ keys ys := List.map_append

lemma keys_perm_unsolved : (keys (q.solutions found) ++ keys (q.remaining found)).Perm (keys q.unsolved) := by
  have hperm := (List.filter_append_perm (fun x : Nat × Expr => x.2.isSolved)
    (q.unsolved.map fun x => (x.1, substituteIn found x.2))).map Prod.fst
  simpa [keys, solutions, remaining, Function.comp_def] using hperm

namespace Invariant

lemma found_sound (h : Invariant n initial edges q found) : Sound (paths edges initial) found :=
  fun s e he => h.solved_sound s e (h.found_sub _ he)

lemma mem_keys (h : Invariant n initial edges q found) (hs : s < n) : s ∈ keys q.solved ∨ s ∈ keys q.unsolved :=
  List.mem_append.mp (h.keys_perm.mem_iff.mpr (List.mem_range.mpr hs))

lemma length_eq (h : Invariant n initial edges q found) : q.solved.length + q.unsolved.length = n := by
  have hlen := h.keys_perm.length_eq
  simpa [keys] using hlen

lemma exists_done (h : Invariant n initial edges q found) (ha : Accepted n initial edges) (hne : q.unsolved ≠ []) :
    ∃ s e, (s, e) ∈ q.unsolved ∧ (substituteIn found e).isSolved = true := by
  -- a least unsolved state waits for solved states only
  obtain ⟨x, hx⟩ := List.exists_mem_of_ne_nil _ hne
  obtain ⟨s, hs, hmin⟩ := ha.acyclic.has_min {s | s ∈ keys q.unsolved} ⟨x.1, List.mem_map.mpr ⟨x, hx, rfl⟩⟩
  obtain ⟨⟨s, e⟩, he, rfl⟩ := List.mem_map.mp hs
  refine ⟨s, e, he, isSolved_iff.mpr fun o ho => ?_⟩
  obtain ⟨ho, hnotfound⟩ := (mem_origins_substituteIn h.found_sound).mp ho
  obtain ⟨hprec, hfound⟩ := h.awaits s e he o ho
  have hlt : o < n := by
    obtain ⟨f, hf, rfl, _⟩ := hprec
    exact (ha.ends f hf).1
  cases h.mem_keys hlt with
  | inl hsolved => exact hnotfound (hfound hsolved)
  | inr hunsolved => exact hmin o hunsolved hprec

lemma solutions_ne (h : Invariant n initial edges q found) (ha : Accepted n initial edges) (hne : q.unsolved ≠ []) :
    q.solutions found ≠ [] := by
  obtain ⟨s, e, he, hsolved⟩ := h.exists_done ha hne
  have hmem : (s, (substituteIn found e).normalize) ∈ q.solutions found := mem_solutions.mpr ⟨e, he, hsolved, rfl⟩
  exact List.ne_nil_of_mem hmem

lemma length_remaining_lt (h : Invariant n initial edges q found) (ha : Accepted n initial edges)
    (hne : q.unsolved ≠ []) : (q.remaining found).length < q.unsolved.length := by
  have hpos := List.length_pos_iff.mpr (h.solutions_ne ha hne)
  have hkeys : (keys (q.solutions found) ++ keys (q.remaining found)).Perm (keys q.unsolved) := keys_perm_unsolved
  have hlen := hkeys.length_eq
  simp only [keys, List.length_append, List.length_map] at hlen
  omega

lemma round (h : Invariant n initial edges q found) (ha : Accepted n initial edges) :
    Invariant n initial edges (q.round found).1 (q.round found).2 ∧
      (q.unsolved ≠ [] → (q.round found).1.unsolved.length < q.unsolved.length) := by
  rw [round_eq]
  have hmeaning : ∀ e : Expr, (substituteIn found e).meaning (paths edges initial) = e.meaning (paths edges initial) :=
    fun e => meaning_substituteIn h.found_sound
  refine ⟨?_, fun hne => h.length_remaining_lt ha hne⟩
  constructor
  case stateCount_eq => exact h.stateCount_eq
  case keys_perm =>
    rw [keys_append, List.append_assoc]
    exact (keys_perm_unsolved.append_left _).trans h.keys_perm
  case solved_sound =>
    intro s e hs
    rcases List.mem_append.mp hs with hs | hs
    · exact h.solved_sound s e hs
    · obtain ⟨f, hf, hsolved, rfl⟩ := mem_solutions.mp hs
      refine ⟨isSolved_normalize hsolved, ?_⟩
      rw [meaning_normalize, hmeaning, h.equation_sound s f hf]
  case found_sub => exact fun x hx => List.mem_append_right _ hx
  case found_ne =>
    intro hne
    apply h.solutions_ne ha
    rintro hnil
    apply hne
    rw [remaining, hnil]
    rfl
  case equation_sound =>
    intro s e hs
    obtain ⟨f, hf, _, rfl⟩ := mem_remaining.mp hs
    rw [hmeaning, h.equation_sound s f hf]
  case awaits =>
    intro s e hs o ho
    obtain ⟨f, hf, _, rfl⟩ := mem_remaining.mp hs
    obtain ⟨ho, hnotfound⟩ := (mem_origins_substituteIn h.found_sound).mp ho
    obtain ⟨hprec, hfound⟩ := h.awaits s f hf o ho
    refine ⟨hprec, fun hsolved => ?_⟩
    rw [keys_append, List.mem_append] at hsolved
    exact hsolved.resolve_left fun hold => hnotfound (hfound hold)

lemma rounds_spec (h : Invariant n initial edges q found) (ha : Accepted n initial edges) {fuel : Nat}
    (hfuel : q.unsolved.length ≤ fuel) :
    ∃ q' found', rounds fuel q found = .done q' ∧ Invariant n initial edges q' found' ∧ q'.unsolved = [] := by
  -- each round solves something, so the fuel lasts
  induction fuel generalizing q found with
  | zero =>
    have hnil := List.length_eq_zero_iff.mp (Nat.le_zero.mp hfuel)
    have hlen := h.length_eq
    exact ⟨q, found, rounds_done (by rw [h.stateCount_eq]; omega), h, hnil⟩
  | succ fuel ih =>
    have hlen := h.length_eq
    by_cases hnil : q.unsolved = []
    · exact ⟨q, found, rounds_done (by rw [h.stateCount_eq, ← hlen, hnil]; simp), h, hnil⟩
    · obtain ⟨hround, hlt⟩ := h.round ha
      have hpos := List.length_pos_iff.mpr hnil
      obtain ⟨q', found', hq', hinv, hsolved⟩ := ih hround (by have := hlt hnil; omega)
      refine ⟨q', found', ?_, hinv, hsolved⟩
      cases found with
      | nil => exact absurd rfl (h.found_ne hnil)
      | cons x found =>
        rw [rounds_cons (by rw [h.stateCount_eq]; omega)]
        exact hq'

end Invariant

lemma exists_lookup {entries : List (Nat × Expr)} (hs : s ∈ keys entries) :
    ∃ e, entries.lookup s = some e ∧ (s, e) ∈ entries := by
  induction entries with
  | nil => cases hs
  | cons x entries ih =>
    by_cases hx : s = x.1
    · subst hx
      exact ⟨x.2, List.lookup_cons_self, List.mem_cons_self⟩
    · obtain ⟨e, he, hmem⟩ := ih ((List.mem_cons.mp hs).resolve_left hx)
      exact ⟨e, by rw [List.lookup_cons, beq_false_of_ne hx, he], List.mem_cons_of_mem _ hmem⟩

structure Solved (n initial : Nat) (edges : List (Transition Char)) (q : Equations) : Prop where
  unsolved_eq : q.unsolved = []
  solution : ∀ s, s < n → ∃ e, q.solution? s = some e ∧ e.isSolved = true ∧ e.language = paths edges initial s

lemma Accepted.solve_spec (h : Accepted n initial edges) (grouped : Bool) :
    ∃ q, (start n initial edges grouped).solve false = .done q ∧ Solved n initial edges q := by
  obtain ⟨q, found, hq, hinv, hnil⟩ := h.invariant.rounds_spec h (Nat.le_succ _)
  refine ⟨q, ?_, hnil, fun s hs => ?_⟩
  · simp only [solve, Bool.false_eq_true, false_and, if_false]
    exact hq
  · have hmem : s ∈ keys q.solved := by
      rcases hinv.mem_keys hs with hmem | hmem
      · exact hmem
      · rw [hnil] at hmem
        cases hmem
    obtain ⟨e, he, hmem⟩ := exists_lookup hmem
    obtain ⟨hsolved, hmeaning⟩ := hinv.solved_sound s e hmem
    exact ⟨e, he, hsolved, (meaning_of_isSolved hsolved).symm.trans hmeaning⟩

lemma mem_ascending {states : List Nat} : s ∈ ascending states ↔ s ∈ states := by
  rw [ascending, mem_eraseReps, List.mem_mergeSort]

def joined : List Expr → Expr
  | [e] => e
  | es => .union es

lemma mem_language_joined {es : List Expr} {w : List Char} :
    w ∈ (joined es).language ↔ ∃ e ∈ es, w ∈ e.language := by
  fun_cases joined es with
  | case1 e => simp
  | case2 => exact mem_meaning_union

lemma isSolved_joined {es : List Expr} (h : ∀ e ∈ es, e.isSolved = true) : (joined es).isSolved = true := by
  fun_cases joined es with
  | case1 e => exact h e (by simp)
  | case2 => exact isSolved_union.mpr h

lemma unionOf_eq_joined {accepting : List Nat} {solution : Nat → Expr} (hne : accepting ≠ [])
    (h : ∀ s ∈ accepting, q.solution? s = some (solution s)) :
    q.unionOf accepting = .ok (joined ((ascending accepting).map solution)) := by
  rw [unionOf, mapM_eq_pure_map solution fun s hs => by rw [h s (mem_ascending.mp hs)]; rfl]
  cases hcase : (ascending accepting).map solution with
  | nil =>
    obtain ⟨s, hs⟩ := List.exists_mem_of_ne_nil _ hne
    have hnil := List.map_eq_nil_iff.mp hcase
    exact absurd (mem_ascending.mpr hs) (by simp [hnil])
  | cons e parts => cases parts <;> rfl

lemma Solved.unionOf_spec (h : Solved n initial edges q) {accepting : List Nat} (hne : accepting ≠ [])
    (hlt : ∀ s ∈ accepting, s < n) :
    ∃ solution : Nat → Expr, (∀ s ∈ accepting, q.solution? s = some (solution s)) ∧
      q.unionOf accepting = .ok (joined ((ascending accepting).map solution)) ∧
      (joined ((ascending accepting).map solution)).isSolved = true ∧
      ∀ w, w ∈ (joined ((ascending accepting).map solution)).language ↔
        ∃ s ∈ accepting, w ∈ paths edges initial s := by
  set solution : Nat → Expr := fun s => (q.solution? s).getD .epsilon with hsolution
  have hsol : ∀ s ∈ accepting, q.solution? s = some (solution s) ∧ (solution s).isSolved = true ∧
      (solution s).language = paths edges initial s := by
    intro s hs
    obtain ⟨e, he, hsolved, hlanguage⟩ := h.solution s (hlt s hs)
    have heq : solution s = e := by simp [hsolution, he]
    rw [heq]
    exact ⟨he, hsolved, hlanguage⟩
  have hsome : ∀ s ∈ accepting, q.solution? s = some (solution s) := fun s hs => (hsol s hs).1
  refine ⟨solution, hsome, unionOf_eq_joined hne hsome, ?_, fun w => ?_⟩
  · apply isSolved_joined
    intro e he
    obtain ⟨s, hs, rfl⟩ := List.mem_map.mp he
    exact (hsol s (mem_ascending.mp hs)).2.1
  · simp only [mem_language_joined, List.mem_map, exists_exists_and_eq_and, mem_ascending]
    apply exists_congr
    intro s
    apply and_congr_right
    intro hs
    rw [(hsol s hs).2.2]

lemma solve_cancelled_state : (q.solve true).state = q := by
  rw [solve]
  split
  · rfl
  · next h =>
    rw [rounds_done (by simpa using h)]
    rfl

theorem solve_path_languages (h : create n initial edges grouped = .ok q) (refused : Nat) :
    ∃ q', ((fun q => (q.solve true).state)^[refused] q).solve false = .done q' ∧ q'.isSolved = true ∧
      (∀ s, s < n → ∃ e, q'.solution? s = some e ∧ e.isSolved = true ∧ e.language = paths edges initial s) ∧
      ∀ accepting, accepting ≠ [] → (∀ s ∈ accepting, s < n) →
        ∃ e, q'.unionOf accepting = .ok e ∧ ∀ w, w ∈ e.language ↔ ∃ s ∈ accepting, w ∈ paths edges initial s := by
  obtain ⟨ha, rfl⟩ := create_eq_ok_iff.mp h
  obtain ⟨q', hq', hsolved⟩ := ha.solve_spec grouped
  refine ⟨q', ?_, ?_, hsolved.solution, fun accepting hne hlt => ?_⟩
  · rw [show (fun q : Equations => (q.solve true).state) = id from funext fun _ => solve_cancelled_state,
      Function.iterate_id]
    exact hq'
  · rw [isSolved, hsolved.unsolved_eq]
    rfl
  · obtain ⟨_, _, he, _, hlanguage⟩ := hsolved.unionOf_spec hne hlt
    exact ⟨_, he, hlanguage⟩

theorem solve_path_languages_diamond :
    let edges : List (Transition Char) := [⟨0, 'a', 1⟩, ⟨0, 'b', 1⟩, ⟨0, 'c', 2⟩, ⟨1, 'a', 2⟩]
    ∃ q, create 3 0 edges true = .ok q ∧ ∃ q', (q.solve true).state.solve false = .done q' ∧ q'.isSolved = true ∧
      (∀ s, s < 3 → ∃ e, q'.solution? s = some e ∧ e.isSolved = true ∧ e.language = paths edges 0 s) ∧
      ∃ e, q'.unionOf [2, 1, 2] = .ok e ∧ ∀ w, w ∈ e.language ↔ ∃ s ∈ [2, 1, 2], w ∈ paths edges 0 s := by
  intro edges
  have hcreate : create 3 0 edges true = .ok (start 3 0 edges true) := by rfl
  obtain ⟨q', hq', hsolved, hpaths, hunion⟩ := solve_path_languages hcreate 1
  exact ⟨_, hcreate, q', hq', hsolved, hpaths, hunion [2, 1, 2] (by decide) (by decide)⟩

end PatternInference.Equations
