import Mathlib.Data.List.Permutation
import PatternInference.Proofs.Equations.Elimination
import PatternInference.Proofs.Expr.Resolution

/-! The solutions are those of a recursion over the automaton, in whatever order the equations are solved. -/

namespace PatternInference.Equations

open PatternInference.Expr

variable {n initial s t o : Nat} {edges : List (Transition Char)} {grouped cancelled : Bool} {sol sol' : Nat → Expr}
  {q q₀ : Equations} {found : List (Nat × Expr)} {e : Expr}

/-- The empty word for the initial state, and its resolved equation in normal form for any other. -/
structure Reference (q : Equations) (sol : Nat → Expr) : Prop where
  initial_eq : sol q.initial = .epsilon
  equation : ∀ s, s < q.stateCount → s ≠ q.initial →
    ∃ e, q.unsolved.lookup s = some e ∧ sol s = (e.resolve sol).normalize

/-- States of a search that puts solutions in as it finds them, in any order, into equations in any order. -/
inductive Eliminates (q₀ : Equations) : Equations → List (Nat × Expr) → Prop
  | init : Eliminates q₀ q₀ [(q₀.initial, .epsilon)]
  | round {q : Equations} {found : List (Nat × Expr)} :
      Eliminates q₀ q found → Eliminates q₀ (q.round found).1 (q.round found).2
  | reorder {q : Equations} {found found' unsolved solved : List (Nat × Expr)} :
      Eliminates q₀ q found → q.unsolved.Perm unsolved → q.solved.Perm solved → found.Perm found' →
      Eliminates q₀ { q with unsolved, solved } found'

lemma resolve_substituteIn (h : ∀ s e, (s, e) ∈ found → e = sol s ∧ e.isSolved = true) :
    (substituteIn found e).resolve sol = e.resolve sol := by
  induction found generalizing e with
  | nil => rfl
  | cons x found ih =>
    obtain ⟨o, f⟩ := x
    obtain ⟨rfl, hsolved⟩ := h o f List.mem_cons_self
    rw [substituteIn, List.foldl_cons]
    exact (ih fun s e he => h s e (List.mem_cons_of_mem _ he)).trans (resolve_substitute hsolved)

lemma lookup_start (hs : s < n) (hne : s ≠ initial) :
    (start n initial edges grouped).unsolved.lookup s = some (equation grouped edges s) :=
  List.lookup_graph _ (mem_candidates.mpr ⟨hs, hne⟩)

lemma reference_start_iff : (start n initial edges grouped).Reference sol ↔
    sol initial = .epsilon ∧
      ∀ s, s < n → s ≠ initial → sol s = ((equation grouped edges s).resolve sol).normalize := by
  constructor
  · rintro ⟨hinitial, hequation⟩
    refine ⟨hinitial, fun s hs hne => ?_⟩
    obtain ⟨e, he, hsol⟩ := hequation s hs hne
    rw [lookup_start hs hne] at he
    cases he
    exact hsol
  · rintro ⟨hinitial, hequation⟩
    exact ⟨hinitial, fun s hs hne => ⟨_, lookup_start hs hne, hequation s hs hne⟩⟩

lemma Accepted.exists_reference (h : Accepted n initial edges) (grouped : Bool) :
    ∃ sol, (start n initial edges grouped).Reference sol := by
  classical
  let step (s : Nat) (solved : ∀ o, Precedes edges o s → Expr) : Expr :=
    if s = initial then .epsilon
    else ((equation grouped edges s).resolve fun o => if ho : Precedes edges o s then solved o ho else .epsilon).normalize
  refine ⟨h.acyclic.fix step, reference_start_iff.mpr ⟨?_, fun s _ hne => ?_⟩⟩
  · rw [h.acyclic.fix_eq]
    exact if_pos rfl
  · rw [h.acyclic.fix_eq]
    refine (if_neg hne).trans (congrArg normalize (resolve_congr fun o ho => ?_))
    exact dif_pos (mem_origins_equation.mp ho)

lemma Accepted.reference_unique (h : Accepted n initial edges) (hsol : (start n initial edges grouped).Reference sol)
    (hsol' : (start n initial edges grouped).Reference sol') (hs : s < n) : sol s = sol' s := by
  obtain ⟨hinitial, hequation⟩ := reference_start_iff.mp hsol
  obtain ⟨hinitial', hequation'⟩ := reference_start_iff.mp hsol'
  induction s using h.acyclic.induction with
  | _ s ih =>
    by_cases hne : s = initial
    · rw [hne, hinitial, hinitial']
    · rw [hequation s hs hne, hequation' s hs hne]
      refine congrArg normalize (resolve_congr fun o ho => ?_)
      obtain ⟨f, hf, rfl, hft⟩ := mem_origins_equation.mp ho
      exact ih _ ⟨f, hf, rfl, hft⟩ (h.ends f hf).1

structure Agrees (sol : Nat → Expr) (q : Equations) : Prop where
  solved : ∀ s e, (s, e) ∈ q.solved → e = sol s
  unsolved : ∀ s e, (s, e) ∈ q.unsolved → (e.resolve sol).normalize = sol s

lemma Accepted.agrees (h : Accepted n initial edges) (hsol : (start n initial edges grouped).Reference sol) :
    Agrees sol (start n initial edges grouped) := by
  obtain ⟨hinitial, hequation⟩ := reference_start_iff.mp hsol
  constructor
  · intro s e he
    obtain ⟨rfl, rfl⟩ := Prod.mk.inj (List.mem_singleton.mp he)
    exact hinitial.symm
  · intro s e he
    obtain ⟨s, hs, heq⟩ := List.mem_map.mp he
    obtain ⟨hlt, hne⟩ := mem_candidates.mp hs
    cases heq
    exact (hequation s hlt hne).symm

lemma Agrees.round (h : Agrees sol q) (hinv : Invariant n initial edges q found) :
    Agrees sol (q.round found).1 := by
  have hresolve : ∀ e, (substituteIn found e).resolve sol = e.resolve sol := fun e =>
    resolve_substituteIn fun s e he => ⟨h.solved s e (hinv.found_sub _ he), (hinv.found_sound s e he).1⟩
  rw [round_eq]
  constructor
  · intro s e he
    rcases List.mem_append.mp he with he | he
    · exact h.solved s e he
    · obtain ⟨f, hf, hsolved, rfl⟩ := mem_solutions.mp he
      rw [← h.unsolved s f hf, ← hresolve f, resolve_of_isSolved hsolved]
  · intro s e he
    obtain ⟨f, hf, -, rfl⟩ := mem_remaining.mp he
    rw [hresolve, h.unsolved s f hf]

lemma Invariant.perm {unsolved solved found' : List (Nat × Expr)} (h : Invariant n initial edges q found)
    (hunsolved : q.unsolved.Perm unsolved) (hsolved : q.solved.Perm solved) (hfound : found.Perm found') :
    Invariant n initial edges { q with unsolved, solved } found' := by
  constructor
  case stateCount_eq => exact h.stateCount_eq
  case keys_perm => exact ((hsolved.map Prod.fst).symm.append (hunsolved.map Prod.fst).symm).trans h.keys_perm
  case solved_sound => exact fun s e he => h.solved_sound s e (hsolved.mem_iff.mpr he)
  case found_sub => exact fun x hx => hsolved.mem_iff.mp (h.found_sub x (hfound.mem_iff.mpr hx))
  case found_ne =>
    intro hne hnil
    subst hnil
    apply h.found_ne _ hfound.eq_nil
    rintro hnil
    rw [hnil] at hunsolved
    exact hne hunsolved.symm.eq_nil
  case equation_sound => exact fun s e he => h.equation_sound s e (hunsolved.mem_iff.mpr he)
  case awaits =>
    intro s e he o ho
    obtain ⟨hprec, hawaits⟩ := h.awaits s e (hunsolved.mem_iff.mpr he) o ho
    refine ⟨hprec, fun hmem => ?_⟩
    exact (hfound.map Prod.fst).mem_iff.mp (hawaits ((hsolved.map Prod.fst).mem_iff.mpr hmem))

lemma Agrees.perm {unsolved solved : List (Nat × Expr)} (h : Agrees sol q) (hunsolved : q.unsolved.Perm unsolved)
    (hsolved : q.solved.Perm solved) : Agrees sol { q with unsolved, solved } :=
  ⟨fun s e he => h.solved s e (hsolved.mem_iff.mpr he), fun s e he => h.unsolved s e (hunsolved.mem_iff.mpr he)⟩

lemma Eliminates.invariant (h : Eliminates (start n initial edges grouped) q found) (ha : Accepted n initial edges) :
    Invariant n initial edges q found := by
  induction h with
  | init => exact ha.invariant
  | round _ ih => exact (ih.round ha).1
  | reorder _ hunsolved hsolved hfound ih => exact ih.perm hunsolved hsolved hfound

lemma Eliminates.agrees (h : Eliminates (start n initial edges grouped) q found) (ha : Accepted n initial edges)
    (hsol : (start n initial edges grouped).Reference sol) : Agrees sol q := by
  induction h with
  | init => exact ha.agrees hsol
  | round hq ih => exact ih.round (hq.invariant ha)
  | reorder _ hunsolved hsolved _ ih => exact ih.perm hunsolved hsolved

lemma Agrees.solution?_eq (h : Agrees sol q) (hinv : Invariant n initial edges q found) (hnil : q.unsolved = []) :
    ∀ s, q.solution? s = if s < n then some (sol s) else none := by
  have hkeys := hinv.keys_perm
  rw [hnil, keys, keys, List.map_nil, List.append_nil] at hkeys
  intro s
  split_ifs with hs
  · obtain ⟨e, he, hmem⟩ := exists_lookup (hkeys.mem_iff.mpr (List.mem_range.mpr hs))
    rw [solution?, he, h.solved s e hmem]
  · rw [solution?, List.lookup_eq_none_iff]
    rintro ⟨t, e⟩ hmem
    have hlt : t < n := List.mem_range.mp (hkeys.mem_iff.mp (List.mem_map.mpr ⟨_, hmem, rfl⟩))
    exact bne_iff_ne.mpr (by omega)

lemma solve_eliminates {q' : Equations} (hdone : q.solve cancelled = .done q') :
    ∃ found, Eliminates q q' found ∧ q'.stateCount ≤ q'.solved.length :=
  solve_of_round (fun _ _ => .round) .init hdone

lemma Accepted.solution?_eq {q' : Equations} (h : Accepted n initial edges)
    (hsol : (start n initial edges grouped).Reference sol) (hdone : (start n initial edges grouped).solve cancelled = .done q') :
    ∀ s, q'.solution? s = if s < n then some (sol s) else none := by
  obtain ⟨found, helim, hlen⟩ := solve_eliminates hdone
  have hinv := helim.invariant h
  apply (helim.agrees h hsol).solution?_eq hinv
  have hcount := hinv.length_eq
  rw [hinv.stateCount_eq] at hlen
  exact List.length_eq_zero_iff.mp (by omega)

theorem solutions_eq_reference (h : create n initial edges grouped = .ok q) :
    ∃ sol, q.Reference sol ∧ (∀ sol', q.Reference sol' → ∀ s < n, sol' s = sol s) ∧
      (∃ q', q.solve false = .done q') ∧
      (∀ cancelled q', q.solve cancelled = .done q' →
        ∀ s, q'.solution? s = if s < n then some (sol s) else none) ∧
      ∀ q' found, Eliminates q q' found →
        (∀ s e, (s, e) ∈ q'.solved → e = sol s) ∧
        (q'.unsolved ≠ [] → (q'.round found).1.unsolved.length < q'.unsolved.length) ∧
        (q'.unsolved = [] → ∀ s, q'.solution? s = if s < n then some (sol s) else none) := by
  obtain ⟨ha, rfl⟩ := create_eq_ok_iff.mp h
  obtain ⟨sol, hsol⟩ := ha.exists_reference grouped
  obtain ⟨q₁, hq₁, -⟩ := ha.solve_spec grouped
  refine ⟨sol, hsol, fun sol' hsol' s hs => ha.reference_unique hsol' hsol hs, ⟨q₁, hq₁⟩,
    fun cancelled q' hq' => ha.solution?_eq hsol hq', fun q' found helim => ?_⟩
  have hinv := helim.invariant ha
  have hagrees := helim.agrees ha hsol
  exact ⟨hagrees.solved, (hinv.round ha).2, hagrees.solution?_eq hinv⟩

theorem solutions_eq_reference_diamond :
    ∃ q sol, create 3 0 [⟨0, 'b', 1⟩, ⟨0, 'a', 1⟩, ⟨0, 'c', 2⟩, ⟨1, 'a', 2⟩] true = .ok q ∧
      q.Reference sol ∧ (∀ sol', q.Reference sol' → ∀ s < 3, sol' s = sol s) ∧
      sol 1 = .seq (.lit []) (.alt [.lit ['a'], .lit ['b']]) ∧
      (∃ q', q.solve false = .done q') ∧
      (∀ cancelled q', q.solve cancelled = .done q' →
        ∀ s, q'.solution? s = if s < 3 then some (sol s) else none) ∧
      ∀ q' found, Eliminates q q' found →
        (∀ s e, (s, e) ∈ q'.solved → e = sol s) ∧
        (q'.unsolved ≠ [] → (q'.round found).1.unsolved.length < q'.unsolved.length) ∧
        (q'.unsolved = [] → ∀ s, q'.solution? s = if s < 3 then some (sol s) else none) := by
  have hcreate : create 3 0 [⟨0, 'b', 1⟩, ⟨0, 'a', 1⟩, ⟨0, 'c', 2⟩, ⟨1, 'a', 2⟩] true =
      .ok (start 3 0 [⟨0, 'b', 1⟩, ⟨0, 'a', 1⟩, ⟨0, 'c', 2⟩, ⟨1, 'a', 2⟩] true) := by rfl
  obtain ⟨sol, hsol, hunique, hdone, htable, helim⟩ := solutions_eq_reference hcreate
  have hround : ((start 3 0 [⟨0, 'b', 1⟩, ⟨0, 'a', 1⟩, ⟨0, 'c', 2⟩, ⟨1, 'a', 2⟩] true).round [(0, .epsilon)]).1.solved =
      [(0, .lit []), (1, .seq (.lit []) (.alt [.lit ['a'], .lit ['b']]))] := by cbv
  have hone : .seq (.lit []) (.alt [.lit ['a'], .lit ['b']]) = sol 1 :=
    (helim _ _ (.round .init)).1 1 _ (by
      rw [show (start _ _ _ _).initial = 0 from rfl, hround]
      simp)
  exact ⟨_, sol, hcreate, hsol, hunique, hone.symm, hdone, htable, helim⟩

end PatternInference.Equations
