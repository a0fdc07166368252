import PatternInference.Proofs.Equations.Reference
import PatternInference.Proofs.Expr.Expansions

namespace PatternInference.Equations

open PatternInference.Expr

variable {n initial s : Nat} {edges incoming : List (Transition Char)} {grouped : Bool} {sol : Nat → Expr}
  {x : Nat × List Char} {cs w : List Char} {q : Equations}

lemma mem_expansions_letters : w ∈ (Expr.union (cs.map fun c => .lit [c])).expansions ↔ ∃ c ∈ cs, [c] = w := by
  rw [mem_expansions, language, mem_meaning_union]
  simp [mem_singleton, eq_comm]

lemma nodup_expansions_letters (h : cs.Nodup) : (Expr.union (cs.map fun c => .lit [c])).expansions.Nodup := by
  apply nodup_expansions_union
  rw [expansionsOf_eq_flatMap, List.flatMap_map]
  change (cs.flatMap fun c => [[c]]).Nodup
  rw [← List.map_eq_flatMap]
  exact h.map List.singleton_injective

lemma isSolved_letters : (Expr.union (cs.map fun c => .lit [c])).isSolved = true := by
  rw [isSolved_union, List.forall_mem_map]
  exact fun _ _ => rfl

lemma mem_expansions_term (hsolved : (sol x.1).isSolved = true) :
    w ∈ ((term x).resolve sol).expansions ↔ ∃ u ∈ (sol x.1).expansions, ∃ c ∈ x.2, u ++ [c] = w := by
  fun_cases term x with
  | case1 p c => simp [resolve, expansions_followedBy hsolved]
  | case2 p cs =>
    rw [resolve, resolve, resolve_of_isSolved isSolved_letters, expansions, expansions_followedBy hsolved]
    simp [mem_pairings, mem_expansions_letters]

lemma nodup_expansions_term (hsolved : (sol x.1).isSolved = true) (hnodup : (sol x.1).expansions.Nodup)
    (hsymbols : x.2.Nodup) : ((term x).resolve sol).expansions.Nodup := by
  fun_cases term x with
  | case1 p c =>
    rw [resolve, expansions_followedBy hsolved]
    exact hnodup.map (List.append_left_injective [c])
  | case2 p cs =>
    rw [resolve, resolve, resolve_of_isSolved isSolved_letters, expansions, expansions_followedBy hsolved]
    apply nodup_pairings (hnodup.map (List.append_left_injective [])) (nodup_expansions_letters hsymbols)
    intro v hv
    obtain ⟨c, _, rfl⟩ := mem_expansions_letters.mp hv
    rfl

lemma nodup_symbols (h : Deterministic incoming) (hx : x ∈ predecessors grouped incoming) : x.2.Nodup := by
  rw [predecessors] at hx
  split at hx
  · obtain ⟨p, _, rfl⟩ := List.mem_map.mp hx
    refine List.Nodup.map_on (fun e he f hf hsymbol => ?_) (h.nodup.filter _)
    obtain ⟨he, hep⟩ := List.mem_filter.mp he
    obtain ⟨hf, hfp⟩ := List.mem_filter.mp hf
    exact h.eq he hf ((beq_iff_eq.mp hep).trans (beq_iff_eq.mp hfp).symm) hsymbol
  · obtain ⟨e, _, rfl⟩ := List.mem_map.mp hx
    exact List.nodup_singleton _

lemma pairwise_predecessors (h : Deterministic incoming) :
    (predecessors grouped incoming).Pairwise fun x y => x.1 = y.1 → x.2.Disjoint y.2 := by
  rw [predecessors]
  split
  · rw [List.pairwise_map]
    exact nodup_eraseDups.imp fun hne heq => absurd heq hne
  · rw [List.pairwise_map]
    refine h.imp fun {e f} hne heq => ?_
    rw [List.singleton_disjoint, List.mem_singleton]
    exact fun hsymbol => hne ⟨heq, hsymbol⟩

lemma nodup_expansions_equation (hdet : Deterministic edges) (hsolved : ∀ o, Precedes edges o s →
      (sol o).isSolved = true ∧ (sol o).language = paths edges initial o ∧ (sol o).expansions.Nodup) :
    ((equation grouped edges s).resolve sol).expansions.Nodup := by
  have hin : Deterministic (edges.filter fun t => t.target == s) := hdet.filter _
  have hprec : ∀ x ∈ predecessors grouped (edges.filter fun t => t.target == s), Precedes edges x.1 s := by
    intro x hx
    obtain ⟨f, hf, hsource⟩ := exists_source_iff.mp ⟨x, hx, rfl⟩
    obtain ⟨hf, ht⟩ := List.mem_filter.mp hf
    exact ⟨f, hf, hsource, beq_iff_eq.mp ht⟩
  rw [equation, resolve_alt, expansions_alt, List.map_map, List.flatMap_map, List.nodup_flatMap]
  refine ⟨fun x hx => ?_, (pairwise_predecessors hin).imp_of_mem fun {x y} hx hy hxy w hw hw' => ?_⟩
  · obtain ⟨hx', -, hnodup⟩ := hsolved x.1 (hprec x hx)
    exact nodup_expansions_term hx' hnodup (nodup_symbols hin hx)
  · obtain ⟨hx', hxpaths, -⟩ := hsolved x.1 (hprec x hx)
    obtain ⟨hy', hypaths, -⟩ := hsolved y.1 (hprec y hy)
    -- a word that comes by way of both predecessors leads to both of them but for its last symbol
    obtain ⟨u, hu, c, hc, rfl⟩ := (mem_expansions_term hx').mp hw
    obtain ⟨v, hv, d, hd, heq⟩ := (mem_expansions_term hy').mp hw'
    obtain ⟨rfl, hdc⟩ := List.append_inj' heq rfl
    obtain rfl := List.singleton_inj.mp hdc
    rw [mem_expansions, hxpaths] at hu
    rw [mem_expansions, hypaths] at hv
    exact hxy (hdet.reads_unique hu hv) hc hd

lemma Reference.nodup_expansions (hsol : (start n initial edges grouped).Reference sol) (h : Accepted n initial edges)
    (hdet : Deterministic edges)
    (hpaths : ∀ s, s < n → (sol s).isSolved = true ∧ (sol s).language = paths edges initial s) (hs : s < n) :
    (sol s).expansions.Nodup := by
  obtain ⟨hinitial, hequation⟩ := reference_start_iff.mp hsol
  -- along the edges, from the initial state on
  induction s using h.acyclic.induction with
  | _ s ih =>
    by_cases hne : s = initial
    · rw [hne, hinitial]
      exact List.nodup_singleton _
    · rw [hequation s hs hne]
      apply nodup_expansions_normalize
      apply nodup_expansions_equation hdet
      rintro o ⟨f, hf, rfl, ht⟩
      have hlt := (h.ends f hf).1
      exact ⟨(hpaths _ hlt).1, (hpaths _ hlt).2, ih _ ⟨f, hf, rfl, ht⟩ hlt⟩

lemma nodup_expansions_joined {es : List Expr} (h : (expansionsOf es).Nodup) : (joined es).expansions.Nodup := by
  fun_cases joined es with
  | case1 e => rwa [expansionsOf_singleton] at h
  | case2 => exact nodup_expansions_union h

lemma Accepted.nodup_expansions_accepting (h : Accepted n initial edges) (hdet : Deterministic edges)
    (hsolve : (start n initial edges grouped).solve false = .done q) (hsolved : Solved n initial edges q)
    {accepting : List Nat} {solution : Nat → Expr} (hnodup : accepting.Nodup) (hlt : ∀ s ∈ accepting, s < n)
    (hsolution : ∀ s ∈ accepting, q.solution? s = some (solution s)) :
    (joined ((ascending accepting).map solution)).expansions.Nodup := by
  obtain ⟨sol, hsol⟩ := h.exists_reference grouped
  have htable : ∀ s, s < n → q.solution? s = some (sol s) := by
    intro s hs
    rw [h.solution?_eq hsol hsolve, if_pos hs]
  have hpaths : ∀ s, s < n → (sol s).isSolved = true ∧ (sol s).language = paths edges initial s := by
    intro s hs
    obtain ⟨e, he, hpaths⟩ := hsolved.solution s hs
    rw [htable s hs] at he
    cases he
    exact hpaths
  have heq : ∀ s ∈ ascending accepting, solution s = sol s := by
    intro s hs
    have hs := mem_ascending.mp hs
    exact Option.some.inj ((hsolution s hs).symm.trans (htable s (hlt s hs)))
  have hascending : (ascending accepting).Nodup := ((List.mergeSort_perm _ _).nodup_iff.mpr hnodup).sublist eraseReps_sublist
  rw [List.map_congr_left heq]
  apply nodup_expansions_joined
  rw [expansionsOf_eq_flatMap, List.flatMap_map, List.nodup_flatMap]
  refine ⟨fun s hs => ?_, hascending.imp_of_mem fun {s t} hs ht hne w hw hw' => ?_⟩
  · exact hsol.nodup_expansions h hdet hpaths (hlt s (mem_ascending.mp hs))
  · rw [mem_expansions, (hpaths s (hlt s (mem_ascending.mp hs))).2] at hw
    rw [mem_expansions, (hpaths t (hlt t (mem_ascending.mp ht))).2] at hw'
    exact hne (hdet.reads_unique hw hw')

end PatternInference.Equations
