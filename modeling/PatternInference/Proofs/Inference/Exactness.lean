import Mathlib.Algebra.Order.BigOperators.Group.List
import Mathlib.Algebra.Order.Group.Nat
import PatternInference.Proofs.Equations.Forked
import PatternInference.Proofs.Equations.Unambiguous
import PatternInference.Proofs.Factoring.Compact
import PatternInference.Proofs.Inference.Samples
import PatternInference.Proofs.Pattern.Printing

/-! The pattern of some samples matches them, and without interior factoring it matches nothing else. -/

namespace PatternInference.Inference

open PatternInference.Expr Pattern Equations

variable {i : Inference} {word : Nat → List Char} {batches : List (List (List Char))} {w : List Char}

structure Describes (exact : Prop) (words : List (List Char)) (e : Expr) : Prop where
  solved : e.isSolved = true
  forked : e.Forked
  complete : ∀ w ∈ words, w ∈ e.language
  sound : exact → ∀ w ∈ e.language, w ∈ words
  unambiguous : exact → e.expansions.Nodup

lemma Describes.rewrites {e f : Expr} {words : List (List Char)} {interior : Bool} (h : Describes True words e)
    (hrewrites : Factoring.Rewrites interior [e] [f]) : Describes (interior = false) words f := by
  obtain ⟨_, hforked⟩ := hrewrites.forked (by simp) (by simpa using h.forked)
  refine ⟨hrewrites.solved f (by simp), hforked f (by simp), fun w hw => ?_, fun hinterior w hw => ?_, fun hinterior => ?_⟩
  · exact hrewrites.mem_language (h.complete w hw)
  · rw [hrewrites.language_eq hinterior] at hw
    exact h.sound trivial w hw
  · exact hrewrites.nodup_expansions hinterior (h.unambiguous trivial)

lemma solution_spec (h : i.samples.Spelled word) (hne : i.samples.accepted ≠ []) :
    ∃ e, Describes True (i.samples.spellings word) e ∧
      i.expression false = if i.options.simplify then Factoring.factor i.options.interior false e else .ok e := by
  obtain ⟨m, d, hautomaton, hd, hminimal, hlanguage⟩ := automaton_spec h hne
  have hbound : ∀ w ∈ residual d.transitions d.accepting d.initial,
      w.length ≤ ((i.samples.spellings word).map List.length).sum := by
    intro w hw
    exact List.le_sum_of_mem (List.mem_map_of_mem ((hlanguage w).mp hw))
  have hacceptedges : Accepted d.stateCount d.initial d.transitions :=
    accepted_of_useful hminimal.initial_lt hminimal.ends_lt hminimal.useful hbound
  have hnonempty : d.accepting ≠ [] := by
    obtain ⟨_, _, s, hs, _⟩ := hminimal.useful d.initial hminimal.initial_lt
    exact List.ne_nil_of_mem hs
  obtain ⟨solved, hsolve, hsolved⟩ := hacceptedges.solve_spec i.options.grouped
  obtain ⟨solution, hsolution, hunion, hunionsolved, hwords⟩ := hsolved.unionOf_spec hnonempty hminimal.accepting_lt
  have hexpr : ∀ w, w ∈ (joined ((ascending d.accepting).map solution)).language ↔ w ∈ i.samples.spellings word := by
    intro w
    rw [hwords, ← hlanguage]
    rfl
  refine ⟨_, ⟨hunionsolved, ?_, fun w hw => (hexpr w).mpr hw, fun _ w hw => (hexpr w).mp hw, fun _ => ?_⟩, ?_⟩
  · apply joined_forked
    · obtain ⟨s, hs⟩ := List.exists_mem_of_ne_nil _ hnonempty
      exact List.ne_nil_of_mem (List.mem_map_of_mem (mem_ascending.mpr hs))
    · intro e he
      obtain ⟨s, hs, rfl⟩ := List.mem_map.mp he
      exact hacceptedges.solution_forked hsolve (hsolution s (mem_ascending.mp hs))
  · exact hacceptedges.nodup_expansions_accepting hminimal.deterministic hsolve hsolved hminimal.accepting_nodup
      hminimal.accepting_lt hsolution
  · have hsystem : Equations.create d.stateCount d.initial d.transitions i.options.grouped =
        .ok (start d.stateCount d.initial d.transitions i.options.grouped) := create_eq_ok_iff.mpr ⟨hacceptedges, rfl⟩
    have htoExcept := Outcome.toExcept_eq_ok_iff.mpr hsolve
    simp only [expression, bind, Except.bind, hautomaton, hd, hsystem, htoExcept, hunion]
    rfl

lemma expression_spec (h : i.samples.Spelled word) (hne : i.samples.accepted ≠ []) :
    ∃ e, i.expression false = .ok e ∧
      Describes (i.options.simplify = false ∨ i.options.interior = false) (i.samples.spellings word) e := by
  obtain ⟨e, he, hexpression⟩ := solution_spec h hne
  rw [hexpression]
  cases i.options.simplify with
  | false => exact ⟨e, rfl, he.solved, he.forked, he.complete, fun _ => he.sound trivial, fun _ => he.unambiguous trivial⟩
  | true =>
    obtain ⟨f, hfactor, hrewrites⟩ := Factoring.factor_spec i.options.interior he.solved
    refine ⟨f, hfactor, ?_⟩
    simpa using he.rewrites hrewrites

lemma parse?_anchor {e : Expr} (he : e.Delimited) (hsolved : e.isSolved = true) :
    ∃ r, parse? (anchor e.print) = some r ∧ r.matches' = e.language := by
  obtain ⟨g, hwhole, hread⟩ := (he.reads hsolved).2 .opened rfl
  refine ⟨(Scope.opened.push g.whole).whole, ?_, ?_⟩
  · have htext : anchor e.print = '^' :: '(' :: '?' :: ':' :: (e.print ++ [')', '$']) := by
      simp [anchor]
    rw [htext, parse?, read?_group, hread, read?_close, read?_stop]
  · rw [Scope.push, Scope.whole, RegularExpression.matches'_add, RegularExpression.matches'_mul, hwhole]
    simp [Scope.opened]

lemma pattern_spec (h : i.samples.Spelled word) (hne : i.samples.accepted ≠ []) :
    ∃ text r, i.pattern false = .ok text ∧ parse? text = some r ∧
      (∀ w ∈ i.samples.spellings word, w ∈ r.matches') ∧
      (i.options.simplify = false ∨ i.options.interior = false →
        ∀ w ∈ r.matches', w ∈ i.samples.spellings word) := by
  obtain ⟨e, he, hdescribes⟩ := expression_spec h hne
  have hpattern : i.pattern false = .ok (if i.options.anchored then anchor e.print else e.print) := by
    rw [pattern, he]
    rfl
  have hread : ∃ r, parse? (if i.options.anchored then anchor e.print else e.print) = some r ∧
      r.matches' = e.language := by
    cases i.options.anchored with
    | true => exact parse?_anchor hdescribes.forked.delimited hdescribes.solved
    | false => exact hdescribes.forked.delimited.parse?_print hdescribes.solved
  obtain ⟨r, hr, hlanguage⟩ := hread
  refine ⟨_, r, hpattern, hr, ?_, ?_⟩
  · rw [hlanguage]
    exact hdescribes.complete
  · rw [hlanguage]
    exact hdescribes.sound

theorem pattern_matches_samples (o : Options) (hexact : o.simplify = false ∨ o.interior = false)
    (hne : batches.flatten ≠ []) : ∃ text r, (batches.foldl load (create o)).pattern false = .ok text ∧
      parse? text = some r ∧ ∀ w, w ∈ r.matches' ↔ w ∈ batches.flatten := by
  obtain ⟨word, h, hwords⟩ := spelled_load o batches
  obtain ⟨text, r, htext, hr, hcomplete, hsound⟩ := pattern_spec h (accepted_ne hwords hne)
  refine ⟨text, r, htext, hr, fun w => ?_⟩
  rw [← hwords]
  refine ⟨hsound ?_ w, hcomplete w⟩
  rw [foldl_load]
  exact hexact

theorem pattern_matches_samples_anchored :
    ∃ text r, ([["a?b".toList, []], ["c".toList, "a?b".toList]].foldl load
        (create { interior := false, anchored := true })).pattern false = .ok text ∧
      parse? text = some r ∧ ∀ w, w ∈ r.matches' ↔ w ∈ [["a?b".toList, []], ["c".toList, "a?b".toList]].flatten :=
  pattern_matches_samples { interior := false, anchored := true } (.inr rfl) (by simp)

theorem pattern_matches_each_sample (o : Options) (hne : batches.flatten ≠ []) :
    ∃ text r, (batches.foldl load (create o)).pattern false = .ok text ∧ parse? text = some r ∧
      ∀ w ∈ batches.flatten, w ∈ r.matches' := by
  obtain ⟨word, h, hwords⟩ := spelled_load o batches
  obtain ⟨text, r, htext, hr, hcomplete, _⟩ := pattern_spec h (accepted_ne hwords hne)
  exact ⟨text, r, htext, hr, fun w hw => hcomplete w ((hwords w).mpr hw)⟩

theorem pattern_matches_each_sample_grouped :
    ∃ text r, ([["1a5".toList, []], ["2a6".toList]].foldl load (create { grouped := true })).pattern false = .ok text ∧
      parse? text = some r ∧ ∀ w ∈ [["1a5".toList, []], ["2a6".toList]].flatten, w ∈ r.matches' :=
  pattern_matches_each_sample { grouped := true } (by simp)

theorem expression_expands_to_samples (o : Options) (hexact : o.simplify = false ∨ o.interior = false)
    (hne : batches.flatten ≠ []) : ∃ e, (batches.foldl load (create o)).expression false = .ok e ∧
      e.isSolved = true ∧ e.expansions.Perm batches.flatten.eraseDups := by
  obtain ⟨word, h, hwords⟩ := spelled_load o batches
  obtain ⟨e, he, hdescribes⟩ := expression_spec h (accepted_ne hwords hne)
  have hexact' : (batches.foldl load (create o)).options.simplify = false ∨
      (batches.foldl load (create o)).options.interior = false := by
    rw [foldl_load]
    exact hexact
  have hnodup := hdescribes.unambiguous hexact'
  refine ⟨e, he, hdescribes.solved, (List.perm_ext_iff_of_nodup hnodup nodup_eraseDups).mpr fun w => ?_⟩
  rw [mem_expansions, List.mem_eraseDups, ← hwords]
  exact ⟨hdescribes.sound hexact' w, hdescribes.complete w⟩

theorem expression_expands_to_samples_grouped :
    ∃ e, ([["ab".toList, "cb".toList], [[], "ab".toList, "cd".toList]].foldl load
        (create { interior := false, grouped := true })).expression false = .ok e ∧
      e.isSolved = true ∧ e.expansions.Perm ["ab".toList, "cb".toList, [], "cd".toList] :=
  expression_expands_to_samples { interior := false, grouped := true } (.inr rfl) (by simp)

end PatternInference.Inference
