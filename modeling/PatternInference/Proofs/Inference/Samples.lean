import PatternInference.Inference
import PatternInference.Proofs.Equations.Basic
import PatternInference.Proofs.Minimization.Canonical
import PatternInference.Proofs.Trie.Walk

namespace PatternInference

variable {α : Type} {n i s k : Nat} {E : List (Transition α)} {F : List Nat} {U : Nat → Prop}

namespace Equations

lemma Closed.exists_reads (hU : Closed E U) (hs : U s) (k : Nat) : ∃ u w, U u ∧ Reads E u w s ∧ w.length = k := by
  induction k with
  | zero => exact ⟨s, [], hs, .nil s, rfl⟩
  | succ k ih =>
    obtain ⟨u, w, hu, hw, hlen⟩ := ih
    obtain ⟨e, he, rfl, hsource⟩ := hU u hu
    exact ⟨e.source, e.symbol :: w, hsource, .cons he hw, by rw [List.length_cons, hlen]⟩

lemma wellFounded_precedes (hE : ∀ e ∈ E, e.source < n ∧ e.target < n)
    (huseful : ∀ s, s < n → Reachable E i s ∧ Productive E F s) (hbound : ∀ w ∈ residual E F i, w.length ≤ k) :
    WellFounded (Precedes E) := by
  apply WellFounded.intro
  intro s
  by_contra hs
  have hlt : ∀ s, ¬ Acc (Precedes E) s → s < n := by
    intro s hs
    obtain ⟨e, he, rfl, _⟩ := closed_not_acc s hs
    exact (hE e he).2
  obtain ⟨u, v, hu, hv, hlen⟩ := closed_not_acc.exists_reads hs (k + 1)
  obtain ⟨⟨w, hw⟩, _⟩ := huseful u (hlt u hu)
  obtain ⟨_, x, f, hf, hx⟩ := huseful s (hlt s hs)
  -- the path from `u` to `s` is part of an accepted word
  have hle := hbound (w ++ (v ++ x)) ⟨f, hf, hw.append (hv.append hx)⟩
  simp only [List.length_append] at hle
  omega

lemma accepted_of_useful {n i k : Nat} {E : List (Transition Char)} {F : List Nat} (hi : i < n)
    (hE : ∀ e ∈ E, e.source < n ∧ e.target < n) (huseful : ∀ s, s < n → Reachable E i s ∧ Productive E F s)
    (hbound : ∀ w ∈ residual E F i, w.length ≤ k) : Accepted n i E := by
  refine ⟨hi, hE, ?_, wellFounded_precedes hE huseful hbound⟩
  intro s hs hne
  obtain ⟨⟨w, hw⟩, _⟩ := huseful s hs
  rcases List.eq_nil_or_concat w with rfl | ⟨v, a, rfl⟩
  · exact absurd (reads_nil_iff.mp hw).symm hne
  · rw [List.concat_eq_append] at hw
    obtain ⟨e, he, ht, _⟩ := reads_concat_iff.mp hw
    exact ⟨e, he, ht⟩

end Equations

variable [DecidableEq α] [OrderedSymbol α] {t : Trie α} {word : Nat → List α}

lemma Minimization.ofTrie_spec (h : t.Spelled word) (hne : t.accepted ≠ []) :
    ∃ (m : Minimization α) (d : Dump α), ofTrie t false = .ok m ∧ m.dump = .ok d ∧ d.Minimal ∧
      ∀ w, w ∈ d.language ↔ w ∈ t.spellings word := by
  have hE : ∀ e ∈ t.transitions, e.source < t.stateCount ∧ e.target < t.stateCount := by
    intro e he
    obtain ⟨hs, ht, _⟩ := h.mem_transitions_iff.mp he
    exact ⟨hs, ht⟩
  have hF : ∀ s ∈ t.accepted, s < t.stateCount := fun s hs => h.lt_of_mem_accepted hs
  obtain ⟨s, hs⟩ := List.exists_mem_of_ne_nil t.accepted hne
  obtain ⟨m, d, hm, hd, _, hminimal, hlanguage⟩ := ofDump_spec (a := ⟨t.stateCount, 0, t.transitions, t.accepted⟩)
    ⟨h.pos, hE, hF⟩ h.deterministic ⟨word s, h.mem_residual_iff.mpr (List.mem_map_of_mem hs)⟩
  refine ⟨m, d, hm, hd, hminimal, fun w => ?_⟩
  rw [hlanguage]
  exact h.mem_residual_iff

namespace Inference

variable {i : Inference} {word : Nat → List Char} {batches : List (List (List Char))}

lemma foldl_load (i : Inference) (batches : List (List (List Char))) :
    batches.foldl load i = ⟨i.options, i.samples.insertMany batches.flatten⟩ := by
  rw [Trie.insertMany, List.foldl_flatten]
  induction batches generalizing i with
  | nil => rfl
  | cons batch batches ih =>
    rw [List.foldl_cons, ih]
    rfl

lemma spelled_load (o : Options) (batches : List (List (List Char))) :
    ∃ word, (batches.foldl load (create o)).samples.Spelled word ∧
      ∀ w, w ∈ (batches.foldl load (create o)).samples.spellings word ↔ w ∈ batches.flatten := by
  rw [foldl_load]
  obtain ⟨word, hspelled, hwords⟩ := Trie.spelled_empty.insertMany batches.flatten
  refine ⟨word, hspelled, fun w => ?_⟩
  apply (hwords w).trans
  simp [Trie.spellings, Trie.empty]

lemma accepted_ne {t : Trie Char} {words : List (List Char)} (hwords : ∀ w, w ∈ t.spellings word ↔ w ∈ words)
    (hne : words ≠ []) : t.accepted ≠ [] := by
  intro hnil
  obtain ⟨w, hw⟩ := List.exists_mem_of_ne_nil _ hne
  rw [← hwords, Trie.spellings, hnil] at hw
  cases hw

lemma automaton_spec (h : i.samples.Spelled word) (hne : i.samples.accepted ≠ []) :
    ∃ (m : Minimization Char) (d : Dump Char), i.automaton false = .ok m ∧ m.dump = .ok d ∧ d.Minimal ∧
      ∀ w, w ∈ d.language ↔ w ∈ i.samples.spellings word := by
  obtain ⟨m, d, hm, hd, hminimal, hlanguage⟩ := Minimization.ofTrie_spec h hne
  refine ⟨m, d, ?_, hd, hminimal, hlanguage⟩
  rw [automaton, if_neg _, hm]
  rw [sampleCount, Trie.wordCount, List.length_eq_zero_iff]
  exact hne

end Inference

end PatternInference
