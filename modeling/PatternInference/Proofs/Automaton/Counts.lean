import Mathlib.Data.Finset.Card
import Mathlib.Data.Finset.Range
import PatternInference.Proofs.Automaton.Isomorphism
import PatternInference.Proofs.Trie.Words

namespace PatternInference

variable {α : Type} {d : Dump α} {e : Transition α}

namespace Dump.Minimal

lemma exists_word (h : d.Minimal) (he : e ∈ d.transitions) :
    ∃ u v, Reads d.transitions d.initial u e.source ∧ u ++ e.symbol :: v ∈ d.language := by
  obtain ⟨hsource, htarget⟩ := h.ends_lt e he
  obtain ⟨⟨u, hu⟩, _⟩ := h.useful e.source hsource
  obtain ⟨_, v, s, hs, hv⟩ := h.useful e.target htarget
  exact ⟨u, v, hu, s, hs, hu.append (.cons he hv)⟩

lemma stateCount_le (h : d.Minimal) : d.stateCount ≤ d.transitions.length + 1 := by
  classical
  have hsub : Finset.range d.stateCount ⊆ (d.initial :: d.transitions.map Transition.target).toFinset := by
    intro s hs
    obtain ⟨⟨w, hw⟩, _⟩ := h.useful s (Finset.mem_range.mp hs)
    rw [List.mem_toFinset, List.mem_cons, List.mem_map]
    rcases List.eq_nil_or_concat w with rfl | ⟨v, a, rfl⟩
    · exact .inl (reads_nil_iff.mp hw).symm
    · rw [List.concat_eq_append] at hw
      obtain ⟨e, he, ht, _⟩ := reads_concat_iff.mp hw
      exact .inr ⟨e, he, ht⟩
  have hcard := (Finset.card_le_card hsub).trans (List.toFinset_card_le _)
  simpa using hcard

lemma accepting_length_le (h : d.Minimal) : d.accepting.length ≤ d.stateCount := by
  rw [← List.length_range (n := d.stateCount)]
  apply List.Subperm.length_le
  exact List.subperm_of_subset h.accepting_nodup fun s hs => List.mem_range.mpr (h.accepting_lt s hs)

lemma transitions_length_le (h : d.Minimal) {P : Finset (List α)}
    (hP : ∀ u a v, u ++ a :: v ∈ d.language → u ++ [a] ∈ P) : d.transitions.length ≤ P.card := by
  classical
  choose! way rest hway hword using fun e he => h.exists_word (e := e) he
  have hsub : ∀ e ∈ d.transitions.toFinset, way e ++ [e.symbol] ∈ P := fun e he =>
    hP _ _ _ (hword e (List.mem_toFinset.mp he))
  have hinj : Set.InjOn (fun e => way e ++ [e.symbol]) (d.transitions.toFinset : Set (Transition α)) := by
    intro e he f hf hef
    rw [Finset.mem_coe, List.mem_toFinset] at he hf
    obtain ⟨hways, hsymbols⟩ := List.append_inj' hef rfl
    refine h.deterministic.eq he hf ?_ (List.cons.inj hsymbols).1
    exact h.deterministic.reads_unique (hway e he) (hways ▸ hway f hf)
  have hcard := Finset.card_le_card_of_injOn _ hsub hinj
  rwa [List.toFinset_card_of_nodup h.deterministic.nodup] at hcard

lemma transitions_length_lt [DecidableEq α] (h : d.Minimal) {t : Trie α} {word : Nat → List α} (ht : t.Spelled word)
    (hlanguage : ∀ w ∈ d.language, w ∈ t.spellings word) : d.transitions.length < t.stateCount := by
  have hP : ∀ u a v, u ++ a :: v ∈ d.language → u ++ [a] ∈ ((Finset.range t.stateCount).erase 0).image word := by
    intro u a v hw
    obtain ⟨c, hc, hword⟩ := List.mem_map.mp (hlanguage _ hw)
    obtain ⟨s, hs, hprefix⟩ := ht.exists_of_prefix (w := u ++ [a]) (ht.lt_of_mem_accepted hc) ⟨v, by simp [hword]⟩
    refine Finset.mem_image.mpr ⟨s, Finset.mem_erase.mpr ⟨?_, Finset.mem_range.mpr hs⟩, hprefix⟩
    rintro rfl
    rw [ht.root] at hprefix
    exact absurd hprefix.symm (List.append_ne_nil_of_right_ne_nil u (List.cons_ne_nil a []))
  have hcard := (h.transitions_length_le hP).trans Finset.card_image_le
  rw [Finset.card_erase_of_mem (Finset.mem_range.mpr ht.pos), Finset.card_range] at hcard
  have := ht.pos
  omega

end Dump.Minimal

end PatternInference
