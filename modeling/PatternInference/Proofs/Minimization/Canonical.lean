import PatternInference.Proofs.Automaton.Isomorphism
import PatternInference.Proofs.Minimization.Quotient

/-! Minimized automata with the same language are isomorphic. -/

namespace PatternInference.Minimization

variable {α : Type} {m : Minimization α} {n i : Nat} {E : List (Transition α)} {F : List Nat}

lemma Refined.minimal (h : Refined m n i E F) (hstage : m.stage = .refined) (hdet : Deterministic E) :
    Dump.Minimal ⟨m.blocks.setCount, m.blocks.setOf i, m.blockEdges E, m.acceptingOf⟩ := by
  obtain ⟨hinitial, hends, haccepting⟩ := h.block_lt hstage hdet
  refine ⟨⟨hinitial, hends, haccepting⟩, h.blockEdges_deterministic hstage hdet,
    fun b hb => h.block_useful hstage hdet hb, fun b c hb hc hbc => ?_, List.nodup_range.filter _⟩
  obtain ⟨s, hs, rfl, _⟩ := h.exists_first hb
  obtain ⟨t, ht, rfl, _⟩ := h.exists_first hc
  rw [h.same_block_iff s t hs ht, ← h.residual_block hstage hdet hs, ← h.residual_block hstage hdet ht]
  exact hbc

variable [DecidableEq α] [OrderedSymbol α] {a a' : Dump α}

lemma ofDump_spec (ha : a.InRange) (hdet : Deterministic a.transitions) (hne : ∃ w, w ∈ a.language) :
    ∃ (m : Minimization α) (d : Dump α), ofDump a false = .ok m ∧ m.dump = .ok d ∧ m.shape = .ok d.shape ∧ d.Minimal ∧
      d.language = a.language := by
  obtain ⟨w, s, hs, hw⟩ := hne
  obtain ⟨m₀, m₁, m₂, m, hcreate, hload, hfinals, hfinish⟩ :=
    exists_done ha.initial_lt ha.ends_lt ha.accepting_lt ⟨s, hs, w, hw⟩
  obtain ⟨hstage, hm⟩ := refined_of_done hdet hcreate hload hfinals hfinish
  have hdump := hm.dump_eq hstage
  refine ⟨m, _, run_eq_ok_iff.mpr ⟨m₀, m₁, m₂, hcreate, hload, hfinals, hfinish⟩, hdump, ?_, hm.minimal hstage hdet,
    hm.residual_block hstage hdet hm.initial_live⟩
  rw [shape, hdump]
  rfl

theorem minimized_unique (ha : a.InRange) (ha' : a'.InRange) (hdet : Deterministic a.transitions)
    (hdet' : Deterministic a'.transitions) (hlanguage : a.language = a'.language) (hne : ∃ w, w ∈ a.language) :
    ∃ (m m' again : Minimization α) (d d' dAgain : Dump α) (s s' : Shape),
      ofDump a false = .ok m ∧ m.dump = .ok d ∧ m.shape = .ok s ∧
      ofDump a' false = .ok m' ∧ m'.dump = .ok d' ∧ m'.shape = .ok s' ∧
      s.states = s'.states ∧ s.transitions = s'.transitions ∧ s.accepting = s'.accepting ∧ d.Isomorphic d' ∧
      ofDump d false = .ok again ∧ again.dump = .ok dAgain ∧ d.Isomorphic dAgain := by
  obtain ⟨m, d, hm, hd, hs, hmin, hlang⟩ := ofDump_spec ha hdet hne
  obtain ⟨m', d', hm', hd', hs', hmin', hlang'⟩ := ofDump_spec ha' hdet' (hlanguage ▸ hne)
  obtain ⟨again, dAgain, hagain, hdagain, _, hminagain, hlangagain⟩ :=
    ofDump_spec hmin.toInRange hmin.deterministic (hlang ▸ hne)
  obtain ⟨f, hf⟩ := hmin.isomorphic hmin' (hlang.trans (hlanguage.trans hlang'.symm))
  obtain ⟨hstates, htransitions, haccepting⟩ := hf.counts
  exact ⟨m, m', again, d, d', dAgain, d.shape, d'.shape, hm, hd, hs, hm', hd', hs', hstates, htransitions, haccepting,
    ⟨f, hf⟩, hagain, hdagain, hmin.isomorphic hminagain hlangagain.symm⟩

lemma loop_language_eq : (Dump.mk 1 0 [⟨0, 'a', 0⟩] [0]).language =
    (Dump.mk 3 2 [⟨2, 'b', 0⟩, ⟨1, 'a', 2⟩, ⟨2, 'a', 1⟩] [2, 1]).language := by
  have hdead : ∀ w, w ∉ residual [⟨2, 'b', 0⟩, ⟨1, 'a', 2⟩, ⟨2, 'a', 1⟩] [2, 1] 0 := by
    intro w
    cases w <;> simp [nil_mem_residual_iff, residual_cons]
  -- one loop against two states that take turns
  have hboth : ∀ w, (w ∈ residual [⟨0, 'a', 0⟩] [0] 0 ↔ w ∈ residual [⟨2, 'b', 0⟩, ⟨1, 'a', 2⟩, ⟨2, 'a', 1⟩] [2, 1] 2) ∧
      (w ∈ residual [⟨0, 'a', 0⟩] [0] 0 ↔ w ∈ residual [⟨2, 'b', 0⟩, ⟨1, 'a', 2⟩, ⟨2, 'a', 1⟩] [2, 1] 1) := by
    intro w
    induction w with
    | nil => simp [nil_mem_residual_iff]
    | cons c w ih => simp [residual_cons, hdead, ← ih.1, ← ih.2]
  ext w
  exact (hboth w).1

theorem minimized_unique_loop :
    ∃ (m m' again : Minimization Char) (d d' dAgain : Dump Char) (s s' : Shape),
      ofDump ⟨1, 0, [⟨0, 'a', 0⟩], [0]⟩ false = .ok m ∧ m.dump = .ok d ∧ m.shape = .ok s ∧
      ofDump ⟨3, 2, [⟨2, 'b', 0⟩, ⟨1, 'a', 2⟩, ⟨2, 'a', 1⟩], [2, 1]⟩ false = .ok m' ∧ m'.dump = .ok d' ∧
      m'.shape = .ok s' ∧ s.states = s'.states ∧ s.transitions = s'.transitions ∧ s.accepting = s'.accepting ∧
      d.Isomorphic d' ∧ ofDump d false = .ok again ∧ again.dump = .ok dAgain ∧ d.Isomorphic dAgain :=
  minimized_unique ⟨by decide, by decide, by decide⟩ ⟨by decide, by decide, by decide⟩ (by simp [Deterministic])
    (by simp [Deterministic]) loop_language_eq ⟨[], 0, by decide, .nil 0⟩

end PatternInference.Minimization
