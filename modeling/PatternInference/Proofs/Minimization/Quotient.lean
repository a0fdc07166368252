import Mathlib.Data.List.Permutation
import PatternInference.Proofs.Lists
import PatternInference.Proofs.Minimization.Residuals

namespace PatternInference.Minimization

open PatternInference.Partition

variable {α : Type} {m m₀ m₁ m₂ : Minimization α} {n i : Nat} {E : List (Transition α)} {F : List Nat} {s t b : Nat}

/-- The edges that leave the first state of a block for a state that has a block, between the blocks. -/
def blockEdges (m : Minimization α) (edges : List (Transition α)) : List (Transition α) :=
  edges.filterMap fun e => do
    let source ← m.blockOf? e.source
    let target ← m.blockOf? e.target
    if m.blocks.isFirst? e.source = some true then some ⟨source, e.symbol, target⟩ else none

def rename (m : Minimization α) (e : Transition α) : Transition α :=
  ⟨m.blocks.setOf e.source, e.symbol, m.blocks.setOf e.target⟩

def acceptingOf (m : Minimization α) : List Nat :=
  (List.range m.blocks.setCount).filter fun b => decide (m.blocks.first b < m.finals)

lemma eq_ok_of_toOption {ε κ : Type} {x : Except ε κ} {y : κ} (h : x.toOption = some y) : x = .ok y := by
  cases x with
  | error => cases h
  | ok => exact congrArg Except.ok (Option.some.inj h)

namespace Trimmed

lemma isFirst?_iff (h : Trimmed m n i E F) (hs : m.Live s) :
    m.blocks.isFirst? s = some true ↔ m.blocks.placeOf s = m.blocks.first (m.blocks.setOf s) := by
  rw [h.blocks.isFirst?_spec hs]
  simp

lemma blockEdges_eq (h : Trimmed m n i E F) (hstage : m.stage = .refined) :
    m.blockEdges E = m.edges.filterMap fun e =>
      if m.blocks.placeOf e.source = m.blocks.first (m.blocks.setOf e.source) then some (m.rename e) else none := by
  rw [h.edges_eq, List.filterMap_filter]
  refine List.filterMap_congr fun e _ => ?_
  simp only [h.blockOf?_eq hstage]
  by_cases hs : m.Live e.source
  · by_cases ht : m.Live e.target
    · simp [hs, ht, h.isFirst?_iff hs, rename]
    · simp [hs, ht]
  · simp [hs]

lemma transitions_eq (h : Trimmed m n i E F) (hstage : m.stage = .refined) : m.transitions = .ok (m.blockEdges E) := by
  have hedge : ∀ e ∈ m.edges, m.blockEdge? e = some
      (if m.blocks.placeOf e.source = m.blocks.first (m.blocks.setOf e.source) then some (m.rename e) else none) := by
    intro e he
    obtain ⟨_, hs, ht⟩ := h.mem_edges_iff.mp he
    simp only [blockEdge?, h.blocks.owner_get hs.1, h.blocks.owner_get ht.1, h.blocks.isFirst?_spec hs,
      Option.bind_eq_bind, Option.bind_some]
    simp [rename]
  simp only [transitions, finished, hstage, if_true, mapM_eq_pure_map _ hedge]
  rw [h.blockEdges_eq hstage]
  simp only [Error.ofTable, bind, Except.bind, pure, Except.pure, List.filterMap_map]
  rfl

lemma acceptingBlocks_eq (h : Trimmed m n i E F) (hstage : m.stage = .refined) :
    m.acceptingBlocks = .ok m.acceptingOf := by
  have hstart : ∀ b ∈ List.range m.blocks.setCount, m.blocks.start[b]? = some (m.blocks.first b) :=
    fun b hb => h.blocks.start_get (List.mem_range.mp hb)
  have hzip : ((List.range m.blocks.setCount).map m.blocks.first).zipIdx =
      (List.range m.blocks.setCount).map fun b => (m.blocks.first b, b) :=
    List.ext_getElem (by simp) fun b _ _ => by simp
  simp only [acceptingBlocks, finished, hstage, if_true, mapM_eq_pure_map _ hstart]
  simp only [Error.ofTable, bind, Except.bind, pure, Except.pure, hzip, List.filter_map, List.map_map,
    Function.comp_def, List.map_id']
  rfl

lemma dump_eq (h : Trimmed m n i E F) (hstage : m.stage = .refined) :
    m.dump = .ok ⟨m.blocks.setCount, m.blocks.setOf i, m.blockEdges E, m.acceptingOf⟩ := by
  simp only [dump, h.transitions_eq hstage, h.acceptingBlocks_eq hstage, h.initial_eq,
    h.blocks.owner_get h.initial_live.1]
  rfl

lemma exists_first (h : Trimmed m n i E F) (hb : b < m.blocks.setCount) :
    ∃ s, m.Live s ∧ m.blocks.setOf s = b ∧ m.blocks.placeOf s = m.blocks.first b := by
  have hlt := h.blocks.first_lt_live hb
  refine ⟨m.blocks.elementAt (m.blocks.first b), h.blocks.live_elementAt hlt, ?_, ?_⟩
  · exact h.blocks.setOf_eq b _ hb le_rfl (h.blocks.first_lt_past b hb)
  · exact h.blocks.placeOf_elementAt _ (hlt.trans_le h.blocks.live_le)

lemma first_unique (h : Trimmed m n i E F) (hs : m.Live s) (ht : m.Live t)
    (hsf : m.blocks.placeOf s = m.blocks.first (m.blocks.setOf s))
    (htf : m.blocks.placeOf t = m.blocks.first (m.blocks.setOf t)) (hst : m.blocks.setOf s = m.blocks.setOf t) :
    s = t := by
  rw [← h.blocks.elementAt_placeOf s hs.1, ← h.blocks.elementAt_placeOf t ht.1, hsf, htf, hst]

lemma exists_edge_iff (h : Trimmed m n i E F) (hs : m.Live s) {a : α} :
    (∃ e ∈ m.edges, e.source = s ∧ e.symbol = a) ↔ ∃ w, a :: w ∈ residual E F s := by
  simp only [← h.residual_eq hs, residual_cons]
  constructor
  · rintro ⟨e, he, hsource, hsymbol⟩
    obtain ⟨w, hw⟩ := h.productive (h.mem_edges_iff.mp he).2.2
    exact ⟨w, e, he, hsource, hsymbol, hw⟩
  · rintro ⟨w, e, he, hsource, hsymbol, _⟩
    exact ⟨e, he, hsource, hsymbol⟩

end Trimmed

namespace Refined

lemma exists_parallel_edge (h : Refined m n i E F) (hdet : Deterministic E) {e : Transition α} (he : e ∈ m.edges)
    (ht : m.Live t) (hst : m.blocks.setOf t = m.blocks.setOf e.source) :
    ∃ f ∈ m.edges, f.source = t ∧ f.symbol = e.symbol ∧ m.blocks.setOf f.target = m.blocks.setOf e.target := by
  obtain ⟨heE, hes, het⟩ := h.mem_edges_iff.mp he
  have hres : residual E F t = residual E F e.source := (h.same_block_iff t e.source ht hes).mp hst
  obtain ⟨w, hw⟩ := (h.exists_edge_iff hes).mp ⟨e, he, rfl, rfl⟩
  obtain ⟨f, hf, hsource, hsymbol⟩ := (h.exists_edge_iff ht).mpr ⟨w, hres ▸ hw⟩
  obtain ⟨hfE, _, hft⟩ := h.mem_edges_iff.mp hf
  have htarget : residual E F f.target = residual E F e.target :=
    Refinement.Invariant.residual_target_eq hdet hfE heE (hsource ▸ hres) hsymbol
  exact ⟨f, hf, hsource, hsymbol, (h.same_block_iff _ _ hft het).mpr htarget⟩

lemma mem_blockEdges_iff (h : Refined m n i E F) (hstage : m.stage = .refined) (hdet : Deterministic E)
    {f : Transition α} : f ∈ m.blockEdges E ↔ ∃ e ∈ m.edges, m.rename e = f := by
  rw [h.blockEdges_eq hstage, List.mem_filterMap]
  constructor
  · rintro ⟨e, he, hf⟩
    split at hf
    · exact ⟨e, he, Option.some.inj hf⟩
    · cases hf
  · rintro ⟨e, he, rfl⟩
    obtain ⟨_, hs, _⟩ := h.mem_edges_iff.mp he
    obtain ⟨r, hr, hset, hplace⟩ := h.exists_first (h.blocks.mem_range hs).1
    obtain ⟨f, hf, hsource, hsymbol, htarget⟩ := h.exists_parallel_edge hdet he hr hset
    refine ⟨f, hf, ?_⟩
    rw [hsource, hset, if_pos hplace]
    simp only [rename, hsource, hset, hsymbol, htarget]

lemma blockEdges_deterministic (h : Refined m n i E F) (hstage : m.stage = .refined) (hdet : Deterministic E) :
    Deterministic (m.blockEdges E) := by
  rw [h.blockEdges_eq hstage, Deterministic, List.pairwise_filterMap]
  refine (List.Pairwise.and_mem.mp (h.deterministic hdet)).imp ?_
  rintro e f ⟨he, hf, hne⟩ e' he' f' hf' ⟨hsource, hsymbol⟩
  obtain ⟨_, hse, _⟩ := h.mem_edges_iff.mp he
  obtain ⟨_, hsf, _⟩ := h.mem_edges_iff.mp hf
  split_ifs at he' hf' with hfirst hfirst'
  cases Option.some.inj he'
  cases Option.some.inj hf'
  exact hne ⟨h.first_unique hse hsf hfirst hfirst' hsource, hsymbol⟩

lemma mem_acceptingOf_iff (h : Refined m n i E F) (hs : m.Live s) :
    m.blocks.setOf s ∈ m.acceptingOf ↔ s ∈ F := by
  have hb := (h.blocks.mem_range hs).1
  obtain ⟨r, hr, hset, hplace⟩ := h.exists_first hb
  have hres : residual E F r = residual E F s := (h.same_block_iff r s hr hs).mp hset
  rw [acceptingOf, List.mem_filter, List.mem_range, decide_eq_true_eq, ← hplace, h.finals_iff r hr, and_iff_right hb,
    ← nil_mem_residual_iff, hres, nil_mem_residual_iff]

lemma residual_block (h : Refined m n i E F) (hstage : m.stage = .refined) (hdet : Deterministic E) (hs : m.Live s) :
    residual (m.blockEdges E) m.acceptingOf (m.blocks.setOf s) = residual E F s := by
  ext w
  induction w generalizing s with
  | nil => rw [nil_mem_residual_iff, nil_mem_residual_iff, h.mem_acceptingOf_iff hs]
  | cons a w ih =>
    constructor
    · intro hw
      obtain ⟨f, hf, hsource, rfl, htail⟩ := residual_cons.mp hw
      obtain ⟨e, he, rfl⟩ := (h.mem_blockEdges_iff hstage hdet).mp hf
      obtain ⟨heE, hse, hte⟩ := h.mem_edges_iff.mp he
      rw [← (h.same_block_iff e.source s hse hs).mp hsource]
      exact residual_cons.mpr ⟨e, heE, rfl, rfl, (ih hte).mp htail⟩
    · intro hw
      rw [← h.residual_eq hs] at hw
      obtain ⟨e, he, rfl, rfl, htail⟩ := residual_cons.mp hw
      have hte := (h.mem_edges_iff.mp he).2.2
      rw [h.residual_eq hte] at htail
      exact residual_cons.mpr ⟨m.rename e, (h.mem_blockEdges_iff hstage hdet).mpr ⟨e, he, rfl⟩, rfl, rfl,
        (ih hte).mpr htail⟩

lemma reads_blocks (h : Refined m n i E F) (hstage : m.stage = .refined) (hdet : Deterministic E) {w : List α}
    (hw : Reads m.edges s w t) : Reads (m.blockEdges E) (m.blocks.setOf s) w (m.blocks.setOf t) := by
  induction hw with
  | nil => exact .nil _
  | @cons e w u he _ ih =>
    exact .cons (e := m.rename e) ((h.mem_blockEdges_iff hstage hdet).mpr ⟨e, he, rfl⟩) ih

lemma block_useful (h : Refined m n i E F) (hstage : m.stage = .refined) (hdet : Deterministic E)
    (hb : b < m.blocks.setCount) : Reachable (m.blockEdges E) (m.blocks.setOf i) b ∧
      Productive (m.blockEdges E) m.acceptingOf b := by
  obtain ⟨s, hs, rfl, _⟩ := h.exists_first hb
  obtain ⟨⟨w, hw⟩, hprod⟩ := (h.live_iff s).mp hs
  refine ⟨⟨w, h.reads_blocks hstage hdet (h.reads h.initial_live hs hw)⟩, ?_⟩
  rw [Productive, h.residual_block hstage hdet hs]
  exact hprod

lemma block_lt (h : Refined m n i E F) (hstage : m.stage = .refined) (hdet : Deterministic E) :
    m.blocks.setOf i < m.blocks.setCount ∧
      (∀ e ∈ m.blockEdges E, e.source < m.blocks.setCount ∧ e.target < m.blocks.setCount) ∧
      ∀ b ∈ m.acceptingOf, b < m.blocks.setCount := by
  refine ⟨(h.blocks.mem_range h.initial_live).1, fun e he => ?_, fun b hb => ?_⟩
  · obtain ⟨f, hf, rfl⟩ := (h.mem_blockEdges_iff hstage hdet).mp he
    obtain ⟨_, hs, ht⟩ := h.mem_edges_iff.mp hf
    exact ⟨(h.blocks.mem_range hs).1, (h.blocks.mem_range ht).1⟩
  · exact List.mem_range.mp (List.mem_filter.mp hb).1

lemma exists_blockEdge_iff (h : Refined m n i E F) (hstage : m.stage = .refined) (hdet : Deterministic E) {a : α}
    (hb : m.blockOf? s = some b) : (∃ e ∈ m.blockEdges E, e.source = b ∧ e.symbol = a) ↔
      ∃ e ∈ E, e.source = s ∧ e.symbol = a ∧ m.blockOf? e.target ≠ none := by
  obtain ⟨hs, rfl⟩ := h.live_of_blockOf? hstage hb
  have hlive : ∀ t, m.blockOf? t ≠ none ↔ m.Live t := by
    intro t
    rw [h.blockOf?_eq hstage]
    split <;> simp_all
  constructor
  · rintro ⟨f, hf, hsource, rfl⟩
    obtain ⟨e, he, rfl⟩ := (h.mem_blockEdges_iff hstage hdet).mp hf
    obtain ⟨g, hg, hgs, hga, _⟩ := h.exists_parallel_edge hdet he hs hsource.symm
    obtain ⟨hgE, _, hgt⟩ := h.mem_edges_iff.mp hg
    exact ⟨g, hgE, hgs, hga, (hlive _).mpr hgt⟩
  · rintro ⟨e, heE, rfl, rfl, ht⟩
    have he := h.mem_edges_iff.mpr ⟨heE, hs, (hlive _).mp ht⟩
    exact ⟨m.rename e, (h.mem_blockEdges_iff hstage hdet).mpr ⟨e, he, rfl⟩, rfl, rfl⟩

end Refined

variable [DecidableEq α] [OrderedSymbol α]

theorem dump_of_minimized (hdet : Deterministic E) (hcreate : create n i = .ok m₀) (hload : m₀.load E .never = .done m₁)
    (hfinals : m₁.setFinals F .never = .done m₂)
    (hfinish : m₂.finish false = .done m ∨ ∃ m₃, m₂.partition false = .done m₃ ∧ m₃.refine false = .done m) :
    ∃ d, m.dump = .ok d ∧ m.transitions = .ok d.transitions ∧ m.acceptingBlocks = .ok d.accepting ∧
      m.shape = .ok d.shape ∧
      Deterministic d.transitions ∧
      (∀ s b a, m.blockOf? s = some b → ((∃ e ∈ d.transitions, e.source = b ∧ e.symbol = a) ↔
        ∃ e ∈ E, e.source = s ∧ e.symbol = a ∧ m.blockOf? e.target ≠ none)) ∧
      (d.initial < d.stateCount ∧ (∀ e ∈ d.transitions, e.source < d.stateCount ∧ e.target < d.stateCount) ∧
        ∀ b ∈ d.accepting, b < d.stateCount) ∧
      (∀ b, b < d.stateCount → Reachable d.transitions d.initial b ∧ Productive d.transitions d.accepting b) ∧
      d.language = (Dump.mk n i E F).language ∧
      d.transitions = m.blockEdges E := by
  rw [← finish_eq_done_iff, or_self] at hfinish
  obtain ⟨hstage, h⟩ := refined_of_done hdet hcreate hload hfinals hfinish
  have hdump := h.dump_eq hstage
  refine ⟨_, hdump, h.transitions_eq hstage, h.acceptingBlocks_eq hstage, ?_, h.blockEdges_deterministic hstage hdet,
    fun s b a hb => h.exists_blockEdge_iff hstage hdet hb, h.block_lt hstage hdet,
    fun b hb => h.block_useful hstage hdet hb, h.residual_block hstage hdet h.initial_live, rfl⟩
  rw [shape, hdump]
  rfl

theorem dump_of_minimized_cycle :
    let edges : List (Transition Char) := [⟨0, 'a', 1⟩, ⟨1, 'a', 2⟩, ⟨2, 'a', 1⟩, ⟨0, 'b', 3⟩]
    Deterministic edges ∧ ∃ m₀ m₁ m₂ m : Minimization Char, create 4 0 = .ok m₀ ∧ m₀.load edges .never = .done m₁ ∧
      m₁.setFinals [0, 2] .never = .done m₂ ∧ m₂.finish false = .done m ∧
      ∃ d, m.dump = .ok d ∧ m.transitions = .ok d.transitions ∧ m.acceptingBlocks = .ok d.accepting ∧
        m.shape = .ok d.shape ∧
        Deterministic d.transitions ∧
        (∀ s b a, m.blockOf? s = some b → ((∃ e ∈ d.transitions, e.source = b ∧ e.symbol = a) ↔
          ∃ e ∈ edges, e.source = s ∧ e.symbol = a ∧ m.blockOf? e.target ≠ none)) ∧
        (d.initial < d.stateCount ∧ (∀ e ∈ d.transitions, e.source < d.stateCount ∧ e.target < d.stateCount) ∧
          ∀ b ∈ d.accepting, b < d.stateCount) ∧
        (∀ b, b < d.stateCount → Reachable d.transitions d.initial b ∧ Productive d.transitions d.accepting b) ∧
        d.language = (Dump.mk 4 0 edges [0, 2]).language ∧
        d.transitions = m.blockEdges edges := by
  intro edges
  have hdet : Deterministic edges := by simp [Deterministic, edges]
  obtain ⟨m₀, m₁, m₂, m, hcreate, hload, hfinals, hfinish⟩ := exists_done (i := 0) (E := edges) (F := [0, 2])
    (by decide : 0 < 4) (by decide) (by decide) ⟨0, by decide, .refl 0⟩
  exact ⟨hdet, m₀, m₁, m₂, m, hcreate, hload, hfinals, hfinish,
    dump_of_minimized hdet hcreate hload hfinals (.inl hfinish)⟩

theorem dropped_edge_has_no_block_edge :
    ¬ ∀ (n i : Nat) (E : List (Transition Char)) (F : List Nat) (m : Minimization Char) (d : Dump Char),
      Deterministic E → run n i E F false = .ok m → m.dump = .ok d → ∀ s b a, m.blockOf? s = some b →
        ((∃ e ∈ d.transitions, e.source = b ∧ e.symbol = a) ↔ ∃ e ∈ E, e.source = s ∧ e.symbol = a) := by
  intro h
  have hrun : ((run 3 0 [⟨0, 'a', 1⟩, ⟨0, 'b', 2⟩] [1] false).toOption.bind fun m : Minimization Char =>
      m.dump.toOption.map fun d => (m.blockOf? 0, d.transitions)) = some (some 0, [⟨0, 'a', 1⟩]) := by
    cbv
  obtain ⟨m, hm, hread⟩ := Option.bind_eq_some_iff.mp hrun
  obtain ⟨d, hd, heq⟩ := Option.map_eq_some_iff.mp hread
  obtain ⟨hblock, htransitions⟩ := Prod.mk.inj heq
  have hb := (h 3 0 _ _ m d (by simp [Deterministic]) (eq_ok_of_toOption hm) (eq_ok_of_toOption hd) 0 0 'b' hblock).mpr
    ⟨⟨0, 'b', 2⟩, by simp, rfl, rfl⟩
  rw [htransitions] at hb
  simp at hb

end PatternInference.Minimization
