import PatternInference.Proofs.Minimization.Partitioning
import PatternInference.Proofs.Minimization.Refinement

namespace PatternInference.Minimization

variable {α : Type} {m m' : Minimization α} {n i : Nat} {E : List (Transition α)} {F : List Nat} {s t u : Nat}

namespace Trimmed

lemma mem_edges_iff (h : Trimmed m n i E F) {e : Transition α} :
    e ∈ m.edges ↔ e ∈ E ∧ m.Live e.source ∧ m.Live e.target := by
  rw [h.edges_eq, List.mem_filter, decide_eq_true_eq]

lemma deterministic (h : Trimmed m n i E F) (hdet : Deterministic E) : Deterministic m.edges := by
  rw [h.edges_eq]
  exact hdet.filter _

lemma reads (h : Trimmed m n i E F) (hs : m.Live s) (ht : m.Live t) {w : List α} (hw : Reads E s w t) :
    Reads m.edges s w t := by
  induction hw with
  | nil => exact .nil _
  | @cons e w u he hw ih =>
    obtain ⟨hreach, _⟩ := (h.live_iff _).mp hs
    obtain ⟨_, v, x, hx, hv⟩ := (h.live_iff _).mp ht
    have htarget : m.Live e.target := (h.live_iff _).mpr ⟨hreach.step he rfl, w ++ v, x, hx, hw.append hv⟩
    exact .cons (h.mem_edges_iff.mpr ⟨he, hs, htarget⟩) (ih htarget ht)

lemma residual_eq (h : Trimmed m n i E F) (hs : m.Live s) : residual m.edges F s = residual E F s := by
  ext w
  constructor
  · rintro ⟨u, hu, hw⟩
    exact ⟨u, hu, hw.mono fun e he => (h.mem_edges_iff.mp he).1⟩
  · rintro ⟨u, hu, hw⟩
    obtain ⟨⟨v, hv⟩, _⟩ := (h.live_iff s).mp hs
    exact ⟨u, hu, h.reads hs ((h.live_iff u).mpr ⟨⟨v ++ w, hv.append hw⟩, .of_final hu⟩) hw⟩

lemma productive (h : Trimmed m n i E F) (hs : m.Live s) : Productive m.edges F s := by
  rw [Productive, h.residual_eq hs]
  exact ((h.live_iff s).mp hs).2

end Trimmed

structure Refined (m : Minimization α) (n i : Nat) (E : List (Transition α)) (F : List Nat) : Prop
    extends Arranged m n i E F where
  same_block_iff : ∀ s t, m.Live s → m.Live t →
    (m.blocks.setOf s = m.blocks.setOf t ↔ residual E F s = residual E F t)
  same_cord_iff : ∀ t u e f, m.edges[t]? = some e → m.edges[u]? = some f →
    (m.cords.setOf t = m.cords.setOf u ↔
      e.symbol = f.symbol ∧ m.blocks.setOf e.target = m.blocks.setOf f.target)

lemma Partitioned.keeps (h : Partitioned m n i E F) :
    Refinement.Keeps m.edges F m.blocks m.live ⟨m.blocks, m.cords, 1⟩ where
  blocks := h.blocks_clean
  cords := h.cords_clean
  blocks_size := rfl
  cords_size := h.cords_size
  ends := fun _ he => (h.mem_edges_iff.mp he).2
  live_iff := fun _ => Iff.rfl
  accepts_at := fun _ _ => Iff.rfl
  next_le := (Nat.zero_le _).trans_lt (h.blocks.mem_range h.initial_live).1
  acceptance := fun s t hs ht => (h.same_block_iff s t hs ht).mp

lemma Partitioned.invariant (h : Partitioned m n i E F) :
    Refinement.Invariant m.edges F m.blocks m.live 0 ⟨m.blocks, m.cords, 1⟩ := by
  have hcord : ∀ t u e f, m.edges[t]? = some e → m.edges[u]? = some f →
      (m.cords.setOf t = m.cords.setOf u ↔ e.symbol = f.symbol) := by
    intro t u e f ht hu
    obtain ⟨htl, rfl⟩ := List.getElem?_eq_some_iff.mp ht
    obtain ⟨hul, rfl⟩ := List.getElem?_eq_some_iff.mp hu
    exact h.same_cord_iff t u htl hul
  refine { h.keeps with
    next_eq := .inl rfl, symbol := fun t u e f ht hu => (hcord t u e f ht hu).mp,
    coarse_blocks := fun s t hs ht hst => ?_,
    coarse_cords := fun t u e f ht hu ha _ => (hcord t u e f ht hu).mpr ha,
    blocks_used := fun t u e f _ _ _ he hf => ?_, cords_used := fun _ _ _ _ _ => id }
  · refine (h.same_block_iff s t hs ht).mpr ?_
    have hnil : [] ∈ residual m.edges F s ↔ [] ∈ residual m.edges F t := by rw [hst]
    rwa [nil_mem_residual_iff, nil_mem_residual_iff] at hnil
  · change m.blocks.setOf e.target < 1 at he
    change m.blocks.setOf f.target < 1 at hf
    change m.blocks.setOf e.target = m.blocks.setOf f.target
    omega

lemma Arranged.of_keeps (h : Arranged m n i E F) {r : Refinement}
    (hr : Refinement.Keeps m.edges F m.blocks m.live r) :
    Arranged { m with blocks := r.blocks, cords := r.cords } n i E F := by
  set m' : Minimization α := { m with blocks := r.blocks, cords := r.cords } with hm'
  have hlive : ∀ s, m'.Live s ↔ m.Live s := hr.live_iff
  refine { h with
    blocks := hr.blocks.valid, size_eq := hr.blocks_size.trans h.size_eq,
    live_iff := fun s => (hlive s).trans (h.live_iff s), initial_live := (hlive i).mpr h.initial_live,
    edges_eq := ?_, finals_iff := fun s hs => ?_, blocks_clean := hr.blocks, cords_clean := hr.cords,
    cords_size := hr.cords_size }
  · simp only [hlive]
    exact h.edges_eq
  · -- Acceptance is kept position by position, and the accepting positions are the first ones.
    have hs' : m.blocks.Live m.live (m.blocks.elementAt (r.blocks.placeOf s)) := h.blocks.live_elementAt hs.2
    have hfin := h.finals_iff _ hs'
    rw [h.blocks.placeOf_elementAt _ (hs.2.trans_le h.blocks.live_le)] at hfin
    have hat := hr.accepts_at (r.blocks.placeOf s) hs.2
    rw [show r.blocks.elementAt (r.blocks.placeOf s) = s from hr.blocks.valid.elementAt_placeOf s hs.1] at hat
    exact hfin.trans hat.symm

lemma Trimmed.incoming (h : Trimmed m n i E F) :
    ∃ incoming, Buckets.along? .backward m.stateCount m.sources m.targets = some incoming ∧
      ∀ s, s < m.blocks.size → incoming.bucket? s = some (Buckets.positions (m.edges.map Transition.target) s) := by
  have hsize : m.blocks.size = m.stateCount := h.size_eq.trans h.stateCount_eq.symm
  have htargets : ∀ s ∈ m.targets, s < m.stateCount := by
    intro s hs
    rw [targets_eq] at hs
    obtain ⟨e, he, rfl⟩ := List.mem_map.mp hs
    exact hsize ▸ (h.mem_edges_iff.mp he).2.2.1
  rw [hsize, ← targets_eq]
  exact Buckets.ofTails?_spec htargets

lemma refine?_of_run {incoming : Buckets} {r : Refinement}
    (hincoming : Buckets.along? .backward m.stateCount m.sources m.targets = some incoming)
    (hrun : Refinement.run? (m.edges.map Transition.source).toArray incoming m.edges.length 0 ⟨m.blocks, m.cords, 1⟩ =
      some r) :
    m.refine? = some { m with blocks := r.blocks, cords := r.cords } := by
  rw [← sources_eq, sources, Array.toArray_toList, edges, Columns.length_rows] at hrun
  simp only [refine?, hincoming, hrun, Option.bind_eq_bind, Option.bind_some]
  rfl

lemma Partitioned.refine?_spec (h : Partitioned m n i E F) (hdet : Deterministic E) :
    ∃ m', m.refine? = some m' ∧ Refined m' n i E F := by
  obtain ⟨incoming, hincoming, hbucket⟩ := h.incoming
  obtain ⟨r, c, hr, hinv, hend⟩ := h.invariant.run?_spec (h.deterministic hdet) (fun s hs => h.productive hs)
    hbucket (Nat.zero_add _)
  refine ⟨_, refine?_of_run hincoming hr, { h.of_keeps hinv.toKeeps with
    same_block_iff := fun s t hs ht => ?_, same_cord_iff := fun t u e f => hinv.same_cord_iff hend }⟩
  rw [← h.residual_eq ((hinv.live_iff s).mp hs), ← h.residual_eq ((hinv.live_iff t).mp ht)]
  exact hinv.same_block_iff hend hs ht

lemma Partitioned.refine?_arranged (h : Partitioned m n i E F) : ∃ m', m.refine? = some m' ∧ Arranged m' n i E F := by
  obtain ⟨incoming, hincoming, hbucket⟩ := h.incoming
  obtain ⟨r, hr, hkeeps⟩ := h.keeps.run?_spec hbucket
  exact ⟨_, refine?_of_run hincoming hr, h.of_keeps hkeeps⟩

lemma Partitioned.refine_cases (h : Partitioned m n i E F) (cancelled : Bool) :
    (∃ e, m.refine cancelled = .failed m e ∧ e ≠ .logic .outOfTable) ∨
      ∃ m', m.refine cancelled = .done m' ∧ m'.stage = .refined ∧ Arranged m' n i E F := by
  rw [refine]
  split
  · next e hr => exact .inl ⟨e, rfl, fun he => refusal?_ne_outOfTable (he ▸ hr)⟩
  · obtain ⟨m₁, hm₁, ha⟩ := h.refine?_arranged
    exact .inr ⟨{ m₁ with stage := .refined }, by rw [hm₁, reachStage_some], rfl, { ha with }⟩

lemma Partitioned.refine_done (h : Partitioned m n i E F) (hdet : Deterministic E) {cancelled : Bool}
    (hd : m.refine cancelled = .done m') : m'.stage = .refined ∧ Refined m' n i E F := by
  rw [refine] at hd
  split at hd
  · cases hd
  · obtain ⟨m₁, hm₁, hr⟩ := h.refine?_spec hdet
    rw [hm₁, reachStage_some] at hd
    cases hd
    exact ⟨rfl, { hr with }⟩

lemma Partitioned.refine_ok (h : Partitioned m n i E F) (hstage : m.stage = .partitioned) :
    ∃ m', m.refine false = .done m' := by
  obtain ⟨m₁, hm₁, _⟩ := h.refine?_arranged
  refine ⟨{ m₁ with stage := .refined }, ?_⟩
  rw [refine, refusal?_eq_none_iff.mpr ⟨hstage, by simp [Interrupt.ofBool]⟩]
  simp only [hm₁, reachStage_some]

end PatternInference.Minimization
