import PatternInference.Proofs.Minimization.Stages
import PatternInference.Proofs.Partition.Runs
import PatternInference.Proofs.Partition.Splitting

namespace PatternInference.Minimization

variable {α : Type} {m m' : Minimization α} {n i : Nat} {E : List (Transition α)} {F : List Nat} {s t : Nat}

structure Trimmed (m : Minimization α) (n i : Nat) (E : List (Transition α)) (F : List Nat) : Prop where
  stateCount_eq : m.stateCount = n
  initial_eq : m.initial = i
  blocks : m.blocks.Valid m.live
  size_eq : m.blocks.size = n
  live_iff : ∀ s, m.Live s ↔ Reachable E i s ∧ Productive E F s
  initial_live : m.Live i
  edges_eq : m.edges = E.filter fun e => decide (m.Live e.source ∧ m.Live e.target)
  finals_le : m.finals ≤ m.live
  finals_iff : ∀ s, m.Live s → (m.blocks.placeOf s < m.finals ↔ s ∈ F)

lemma Loaded.reads_backward (h : Loaded m n i E F) {w : List α} (hs : Reachable E i s) (hw : Reads E s w t) :
    Reachable E i t ∧ Relation.ReflTransGen (Along .backward m.edges) t s := by
  induction hw with
  | nil => exact ⟨hs, .refl⟩
  | @cons e w u he _ ih =>
    obtain ⟨hu, hstep⟩ := ih (hs.step he rfl)
    refine ⟨hu, hstep.tail ⟨e, ?_, rfl, rfl⟩⟩
    rw [h.edges_eq]
    exact List.mem_filter.mpr ⟨he, by simpa using (h.live_iff _).mpr hs⟩

lemma Loaded.backward_iff (h : Loaded m n i E F) :
    (∃ r, m.frontier.Front r ∧ Relation.ReflTransGen (Along .backward m.edges) r s) ↔
      Reachable E i s ∧ Productive E F s := by
  constructor
  · rintro ⟨r, hr, hrs⟩
    obtain ⟨hri, hrF⟩ := (h.front_iff r).mp hr
    induction hrs with
    | refl => exact ⟨hri, .of_final hrF⟩
    | tail _ hstep ih =>
      obtain ⟨e, he, rfl, rfl⟩ := hstep
      rw [h.edges_eq] at he
      obtain ⟨he, hlive⟩ := List.mem_filter.mp he
      exact ⟨(h.live_iff _).mp (of_decide_eq_true hlive), ih.2.step he⟩
  · rintro ⟨hs, w, u, hu, hw⟩
    obtain ⟨hui, hus⟩ := h.reads_backward hs hw
    exact ⟨u, (h.front_iff u).mpr ⟨hui, hu⟩, hus⟩

lemma Loaded.trimmed (h : Loaded m n i E F) (hf : m.finals = m.reached) (hpos : 0 < m.finals)
    (x : Prunes .backward m m') : Trimmed m' n i E F := by
  have hlive : ∀ s, m'.Live s ↔ Reachable E i s ∧ Productive E F s := fun s => (x.live_iff s).trans h.backward_iff
  have hfinals : m'.finals = m.reached := x.finals_eq.trans hf
  refine ⟨x.stateCount_eq.trans h.stateCount_eq, x.initial_eq.trans h.initial_eq, x.unsplit.front.states,
    x.unsplit.size_eq.trans (x.stateCount_eq.trans h.stateCount_eq), hlive, ?_, ?_, hfinals ▸ x.reached_le,
    fun s hs => ?_⟩
  · have hfront := h.unsplit.front.front_elementAt (hf ▸ hpos : 0 < m.reached)
    obtain ⟨⟨w, hw⟩, hF⟩ := (h.front_iff _).mp hfront
    exact (hlive i).mpr ⟨.refl i, w, _, hF, hw⟩
  · rw [x.edges_eq, h.edges_eq, List.filter_filter]
    refine List.filter_congr fun e he => ?_
    rw [← Bool.decide_and]
    refine decide_eq_decide.mpr ?_
    change m'.Live e.target ∧ m.Live e.source ↔ m'.Live e.source ∧ m'.Live e.target
    rw [hlive, hlive, h.live_iff]
    constructor
    · exact fun ⟨ht, hs⟩ => ⟨⟨hs, ht.2.step he⟩, ht⟩
    · exact fun ⟨hs, ht⟩ => ⟨ht, hs.1⟩
  · rw [hfinals, x.front_iff s hs, h.front_iff]
    exact and_iff_right ((hlive s).mp hs).1

lemma Trimmed.mem_take_finals_iff (h : Trimmed m n i E F) :
    s ∈ m.blocks.order.toList.take m.finals ↔ m.Live s ∧ s ∈ F := by
  rw [h.blocks.mem_take_order_iff h.finals_le]
  constructor
  · rintro ⟨hs, hlt⟩
    have hl : m.Live s := ⟨hs, hlt.trans_le h.finals_le⟩
    exact ⟨hl, (h.finals_iff s hl).mp hlt⟩
  · rintro ⟨hl, hF⟩
    exact ⟨hl.1, (h.finals_iff s hl).mpr hF⟩

structure Arranged (m : Minimization α) (n i : Nat) (E : List (Transition α)) (F : List Nat) : Prop
    extends Trimmed m n i E F where
  blocks_clean : m.blocks.Clean m.live
  cords_clean : m.cords.Clean m.edges.length
  cords_size : m.cords.size = m.edges.length

structure Partitioned (m : Minimization α) (n i : Nat) (E : List (Transition α)) (F : List Nat) : Prop
    extends Arranged m n i E F where
  same_block_iff : ∀ s t, m.Live s → m.Live t → (m.blocks.setOf s = m.blocks.setOf t ↔ (s ∈ F ↔ t ∈ F))
  same_cord_iff : ∀ t u (ht : t < m.edges.length) (hu : u < m.edges.length),
    m.cords.setOf t = m.cords.setOf u ↔ m.edges[t].symbol = m.edges[u].symbol

lemma Unsplit.clean (h : m.Unsplit) : m.blocks.Clean m.live :=
  ⟨h.front.states, h.pending_eq, fun s _ => h.unmarked s⟩

lemma Unsplit.range (h : m.Unsplit) (hpos : 0 < m.live) :
    m.blocks.first 0 = 0 ∧ m.blocks.past 0 = m.live ∧ m.blocks.setCount = 1 := by
  have hv : m.blocks.Valid m.live := h.front.states
  have hset : ∀ i, i < m.live → m.blocks.setOf (m.blocks.elementAt i) = 0 := fun i hi => h.front.setOf_eq hi
  have hcount : m.blocks.setCount = 1 := h.front.setCount_eq
  have hfirst := hv.covered 0 hpos
  have hlast := hv.covered (m.live - 1) (by omega)
  have hpast := hv.past_le 0 (by omega)
  rw [hset 0 hpos] at hfirst
  rw [hset (m.live - 1) (by omega)] at hlast
  omega

variable [DecidableEq α] [OrderedSymbol α]

lemma Loaded.partition?_spec (h : Loaded m n i E F) (hf : m.finals = m.reached) (hpos : 0 < m.finals) :
    ∃ m', m.partition? = some m' ∧ Partitioned m' n i E F := by
  obtain ⟨m₁, hm₁, x⟩ := h.unsplit.prune?_spec (hf ▸ hpos : 0 < m.reached) .backward
  have htrim := h.trimmed hf hpos x
  have hfinals := htrim.finals_le
  have hpos₁ : 0 < m₁.live := (Nat.zero_le _).trans_lt htrim.initial_live.2
  obtain ⟨hfirst, hpast, hcount⟩ := x.unsplit.range hpos₁
  have hclean := x.unsplit.clean
  obtain ⟨q, hq, hqpos, y⟩ := hclean.valid.markFirst?_spec hclean.touched (s := 0) m₁.finals (by omega)
    (x.unsplit.unmarked 0) (by omega)
  obtain ⟨r, hr, hrpos, z⟩ := y.split?_spec hclean
  obtain ⟨c, hc, hcv, hcp, hcm, hcs, hcsame⟩ := Partition.ofKeys?_spec (m₁.edges.map Transition.symbol)
  rw [List.length_map] at hcv hcs hcsame
  set m' : Minimization α := { m₁ with blocks := r, cords := c } with hm'
  have hlive : ∀ s, m'.Live s ↔ m₁.Live s := z.live_iff
  have hplace : ∀ s, m'.blocks.placeOf s = m₁.blocks.placeOf s := by
    intro s
    change Table.val r.position s = _
    rw [hrpos, hqpos]
    rfl
  have hmark : ∀ s, m₁.Live s → ((m₁.blocks.Live m₁.live s ∧ m₁.blocks.setOf s = 0 ∧
      m₁.blocks.placeOf s < m₁.blocks.first 0 + m₁.finals) ↔ s ∈ F) := by
    intro s hs
    rw [← htrim.finals_iff s hs, hfirst, Nat.zero_add]
    have hset := (hclean.valid.mem_range hs).1
    exact ⟨fun hh => hh.2.2, fun hlt => ⟨hs, by omega, hlt⟩⟩
  refine ⟨m', ?_, { htrim with
    blocks := z.clean.valid, size_eq := z.size_eq.trans htrim.size_eq, live_iff := fun s => (hlive s).trans (htrim.live_iff s),
    initial_live := (hlive i).mpr htrim.initial_live, edges_eq := ?_, finals_iff := fun s hs => ?_,
    blocks_clean := z.clean, cords_clean := ⟨hcv, hcp, fun s _ => hcm s⟩, cords_size := hcs,
    same_block_iff := fun s t hs ht => ?_, same_cord_iff := fun t u ht hu => ?_ }⟩
  · simp only [partition?, hm₁, symbols_eq, Option.bind_eq_bind, Option.bind_some, hq, hr, hc]
    rfl
  · simp only [hlive]
    exact htrim.edges_eq
  · rw [hplace]
    exact htrim.finals_iff s ((hlive s).mp hs)
  · have hs' := (hlive s).mp hs
    have ht' := (hlive t).mp ht
    rw [show m'.blocks.setOf s = m'.blocks.setOf t ↔ _ from z.same_iff s t hs' ht', hmark s hs', hmark t ht']
    refine and_iff_right ?_
    have := (hclean.valid.mem_range hs').1
    have := (hclean.valid.mem_range ht').1
    omega
  · change t < m₁.edges.length at ht
    change u < m₁.edges.length at hu
    change c.setOf t = c.setOf u ↔ m₁.edges[t].symbol = m₁.edges[u].symbol
    rw [hcsame t u ht hu]
    simp [ht, hu]

lemma Loaded.partition_cases (h : Loaded m n i E F) (hf : m.finals = m.reached) (cancelled : Bool) :
    (∃ e, m.partition cancelled = .failed m e ∧ e ≠ .logic .outOfTable) ∨
      ∃ m', m.partition cancelled = .done m' ∧ m'.stage = .partitioned ∧ Partitioned m' n i E F := by
  rw [partition]
  split
  · next e hr => exact .inl ⟨e, rfl, fun he => refusal?_ne_outOfTable (he ▸ hr)⟩
  · split
    · exact .inl ⟨_, rfl, by simp⟩
    · next hne =>
      obtain ⟨m₁, hm₁, hp⟩ := h.partition?_spec hf (Nat.pos_of_ne_zero hne)
      exact .inr ⟨{ m₁ with stage := .partitioned }, by rw [hm₁, reachStage_some], rfl, { hp with }⟩

lemma Loaded.partition_done (h : Loaded m n i E F) (hf : m.finals = m.reached) {cancelled : Bool}
    (hd : m.partition cancelled = .done m') : m'.stage = .partitioned ∧ Partitioned m' n i E F := by
  rcases h.partition_cases hf cancelled with ⟨_, he, _⟩ | ⟨m₁, hm₁, hp⟩
  · rw [he] at hd
    cases hd
  · rw [hm₁] at hd
    cases hd
    exact hp

lemma Loaded.partition_ok (h : Loaded m n i E F) (hf : m.finals = m.reached) (hstage : m.stage = .finalsSet)
    (hpos : 0 < m.finals) : ∃ m', m.partition false = .done m' := by
  obtain ⟨m₁, hm₁, _⟩ := h.partition?_spec hf hpos
  refine ⟨{ m₁ with stage := .partitioned }, ?_⟩
  rw [partition, refusal?_eq_none_iff.mpr ⟨hstage, by simp [Interrupt.ofBool]⟩]
  simp only [Nat.ne_of_gt hpos, if_false, hm₁, reachStage_some]

lemma Loaded.partition_of_unreachable (h : Loaded m n i E F) (hf : m.finals = m.reached) (hstage : m.stage = .finalsSet)
    (hnone : ∀ s ∈ F, ¬ Reachable E i s) :
    m.partition false = .failed m (.invalid .acceptingStates .noReachableAccepting) := by
  have hzero : m.finals = 0 := by
    by_contra hne
    have hpos : 0 < m.reached := hf ▸ Nat.pos_of_ne_zero hne
    obtain ⟨hreach, hF⟩ := (h.front_iff _).mp (h.unsplit.front.front_elementAt hpos)
    exact hnone _ hF hreach
  rw [partition, refusal?_eq_none_iff.mpr ⟨hstage, by simp [Interrupt.ofBool]⟩]
  exact if_pos hzero

lemma exists_partitioned (hi : i < n) (hE : ∀ e ∈ E, e.source < n ∧ e.target < n) (hF : ∀ s ∈ F, s < n)
    (hreach : ∃ s ∈ F, Reachable E i s) : ∃ m₀ m₁ m₂ m, create n i = .ok m₀ ∧ m₀.load E .never = .done m₁ ∧
      m₁.setFinals F .never = .done m₂ ∧ m₂.partition false = .done m ∧ m.stage = .partitioned ∧
      Loaded m₁ n i E [] ∧ Partitioned m n i E F := by
  obtain ⟨m₀, m₁, m₂, h₀, h₁, h₂, hstage₂, hf, hloaded, hset⟩ := exists_finalsSet hi hE hF
  obtain ⟨s, hs, hreach⟩ := hreach
  have hpos : 0 < m₂.reached := (Nat.zero_le _).trans_lt ((hset.front_iff s).mpr ⟨hreach, hs⟩).2
  obtain ⟨m₃, h₃⟩ := hset.partition_ok hf hstage₂ (hf ▸ hpos)
  obtain ⟨hstage₃, hp⟩ := hset.partition_done hf h₃
  exact ⟨m₀, m₁, m₂, m₃, h₀, h₁, h₂, h₃, hstage₃, hloaded, hp⟩

end PatternInference.Minimization
