import PatternInference.Minimization.Steps
import PatternInference.Proofs.Automaton.Words
import PatternInference.Proofs.Minimization.Pruning

namespace PatternInference

variable {α : Type} {edges : List (Transition α)} {finals : List Nat} {s t : Nat}

namespace Interrupt

variable {ι : Type} {fault? : ι → Option Error}

lemma accept_sound (it : Interrupt) (fault? : ι → Option Error) (xs : List ι) :
    (it.accept fault? xs).1 <+: xs ∧ ∀ x ∈ (it.accept fault? xs).1, fault? x = none := by
  fun_induction accept fault? it xs <;> simp_all

lemma accept_none {it : Interrupt} {xs : List ι} (h : (it.accept fault? xs).2 = none) :
    (it.accept fault? xs).1 = xs := by
  fun_induction accept fault? it xs <;> simp_all

lemma accept_some {it : Interrupt} {xs : List ι} {e : Error} (h : (it.accept fault? xs).2 = some e) :
    e = .cancelled ∨ ∃ x ∈ xs, fault? x = some e := by
  fun_induction accept fault? it xs <;> simp_all

lemma accept_never_snd (xs : List ι) : (never.accept fault? xs).2 = xs.findSome? fault? := by
  induction xs with
  | nil => rfl
  | cons x xs ih => cases hx : fault? x <;> simp [accept, next, hx, ih]

lemma accept_never_none_iff {xs : List ι} : (never.accept fault? xs).2 = none ↔ ∀ x ∈ xs, fault? x = none := by
  rw [accept_never_snd, List.findSome?_eq_none_iff]

end Interrupt

namespace Minimization

lemma reachable_iff_along : Reachable edges s t ↔ Relation.ReflTransGen (Along .forward edges) s t := by
  constructor
  · rintro ⟨w, hw⟩
    induction hw with
    | nil => exact .refl
    | cons he _ ih => exact .head ⟨_, he, rfl, rfl⟩ ih
  · intro h
    induction h with
    | refl => exact .refl s
    | tail _ hstep ih =>
      obtain ⟨e, he, rfl, rfl⟩ := hstep
      exact ih.step he rfl

lemma finalFault?_ne_outOfTable {n : Nat} : finalFault? n s ≠ some (.logic .outOfTable) := by
  simp only [finalFault?]
  split <;> simp [Error.outOfRange]

lemma finalFault?_eq_none_iff {n : Nat} : finalFault? n s = none ↔ s < n := by
  simp [finalFault?]

structure Created (m : Minimization α) (n i : Nat) (E : List (Transition α)) : Prop where
  stage_eq : m.stage = .created
  stateCount_eq : m.stateCount = n
  initial_eq : m.initial = i
  initial_lt : i < n
  edges_eq : m.edges = E
  live_eq : m.live = n
  front_eq : ∀ s, m.frontier.Front s → s = i
  cords_eq : m.cords = .whole 0
  unsplit : m.Unsplit

structure Loaded (m : Minimization α) (n i : Nat) (E : List (Transition α)) (F : List Nat) : Prop where
  stateCount_eq : m.stateCount = n
  initial_eq : m.initial = i
  cords_eq : m.cords = .whole 0
  unsplit : m.Unsplit
  live_iff : ∀ s, m.Live s ↔ Reachable E i s
  edges_eq : m.edges = E.filter fun e => decide (m.Live e.source)
  front_iff : ∀ s, m.frontier.Front s ↔ Reachable E i s ∧ s ∈ F

variable {m : Minimization α} {n i : Nat} {E : List (Transition α)} {F : List Nat}

lemma create_spec (hi : i < n) : ∃ m : Minimization α, create n i = .ok m ∧ Created m n i [] := by
  refine ⟨_, if_pos hi, rfl, rfl, rfl, hi, rfl, rfl, fun s hs => absurd hs.2 (Nat.not_lt_zero _), rfl, ?_, ?_, rfl,
    fun s => ?_, fun e he => by cases he⟩
  · refine ⟨Partition.whole_valid n, ?_, Nat.zero_le _⟩
    simp only [frontier, Partition.whole]
    omega
  · simp [Partition.whole, Partition.size]
  · by_cases hs : s < max n 1 <;> simp [Partition.marked, Partition.whole, Table.val, Array.getD, hs]

lemma Created.live_iff (h : Created m n i E) : m.Live s ↔ s < n := by
  have hsize := h.unsplit.size_eq.trans h.stateCount_eq
  constructor
  · exact fun hs => hsize ▸ hs.1
  · intro hs
    have hplace := h.unsplit.front.states.placeOf_lt s (hsize.symm ▸ hs)
    exact ⟨hsize.symm ▸ hs, h.live_eq ▸ hsize ▸ hplace⟩

lemma Created.append (h : Created m n i E) (he : ∀ e ∈ edges, e.fault? n = none) :
    Created (m.store edges) n i (E ++ edges) := by
  refine { h with edges_eq := by rw [edges_store, h.edges_eq], unsplit := { h.unsplit with ends := fun e hm => ?_ } }
  rw [edges_store, List.mem_append] at hm
  rcases hm with hm | hm
  · exact h.unsplit.ends e hm
  · have hr := Transition.fault?_eq_none_iff.mp (he e hm)
    exact ⟨h.live_iff.mpr hr.1, h.live_iff.mpr hr.2⟩

structure Reaches (m m' : Minimization α) (N : Nat → Prop) : Prop where
  rest : m' = { m with blocks := m'.blocks, reached := m'.reached }
  unsplit : m'.Unsplit
  live_iff : ∀ e, m'.Live e ↔ m.Live e
  front_iff : ∀ e, m'.frontier.Front e ↔ m.frontier.Front e ∨ N e

namespace Reaches

variable {m' : Minimization α} {N : Nat → Prop}

lemma stateCount_eq (x : Reaches m m' N) : m'.stateCount = m.stateCount := by rw [x.rest]
lemma initial_eq (x : Reaches m m' N) : m'.initial = m.initial := by rw [x.rest]
lemma edges_eq (x : Reaches m m' N) : m'.edges = m.edges := by
  rw [x.rest]
  rfl
lemma cords_eq (x : Reaches m m' N) : m'.cords = m.cords := by rw [x.rest]
lemma live_eq (x : Reaches m m' N) : m'.live = m.live := by rw [x.rest]
lemma stage_eq (x : Reaches m m' N) : m'.stage = m.stage := by rw [x.rest]

end Reaches

lemma Unsplit.reach?_spec (h : m.Unsplit) (hs : m.Live s) :
    ∃ m', m.reach? s = some m' ∧ Reaches m m' (· = s) := by
  obtain ⟨f, hf, x⟩ := h.front.reach?_spec hs
  have hlive : ∀ e, f.states.Live m.live e ↔ m.Live e := x.live_iff
  refine ⟨{ m with blocks := f.states, reached := f.reached }, ?_, rfl, ⟨x.valid, ?_, ?_, ?_, ?_⟩, hlive, x.front_iff⟩
  · change (Frontier.reach? m.frontier s).bind _ = _
    rw [hf]
    rfl
  · exact x.size_eq.trans h.size_eq
  · change f.states.pending = []
    rw [x.rest]
    exact h.pending_eq
  · change ∀ s, f.states.marked s = 0
    rw [x.rest]
    exact h.unmarked
  · exact fun e he => ⟨(hlive _).mpr (h.ends e he).1, (hlive _).mpr (h.ends e he).2⟩

lemma Created.prune?_spec (h : Created m n i E) :
    ∃ m', (m.reach? m.initial).bind (prune? .forward) = some m' ∧ Loaded { m' with stage := .loaded } n i E [] := by
  obtain ⟨m₁, hm₁, x⟩ := h.unsplit.reach?_spec (h.live_iff.mpr (h.initial_eq ▸ h.initial_lt))
  have hfront : ∀ e, m₁.frontier.Front e ↔ e = i := by
    intro e
    rw [x.front_iff, h.initial_eq]
    exact or_iff_right_of_imp (h.front_eq e)
  have hpos : 0 < m₁.reached := (Nat.zero_le _).trans_lt ((hfront i).mpr rfl).2
  obtain ⟨m₂, hm₂, y⟩ := x.unsplit.prune?_spec hpos .forward
  have hedges : m₁.edges = E := x.edges_eq.trans h.edges_eq
  have hlive : ∀ s, m₂.Live s ↔ Reachable E i s := by
    intro s
    rw [y.live_iff, reachable_iff_along, hedges]
    constructor
    · rintro ⟨r, hr, hrs⟩
      rwa [(hfront r).mp hr] at hrs
    · exact fun hs => ⟨i, (hfront i).mpr rfl, hs⟩
  refine ⟨m₂, by rw [hm₁]; exact hm₂, y.stateCount_eq.trans (x.stateCount_eq.trans h.stateCount_eq),
    y.initial_eq.trans (x.initial_eq.trans h.initial_eq), y.cords_eq.trans (x.cords_eq.trans h.cords_eq),
    { y.unsplit with }, hlive, hedges ▸ y.edges_eq, fun s => ?_⟩
  simp only [List.not_mem_nil, and_false, iff_false]
  intro hs
  have : m₂.blocks.placeOf s < m₂.reached := hs.2
  rw [y.reached_eq] at this
  exact Nat.not_lt_zero _ this

lemma refusal?_eq_none_iff {expected next : Stage} {it : Interrupt} :
    m.refusal? expected next it = none ↔ m.stage = expected ∧ it ≠ .atStart := by
  simp only [refusal?]
  split_ifs <;> simp_all

lemma reachStage_some {m m' : Minimization α} (next : Stage) :
    m.reachStage next (some m') = .done { m' with stage := next } := rfl

lemma refusal?_ne_outOfTable {expected next : Stage} {it : Interrupt} :
    m.refusal? expected next it ≠ some (.logic .outOfTable) := by
  simp only [refusal?]
  split_ifs <;> simp

lemma Created.stopPruning_spec (h : Created m n i E) : ∃ m', m.stopPruning = .failed m' .cancelled ∧ Created m' n i E := by
  obtain ⟨m', hm', x⟩ := h.unsplit.reach?_spec (h.live_iff.mpr (h.initial_eq ▸ h.initial_lt))
  have hsources : ∀ s ∈ m.sources, s < m.stateCount := by
    intro s hs
    obtain ⟨e, he, rfl⟩ := List.mem_map.mp (sources_eq (m := m) ▸ hs)
    exact h.stateCount_eq ▸ h.live_iff.mp (h.unsplit.ends e he).1
  obtain ⟨buckets, hbuckets, _⟩ := Buckets.ofTails?_spec hsources
  have halong : Buckets.along? .forward m.stateCount m.sources m.targets = some buckets := hbuckets
  refine ⟨m', by rw [stopPruning, hm', halong], x.stage_eq.trans h.stage_eq, x.stateCount_eq.trans h.stateCount_eq,
    x.initial_eq.trans h.initial_eq, h.initial_lt, x.edges_eq.trans h.edges_eq, x.live_eq.trans h.live_eq,
    fun s hs => ?_, x.cords_eq.trans h.cords_eq, x.unsplit⟩
  rw [x.front_iff, h.initial_eq] at hs
  exact hs.elim (h.front_eq s) id

lemma load_of_accept {it : Interrupt} {front : List (Transition α)} {e? : Option Error}
    (hr : m.refusal? .created .loaded it = none)
    (ha : it.accept (Transition.fault? m.stateCount) edges = (front, e?)) : m.load edges it =
      match e? with
      | some e => .failed (m.store front) e
      | none => if it = .atEnd then stopPruning (m.store front) else
          reachStage (m.store front) .loaded
            ((reach? (m.store front) m.initial).bind (prune? .forward)) := by
  rw [load, hr]
  simp only [ha]
  cases e? <;> rfl

lemma Created.load_cases (h : Created m n i E) (edges : List (Transition α)) (it : Interrupt) :
    (∃ m' e E', m.load edges it = .failed m' e ∧ e ≠ .logic .outOfTable ∧ Created m' n i E') ∨
      ∃ m', m.load edges it = .done m' ∧ m'.stage = .loaded ∧ Loaded m' n i (E ++ edges) [] ∧
        ∀ e ∈ edges, e.fault? n = none := by
  obtain rfl := h.stateCount_eq
  cases hr : m.refusal? .created .loaded it with
  | some e =>
    exact .inl ⟨m, e, E, by rw [load, hr], fun he => refusal?_ne_outOfTable (he ▸ hr), h⟩
  | none =>
    rcases ha : it.accept (Transition.fault? m.stateCount) edges with ⟨front, e?⟩
    have hs := (it.accept_sound (Transition.fault? m.stateCount) edges).2
    rw [ha] at hs
    have hfront := h.append hs
    rw [load_of_accept hr ha]
    cases e? with
    | some e =>
      refine .inl ⟨_, e, _, rfl, ?_, hfront⟩
      rintro rfl
      rcases Interrupt.accept_some (congrArg Prod.snd ha) with he | ⟨x, _, he⟩
      · cases he
      · exact Transition.fault?_ne_outOfTable he
    | none =>
      obtain rfl : front = edges := by simpa [ha] using Interrupt.accept_none (congrArg Prod.snd ha)
      by_cases hend : it = .atEnd
      · obtain ⟨m', hm', hc⟩ := hfront.stopPruning_spec
        exact .inl ⟨m', _, _, by rw [if_pos hend, hm'], by simp, hc⟩
      · obtain ⟨m₁, hm₁, hl⟩ := hfront.prune?_spec
        have hm₁' : (reach? (m.store front) m.initial).bind (prune? .forward) = some m₁ := hm₁
        exact .inr ⟨_, by rw [if_neg hend, hm₁', reachStage_some], rfl, hl, hs⟩

lemma Created.load_done (h : Created m n i E) {it : Interrupt} {m' : Minimization α} (hd : m.load edges it = .done m') :
    m'.stage = .loaded ∧ Loaded m' n i (E ++ edges) [] ∧ ∀ e ∈ edges, e.fault? n = none := by
  rcases h.load_cases edges it with ⟨_, _, _, hf, _⟩ | ⟨m₁, hm₁, hl⟩
  · rw [hf] at hd
    cases hd
  · rw [hm₁] at hd
    cases hd
    exact hl

lemma Created.load_ok (h : Created m n i E) (he : ∀ e ∈ edges, e.fault? n = none) :
    ∃ m', m.load edges .never = .done m' := by
  obtain rfl := h.stateCount_eq
  have hacc := Interrupt.accept_never_none_iff.mpr he
  obtain ⟨m₁, hm₁, _⟩ := (h.append he).prune?_spec
  refine ⟨{ m₁ with stage := .loaded }, ?_⟩
  rw [load_of_accept (refusal?_eq_none_iff.mpr ⟨h.stage_eq, by simp⟩) (Prod.ext (Interrupt.accept_none hacc) hacc)]
  rw [if_neg (by simp), show (reach? _ m.initial).bind (prune? .forward) = some m₁ from hm₁, reachStage_some]

lemma isLive?_eq (h : m.blocks.Valid m.live) (hs : s < m.blocks.size) : m.isLive? s = some (decide (m.Live s)) := by
  simp [isLive?, h.position_get hs, Live, Partition.Live, hs]

lemma isLive?_eq_true_iff (h : m.blocks.Valid m.live) : m.isLive? s = some true ↔ m.Live s := by
  by_cases hs : s < m.blocks.size
  · simp [isLive?_eq h hs]
  · have hlive : ¬ m.Live s := fun hl => hs hl.1
    simp [isLive?, hlive, h.position_size, hs]

lemma Loaded.reach_step (h : Loaded m n i E F) (hs : s < n) :
    ∃ m', (do if ← m.isLive? s then m.reach? s else return m) = some m' ∧ Loaded m' n i E (F ++ [s]) ∧
      m'.stage = m.stage := by
  rw [isLive?_eq h.unsplit.front.states (h.unsplit.size_eq.trans h.stateCount_eq ▸ hs)]
  by_cases hl : m.Live s
  · obtain ⟨m', hm', x⟩ := h.unsplit.reach?_spec hl
    refine ⟨m', by simp [hl, hm'], ⟨x.stateCount_eq.trans h.stateCount_eq, x.initial_eq.trans h.initial_eq,
      x.cords_eq.trans h.cords_eq, x.unsplit, fun e => (x.live_iff e).trans (h.live_iff e), ?_, fun e => ?_⟩, x.stage_eq⟩
    · simp only [x.live_iff]
      exact x.edges_eq.trans h.edges_eq
    · rw [x.front_iff, h.front_iff, List.mem_append, List.mem_singleton]
      constructor
      · rintro (⟨hr, hF⟩ | rfl)
        · exact ⟨hr, .inl hF⟩
        · exact ⟨(h.live_iff _).mp hl, .inr rfl⟩
      · rintro ⟨hr, hF | hF⟩
        · exact .inl ⟨hr, hF⟩
        · exact .inr hF
  · refine ⟨m, by simp [hl], { h with front_iff := fun e => ?_ }, rfl⟩
    rw [h.front_iff, List.mem_append, List.mem_singleton]
    refine and_congr_right fun hr => (or_iff_left ?_).symm
    rintro rfl
    exact hl ((h.live_iff _).mpr hr)

lemma Loaded.reachLive?_spec (h : Loaded m n i E F) (hF : ∀ s ∈ finals, s < n) :
    ∃ m', m.reachLive? finals = some m' ∧ Loaded m' n i E (F ++ finals) ∧ m'.stage = m.stage := by
  induction finals generalizing m F with
  | nil => exact ⟨m, rfl, by simpa using h, rfl⟩
  | cons s finals ih =>
    obtain ⟨m₁, hm₁, hl₁, hs₁⟩ := h.reach_step (hF s (by simp))
    obtain ⟨m₂, hm₂, hl₂, hs₂⟩ := ih hl₁ fun t ht => hF t (by simp [ht])
    refine ⟨m₂, ?_, by simpa using hl₂, hs₂.trans hs₁⟩
    rw [reachLive?, List.foldlM_cons, hm₁]
    exact hm₂

lemma setFinals_of_accept {it : Interrupt} {front : List Nat} {e? : Option Error} {m' : Minimization α}
    (hr : m.refusal? .loaded .finalsSet it = none)
    (ha : it.accept (finalFault? m.stateCount) finals = (front, e?)) (hm : m.reachLive? front = some m') :
    m.setFinals finals it =
      match e? with
      | some e => .failed m' e
      | none => .done { m' with finals := m'.reached, stage := .finalsSet } := by
  rw [setFinals, hr]
  simp only [ha, hm]
  cases e? <;> rfl

lemma Loaded.setFinals_cases (h : Loaded m n i E F) {it : Interrupt} (hr : m.refusal? .loaded .finalsSet it = none)
    (finals : List Nat) :
    (∃ m' e, m.setFinals finals it = .failed m' e ∧ e ≠ .logic .outOfTable ∧ m'.stage = m.stage ∧
        Loaded m' n i E (F ++ (it.accept (finalFault? n) finals).1)) ∨
      ∃ m', m.setFinals finals it = .done m' ∧ (it.accept (finalFault? n) finals).2 = none ∧ m'.stage = .finalsSet ∧
        m'.finals = m'.reached ∧ Loaded m' n i E (F ++ (it.accept (finalFault? n) finals).1) := by
  obtain rfl := h.stateCount_eq
  rcases ha : it.accept (finalFault? m.stateCount) finals with ⟨front, e?⟩
  have hs := (it.accept_sound (finalFault? m.stateCount) finals).2
  rw [ha] at hs
  obtain ⟨m₁, hm₁, hl, hstage⟩ := h.reachLive?_spec fun s hmem => finalFault?_eq_none_iff.mp (hs s hmem)
  rw [setFinals_of_accept hr ha hm₁]
  cases e? with
  | some e =>
    refine .inl ⟨m₁, e, rfl, ?_, hstage, hl⟩
    rintro rfl
    rcases Interrupt.accept_some (congrArg Prod.snd ha) with he | ⟨x, _, he⟩
    · cases he
    · exact finalFault?_ne_outOfTable he
  | none => exact .inr ⟨_, rfl, rfl, rfl, rfl, { hl with unsplit := { hl.unsplit with } }⟩

lemma Loaded.setFinals_done (h : Loaded m n i E F) {it : Interrupt} {m' : Minimization α}
    (hd : m.setFinals finals it = .done m') :
    m'.stage = .finalsSet ∧ m'.finals = m'.reached ∧ Loaded m' n i E (F ++ finals) ∧ ∀ s ∈ finals, s < n := by
  cases hr : m.refusal? .loaded .finalsSet it with
  | some e =>
    rw [setFinals, hr] at hd
    cases hd
  | none =>
    rcases h.setFinals_cases hr finals with ⟨_, _, hf, _⟩ | ⟨m₁, hm₁, ha, hl⟩
    · rw [hf] at hd
      cases hd
    · have hs := (it.accept_sound (finalFault? n) finals).2
      rw [Interrupt.accept_none ha] at hl hs
      rw [hm₁] at hd
      cases hd
      exact ⟨hl.1, hl.2.1, hl.2.2, fun s hmem => finalFault?_eq_none_iff.mp (hs s hmem)⟩

lemma Loaded.setFinals_ok (h : Loaded m n i E F) (hstage : m.stage = .loaded) (hF : ∀ s ∈ finals, s < n) :
    ∃ m', m.setFinals finals .never = .done m' := by
  obtain rfl := h.stateCount_eq
  have hacc := Interrupt.accept_never_none_iff.mpr fun s hs => finalFault?_eq_none_iff.mpr (hF s hs)
  obtain ⟨m₁, hm₁, _⟩ := h.reachLive?_spec hF
  exact ⟨_, setFinals_of_accept (refusal?_eq_none_iff.mpr ⟨hstage, by simp⟩)
    (Prod.ext (Interrupt.accept_none hacc) hacc) hm₁⟩

lemma exists_loaded (hi : i < n) (hE : ∀ e ∈ E, e.source < n ∧ e.target < n) : ∃ m₀ m₁ : Minimization α,
    create n i = .ok m₀ ∧ m₀.load E .never = .done m₁ ∧ m₁.stage = .loaded ∧ Loaded m₁ n i E [] := by
  obtain ⟨m₀, h₀, hcreated⟩ : ∃ m : Minimization α, create n i = .ok m ∧ Created m n i [] := create_spec hi
  obtain ⟨m₁, h₁⟩ := hcreated.load_ok fun e he => Transition.fault?_eq_none_iff.mpr (hE e he)
  obtain ⟨hstage, hloaded, _⟩ := hcreated.load_done h₁
  exact ⟨m₀, m₁, h₀, h₁, hstage, hloaded⟩

lemma exists_finalsSet (hi : i < n) (hE : ∀ e ∈ E, e.source < n ∧ e.target < n) (hF : ∀ s ∈ F, s < n) :
    ∃ m₀ m₁ m₂ : Minimization α, create n i = .ok m₀ ∧ m₀.load E .never = .done m₁ ∧ m₁.setFinals F .never = .done m₂ ∧
      m₂.stage = .finalsSet ∧ m₂.finals = m₂.reached ∧ Loaded m₁ n i E [] ∧ Loaded m₂ n i E F := by
  obtain ⟨m₀, m₁, h₀, h₁, hstage₁, hloaded⟩ := exists_loaded hi hE
  obtain ⟨m₂, h₂⟩ := hloaded.setFinals_ok hstage₁ hF
  obtain ⟨hstage₂, hf, hset, _⟩ := hloaded.setFinals_done h₂
  exact ⟨m₀, m₁, m₂, h₀, h₁, h₂, hstage₂, hf, hloaded, hset⟩

end Minimization
end PatternInference
