import PatternInference.Proofs.Minimization.Frontier

namespace PatternInference

open PatternInference.Partition

instance (p : Partition) (live s : Nat) : Decidable (p.Live live s) := inferInstanceAs (Decidable (_ ∧ _))

namespace Minimization

variable {α : Type}

def head (direction : Direction) (t : Transition α) : Nat := (direction.ends t.source t.target).2

def Along (direction : Direction) (edges : List (Transition α)) (s e : Nat) : Prop :=
  ∃ t ∈ edges, tail direction t = s ∧ head direction t = e

lemma step_iff_along {direction : Direction} {edges : List (Transition α)} {s e : Nat} :
    Frontier.Step (edges.map (tail direction)) (edges.map (head direction)) s e ↔ Along direction edges s e := by
  simp only [Frontier.Step, Along, List.getElem?_map, Option.map_eq_some_iff]
  constructor
  · rintro ⟨i, ⟨t, ht, hs⟩, u, hu, he⟩
    obtain rfl : t = u := Option.some.inj (ht.symm.trans hu)
    exact ⟨t, List.mem_of_getElem? ht, hs, he⟩
  · rintro ⟨t, ht, hs, he⟩
    obtain ⟨i, hi⟩ := List.getElem?_of_mem ht
    exact ⟨i, ⟨t, hi, hs⟩, t, hi, he⟩

def frontier (m : Minimization α) : Frontier := ⟨m.blocks, m.reached⟩

def Live (m : Minimization α) (s : Nat) : Prop := m.blocks.Live m.live s

instance (m : Minimization α) (s : Nat) : Decidable (m.Live s) := inferInstanceAs (Decidable (m.blocks.Live _ _))

structure Unsplit (m : Minimization α) : Prop where
  front : m.frontier.Valid m.live
  size_eq : m.blocks.size = m.stateCount
  pending_eq : m.blocks.pending = []
  unmarked : ∀ s, m.blocks.marked s = 0
  ends : ∀ e ∈ m.edges, m.Live e.source ∧ m.Live e.target

structure Prunes (direction : Direction) (m m' : Minimization α) : Prop where
  rest : m' = { m with columns := m'.columns, blocks := m'.blocks, live := m'.live, reached := 0 }
  unsplit : m'.Unsplit
  live_iff : ∀ s, m'.Live s ↔ ∃ r, m.frontier.Front r ∧ Relation.ReflTransGen (Along direction m.edges) r s
  edges_eq : m'.edges = m.edges.filter fun e => decide (m'.Live (tail direction e))
  reached_le : m.reached ≤ m'.live
  front_iff : ∀ s, m'.Live s → (m'.blocks.placeOf s < m.reached ↔ m.frontier.Front s)

namespace Prunes

variable {direction : Direction} {m m' : Minimization α}

lemma stateCount_eq (x : Prunes direction m m') : m'.stateCount = m.stateCount := by rw [x.rest]
lemma initial_eq (x : Prunes direction m m') : m'.initial = m.initial := by rw [x.rest]
lemma cords_eq (x : Prunes direction m m') : m'.cords = m.cords := by rw [x.rest]
lemma reached_eq (x : Prunes direction m m') : m'.reached = 0 := by rw [x.rest]
lemma finals_eq (x : Prunes direction m m') : m'.finals = m.finals := by rw [x.rest]

end Prunes

variable {m : Minimization α}

@[simp] lemma edges_store (m : Minimization α) (E : List (Transition α)) : (m.store E).edges = m.edges ++ E :=
  m.columns.rows_append E

lemma sources_eq (m : Minimization α) : m.sources = m.edges.map Transition.source := m.columns.map_source_rows.symm

lemma targets_eq (m : Minimization α) : m.targets = m.edges.map Transition.target := m.columns.map_target_rows.symm

lemma symbols_eq (m : Minimization α) : m.columns.symbols.toList = m.edges.map Transition.symbol :=
  m.columns.map_symbol_rows.symm

lemma ends_eq (direction : Direction) (m : Minimization α) : direction.ends m.sources m.targets =
    (m.edges.map (tail direction), m.edges.map (head direction)) := by
  rw [sources_eq, targets_eq]
  cases direction <;> rfl

lemma Unsplit.tail_live (h : m.Unsplit) (direction : Direction) {e : Transition α} (he : e ∈ m.edges) :
    m.Live (tail direction e) := by
  cases direction
  · exact (h.ends e he).1
  · exact (h.ends e he).2

lemma Unsplit.head_live (h : m.Unsplit) (direction : Direction) {e : Transition α} (he : e ∈ m.edges) :
    m.Live (head direction e) := by
  cases direction
  · exact (h.ends e he).2
  · exact (h.ends e he).1

lemma getElem?_tails {direction : Direction} {c : Columns α} {t : Nat} {e : Transition α} (he : c.rows[t]? = some e) :
    (direction.ends c.sources c.targets).1[t]? = some (tail direction e) := by
  obtain ⟨hsource, htarget, -⟩ := Columns.getElem?_rows_eq_some_iff.mp he
  cases direction
  · exact hsource
  · exact htarget

lemma leaving?_spec {f : Frontier} {live : Nat} (hf : f.Valid live) (direction : Direction) {c : Columns α}
    (h : ∀ e ∈ c.rows, f.states.Live live (tail direction e)) :
    ∃ d, leaving? f.states f.reached direction c = some d ∧
      d.rows = c.rows.filter fun e => decide (f.states.Live f.reached (tail direction e)) := by
  apply Columns.compact?_spec
  intro d t e he hmem
  rw [getElem?_tails he, Option.bind_eq_bind, Option.bind_some, hf.states.position_get (h e hmem).1]
  simp [Partition.Live, (h e hmem).1]

lemma Unsplit.spread?_spec (h : m.Unsplit) (direction : Direction) : ∃ buckets f,
    Buckets.ofTails? m.stateCount (m.edges.map (tail direction)) = some buckets ∧
      Frontier.spread? buckets (m.edges.map (head direction)).toArray m.stateCount 0 m.frontier = some f ∧
      m.frontier.Extends f m.live fun s =>
        ∃ r, m.frontier.Front r ∧ Relation.ReflTransGen (Along direction m.edges) r s := by
  have htail : ∀ s ∈ m.edges.map (tail direction), s < m.stateCount := by
    intro s hs
    obtain ⟨e, he, rfl⟩ := List.mem_map.mp hs
    exact h.size_eq ▸ (h.tail_live direction he).1
  have hhead : ∀ s ∈ m.edges.map (head direction), m.Live s := by
    intro s hs
    obtain ⟨e, he, rfl⟩ := List.mem_map.mp hs
    exact h.head_live direction he
  have hfuel : m.live ≤ 0 + m.stateCount := by
    have hle : m.live ≤ m.blocks.size := h.front.states.live_le
    rwa [Nat.zero_add, ← h.size_eq]
  obtain ⟨buckets, hb, hbucket⟩ := Buckets.ofTails?_spec htail
  obtain ⟨f, hf, x⟩ := h.front.spread?_spec h.size_eq hbucket (by simp) hhead hfuel fun j hj => absurd hj (by omega)
  have hstep : Frontier.Step (m.edges.map (tail direction)) (m.edges.map (head direction)) =
      Along direction m.edges := by
    funext s e
    exact propext step_iff_along
  exact ⟨buckets, f, hb, hf, hstep ▸ x⟩

lemma Unsplit.prunes (h : m.Unsplit) {direction : Direction} {f : Frontier} {q : Partition} {c : Columns α}
    (x : m.frontier.Extends f m.live fun s =>
      ∃ r, m.frontier.Front r ∧ Relation.ReflTransGen (Along direction m.edges) r s)
    (hq : q = { f.states with stop := q.stop }) (hqv : q.Valid f.reached)
    (hc : c.rows = m.edges.filter fun e => decide (f.states.Live f.reached (tail direction e))) :
    Prunes direction m { m with columns := c, blocks := q, live := f.reached, reached := 0 } := by
  set m' : Minimization α := { m with columns := c, blocks := q, live := f.reached, reached := 0 } with hm'
  have hplace : ∀ s, q.placeOf s = f.states.placeOf s := fun s => by
    rw [hq]
    rfl
  have hmarks : ∀ s, q.marked s = m.blocks.marked s := fun s => by
    rw [hq, x.rest]
    rfl
  have hsize : q.size = f.states.size := by
    rw [hq]
    rfl
  have hlive : ∀ s, m'.Live s ↔ f.Front s := fun s => by
    change s < q.size ∧ q.placeOf s < f.reached ↔ _
    rw [hplace, hsize]
    rfl
  have hkept : ∀ s, m'.Live s ↔ ∃ r, m.frontier.Front r ∧ Relation.ReflTransGen (Along direction m.edges) r s := by
    intro s
    rw [hlive, x.front_iff]
    exact ⟨fun hs => hs.elim (fun hs => ⟨s, hs, .refl⟩) id, .inr⟩
  have hends : ∀ e ∈ m'.edges, m'.Live e.source ∧ m'.Live e.target := by
    intro e he
    have he' : e ∈ c.rows := he
    rw [hc, List.mem_filter, decide_eq_true_eq] at he'
    have htail : m'.Live (tail direction e) := (hlive _).mpr he'.2
    have hhead : m'.Live (head direction e) := by
      rw [hkept] at htail ⊢
      obtain ⟨r, hr, hrs⟩ := htail
      exact ⟨r, hr, hrs.tail ⟨e, he'.1, rfl, rfl⟩⟩
    cases direction
    · exact ⟨htail, hhead⟩
    · exact ⟨hhead, htail⟩
  have hone : q.setCount = 1 := by
    rw [hq]
    exact x.valid.setCount_eq
  have hpending : q.pending = [] := by
    rw [hq, x.rest]
    exact h.pending_eq
  exact {
    rest := rfl
    unsplit := {
      front := ⟨hqv, hone, Nat.zero_le _⟩
      size_eq := hsize.trans (x.size_eq.trans h.size_eq)
      pending_eq := hpending
      unmarked := fun s => (hmarks s).trans (h.unmarked s)
      ends := hends }
    live_iff := hkept
    edges_eq := hc.trans (List.filter_congr fun e _ => decide_eq_decide.mpr (hlive _).symm)
    reached_le := x.reached_le
    front_iff := by
      intro s hs
      change q.placeOf s < m.reached ↔ _
      rw [hplace]
      exact x.placeOf_lt_iff h.front ((hlive s).mp hs).1 }

lemma Unsplit.prune?_spec (h : m.Unsplit) (hr : 0 < m.reached) (direction : Direction) :
    ∃ m', m.prune? direction = some m' ∧ Prunes direction m m' := by
  obtain ⟨buckets, f, hb, hf, x⟩ := h.spread?_spec direction
  have hmarks : f.states.marked 0 = 0 := by
    rw [show f.states.marked = m.blocks.marked by rw [x.rest]; rfl]
    exact h.unmarked 0
  obtain ⟨q, hq, hqv, hqe⟩ := x.valid.states.truncate?_spec x.valid.setCount_eq hmarks (hr.trans_le x.reached_le)
    x.valid.reached_le
  obtain ⟨c, hc, hrows⟩ := leaving?_spec x.valid direction fun e he =>
    (x.live_iff _).mpr (h.tail_live direction he)
  refine ⟨_, ?_, h.prunes x hqe hqv hrows⟩
  simp only [prune?, ends_eq, hb, Option.bind_eq_bind, Option.bind_some]
  change (Frontier.spread? _ _ _ _ m.frontier).bind _ = _
  rw [hf, Option.bind_some, hc, Option.bind_some, hq]
  rfl

end Minimization
end PatternInference
