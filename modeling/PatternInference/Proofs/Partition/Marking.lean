import PatternInference.Proofs.Partition.Valid

namespace PatternInference.Partition

open Table

variable {p q r : Partition} {live i j : Nat}

structure Exchange (p q : Partition) (i j : Nat) : Prop where
  rest : q = { p with order := q.order, position := q.position }
  size_eq : q.size = p.size
  position_size : q.position.size = p.position.size
  elementAt_eq : ∀ k, q.elementAt k = p.elementAt (Equiv.swap i j k)
  placeOf_eq : ∀ e, e < p.size → q.placeOf e = Equiv.swap i j (p.placeOf e)

lemma Valid.swap?_spec (h : p.Valid live) (hi : i < p.size) (hj : j < p.size) :
    ∃ q, p.swap? i j = some q ∧ Exchange p q i j := by
  have hpi := h.placeOf_elementAt i hi
  have hpj := h.placeOf_elementAt j hj
  obtain ⟨o, ho, hosize, hoin, hoout⟩ := scatter?_spec (t := p.order)
    [(i, p.elementAt j), (j, p.elementAt i)]
    (by rintro e he; simp only [List.mem_cons, List.not_mem_nil, or_false] at he
        rcases he with rfl | rfl <;> assumption)
    (by simp only [List.mem_cons, List.not_mem_nil, or_false]
        rintro _ (rfl | rfl) _ (rfl | rfl) hk <;> simp_all)
  obtain ⟨l, hl, hlsize, hlin, hlout⟩ := scatter?_spec (t := p.position)
    [(p.elementAt j, i), (p.elementAt i, j)]
    (by rintro e he; simp only [List.mem_cons, List.not_mem_nil, or_false] at he
        rw [h.position_size]
        rcases he with rfl | rfl
        · exact h.elementAt_lt j hj
        · exact h.elementAt_lt i hi)
    (by simp only [List.mem_cons, List.not_mem_nil, or_false]
        rintro _ (rfl | rfl) _ (rfl | rfl) hk <;> dsimp only at hk ⊢
        · rw [← hpi, ← hpj, hk]
        · rw [← hpi, ← hpj, hk])
  refine ⟨{ p with order := o, position := l }, ?_, rfl, hosize, hlsize, ?_, ?_⟩
  · simp only [swap?, h.order_get hi, h.order_get hj, Option.bind_eq_bind, Option.bind_some, ho, hl]
    rfl
  · intro k
    change val o k = _
    by_cases hki : k = i
    · rw [hki, Equiv.swap_apply_left]
      exact hoin (i, p.elementAt j) (by simp)
    · by_cases hkj : k = j
      · rw [hkj, Equiv.swap_apply_right]
        exact hoin (j, p.elementAt i) (by simp)
      · rw [Equiv.swap_apply_of_ne_of_ne hki hkj]
        exact hoout k (by simp [hki, hkj])
  · intro e he
    change val l e = _
    by_cases hei : p.placeOf e = i
    · have hx : p.elementAt i = e := by rw [← hei, h.elementAt_placeOf e he]
      rw [hei, Equiv.swap_apply_left, ← hx]
      exact hlin (p.elementAt i, j) (by simp)
    · by_cases hej : p.placeOf e = j
      · have hx : p.elementAt j = e := by rw [← hej, h.elementAt_placeOf e he]
        rw [hej, Equiv.swap_apply_right, ← hx]
        exact hlin (p.elementAt j, i) (by simp)
      · rw [Equiv.swap_apply_of_ne_of_ne hei hej]
        refine hlout e ?_
        simp only [List.map_cons, List.map_nil, List.mem_cons, List.not_mem_nil, or_false, not_or]
        exact ⟨fun hx => hej (by rw [hx, hpj]), fun hx => hei (by rw [hx, hpi])⟩

namespace Exchange

lemma setOf_eq (x : Exchange p q i j) : q.setOf = p.setOf := by rw [x.rest]; rfl
lemma first_eq (x : Exchange p q i j) : q.first = p.first := by rw [x.rest]; rfl
lemma past_eq (x : Exchange p q i j) : q.past = p.past := by rw [x.rest]; rfl
lemma marked_eq (x : Exchange p q i j) : q.marked = p.marked := by rw [x.rest]; rfl
lemma setCount_eq (x : Exchange p q i j) : q.setCount = p.setCount := by rw [x.rest]
lemma pending_eq (x : Exchange p q i j) : q.pending = p.pending := by rw [x.rest]
lemma marks_eq (x : Exchange p q i j) : q.marks = p.marks := by rw [x.rest]

lemma swap_lt {n k : Nat} (hi : i < n) (hj : j < n) (hk : k < n) : Equiv.swap i j k < n := by
  rw [Equiv.swap_apply_def]
  split_ifs <;> assumption

lemma same_set (hs : p.setOf (p.elementAt i) = p.setOf (p.elementAt j)) (k : Nat) :
    p.setOf (p.elementAt (Equiv.swap i j k)) = p.setOf (p.elementAt k) := by
  rw [Equiv.swap_apply_def]
  split_ifs with hi hj
  · rw [hi, hs]
  · rw [hj, hs]
  · rfl

lemma valid_of_setOf_eq (x : Exchange p q i j) (h : p.Valid live) (hin : i < p.size) (hjn : j < p.size)
    (hsets : ∀ k, k < live → p.setOf (p.elementAt (Equiv.swap i j k)) = p.setOf (p.elementAt k)) : q.Valid live := by
  have hset : ∀ k, k < live → q.setOf (q.elementAt k) = p.setOf (p.elementAt k) := by
    intro k hk
    rw [x.setOf_eq, x.elementAt_eq, hsets k hk]
  exact {
    position_size := by rw [x.position_size, x.size_eq, h.position_size]
    owner_size := by
      rw [x.size_eq, x.rest]
      exact h.owner_size
    start_size := by
      rw [x.size_eq, x.rest]
      exact h.start_size
    stop_size := by
      rw [x.size_eq, x.rest]
      exact h.stop_size
    marks_size := by
      rw [x.size_eq, x.rest]
      exact h.marks_size
    live_le := x.size_eq ▸ h.live_le
    elementAt_lt := by
      rw [x.size_eq]
      intro k hk
      rw [x.elementAt_eq]
      exact h.elementAt_lt _ (swap_lt hin hjn hk)
    placeOf_lt := by
      rw [x.size_eq]
      intro e he
      rw [x.placeOf_eq e he]
      exact swap_lt hin hjn (h.placeOf_lt e he)
    placeOf_elementAt := by
      rw [x.size_eq]
      intro k hk
      have hk' := swap_lt hin hjn hk
      rw [x.elementAt_eq, x.placeOf_eq _ (h.elementAt_lt _ hk'), h.placeOf_elementAt _ hk', Equiv.swap_apply_self]
    elementAt_placeOf := by
      rw [x.size_eq]
      intro e he
      rw [x.elementAt_eq, x.placeOf_eq e he, Equiv.swap_apply_self, h.elementAt_placeOf e he]
    first_lt_past := by
      rw [x.setCount_eq, x.first_eq, x.past_eq]
      exact h.first_lt_past
    past_le := by
      rw [x.setCount_eq, x.past_eq]
      exact h.past_le
    setOf_eq := by
      rw [x.setCount_eq, x.first_eq, x.past_eq]
      intro s k hs ha hb
      rw [hset k (hb.trans_le (h.past_le s hs)), h.setOf_eq s k hs ha hb]
    covered := by
      intro k hk
      rw [hset k hk, x.setCount_eq, x.first_eq, x.past_eq]
      exact h.covered k hk
    first_add_marked_le := by
      rw [x.setCount_eq, x.first_eq, x.past_eq, x.marked_eq]
      exact h.first_add_marked_le }

lemma valid (x : Exchange p q i j) (h : p.Valid live) (hi : i < live) (hj : j < live)
    (hs : p.setOf (p.elementAt i) = p.setOf (p.elementAt j)) : q.Valid live :=
  x.valid_of_setOf_eq h (hi.trans_le h.live_le) (hj.trans_le h.live_le) fun k _ => same_set hs k

lemma live_iff (x : Exchange p q i j) (hi : i < live) (hj : j < live) (e : Nat) :
    q.Live live e ↔ p.Live live e := by
  simp only [Live, x.size_eq]
  refine and_congr_right fun he => ?_
  rw [x.placeOf_eq e he]
  constructor
  · intro hlt
    simpa using swap_lt hi hj hlt
  · exact swap_lt hi hj

end Exchange

/-- Only sets with marks are listed, each once. A set that a cancelled split forgot has marks and is not listed. -/
def Listed (p : Partition) : Prop :=
  p.pending.Nodup ∧ ∀ s, s ∈ p.pending → s < p.setCount ∧ 0 < p.marked s

def Touched (p : Partition) : Prop :=
  p.pending.Nodup ∧ ∀ s, s ∈ p.pending ↔ s < p.setCount ∧ 0 < p.marked s

lemma touched_iff : p.Touched ↔ p.Listed ∧ ∀ s, s < p.setCount → 0 < p.marked s → s ∈ p.pending := by
  constructor
  · rintro ⟨hn, hiff⟩
    exact ⟨⟨hn, fun s hs => (hiff s).mp hs⟩, fun s hs hm => (hiff s).mpr ⟨hs, hm⟩⟩
  · rintro ⟨⟨hn, hlisted⟩, hall⟩
    exact ⟨hn, fun s => ⟨hlisted s, fun ⟨hs, hm⟩ => hall s hs hm⟩⟩

structure Gained (p q : Partition) (s k : Nat) : Prop where
  lt : s < p.setCount
  pos : 0 < k
  setCount_eq : q.setCount = p.setCount
  marked_eq : q.marked = Function.update p.marked s k
  pending_eq : q.pending = if p.marked s = 0 then s :: p.pending else p.pending

namespace Gained

variable {s k : Nat}

lemma mem_pending_iff (x : Gained p q s k) {t : Nat} :
    t ∈ q.pending ↔ t ∈ p.pending ∨ t = s ∧ p.marked s = 0 := by
  rw [x.pending_eq]
  split_ifs with hz
  · simp [hz, or_comm]
  · simp [hz]

lemma listed (x : Gained p q s k) (h : p.Listed) : q.Listed := by
  refine ⟨?_, fun t ht => ?_⟩
  · rw [x.pending_eq]
    split_ifs with hz
    · exact List.nodup_cons.mpr ⟨fun hs => by have := (h.2 s hs).2; omega, h.1⟩
    · exact h.1
  · rw [x.setCount_eq, x.marked_eq]
    by_cases hts : t = s
    · rw [hts, Function.update_self]
      exact ⟨x.lt, x.pos⟩
    · rw [Function.update_of_ne hts]
      exact h.2 t ((x.mem_pending_iff.mp ht).resolve_right fun heq => hts heq.1)

lemma touched (x : Gained p q s k) (h : p.Touched) : q.Touched := by
  obtain ⟨hlisted, hall⟩ := touched_iff.mp h
  refine touched_iff.mpr ⟨x.listed hlisted, fun t ht hm => ?_⟩
  rw [x.setCount_eq] at ht
  rw [x.marked_eq] at hm
  rw [x.mem_pending_iff]
  by_cases hz : p.marked t = 0
  · by_cases hts : t = s
    · exact .inr ⟨hts, hts ▸ hz⟩
    · rw [Function.update_of_ne hts] at hm
      omega
  · exact .inl (hall t ht (Nat.pos_of_ne_zero hz))

end Gained

structure Clean (p : Partition) (live : Nat) : Prop where
  valid : p.Valid live
  pending_eq : p.pending = []
  unmarked : ∀ s, s < p.setCount → p.marked s = 0

lemma Clean.touched (h : p.Clean live) : p.Touched := by
  refine ⟨by rw [h.pending_eq]; exact List.nodup_nil, fun s => ?_⟩
  rw [h.pending_eq]
  simp only [List.not_mem_nil, false_iff, not_and]
  intro hs
  rw [h.unmarked s hs]
  exact Nat.lt_irrefl 0

lemma Clean.not_marked (h : p.Clean live) (e : Nat) : ¬ p.Marked live e := by
  rintro ⟨he, hlt⟩
  have hr := h.valid.mem_range he
  rw [h.unmarked _ hr.1] at hlt
  omega

structure Marking (p q : Partition) (live : Nat) (M : Nat → Prop) : Prop where
  valid : q.Valid live
  touched : q.Touched
  size_eq : q.size = p.size
  live_iff : ∀ e, q.Live live e ↔ p.Live live e
  setOf_eq : q.setOf = p.setOf
  setCount_eq : q.setCount = p.setCount
  stays : ∀ i, i < live → p.setOf (q.elementAt i) = p.setOf (p.elementAt i)
  marked_iff : ∀ e, q.Marked live e ↔ p.Marked live e ∨ M e

namespace Marking

variable {M N : Nat → Prop}

lemma refl (h : p.Valid live) (ht : p.Touched) (hM : ∀ e, M e → p.Marked live e) :
    Marking p p live M :=
  ⟨h, ht, rfl, fun _ => Iff.rfl, rfl, rfl, fun _ _ => rfl, fun e => ⟨.inl, (·.elim id (hM e))⟩⟩

lemma trans (h₁ : Marking p q live M) (h₂ : Marking q r live N) :
    Marking p r live fun e => M e ∨ N e := by
  refine ⟨h₂.valid, h₂.touched, h₂.size_eq.trans h₁.size_eq, fun e => (h₂.live_iff e).trans (h₁.live_iff e),
    h₂.setOf_eq.trans h₁.setOf_eq, h₂.setCount_eq.trans h₁.setCount_eq, fun i hi => ?_, fun e => ?_⟩
  · have hs := h₂.stays i hi
    rw [h₁.setOf_eq] at hs
    rw [hs, h₁.stays i hi]
  · rw [h₂.marked_iff, h₁.marked_iff, or_assoc]

lemma congr (h : Marking p q live M) (he : ∀ e, M e ↔ N e) : Marking p q live N :=
  { h with marked_iff := fun e => by rw [h.marked_iff, he] }

lemma foldlM {ι : Type} {step : Partition → ι → Option Partition} {N : ι → Nat → Prop} {xs : List ι}
    (h : p.Valid live) (ht : p.Touched)
    (hstep : ∀ x ∈ xs, ∀ p', p'.Valid live → p'.Touched → (∀ e, p'.Live live e ↔ p.Live live e) →
      ∃ q, step p' x = some q ∧ Marking p' q live (N x)) :
    ∃ q, xs.foldlM step p = some q ∧ Marking p q live fun e => ∃ x ∈ xs, N x e := by
  induction xs generalizing p with
  | nil => exact ⟨p, rfl, refl h ht (by simp)⟩
  | cons x xs ih =>
    obtain ⟨q, hq, hm⟩ := hstep x (by simp) p h ht fun _ => Iff.rfl
    obtain ⟨r, hr, hn⟩ := ih hm.valid hm.touched fun y hy p' hp ht hl =>
      hstep y (by simp [hy]) p' hp ht fun e => (hl e).trans (hm.live_iff e)
    refine ⟨r, ?_, (hm.trans hn).congr fun e => by simp⟩
    rw [List.foldlM_cons, hq]
    exact hr

end Marking

structure Promoted (p q : Partition) (live e : Nat) : Prop where
  valid : q.Valid live
  gained : Gained p q (p.setOf e) (p.marked (p.setOf e) + 1)
  size_eq : q.size = p.size
  live_iff : ∀ f, q.Live live f ↔ p.Live live f
  setOf_eq : q.setOf = p.setOf
  stays : ∀ i, i < live → p.setOf (q.elementAt i) = p.setOf (p.elementAt i)
  marked_iff : ∀ f, q.Marked live f ↔ p.Marked live f ∨ f = e

lemma Valid.withMarks {s k : Nat} {table : Array Nat} {pending : List Nat} (h : p.Valid live)
    (hsize : table.size = p.marks.size) (hval : val table = Function.update p.marked s k)
    (hk : p.first s + k ≤ p.past s) : Valid { p with marks := table, pending } live := by
  refine { h with marks_size := hsize ▸ h.marks_size, first_add_marked_le := fun t ht => ?_ }
  change p.first t + val table t ≤ p.past t
  rw [hval]
  by_cases hts : t = s
  · rw [hts, Function.update_self]
    exact hk
  · rw [Function.update_of_ne hts]
    exact h.first_add_marked_le t ht

lemma Valid.swap_lt_iff {e y border : Nat} (h : p.Valid live) (he : p.Live live e) (hy : p.Live live y)
    (hborder : border = p.first (p.setOf e) + p.marked (p.setOf e)) (hge : border ≤ p.placeOf e) :
    Equiv.swap (p.placeOf e) border (p.placeOf y) <
        p.first (p.setOf y) + Function.update p.marked (p.setOf e) (p.marked (p.setOf e) + 1) (p.setOf y) ↔
      p.placeOf y < p.first (p.setOf y) + p.marked (p.setOf y) ∨ y = e := by
  obtain ⟨hs, _, hpast⟩ := h.mem_range he
  have hinj : y = e ↔ p.placeOf y = p.placeOf e := by
    refine ⟨fun hye => hye ▸ rfl, fun hp => ?_⟩
    rw [← h.elementAt_placeOf y hy.1, hp, h.elementAt_placeOf e he.1]
  rw [hinj]
  by_cases hys : p.setOf y = p.setOf e
  · rw [hys, Function.update_self, Equiv.swap_apply_def]
    split_ifs <;> omega
  · have hne : p.placeOf y ≠ p.placeOf e := fun hp => hys (by rw [hinj.mpr hp])
    have hnb : p.placeOf y ≠ border := by
      intro hp
      have hset := h.setOf_eq (p.setOf e) border hs (by omega) (by omega)
      rw [← hp, h.elementAt_placeOf y hy.1] at hset
      exact hys hset
    rw [Function.update_of_ne hys, Equiv.swap_apply_of_ne_of_ne hne hnb]
    simp [hne]

lemma Exchange.promoted {e border : Nat} {table : Array Nat} {pending : List Nat} (x : Exchange p q (p.placeOf e) border)
    (h : p.Valid live) (he : p.Live live e) (hborder : border = p.first (p.setOf e) + p.marked (p.setOf e))
    (hge : border ≤ p.placeOf e) (hsize : table.size = q.marks.size)
    (hval : val table = Function.update p.marked (p.setOf e) (p.marked (p.setOf e) + 1))
    (hpending : pending = if p.marked (p.setOf e) = 0 then p.setOf e :: q.pending else q.pending) :
    Promoted p { q with marks := table, pending } live e := by
  obtain ⟨hs, _, hpast⟩ := h.mem_range he
  have hlt : border < live := (by omega : border < p.past (p.setOf e)).trans_le (h.past_le _ hs)
  have hsame : p.setOf (p.elementAt (p.placeOf e)) = p.setOf (p.elementAt border) := by
    rw [h.elementAt_placeOf e he.1, h.setOf_eq _ border hs (by omega) (by omega)]
  have hlive := x.live_iff he.2 hlt
  have hvalid : Valid { q with marks := table, pending } live :=
    (x.valid h he.2 hlt hsame).withMarks hsize (by rw [hval, x.marked_eq]) (by rw [x.first_eq, x.past_eq]; omega)
  refine ⟨hvalid, ⟨hs, Nat.succ_pos _, x.setCount_eq, hval, ?_⟩, x.size_eq, hlive, x.setOf_eq, fun k _ => ?_, fun y => ?_⟩
  · rw [← x.pending_eq]
    exact hpending
  · change p.setOf (q.elementAt k) = _
    rw [x.elementAt_eq, Exchange.same_set hsame]
  · change q.Live live y ∧ q.placeOf y < q.first (q.setOf y) + val table (q.setOf y) ↔ _
    rw [hlive, hval, x.setOf_eq, x.first_eq, Marked]
    by_cases hy : p.Live live y
    · rw [and_iff_right hy, and_iff_right hy, x.placeOf_eq y hy.1, h.swap_lt_iff he hy hborder hge]
    · have hye : y ≠ e := fun hye => hy (hye ▸ he)
      simp [hy, hye]

lemma Valid.mark?_eq (h : p.Valid live) {e : Nat} (he : p.Live live e) :
    p.mark? e = if p.placeOf e < p.first (p.setOf e) + p.marked (p.setOf e) then some p else
      (p.swap? (p.placeOf e) (p.first (p.setOf e) + p.marked (p.setOf e))).bind fun q =>
        (put? q.marks (p.setOf e) (p.marked (p.setOf e) + 1)).bind fun table =>
          some { q with
            marks := table
            pending := if p.marked (p.setOf e) = 0 then p.setOf e :: q.pending else q.pending } := by
  have hs := (h.mem_range he).1
  simp only [mark?, h.owner_get he.1, h.position_get he.1, h.marks_get hs, h.start_get hs, Option.bind_eq_bind, Option.bind_some]
  rfl

lemma Valid.mark?_cases (h : p.Valid live) {e : Nat} (he : p.Live live e) :
    p.Marked live e ∧ p.mark? e = some p ∨ ∃ q, p.mark? e = some q ∧ Promoted p q live e := by
  rw [h.mark?_eq he]
  split
  · next hlt => exact .inl ⟨⟨he, hlt⟩, rfl⟩
  · next hge =>
    right
    obtain ⟨hs, _, hpast⟩ := h.mem_range he
    have hborder : p.first (p.setOf e) + p.marked (p.setOf e) < p.size :=
      (by omega : _ < p.past (p.setOf e)).trans_le ((h.past_le _ hs).trans h.live_le)
    obtain ⟨q, hq, x⟩ := h.swap?_spec (he.2.trans_le h.live_le) hborder
    have hmarks : p.setOf e < q.marks.size := by
      rw [x.marks_eq]
      exact ((hs.trans_le h.setCount_le).trans_le h.live_le).trans_le h.marks_size
    obtain ⟨table, htable, hsize, hval⟩ := put?_spec (p.marked (p.setOf e) + 1) hmarks
    rw [hq, Option.bind_some, htable]
    exact ⟨_, rfl, x.promoted h he rfl (Nat.le_of_not_lt hge) hsize (by rw [hval, x.marks_eq]; rfl) rfl⟩

lemma Valid.mark?_spec (h : p.Valid live) (ht : p.Touched) {e : Nat} (he : p.Live live e) :
    ∃ q, p.mark? e = some q ∧ Marking p q live (· = e) := by
  rcases h.mark?_cases he with ⟨hm, hp⟩ | ⟨q, hq, x⟩
  · exact ⟨p, hp, .refl h ht fun f hf => hf ▸ hm⟩
  · exact ⟨q, hq, x.valid, x.gained.touched ht, x.size_eq, x.live_iff, x.setOf_eq, x.gained.setCount_eq, x.stays,
      x.marked_iff⟩

lemma Valid.markFirst?_cases (h : p.Valid live) {s length : Nat} (hs : s < p.setCount) (hm : p.marked s = 0)
    (hl : p.first s + length ≤ p.past s) :
    length = 0 ∧ p.markFirst? s length = some p ∨ ∃ q, p.markFirst? s length = some q ∧ q.Valid live ∧
      Gained p q s length ∧ q = { p with marks := q.marks, pending := q.pending } := by
  by_cases hz : length = 0
  · exact .inl ⟨hz, by simp [markFirst?, hz]⟩
  · right
    have hsize : s < p.size := (hs.trans_le h.setCount_le).trans_le h.live_le
    obtain ⟨table, htable, htsize, hval⟩ := put?_spec (t := p.marks) length (hsize.trans_le h.marks_size)
    set q : Partition := { p with marks := table, pending := s :: p.pending } with hq
    have hmarked : q.marked = Function.update p.marked s length := hval
    exact ⟨q, by simp [markFirst?, hz, htable, hq], h.withMarks htsize hval hl,
      ⟨hs, Nat.pos_of_ne_zero hz, rfl, hmarked, (if_pos hm).symm⟩, rfl⟩

lemma Valid.markFirst?_spec (h : p.Valid live) (ht : p.Touched) {s : Nat} (length : Nat) (hs : s < p.setCount)
    (hm : p.marked s = 0) (hl : p.first s + length ≤ p.past s) :
    ∃ q, p.markFirst? s length = some q ∧ q.position = p.position ∧
      Marking p q live fun e => p.Live live e ∧ p.setOf e = s ∧ p.placeOf e < p.first s + length := by
  rcases h.markFirst?_cases hs hm hl with ⟨rfl, hp⟩ | ⟨q, hq, hv, x, hrest⟩
  · refine ⟨p, hp, rfl, .refl h ht ?_⟩
    rintro e ⟨he, rfl, hlt⟩
    have := (h.mem_range he).2.1
    omega
  · have hsize : q.size = p.size := by rw [hrest]; rfl
    have hposition : q.position = p.position := by rw [hrest]
    have hset : q.setOf = p.setOf := by rw [hrest]; rfl
    have hfirst : q.first = p.first := by rw [hrest]; rfl
    have hplace : q.placeOf = p.placeOf := by rw [hrest]; rfl
    have helem : q.elementAt = p.elementAt := by rw [hrest]; rfl
    have hlive : ∀ e, q.Live live e ↔ p.Live live e := fun e => by simp only [Live, hsize, hplace]
    refine ⟨q, hq, hposition, hv, x.touched ht, hsize, hlive, hset, x.setCount_eq, fun i _ => by rw [helem],
      fun e => ?_⟩
    simp only [Marked, hlive, hset, hplace, hfirst, x.marked_eq]
    by_cases hes : p.setOf e = s
    · rw [hes, Function.update_self, hm]
      constructor
      · exact fun hh => .inr ⟨hh.1, rfl, hh.2⟩
      · rintro (⟨he, hlt⟩ | ⟨he, _, hlt⟩)
        · exact ⟨he, by omega⟩
        · exact ⟨he, hlt⟩
    · simp [hes]

end PatternInference.Partition
