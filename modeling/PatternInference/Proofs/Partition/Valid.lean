import Mathlib.Data.Finset.Card
import Mathlib.Logic.Equiv.Basic
import PatternInference.Partition.Basic
import PatternInference.Proofs.Table

namespace PatternInference.Partition

open Table

def elementAt (p : Partition) (i : Nat) : Nat := val p.order i
def placeOf (p : Partition) (e : Nat) : Nat := val p.position e
def setOf (p : Partition) (e : Nat) : Nat := val p.owner e
def first (p : Partition) (s : Nat) : Nat := val p.start s
def past (p : Partition) (s : Nat) : Nat := val p.stop s
def marked (p : Partition) (s : Nat) : Nat := val p.marks s

/-- The sets tile the first `live` positions; what stands behind them belongs to no set. -/
structure Valid (p : Partition) (live : Nat) : Prop where
  position_size : p.position.size = p.size
  owner_size : p.owner.size = p.size
  start_size : p.size ≤ p.start.size
  stop_size : p.size ≤ p.stop.size
  marks_size : p.size ≤ p.marks.size
  live_le : live ≤ p.size
  elementAt_lt : ∀ i, i < p.size → p.elementAt i < p.size
  placeOf_lt : ∀ e, e < p.size → p.placeOf e < p.size
  placeOf_elementAt : ∀ i, i < p.size → p.placeOf (p.elementAt i) = i
  elementAt_placeOf : ∀ e, e < p.size → p.elementAt (p.placeOf e) = e
  first_lt_past : ∀ s, s < p.setCount → p.first s < p.past s
  past_le : ∀ s, s < p.setCount → p.past s ≤ live
  setOf_eq : ∀ s i, s < p.setCount → p.first s ≤ i → i < p.past s → p.setOf (p.elementAt i) = s
  covered : ∀ i, i < live → p.setOf (p.elementAt i) < p.setCount ∧
    p.first (p.setOf (p.elementAt i)) ≤ i ∧ i < p.past (p.setOf (p.elementAt i))
  first_add_marked_le : ∀ s, s < p.setCount → p.first s + p.marked s ≤ p.past s

def Live (p : Partition) (live e : Nat) : Prop := e < p.size ∧ p.placeOf e < live

def Marked (p : Partition) (live e : Nat) : Prop :=
  p.Live live e ∧ p.placeOf e < p.first (p.setOf e) + p.marked (p.setOf e)

namespace Valid

variable {p : Partition} {live : Nat}

lemma order_get (_ : p.Valid live) {i : Nat} (hi : i < p.size) : p.order[i]? = some (p.elementAt i) :=
  getElem?_eq_val hi

lemma position_get (h : p.Valid live) {e : Nat} (he : e < p.size) :
    p.position[e]? = some (p.placeOf e) :=
  getElem?_eq_val (h.position_size ▸ he)

lemma owner_get (h : p.Valid live) {e : Nat} (he : e < p.size) : p.owner[e]? = some (p.setOf e) :=
  getElem?_eq_val (h.owner_size ▸ he)

lemma live_elementAt (h : p.Valid live) {i : Nat} (hi : i < live) : p.Live live (p.elementAt i) := by
  have hs : i < p.size := hi.trans_le h.live_le
  exact ⟨h.elementAt_lt i hs, by rwa [h.placeOf_elementAt i hs]⟩

lemma nodup_order (h : p.Valid live) : p.order.toList.Nodup := by
  rw [List.nodup_iff_getElem?_ne_getElem?]
  intro i j hij hj heq
  have hj' : j < p.size := hj
  rw [Array.getElem?_toList, Array.getElem?_toList, h.order_get (hij.trans hj'), h.order_get hj'] at heq
  have hplace := congrArg p.placeOf (Option.some.inj heq)
  rw [h.placeOf_elementAt i (hij.trans hj'), h.placeOf_elementAt j hj'] at hplace
  exact hij.ne hplace

lemma mem_take_order_iff (h : p.Valid live) {k e : Nat} (hk : k ≤ live) :
    e ∈ p.order.toList.take k ↔ p.Live k e := by
  have hle := hk.trans h.live_le
  rw [List.mem_iff_getElem?]
  constructor
  · rintro ⟨j, hj⟩
    rw [List.getElem?_take] at hj
    split at hj
    · next hlt =>
      rw [Array.getElem?_toList, h.order_get (hlt.trans_le hle)] at hj
      obtain rfl := Option.some.inj hj
      exact ⟨h.elementAt_lt j (hlt.trans_le hle), by rwa [h.placeOf_elementAt j (hlt.trans_le hle)]⟩
    · cases hj
  · intro he
    refine ⟨p.placeOf e, ?_⟩
    rw [List.getElem?_take_of_lt he.2, Array.getElem?_toList, h.order_get (he.2.trans_le hle),
      h.elementAt_placeOf e he.1]

lemma mem_range (h : p.Valid live) {e : Nat} (he : p.Live live e) :
    p.setOf e < p.setCount ∧ p.first (p.setOf e) ≤ p.placeOf e ∧ p.placeOf e < p.past (p.setOf e) := by
  have hc := h.covered (p.placeOf e) he.2
  rwa [h.elementAt_placeOf e he.1] at hc

lemma range_iff (h : p.Valid live) {i s : Nat} (hs : s < p.setCount) :
    p.first s ≤ i ∧ i < p.past s ↔ i < live ∧ p.setOf (p.elementAt i) = s := by
  constructor
  · rintro ⟨ha, hb⟩
    exact ⟨hb.trans_le (h.past_le s hs), h.setOf_eq s i hs ha hb⟩
  · rintro ⟨hi, rfl⟩
    exact (h.covered i hi).2

lemma first_injective (h : p.Valid live) {s t : Nat} (hs : s < p.setCount) (ht : t < p.setCount)
    (he : p.first s = p.first t) : s = t := by
  have ha := h.setOf_eq s (p.first s) hs le_rfl (h.first_lt_past s hs)
  have hb := h.setOf_eq t (p.first s) ht he.ge (he ▸ h.first_lt_past t ht)
  exact ha.symm.trans hb

lemma first_lt_live (h : p.Valid live) {s : Nat} (hs : s < p.setCount) : p.first s < live :=
  (h.first_lt_past s hs).trans_le (h.past_le s hs)

lemma setCount_le (h : p.Valid live) : p.setCount ≤ live := by
  have hc := Finset.card_le_card_of_injOn (s := Finset.range p.setCount) (t := Finset.range live) p.first
    (fun s hs => by simpa using h.first_lt_live (by simpa using hs))
    (fun s hs t ht => h.first_injective (by simpa using hs) (by simpa using ht))
  simpa using hc

lemma setCount_lt_of_interior (h : p.Valid live) {s i : Nat} (hs : s < p.setCount)
    (ha : p.first s < i) (hb : i < p.past s) : p.setCount < live := by
  -- the position starts no set, so there is room for one more
  have hi : i < live := hb.trans_le (h.past_le s hs)
  have hc := Finset.card_le_card_of_injOn (s := Finset.range p.setCount)
    (t := (Finset.range live).erase i) p.first
    (fun t ht => by
      have ht' : t < p.setCount := by simpa using ht
      simp only [Finset.coe_erase, Finset.coe_range, Set.mem_sdiff, Set.mem_Iio, Set.mem_singleton_iff]
      refine ⟨h.first_lt_live ht', fun he => ?_⟩
      have h₁ := h.setOf_eq s i hs ha.le hb
      have h₂ := h.setOf_eq t i ht' he.le (he ▸ h.first_lt_past t ht')
      obtain rfl : s = t := h₁.symm.trans h₂
      omega)
    (fun s hs t ht => h.first_injective (by simpa using hs) (by simpa using ht))
  rw [Finset.card_range, Finset.card_erase_of_mem (by simpa using hi), Finset.card_range] at hc
  omega

lemma start_get (h : p.Valid live) {s : Nat} (hs : s < p.setCount) : p.start[s]? = some (p.first s) :=
  getElem?_eq_val (by have := h.setCount_le; have := h.live_le; have := h.start_size; omega)

lemma stop_get (h : p.Valid live) {s : Nat} (hs : s < p.setCount) : p.stop[s]? = some (p.past s) :=
  getElem?_eq_val (by have := h.setCount_le; have := h.live_le; have := h.stop_size; omega)

lemma marks_get (h : p.Valid live) {s : Nat} (hs : s < p.setCount) : p.marks[s]? = some (p.marked s) :=
  getElem?_eq_val (by have := h.setCount_le; have := h.live_le; have := h.marks_size; omega)

lemma members?_eq (h : p.Valid live) {s : Nat} (hs : s < p.setCount) :
    p.members? s = some ((List.range' (p.first s) (p.past s - p.first s)).map p.elementAt) := by
  simp only [members?, h.start_get hs, h.stop_get hs, Option.bind_eq_bind, Option.bind_some]
  exact slice?_eq (h.first_lt_past s hs).le ((h.past_le s hs).trans h.live_le)

lemma members?_spec (h : p.Valid live) {s : Nat} (hs : s < p.setCount) :
    ∃ l, p.members? s = some l ∧ ∀ e, e ∈ l ↔ p.Live live e ∧ p.setOf e = s := by
  refine ⟨_, h.members?_eq hs, fun e => ?_⟩
  simp only [List.mem_map, List.mem_range'_1]
  constructor
  · rintro ⟨i, hi, rfl⟩
    have hr := (h.range_iff hs).mp (by omega : p.first s ≤ i ∧ i < p.past s)
    exact ⟨h.live_elementAt hr.1, hr.2⟩
  · rintro ⟨he, rfl⟩
    have hr := h.mem_range he
    exact ⟨p.placeOf e, by omega, h.elementAt_placeOf e he.1⟩

lemma setOf_eq_zero (h : p.Valid live) (hone : p.setCount = 1) {i : Nat} (hi : i < live) :
    p.setOf (p.elementAt i) = 0 := by
  have := (h.covered i hi).1
  omega

lemma range_zero (h : p.Valid live) (hone : p.setCount = 1) : p.first 0 = 0 ∧ p.past 0 = live := by
  have hlt := h.first_lt_past 0 (by omega)
  have hle := h.past_le 0 (by omega)
  have hfirst := (h.covered 0 (by omega)).2.1
  have hpast := (h.covered (live - 1) (by omega)).2.2
  rw [h.setOf_eq_zero hone (by omega)] at hfirst hpast
  omega

lemma truncate?_spec (h : p.Valid live) (hone : p.setCount = 1) (hm : p.marked 0 = 0) {length : Nat} (hpos : 0 < length)
    (hle : length ≤ live) : ∃ q, p.truncate? length = some q ∧ q.Valid length ∧ q = { p with stop := q.stop } := by
  obtain ⟨hfirst, _⟩ := h.range_zero hone
  have hset : ∀ i, i < length → p.setOf (p.elementAt i) = 0 := fun i hi => h.setOf_eq_zero hone (hi.trans_le hle)
  obtain ⟨stop, hstop, hsize, hval⟩ := put?_spec (t := p.stop) (i := 0) length
    (by have := h.stop_size; have := h.live_le; omega)
  set q : Partition := { p with stop := stop } with hq
  have hpast : q.past = Function.update p.past 0 length := hval
  have hzero : ∀ s, s < q.setCount → s = 0 := by
    intro s hs
    have : q.setCount = p.setCount := rfl
    omega
  refine ⟨q, ?_, ?_, rfl⟩
  · simp only [truncate?, hstop, Option.bind_eq_bind, Option.bind_some]
    rfl
  · refine { h with
      stop_size := hsize ▸ h.stop_size, live_le := hle.trans h.live_le, first_lt_past := ?_, past_le := ?_,
      setOf_eq := ?_, covered := ?_, first_add_marked_le := ?_ }
    · intro s hs
      obtain rfl := hzero s hs
      rw [hpast, Function.update_self]
      exact hfirst.trans_lt hpos
    · intro s hs
      obtain rfl := hzero s hs
      rw [hpast, Function.update_self]
    · intro s i hs _ hi
      obtain rfl := hzero s hs
      rw [hpast, Function.update_self] at hi
      exact hset i hi
    · intro i hi
      change p.setOf (p.elementAt i) < p.setCount ∧
        p.first (p.setOf (p.elementAt i)) ≤ i ∧ i < q.past (p.setOf (p.elementAt i))
      rw [hset i hi, hpast, Function.update_self, hfirst]
      exact ⟨by omega, Nat.zero_le i, hi⟩
    · intro s hs
      obtain rfl := hzero s hs
      change p.first 0 + p.marked 0 ≤ q.past 0
      rw [hpast, Function.update_self, hfirst, hm]
      omega

lemma of_order_eq {q : Partition} (h : p.Valid live) (horder : q.order = p.order) (hposition : q.position = p.position)
    (howner : q.owner.size = p.owner.size) (hstart : q.start.size = p.start.size) (hstop : q.stop.size = p.stop.size)
    (hmarks : q.marks.size = p.marks.size) (hlt : ∀ s, s < q.setCount → q.first s < q.past s)
    (hpast : ∀ s, s < q.setCount → q.past s ≤ live)
    (hset : ∀ s i, s < q.setCount → q.first s ≤ i → i < q.past s → q.setOf (p.elementAt i) = s)
    (hcovered : ∀ i, i < live → q.setOf (p.elementAt i) < q.setCount ∧
      q.first (q.setOf (p.elementAt i)) ≤ i ∧ i < q.past (q.setOf (p.elementAt i)))
    (hmarked : ∀ s, s < q.setCount → q.first s + q.marked s ≤ q.past s) : q.Valid live := by
  have hsize : q.size = p.size := congrArg Array.size horder
  have helem : q.elementAt = p.elementAt := congrArg val horder
  have hplace : q.placeOf = p.placeOf := congrArg val hposition
  exact {
    position_size := by rw [hposition, hsize, h.position_size]
    owner_size := by rw [howner, hsize, h.owner_size]
    start_size := by rw [hstart, hsize]; exact h.start_size
    stop_size := by rw [hstop, hsize]; exact h.stop_size
    marks_size := by rw [hmarks, hsize]; exact h.marks_size
    live_le := hsize ▸ h.live_le
    elementAt_lt := by rw [hsize, helem]; exact h.elementAt_lt
    placeOf_lt := by rw [hsize, hplace]; exact h.placeOf_lt
    placeOf_elementAt := by rw [hsize, helem, hplace]; exact h.placeOf_elementAt
    elementAt_placeOf := by rw [hsize, helem, hplace]; exact h.elementAt_placeOf
    first_lt_past := hlt
    past_le := hpast
    setOf_eq := helem ▸ hset
    covered := helem ▸ hcovered
    first_add_marked_le := hmarked }

lemma isFirst?_spec (h : p.Valid live) {e : Nat} (he : p.Live live e) :
    p.isFirst? e = some (p.placeOf e == p.first (p.setOf e)) := by
  simp only [isFirst?, h.position_get he.1, h.owner_get he.1, Option.bind_eq_bind, Option.bind_some]
  rw [h.start_get (h.mem_range he).1]
  rfl

end Valid

lemma marked_whole (n s : Nat) : (whole n).marked s = 0 := val_replicate _ _

lemma whole_valid (n : Nat) : (whole n).Valid n := by
  have helem : ∀ i, i < n → (whole n).elementAt i = i := fun i hi =>
    (val_eq_of_getElem? (by simp [whole, hi])).2
  have hplace : ∀ i, i < n → (whole n).placeOf i = i := fun i hi =>
    (val_eq_of_getElem? (by simp [whole, hi])).2
  have hset : ∀ e, (whole n).setOf e = 0 := val_replicate n
  have hfirst : ∀ s, (whole n).first s = 0 := val_replicate (max n 1)
  have hpast : (whole n).past 0 = n := (val_eq_of_getElem? (by simp [whole])).2
  have hsize : (whole n).size = n := by simp [whole, size]
  have hcount : ∀ s, s < (whole n).setCount ↔ s = 0 ∧ 0 < n := by
    intro s
    simp only [whole]
    omega
  exact {
    position_size := by simp [whole, size]
    owner_size := by simp [whole, size]
    start_size := by simp [whole, size]
    stop_size := by simp [whole, size]
    marks_size := by simp [whole, size]
    live_le := hsize.ge
    elementAt_lt := by
      rw [hsize]
      intro i hi
      rwa [helem i hi]
    placeOf_lt := by
      rw [hsize]
      intro e he
      rwa [hplace e he]
    placeOf_elementAt := by
      rw [hsize]
      intro i hi
      rw [helem i hi, hplace i hi]
    elementAt_placeOf := by
      rw [hsize]
      intro e he
      rw [hplace e he, helem e he]
    first_lt_past := by
      intro s hs
      obtain ⟨rfl, hn⟩ := (hcount s).mp hs
      rwa [hfirst, hpast]
    past_le := by
      intro s hs
      obtain ⟨rfl, -⟩ := (hcount s).mp hs
      exact hpast.le
    setOf_eq := by
      intro s i hs _ _
      rw [hset, ((hcount s).mp hs).1]
    covered := by
      intro i hi
      rw [hset, hfirst, hpast]
      exact ⟨(hcount 0).mpr ⟨rfl, by omega⟩, Nat.zero_le i, hi⟩
    first_add_marked_le := by
      intro s _
      rw [hfirst, marked_whole]
      exact Nat.zero_le _ }

end PatternInference.Partition
