import PatternInference.Partition.Split
import PatternInference.Proofs.Partition.Marking

/-! Splitting separates the marked elements of each set from the others, and nothing else. -/

namespace PatternInference.Partition

open Table

variable {p q r : Partition} {live : Nat}

/-- The range of set `s` becomes two, that of the fresh set and that which `s` keeps. -/
structure Carved (p r : Partition) (live s a b c d : Nat) : Prop where
  order_eq : r.order = p.order
  position_eq : r.position = p.position
  pending_eq : r.pending = p.pending
  setCount_eq : r.setCount = p.setCount + 1
  owner_size : r.owner.size = p.owner.size
  start_size : r.start.size = p.start.size
  stop_size : r.stop.size = p.stop.size
  marks_size : r.marks.size = p.marks.size
  first_eq : r.first = Function.update (Function.update p.first p.setCount a) s c
  past_eq : r.past = Function.update (Function.update p.past p.setCount b) s d
  marked_eq : r.marked = Function.update (Function.update p.marked p.setCount 0) s 0
  setOf_eq : ∀ e, e < p.size →
    r.setOf e = if a ≤ p.placeOf e ∧ p.placeOf e < b then p.setCount else p.setOf e

lemma Valid.carve (h : p.Valid live) {s a b c d : Nat} (hs : s < p.setCount) (hlt : p.setCount < live)
    (hab : a ≤ b) (hb : b ≤ p.size) :
    ∃ q r, assign? { p with setCount := p.setCount + 1 } p.setCount a b = some q ∧
      q.keep? s c d = some r ∧ Carved p r live s a b c d := by
  have hsize : live ≤ p.size := h.live_le
  obtain ⟨t₁, ht₁, hsz₁, hv₁⟩ := put?_spec (t := p.start) a (by have := h.start_size; omega : p.setCount < _)
  obtain ⟨t₂, ht₂, hsz₂, hv₂⟩ := put?_spec (t := p.stop) b (by have := h.stop_size; omega : p.setCount < _)
  obtain ⟨t₃, ht₃, hsz₃, hv₃⟩ := put?_spec (t := p.marks) 0 (by have := h.marks_size; omega : p.setCount < _)
  obtain ⟨o, ho, hosz, hov⟩ := scatter?_constant (t := p.owner)
    ((List.range' a (b - a)).map (val p.order)) p.setCount (by
      intro k hk
      obtain ⟨i, hi, rfl⟩ := List.mem_map.mp hk
      rw [List.mem_range'_1] at hi
      rw [h.owner_size]
      exact h.elementAt_lt i (by omega))
  obtain ⟨u₁, hu₁, husz₁, huv₁⟩ := put?_spec (t := t₁) c (by have := h.start_size; omega : s < _)
  obtain ⟨u₂, hu₂, husz₂, huv₂⟩ := put?_spec (t := t₂) d (by have := h.stop_size; omega : s < _)
  obtain ⟨u₃, hu₃, husz₃, huv₃⟩ := put?_spec (t := t₃) 0 (by have := h.marks_size; omega : s < _)
  refine ⟨{ p with setCount := p.setCount + 1, start := t₁, stop := t₂, marks := t₃, owner := o },
    { p with setCount := p.setCount + 1, start := u₁, stop := u₂, marks := u₃, owner := o }, ?_, ?_,
    rfl, rfl, rfl, rfl, hosz, husz₁.trans hsz₁, husz₂.trans hsz₂, husz₃.trans hsz₃, ?_, ?_, ?_, ?_⟩
  · simp only [assign?, slice?_eq hab hb, ht₁, ht₂, ht₃, ho, Option.bind_eq_bind, Option.bind_some]
    rfl
  · simp only [keep?, hu₁, hu₂, hu₃, Option.bind_eq_bind, Option.bind_some]
    rfl
  · exact huv₁.trans (congrArg (Function.update · s c) hv₁)
  · exact huv₂.trans (congrArg (Function.update · s d) hv₂)
  · exact huv₃.trans (congrArg (Function.update · s 0) hv₃)
  · intro e he
    refine (hov e).trans (if_congr ?_ rfl rfl)
    simp only [List.mem_map, List.mem_range'_1]
    constructor
    · rintro ⟨i, hi, rfl⟩
      rw [show p.placeOf (val p.order i) = i from h.placeOf_elementAt i (by omega)]
      omega
    · intro hi
      exact ⟨p.placeOf e, by omega, h.elementAt_placeOf e he⟩

structure Parts (p : Partition) (s a b c d : Nat) : Prop where
  fresh_lt : a < b
  kept_lt : c < d
  disjoint : b ≤ c ∨ d ≤ a
  range_iff : ∀ i, p.first s ≤ i ∧ i < p.past s ↔ a ≤ i ∧ i < b ∨ c ≤ i ∧ i < d

namespace Carved

variable {s a b c d : Nat}

lemma cases (x : Carved p r live s a b c d) (hs : s < p.setCount) {t : Nat} (ht : t < r.setCount) :
    t = s ∧ r.first t = c ∧ r.past t = d ∧ r.marked t = 0 ∨
      t = p.setCount ∧ r.first t = a ∧ r.past t = b ∧ r.marked t = 0 ∨
      (t < p.setCount ∧ t ≠ s) ∧ r.first t = p.first t ∧ r.past t = p.past t ∧ r.marked t = p.marked t := by
  rw [x.setCount_eq] at ht
  by_cases hts : t = s
  · exact .inl ⟨hts, by simp [x.first_eq, x.past_eq, x.marked_eq, hts]⟩
  · by_cases hfresh : t = p.setCount
    · exact .inr (.inl ⟨hfresh, by simp [x.first_eq, x.past_eq, x.marked_eq, hfresh, hs.ne']⟩)
    · exact .inr (.inr ⟨by omega, by simp [x.first_eq, x.past_eq, x.marked_eq, hts, hfresh]⟩)

lemma size_eq (x : Carved p r live s a b c d) : r.size = p.size := congrArg Array.size x.order_eq

lemma elementAt_eq (x : Carved p r live s a b c d) : r.elementAt = p.elementAt := by
  funext i
  simp only [elementAt, x.order_eq]

lemma placeOf_eq (x : Carved p r live s a b c d) : r.placeOf = p.placeOf := by
  funext e
  simp only [placeOf, x.position_eq]

lemma live_iff (x : Carved p r live s a b c d) (e : Nat) : r.Live live e ↔ p.Live live e := by
  rw [Live, Live, x.size_eq, x.placeOf_eq]

lemma setOf_elementAt (x : Carved p r live s a b c d) (h : p.Valid live) {i : Nat} (hi : i < live) :
    r.setOf (r.elementAt i) = if a ≤ i ∧ i < b then p.setCount else p.setOf (p.elementAt i) := by
  have hsize := hi.trans_le h.live_le
  rw [x.elementAt_eq, x.setOf_eq _ (h.elementAt_lt i hsize), h.placeOf_elementAt i hsize]

lemma setOf_of_mem (x : Carved p r live s a b c d) (h : p.Valid live) (hs : s < p.setCount) (y : Parts p s a b c d)
    {t i : Nat} (ht : t < r.setCount) (hi : i < live) (hfirst : r.first t ≤ i) (hpast : i < r.past t) :
    r.setOf (r.elementAt i) = t := by
  have hdisjoint := y.disjoint
  have hrange := y.range_iff i
  rw [x.setOf_elementAt h hi]
  rcases x.cases hs ht with ⟨rfl, hf, hp, -⟩ | ⟨rfl, hf, hp, -⟩ | ⟨⟨ht, hts⟩, hf, hp, -⟩
  · rw [if_neg (by omega)]
    exact h.setOf_eq t i hs (hrange.mpr (by omega)).1 (hrange.mpr (by omega)).2
  · rw [if_pos (by omega)]
  · have hset := h.setOf_eq t i ht (hf ▸ hfirst) (hp ▸ hpast)
    rw [if_neg, hset]
    intro hin
    have hin' := hrange.mpr (.inl hin)
    exact hts (hset.symm.trans (h.setOf_eq s i hs hin'.1 hin'.2))

lemma covered (x : Carved p r live s a b c d) (h : p.Valid live) (hs : s < p.setCount) (y : Parts p s a b c d)
    {i : Nat} (hi : i < live) : r.setOf (r.elementAt i) < r.setCount ∧
      r.first (r.setOf (r.elementAt i)) ≤ i ∧ i < r.past (r.setOf (r.elementAt i)) := by
  obtain ⟨ht, hfirst, hpast⟩ := h.covered i hi
  have hrange := y.range_iff i
  rw [x.setOf_elementAt h hi]
  split_ifs with hin
  · have hcount : p.setCount < r.setCount := by rw [x.setCount_eq]; omega
    rcases x.cases hs hcount with ⟨hcontra, -⟩ | ⟨-, hf, hp, -⟩ | ⟨⟨hcontra, -⟩, -⟩
    · omega
    · exact ⟨hcount, by omega⟩
    · omega
  · have hcount : p.setOf (p.elementAt i) < r.setCount := by rw [x.setCount_eq]; omega
    rcases x.cases hs hcount with ⟨hts, hf, hp, -⟩ | ⟨hcontra, -⟩ | ⟨-, hf, hp, -⟩
    · rw [hts] at hfirst hpast
      have := hrange.mp ⟨hfirst, hpast⟩
      exact ⟨hcount, by omega⟩
    · omega
    · exact ⟨hcount, by omega⟩

lemma valid (x : Carved p r live s a b c d) (h : p.Valid live) (hs : s < p.setCount) (y : Parts p s a b c d) :
    r.Valid live := by
  have hpast := h.past_le s hs
  have hfresh := y.fresh_lt
  have hkept := y.kept_lt
  have hb := (y.range_iff (b - 1)).mpr (.inl (by omega))
  have hd := (y.range_iff (d - 1)).mpr (.inr (by omega))
  have hpast_le : ∀ t, t < r.setCount → r.past t ≤ live := by
    intro t ht
    rcases x.cases hs ht with ⟨-, -, hp, -⟩ | ⟨-, -, hp, -⟩ | ⟨⟨ht, -⟩, -, hp, -⟩
    · omega
    · omega
    · exact hp ▸ h.past_le t ht
  apply h.of_order_eq x.order_eq x.position_eq x.owner_size x.start_size x.stop_size x.marks_size
  case hlt =>
    intro t ht
    rcases x.cases hs ht with ⟨-, hf, hp, -⟩ | ⟨-, hf, hp, -⟩ | ⟨⟨ht, -⟩, hf, hp, -⟩
    · omega
    · omega
    · rw [hf, hp]
      exact h.first_lt_past t ht
  case hpast => exact hpast_le
  case hset =>
    intro t i ht hlo hhi
    rw [← x.elementAt_eq]
    exact x.setOf_of_mem h hs y ht (hhi.trans_le (hpast_le t ht)) hlo hhi
  case hcovered =>
    intro i hi
    rw [← x.elementAt_eq]
    exact x.covered h hs y hi
  case hmarked =>
    intro t ht
    rcases x.cases hs ht with ⟨-, hf, hp, hm⟩ | ⟨-, hf, hp, hm⟩ | ⟨⟨ht, -⟩, hf, hp, hm⟩
    · omega
    · omega
    · rw [hf, hp, hm]
      exact h.first_add_marked_le t ht

end Carved

structure Cleared (p r : Partition) (s : Nat) : Prop where
  order_eq : r.order = p.order
  position_eq : r.position = p.position
  pending_eq : r.pending = p.pending
  setCount_eq : r.setCount = p.setCount
  owner_eq : r.owner = p.owner
  start_size : r.start.size = p.start.size
  stop_size : r.stop.size = p.stop.size
  marks_size : r.marks.size = p.marks.size
  first_eq : r.first = p.first
  past_eq : r.past = p.past
  marked_eq : r.marked = Function.update p.marked s 0

lemma Valid.keep?_spec (h : p.Valid live) {s : Nat} (hs : s < p.setCount) :
    ∃ r, p.keep? s (p.first s) (p.past s) = some r ∧ Cleared p r s := by
  have hsize : s < p.size := (hs.trans_le h.setCount_le).trans_le h.live_le
  obtain ⟨u₁, hu₁, husz₁, huv₁⟩ := put?_spec (t := p.start) (p.first s) (hsize.trans_le h.start_size)
  obtain ⟨u₂, hu₂, husz₂, huv₂⟩ := put?_spec (t := p.stop) (p.past s) (hsize.trans_le h.stop_size)
  obtain ⟨u₃, hu₃, husz₃, huv₃⟩ := put?_spec (t := p.marks) 0 (hsize.trans_le h.marks_size)
  refine ⟨{ p with start := u₁, stop := u₂, marks := u₃ }, ?_, rfl, rfl, rfl, rfl, rfl, husz₁, husz₂, husz₃,
    huv₁.trans (Function.update_eq_self s p.first), huv₂.trans (Function.update_eq_self s p.past), huv₃⟩
  simp only [keep?, hu₁, hu₂, hu₃, Option.bind_eq_bind, Option.bind_some]
  rfl

lemma Cleared.valid {s : Nat} (x : Cleared p r s) (h : p.Valid live) : r.Valid live := by
  have hset : r.setOf = p.setOf := congrArg val x.owner_eq
  apply h.of_order_eq x.order_eq x.position_eq (congrArg Array.size x.owner_eq) x.start_size x.stop_size x.marks_size <;>
    rw [x.setCount_eq]
  case hlt => exact x.first_eq ▸ x.past_eq ▸ h.first_lt_past
  case hpast => exact x.past_eq ▸ h.past_le
  case hset => exact hset ▸ x.first_eq ▸ x.past_eq ▸ h.setOf_eq
  case hcovered => exact hset ▸ x.first_eq ▸ x.past_eq ▸ h.covered
  case hmarked =>
    intro t ht
    rw [x.first_eq, x.past_eq, x.marked_eq]
    by_cases hts : t = s
    · rw [hts, Function.update_self]
      exact (h.first_lt_past s (hts ▸ ht)).le
    · rw [Function.update_of_ne hts]
      exact h.first_add_marked_le t ht

lemma Valid.splitSet?_spec (h : p.Valid live) {s : Nat} (hs : s < p.setCount) (hm : 0 < p.marked s) :
    ∃ r, p.splitSet? s = some r ∧
      (p.first s + p.marked s = p.past s ∧ Cleared p r s ∨
        p.first s + p.marked s < p.past s ∧ p.marked s ≤ p.past s - (p.first s + p.marked s) ∧
          Carved p r live s (p.first s) (p.first s + p.marked s) (p.first s + p.marked s) (p.past s) ∨
        p.first s + p.marked s < p.past s ∧ p.past s - (p.first s + p.marked s) < p.marked s ∧
          Carved p r live s (p.first s + p.marked s) (p.past s) (p.first s) (p.first s + p.marked s)) := by
  have hle := h.first_add_marked_le s hs
  have hsize := (h.past_le s hs).trans h.live_le
  set border := p.first s + p.marked s with hborder
  have hunfold : p.splitSet? s = if p.past s < border then none else
      if border = p.past s then p.keep? s (p.first s) (p.past s) else
        if p.marked s ≤ p.past s - border then
          (assign? { p with setCount := p.setCount + 1 } p.setCount (p.first s) border).bind
            (keep? · s border (p.past s))
        else (assign? { p with setCount := p.setCount + 1 } p.setCount border (p.past s)).bind
          (keep? · s (p.first s) border) := by
    simp only [splitSet?, h.start_get hs, h.stop_get hs, h.marks_get hs, Option.bind_eq_bind, Option.bind_some]
    rfl
  rw [hunfold, if_neg (by omega)]
  by_cases hfull : border = p.past s
  · obtain ⟨r, hr, x⟩ := h.keep?_spec hs
    exact ⟨r, by rw [if_pos hfull, hr], .inl ⟨hfull, x⟩⟩
  · have hlt : border < p.past s := by omega
    have hroom := h.setCount_lt_of_interior hs (by omega : p.first s < border) hlt
    rw [if_neg hfull]
    by_cases hsmall : p.marked s ≤ p.past s - border
    · obtain ⟨q, r, hq, hr, x⟩ := h.carve hs hroom (c := border) (d := p.past s)
        (by omega : p.first s ≤ border) (by omega)
      exact ⟨r, by rw [if_pos hsmall, hq]; exact hr, .inr (.inl ⟨hlt, hsmall, x⟩)⟩
    · obtain ⟨q, r, hq, hr, x⟩ := h.carve hs hroom (c := p.first s) (d := border) hlt.le hsize
      exact ⟨r, by rw [if_neg hsmall, hq]; exact hr, .inr (.inr ⟨hlt, by omega, x⟩)⟩

structure Split (p r : Partition) (live : Nat) (S : Nat → Prop) : Prop where
  valid : r.Valid live
  order_eq : r.order = p.order
  position_eq : r.position = p.position
  pending_eq : r.pending = p.pending
  setCount_le : p.setCount ≤ r.setCount
  owner_eq : r.setCount = p.setCount → r.owner = p.owner
  keeps : ∀ e, p.Live live e → r.setOf e = p.setOf e ∨ p.setCount ≤ r.setOf e
  others : ∀ e, p.Live live e → ¬ S (p.setOf e) → r.setOf e = p.setOf e
  same_iff : ∀ e f, p.Live live e → p.Live live f → (r.setOf e = r.setOf f ↔
    p.setOf e = p.setOf f ∧ (S (p.setOf e) → (p.Marked live e ↔ p.Marked live f)))
  marked_iff : ∀ e, r.Marked live e ↔ p.Marked live e ∧ ¬ S (p.setOf e)
  marked_pos_iff : ∀ t, t < r.setCount ∧ 0 < r.marked t ↔ (t < p.setCount ∧ 0 < p.marked t) ∧ ¬ S t

lemma Split.live_iff {S : Nat → Prop} (x : Split p r live S) (e : Nat) : r.Live live e ↔ p.Live live e := by
  simp only [Live, size, placeOf, x.order_eq, x.position_eq]

lemma Cleared.split {s : Nat} (x : Cleared p r s) (h : p.Valid live)
    (hfull : p.first s + p.marked s = p.past s) : Split p r live (· = s) := by
  have hset : r.setOf = p.setOf := by funext i; simp only [setOf, x.owner_eq]
  have hlive : ∀ e, r.Live live e ↔ p.Live live e := by
    intro e
    simp only [Live, size, placeOf, x.order_eq, x.position_eq]
  have hall : ∀ e, p.Live live e → p.setOf e = s → p.Marked live e := by
    intro e he hes
    have hr := h.mem_range he
    exact ⟨he, by rw [hes, hfull]; rw [hes] at hr; exact hr.2.2⟩
  refine ⟨x.valid h, x.order_eq, x.position_eq, x.pending_eq, x.setCount_eq.ge, fun _ => x.owner_eq,
    fun e _ => .inl (by rw [hset]),
    fun e _ _ => by rw [hset], fun e f he hf => ?_, fun e => ?_, fun t => ?_⟩
  · rw [hset]
    exact ⟨fun hef => ⟨hef, fun hes => iff_of_true (hall e he hes) (hall f hf (hef ▸ hes))⟩, And.left⟩
  · simp only [Marked, hlive, hset, x.first_eq, x.marked_eq, show r.placeOf e = p.placeOf e by
      simp only [placeOf, x.position_eq]]
    by_cases hes : p.setOf e = s
    · simp only [hes, Function.update_self, not_true_eq_false, and_false, iff_false, not_and]
      intro he
      have hr := h.mem_range he
      rw [hes] at hr
      omega
    · simp [hes]
  · rw [x.setCount_eq, x.marked_eq]
    by_cases hts : t = s <;> simp [hts]

section

variable {s a b c d : Nat}

lemma Parts.setOf_eq (y : Parts p s a b c d) (h : p.Valid live) (hs : s < p.setCount) {e : Nat} (he : p.Live live e)
    (hin : a ≤ p.placeOf e ∧ p.placeOf e < b) : p.setOf e = s := by
  have hrange := (y.range_iff _).mpr (.inl hin)
  rw [← h.elementAt_placeOf e he.1]
  exact h.setOf_eq s _ hs hrange.1 hrange.2

def AlongMarks (p : Partition) (s a b : Nat) : Prop :=
  ∀ i j, p.first s ≤ i → i < p.past s → p.first s ≤ j → j < p.past s →
    ((a ≤ i ∧ i < b ↔ a ≤ j ∧ j < b) ↔ (i < p.first s + p.marked s ↔ j < p.first s + p.marked s))

lemma AlongMarks.mem_iff {e f : Nat} (hm : AlongMarks p s a b) (h : p.Valid live) (he : p.Live live e)
    (hf : p.Live live f) (hes : p.setOf e = s) (hfs : p.setOf f = s) :
    (a ≤ p.placeOf e ∧ p.placeOf e < b ↔ a ≤ p.placeOf f ∧ p.placeOf f < b) ↔
      (p.Marked live e ↔ p.Marked live f) := by
  have hre := (h.mem_range he).2
  have hrf := (h.mem_range hf).2
  rw [hes] at hre
  rw [hfs] at hrf
  simp only [Marked, he, hf, hes, hfs, true_and]
  exact hm _ _ hre.1 hre.2 hrf.1 hrf.2

lemma Carved.setOf_eq_iff (x : Carved p r live s a b c d) (h : p.Valid live) (hs : s < p.setCount)
    (y : Parts p s a b c d) (hm : AlongMarks p s a b) {e f : Nat} (he : p.Live live e) (hf : p.Live live f) :
    r.setOf e = r.setOf f ↔ p.setOf e = p.setOf f ∧ (p.setOf e = s → (p.Marked live e ↔ p.Marked live f)) := by
  have hce := (h.mem_range he).1
  have hcf := (h.mem_range hf).1
  rw [x.setOf_eq e he.1, x.setOf_eq f hf.1]
  split_ifs with hie hif hif
  · have hes := y.setOf_eq h hs he hie
    have hfs := y.setOf_eq h hs hf hif
    exact iff_of_true rfl ⟨hes.trans hfs.symm, fun _ => (hm.mem_iff h he hf hes hfs).mp (iff_of_true hie hif)⟩
  · have hes := y.setOf_eq h hs he hie
    refine iff_of_false hcf.ne' fun hef => ?_
    have hfs := hef.1.symm.trans hes
    exact hif (((hm.mem_iff h he hf hes hfs).mpr (hef.2 hes)).mp hie)
  · have hfs := y.setOf_eq h hs hf hif
    refine iff_of_false hce.ne fun hef => ?_
    have hes := hef.1.trans hfs
    exact hie (((hm.mem_iff h he hf hes hfs).mpr (hef.2 hes)).mpr hif)
  · refine ⟨fun hef => ⟨hef, fun hes => ?_⟩, And.left⟩
    exact (hm.mem_iff h he hf hes (hef.symm.trans hes)).mp (iff_of_false hie hif)

lemma Carved.marked_iff (x : Carved p r live s a b c d) (h : p.Valid live) (hs : s < p.setCount)
    (y : Parts p s a b c d) (e : Nat) : r.Marked live e ↔ p.Marked live e ∧ p.setOf e ≠ s := by
  by_cases he : p.Live live e
  · have hrange := h.mem_range he
    simp only [Marked, x.live_iff, he, true_and, x.placeOf_eq]
    rw [x.setOf_eq e he.1]
    split_ifs with hin
    · simp only [y.setOf_eq h hs he hin, ne_eq, not_true_eq_false, and_false, iff_false, x.first_eq, x.marked_eq,
        Function.update_of_ne hs.ne', Function.update_self]
      omega
    · by_cases hes : p.setOf e = s
      · rw [hes] at hrange ⊢
        have := (y.range_iff _).mp hrange.2
        simp only [x.first_eq, x.marked_eq, Function.update_self, ne_eq, not_true_eq_false, and_false, iff_false]
        omega
      · simp [x.first_eq, x.marked_eq, Function.update_of_ne hrange.1.ne, hes]
  · simp [Marked, x.live_iff, he]

lemma Carved.split (x : Carved p r live s a b c d) (h : p.Valid live) (hs : s < p.setCount) (y : Parts p s a b c d)
    (hm : AlongMarks p s a b) : Split p r live (· = s) := by
  refine ⟨x.valid h hs y, x.order_eq, x.position_eq, x.pending_eq, by rw [x.setCount_eq]; omega,
    fun heq => by rw [x.setCount_eq] at heq; omega, fun e he => ?_, fun e he hes => ?_,
    fun e f he hf => x.setOf_eq_iff h hs y hm he hf, x.marked_iff h hs y, fun t => ?_⟩
  · rw [x.setOf_eq e he.1]
    split_ifs
    · exact .inr le_rfl
    · exact .inl rfl
  · rw [x.setOf_eq e he.1, if_neg fun hin => hes (y.setOf_eq h hs he hin)]
  · rw [x.setCount_eq, x.marked_eq]
    by_cases hts : t = s
    · simp [hts]
    · by_cases htc : t = p.setCount
      · simp [htc, hs.ne']
      · simp only [Function.update_of_ne hts, Function.update_of_ne htc, hts, not_false_eq_true, and_true]
        omega

end

lemma Valid.splitSet?_split (h : p.Valid live) {s : Nat} (hs : s < p.setCount) (hm : 0 < p.marked s) :
    ∃ r, p.splitSet? s = some r ∧ Split p r live (· = s) := by
  obtain ⟨r, hr, ⟨hfull, x⟩ | ⟨hlt, _, x⟩ | ⟨hlt, _, x⟩⟩ := h.splitSet?_spec hs hm
  · exact ⟨r, hr, x.split h hfull⟩
  · have hparts : Parts p s (p.first s) (p.first s + p.marked s) (p.first s + p.marked s) (p.past s) := by
      constructor <;> omega
    exact ⟨r, hr, x.split h hs hparts fun i j => by omega⟩
  · have hparts : Parts p s (p.first s + p.marked s) (p.past s) (p.first s) (p.first s + p.marked s) := by
      constructor <;> omega
    exact ⟨r, hr, x.split h hs hparts fun i j => by omega⟩

lemma Valid.foldlM_splitSet? (h : p.Valid live) {sets : List Nat} (hn : sets.Nodup)
    (hsets : ∀ s, s ∈ sets → s < p.setCount ∧ 0 < p.marked s) :
    ∃ r, sets.foldlM splitSet? p = some r ∧ Split p r live (· ∈ sets) := by
  induction sets generalizing p with
  | nil => exact ⟨p, rfl, h, rfl, rfl, rfl, le_rfl, fun _ => rfl, fun _ _ => .inl rfl, fun _ _ _ => rfl, by simp,
    by simp, by simp⟩
  | cons s sets ih =>
    obtain ⟨hsn, hn⟩ := List.nodup_cons.mp hn
    obtain ⟨hs, hm⟩ := hsets s (by simp)
    obtain ⟨q, hq, x⟩ := h.splitSet?_split hs hm
    have hrest : ∀ t, t ∈ sets → t < q.setCount ∧ 0 < q.marked t := fun t ht =>
      (x.marked_pos_iff t).mpr ⟨hsets t (by simp [ht]), fun hts => hsn (hts ▸ ht)⟩
    obtain ⟨r, hr, y⟩ := ih x.valid hn hrest
    refine ⟨r, by rw [List.foldlM_cons, hq]; exact hr, y.valid, y.order_eq.trans x.order_eq,
      y.position_eq.trans x.position_eq, y.pending_eq.trans x.pending_eq, x.setCount_le.trans y.setCount_le,
      fun heq => ?_, fun e he => ?_, fun e he hes => ?_, fun e f he hf => ?_, fun e => ?_, fun t => ?_⟩
    · have hle := x.setCount_le
      have hle' := y.setCount_le
      exact (y.owner_eq (by omega)).trans (x.owner_eq (by omega))
    · rcases y.keeps e ((x.live_iff e).mpr he) with hy | hy
      · rw [hy]
        exact x.keeps e he
      · exact .inr (x.setCount_le.trans hy)
    · simp only [List.mem_cons, not_or] at hes
      have hq := x.others e he hes.1
      rw [y.others e ((x.live_iff e).mpr he) (hq ▸ hes.2), hq]
    · have hother : ∀ e, p.Live live e → p.setOf e ≠ s → q.setOf e = p.setOf e := x.others
      rw [y.same_iff e f ((x.live_iff e).mpr he) ((x.live_iff f).mpr hf), x.same_iff e f he hf,
        x.marked_iff, x.marked_iff, List.mem_cons]
      by_cases hef : p.setOf e = p.setOf f
      · by_cases hes : p.setOf e = s
        · simp [← hef, hes]
        · simp [← hef, hes, hother e he hes]
      · simp [hef]
    · rw [y.marked_iff, x.marked_iff, List.mem_cons]
      by_cases hes : p.setOf e = s
      · simp [hes]
      · simp only [hes, not_false_eq_true, and_true, false_or]
        exact and_congr_right fun hme => by rw [x.others e hme.1 hes]
    · rw [y.marked_pos_iff, x.marked_pos_iff, List.mem_cons]
      tauto

structure Refines (p r : Partition) (live : Nat) (R : Nat → Nat → Prop) : Prop where
  clean : r.Clean live
  size_eq : r.size = p.size
  live_iff : ∀ e, r.Live live e ↔ p.Live live e
  stays : ∀ i, i < live → p.setOf (r.elementAt i) = p.setOf (p.elementAt i)
  setCount_le : p.setCount ≤ r.setCount
  keeps : ∀ e, p.Live live e → r.setOf e = p.setOf e ∨ p.setCount ≤ r.setOf e
  same_iff : ∀ e f, p.Live live e → p.Live live f →
    (r.setOf e = r.setOf f ↔ p.setOf e = p.setOf f ∧ R e f)

namespace Refines

variable {R S : Nat → Nat → Prop}

lemma refl (h : p.Clean live) (hR : ∀ e f, R e f) : Refines p p live R :=
  ⟨h, rfl, fun _ => Iff.rfl, fun _ _ => rfl, le_rfl, fun _ _ => .inl rfl,
    fun e f _ _ => ⟨fun hef => ⟨hef, hR e f⟩, And.left⟩⟩

lemma trans (x : Refines p q live R) (y : Refines q r live S) : Refines p r live fun e f => R e f ∧ S e f := by
  refine ⟨y.clean, y.size_eq.trans x.size_eq, fun e => (y.live_iff e).trans (x.live_iff e), fun i hi => ?_,
    x.setCount_le.trans y.setCount_le, fun e he => ?_, fun e f he hf => ?_⟩
  · have hq : q.Live live (q.elementAt i) := x.clean.valid.live_elementAt hi
    have hr : q.Live live (r.elementAt i) := (y.live_iff _).mp (y.clean.valid.live_elementAt hi)
    have hsame := (x.same_iff _ _ ((x.live_iff _).mp hr) ((x.live_iff _).mp hq)).mp (y.stays i hi)
    exact hsame.1.trans (x.stays i hi)
  · rcases y.keeps e ((x.live_iff e).mpr he) with hy | hy
    · rw [hy]
      exact x.keeps e he
    · exact .inr (x.setCount_le.trans hy)
  · rw [y.same_iff e f ((x.live_iff e).mpr he) ((x.live_iff f).mpr hf), x.same_iff e f he hf, and_assoc]

lemma congr (x : Refines p r live R) (hR : ∀ e f, R e f ↔ S e f) : Refines p r live S :=
  { x with same_iff := fun e f he hf => by rw [x.same_iff e f he hf, hR] }

end Refines

lemma Valid.split?_spec (h : q.Valid live) (ht : q.Touched) :
    ∃ r, q.split? = some r ∧ r.order = q.order ∧ r.position = q.position ∧
      Refines q r live fun e f => (q.Marked live e ↔ q.Marked live f) := by
  have hv : Valid { q with pending := [] } live := { h with }
  obtain ⟨r, hr, y⟩ := hv.foldlM_splitSet? ht.1 fun s hs => (ht.2 s).mp hs
  refine ⟨r, hr, y.order_eq, y.position_eq, ⟨y.valid, y.pending_eq, ?_⟩, congrArg Array.size y.order_eq, y.live_iff,
    fun i _ => ?_, y.setCount_le, y.keeps, fun e f he hf => (y.same_iff e f he hf).trans ?_⟩
  · intro s hs
    by_contra hne
    have hpos := (y.marked_pos_iff s).mp ⟨hs, Nat.pos_of_ne_zero hne⟩
    exact hpos.2 ((ht.2 s).mpr hpos.1)
  · rw [show r.elementAt i = q.elementAt i by simp only [elementAt, y.order_eq]]
  · refine and_congr_right fun hef => ⟨fun hm => ?_, fun hm _ => hm⟩
    change q.setOf e = q.setOf f at hef
    by_cases hpend : q.setOf e ∈ q.pending
    · exact hm hpend
    · have hzero : ∀ g, q.Live live g → q.setOf g = q.setOf e → ¬ q.Marked live g := by
        intro g hg hge hmg
        have hrange := h.mem_range hg
        have hlt := hmg.2
        rw [hge] at hrange hlt
        exact hpend ((ht.2 _).mpr ⟨hrange.1, by omega⟩)
      exact iff_of_false (hzero e he rfl) (hzero f hf hef.symm)

lemma Marking.split?_spec {M : Nat → Prop} (x : Marking p q live M) (hp : p.Clean live) :
    ∃ r, q.split? = some r ∧ r.position = q.position ∧ Refines p r live fun e f => (M e ↔ M f) := by
  have hM : ∀ e, q.Marked live e ↔ M e := fun e => by simp [x.marked_iff, hp.not_marked]
  obtain ⟨r, hr, _, hposition, y⟩ := x.valid.split?_spec x.touched
  refine ⟨r, hr, hposition, y.clean, y.size_eq.trans x.size_eq, fun e => (y.live_iff e).trans (x.live_iff e),
    fun i hi => ?_, x.setCount_eq ▸ y.setCount_le, fun e he => ?_, fun e f he hf => ?_⟩
  · rw [← x.setOf_eq, y.stays i hi, x.setOf_eq, x.stays i hi]
  · rw [← x.setCount_eq, ← x.setOf_eq]
    exact y.keeps e ((x.live_iff e).mpr he)
  · rw [y.same_iff e f ((x.live_iff e).mpr he) ((x.live_iff f).mpr hf), x.setOf_eq, hM, hM]

end PatternInference.Partition
