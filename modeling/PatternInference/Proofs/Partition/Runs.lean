import Mathlib.Data.List.SplitBy
import PatternInference.Partition.Runs
import PatternInference.Proofs.Partition.Marking
import PatternInference.Symbol

namespace PatternInference.Partition

open Table

def offset (runs : List (List Nat)) (s : Nat) : Nat := (runs.take s).flatten.length

@[simp] lemma offset_zero (runs : List (List Nat)) : offset runs 0 = 0 := by simp [offset]

@[simp] lemma offset_cons_succ (run : List Nat) (runs : List (List Nat)) (s : Nat) :
    offset (run :: runs) (s + 1) = run.length + offset runs s := by simp [offset]

lemma offset_length (runs : List (List Nat)) : offset runs runs.length = runs.flatten.length := by
  rw [offset, List.take_length]

lemma offset_succ {runs : List (List Nat)} {s : Nat} (hs : s < runs.length) :
    offset runs (s + 1) = offset runs s + runs[s].length := by
  simp only [offset, List.take_succ_eq_append_getElem hs, List.flatten_append, List.length_append]
  simp

lemma offset_mono {runs : List (List Nat)} {s t : Nat} (h : s ≤ t) : offset runs s ≤ offset runs t := by
  induction runs generalizing s t with
  | nil => simp [offset]
  | cons run runs ih =>
    cases s with
    | zero => simp
    | succ s =>
      obtain ⟨t, rfl⟩ : ∃ t', t = t' + 1 := ⟨t - 1, by omega⟩
      simpa using ih (by omega)

lemma run_eq {runs : List (List Nat)} {s t i : Nat} (hs : offset runs s ≤ i) (hs' : i < offset runs (s + 1))
    (ht : offset runs t ≤ i) (ht' : i < offset runs (t + 1)) : s = t := by
  rcases Nat.lt_trichotomy s t with hlt | heq | hgt
  · have : offset runs (s + 1) ≤ offset runs t := offset_mono hlt
    omega
  · exact heq
  · have : offset runs (t + 1) ≤ offset runs s := offset_mono hgt
    omega

lemma exists_run {runs : List (List Nat)} {i : Nat} (hi : i < runs.flatten.length) :
    ∃ s, s < runs.length ∧ offset runs s ≤ i ∧ i < offset runs (s + 1) := by
  induction runs generalizing i with
  | nil => simp at hi
  | cons run runs ih =>
    by_cases h : i < run.length
    · exact ⟨0, by simp, by simp, by simpa using h⟩
    · simp only [List.flatten_cons, List.length_append] at hi
      obtain ⟨s, hs, ha, hb⟩ := ih (i := i - run.length) (by omega)
      exact ⟨s + 1, by simpa using hs, by simp only [offset_cons_succ]; omega,
        by simp only [offset_cons_succ]; omega⟩

lemma getElem?_flatten {runs : List (List Nat)} {s j : Nat} (hs : s < runs.length) (hj : j < runs[s].length) :
    runs.flatten[offset runs s + j]? = some runs[s][j] := by
  induction runs generalizing s with
  | nil => simp at hs
  | cons run runs ih =>
    cases s with
    | zero =>
      have hj : j < run.length := hj
      rw [offset_zero, Nat.zero_add, List.flatten_cons, List.getElem?_append_left hj, List.getElem?_eq_getElem hj]
      rfl
    | succ s =>
      rw [offset_cons_succ, Nat.add_assoc, List.flatten_cons, List.getElem?_append_right (Nat.le_add_right _ _),
        Nat.add_sub_cancel_left]
      exact ih (by simpa using hs) hj

lemma exists_getElem?_flatten {runs : List (List Nat)} {s i : Nat} (hs : s < runs.length) (ha : offset runs s ≤ i)
    (hb : i < offset runs (s + 1)) : ∃ h : i - offset runs s < runs[s].length,
      runs.flatten[i]? = some runs[s][i - offset runs s] := by
  rw [offset_succ hs] at hb
  have hlt : i - offset runs s < runs[s].length := by omega
  have hget := getElem?_flatten hs hlt
  rw [Nat.add_sub_cancel' ha] at hget
  exact ⟨hlt, hget⟩

lemma getElem_mem_run {runs : List (List Nat)} {s i : Nat} (hs : s < runs.length)
    (ha : offset runs s ≤ i) (hb : i < offset runs (s + 1)) (hi : i < runs.flatten.length) :
    runs.flatten[i] ∈ runs[s] := by
  obtain ⟨hlt, hget⟩ := exists_getElem?_flatten hs ha hb
  rw [List.getElem?_eq_getElem hi, Option.some.injEq] at hget
  exact hget ▸ List.getElem_mem hlt

lemma length_le_flatten {runs : List (List Nat)} (h : ∀ run ∈ runs, run ≠ []) :
    runs.length ≤ runs.flatten.length := by
  induction runs with
  | nil => simp
  | cons run runs ih =>
    have hpos := List.length_pos_iff.mpr (h run (by simp))
    have hle := ih fun r hr => h r (by simp [hr])
    simp only [List.length_cons, List.flatten_cons, List.length_append]
    omega

lemma mem_of_lt {order : List Nat} (hn : order.Nodup) (hlt : ∀ e ∈ order, e < order.length) {e : Nat}
    (he : e < order.length) : e ∈ order := by
  have hperm : order.Perm (List.range order.length) :=
    (List.subperm_of_subset hn fun x hx => List.mem_range.mpr (hlt x hx)).perm_of_length_le (by simp)
  exact hperm.mem_iff.mpr (List.mem_range.mpr he)

lemma offset_lt_succ {runs : List (List Nat)} (h : ∀ run ∈ runs, run ≠ []) {s : Nat} (hs : s < runs.length) :
    offset runs s < offset runs (s + 1) := by
  rw [offset_succ hs]
  exact Nat.lt_add_of_pos_right (List.length_pos_iff.mpr (h _ (List.getElem_mem hs)))

structure LaidOut (p : Partition) (runs : List (List Nat)) : Prop where
  size_eq : p.size = runs.flatten.length
  position_size : p.position.size = p.size
  owner_size : p.owner.size = p.size
  start_size : p.size ≤ p.start.size
  stop_size : p.size ≤ p.stop.size
  marks_size : p.size ≤ p.marks.size
  setCount_eq : p.setCount = runs.length
  marked_eq : ∀ s, p.marked s = 0
  elementAt_eq : ∀ i (h : i < runs.flatten.length), p.elementAt i = runs.flatten[i]
  placeOf_eq : ∀ i (h : i < runs.flatten.length), p.placeOf runs.flatten[i] = i
  setOf_eq : ∀ s (h : s < runs.length), ∀ e ∈ runs[s], p.setOf e = s
  first_eq : ∀ s, s < runs.length → p.first s = offset runs s
  past_eq : ∀ s, s < runs.length → p.past s = offset runs (s + 1)

lemma LaidOut.setOf_elementAt {p : Partition} {runs : List (List Nat)} (x : LaidOut p runs) {s i : Nat}
    (hs : s < runs.length) (ha : offset runs s ≤ i) (hb : i < offset runs (s + 1)) :
    p.setOf (p.elementAt i) = s := by
  have hi : i < runs.flatten.length := hb.trans_le (offset_length runs ▸ offset_mono hs)
  rw [x.elementAt_eq i hi]
  exact x.setOf_eq s hs _ (getElem_mem_run hs ha hb hi)

lemma LaidOut.valid {p : Partition} {runs : List (List Nat)} (x : LaidOut p runs)
    (hn : runs.flatten.Nodup) (hlt : ∀ e ∈ runs.flatten, e < runs.flatten.length)
    (hne : ∀ run ∈ runs, run ≠ []) : p.Valid runs.flatten.length := by
  have hsurj : ∀ e, e < runs.flatten.length → ∃ i, ∃ h : i < runs.flatten.length, runs.flatten[i] = e :=
    fun e he => List.mem_iff_getElem.mp (mem_of_lt hn hlt he)
  exact {
    position_size := x.position_size
    owner_size := x.owner_size
    start_size := x.start_size
    stop_size := x.stop_size
    marks_size := x.marks_size
    live_le := x.size_eq.ge
    elementAt_lt := by
      rw [x.size_eq]
      intro i hi
      rw [x.elementAt_eq i hi]
      exact hlt _ (List.getElem_mem hi)
    placeOf_lt := by
      rw [x.size_eq]
      intro e he
      obtain ⟨i, hi, rfl⟩ := hsurj e he
      rwa [x.placeOf_eq i hi]
    placeOf_elementAt := by
      rw [x.size_eq]
      intro i hi
      rw [x.elementAt_eq i hi, x.placeOf_eq i hi]
    elementAt_placeOf := by
      rw [x.size_eq]
      intro e he
      obtain ⟨i, hi, rfl⟩ := hsurj e he
      rw [x.placeOf_eq i hi, x.elementAt_eq i hi]
    first_lt_past := by
      rw [x.setCount_eq]
      intro s hs
      rw [x.first_eq s hs, x.past_eq s hs]
      exact offset_lt_succ hne hs
    past_le := by
      rw [x.setCount_eq]
      intro s hs
      rw [x.past_eq s hs, ← offset_length]
      exact offset_mono hs
    setOf_eq := by
      rw [x.setCount_eq]
      intro s i hs ha hb
      rw [x.first_eq s hs] at ha
      rw [x.past_eq s hs] at hb
      exact x.setOf_elementAt hs ha hb
    covered := by
      rw [x.setCount_eq]
      intro i hi
      obtain ⟨s, hs, ha, hb⟩ := exists_run hi
      rw [x.setOf_elementAt hs ha hb, x.first_eq s hs, x.past_eq s hs]
      exact ⟨hs, ha, hb⟩
    first_add_marked_le := by
      rw [x.setCount_eq]
      intro s hs
      rw [x.first_eq s hs, x.past_eq s hs, x.marked_eq]
      exact offset_mono (Nat.le_succ s) }

lemma alike_eq {order : List Nat} {alike : Nat → Nat → Bool} {s i x y : Nat} (hs : s < (order.splitBy alike).length)
    (ha : offset (order.splitBy alike) s < i) (hb : i ≤ offset (order.splitBy alike) (s + 1))
    (hx : order[i - 1]? = some x) (hy : order[i]? = some y) :
    alike x y = decide (i < offset (order.splitBy alike) (s + 1)) := by
  set runs := order.splitBy alike with hruns
  have hflat : runs.flatten = order := List.flatten_splitBy alike order
  obtain ⟨hlast, hget⟩ := exists_getElem?_flatten (i := i - 1) hs (by omega) (by omega)
  rw [hflat, hx, Option.some.injEq] at hget
  subst hget
  by_cases hlt : i < offset runs (s + 1)
  · obtain ⟨hmem, hget⟩ := exists_getElem?_flatten hs ha.le hlt
    rw [hflat, hy, Option.some.injEq] at hget
    subst hget
    have hchain : runs[s].IsChain fun a b => alike a b = true := List.isChain_of_mem_splitBy (List.getElem_mem hs)
    have hnext : i - 1 - offset runs s + 1 = i - offset runs s := by omega
    rw [decide_eq_true hlt]
    simpa only [hnext] using List.isChain_iff_getElem.mp hchain (i - 1 - offset runs s) (by omega)
  · obtain rfl : i = offset runs (s + 1) := by omega
    have hnext : s + 1 < runs.length := by
      by_contra hge
      obtain hend : s + 1 = runs.length := by omega
      rw [hend, offset_length, hflat, List.getElem?_eq_none (Nat.le_refl _)] at hy
      cases hy
    have hchain : runs.IsChain fun a b => ∃ ha hb, alike (a.getLast ha) (b.head hb) = false :=
      List.isChain_getLast_head_splitBy alike order
    obtain ⟨hleft, hright, hsplit⟩ := List.isChain_iff_getElem.mp hchain s hnext
    obtain ⟨_, hget⟩ := exists_getElem?_flatten (i := offset runs (s + 1)) hnext (Nat.le_refl _) (by
      rw [offset_succ hnext]
      exact Nat.lt_add_of_pos_right (List.length_pos_iff.mpr hright))
    rw [hflat, hy, Option.some.injEq] at hget
    subst hget
    rw [decide_eq_false hlt, ← hsplit, List.getLast_eq_getElem, List.head_eq_getElem]
    congr 2
    · rw [offset_succ hs]
      omega
    · omega

/-- The first `i` elements are in their places, those of the last set begun among them. -/
structure Settled (p : Partition) (runs : List (List Nat)) (i : Nat) : Prop where
  position_size : p.position.size = runs.flatten.length
  owner_size : p.owner.size = runs.flatten.length
  start_size : runs.flatten.length ≤ p.start.size
  stop_size : runs.flatten.length ≤ p.stop.size
  marks_eq : p.marks = (whole runs.flatten.length).marks
  pending_eq : p.pending = []
  setCount_lt : p.setCount < runs.length
  first_le : offset runs p.setCount ≤ i
  le_past : i ≤ offset runs (p.setCount + 1)
  placeOf_eq : ∀ j e, runs.flatten[j]? = some e → j < i → p.placeOf e = j
  setOf_eq : ∀ s j e, s < runs.length → offset runs s ≤ j → j < offset runs (s + 1) → runs.flatten[j]? = some e → j < i →
    p.setOf e = s
  first_eq : ∀ s, s ≤ p.setCount → p.first s = offset runs s
  past_eq : ∀ s, s < p.setCount → p.past s = offset runs (s + 1)

namespace Settled

variable {p : Partition} {runs : List (List Nat)} {i e : Nat}

lemma cut?_spec (h : Settled p runs i) (hlen : runs.length ≤ runs.flatten.length) (hend : i = offset runs (p.setCount + 1))
    (hnext : p.setCount + 1 < runs.length) :
    ∃ q, p.cut? i = some q ∧ Settled q runs i ∧ q.setCount = p.setCount + 1 := by
  have hcount := h.setCount_lt
  obtain ⟨stop, hstop, hstopsize, hstopval⟩ := put?_spec (t := p.stop) i (by have := h.stop_size; omega : p.setCount < _)
  obtain ⟨start, hstart, hstartsize, hstartval⟩ :=
    put?_spec (t := p.start) i (by have := h.start_size; omega : p.setCount + 1 < _)
  refine ⟨{ p with stop, start, setCount := p.setCount + 1 }, by simp [cut?, hstop, hstart], ?_, rfl⟩
  exact {
    position_size := h.position_size
    owner_size := h.owner_size
    start_size := hstartsize ▸ h.start_size
    stop_size := hstopsize ▸ h.stop_size
    marks_eq := h.marks_eq
    pending_eq := h.pending_eq
    setCount_lt := hnext
    first_le := hend.ge
    le_past := by
      rw [hend]
      exact offset_mono (Nat.le_succ _)
    placeOf_eq := h.placeOf_eq
    setOf_eq := h.setOf_eq
    first_eq := by
      intro s hs
      by_cases hlast : s = p.setCount + 1
      · rw [first, hlast, hstartval, Function.update_self, hend]
      · rw [first, hstartval, Function.update_of_ne hlast]
        exact h.first_eq s (by simp only at hs; omega)
    past_eq := by
      intro s hs
      by_cases hlast : s = p.setCount
      · rw [past, hlast, hstopval, Function.update_self, hend]
      · rw [past, hstopval, Function.update_of_ne hlast]
        exact h.past_eq s (by simp only at hs; omega) }

lemma place?_spec (h : Settled p runs i) (hn : runs.flatten.Nodup) (hlt : ∀ e ∈ runs.flatten, e < runs.flatten.length)
    (hi : i < offset runs (p.setCount + 1)) (he : runs.flatten[i]? = some e) :
    ∃ q, p.place? e i = some q ∧ Settled q runs (i + 1) ∧ q.setCount = p.setCount := by
  have hmem := hlt e (List.mem_of_getElem? he)
  obtain ⟨owner, howner, hosize, hoval⟩ := put?_spec (t := p.owner) p.setCount (h.owner_size ▸ hmem)
  obtain ⟨position, hposition, hpsize, hpval⟩ := put?_spec (t := p.position) i (h.position_size ▸ hmem)
  refine ⟨{ p with owner, position }, by simp [place?, howner, hposition], ?_, rfl⟩
  have hother {j f : Nat} (hf : runs.flatten[j]? = some f) (hj : j ≠ i) : f ≠ e := by
    rintro rfl
    exact hj ((List.getElem?_inj (List.getElem?_eq_some_iff.mp hf).1 hn).mp (hf.trans he.symm))
  exact {
    position_size := hpsize.trans h.position_size
    owner_size := hosize.trans h.owner_size
    start_size := h.start_size
    stop_size := h.stop_size
    marks_eq := h.marks_eq
    pending_eq := h.pending_eq
    setCount_lt := h.setCount_lt
    first_le := h.first_le.trans (Nat.le_succ i)
    le_past := hi
    placeOf_eq := by
      intro j f hf hj
      by_cases hji : j = i
      · subst hji
        obtain rfl : f = e := Option.some.inj (hf.symm.trans he)
        rw [placeOf, hpval, Function.update_self]
      · rw [placeOf, hpval, Function.update_of_ne (hother hf hji)]
        exact h.placeOf_eq j f hf (by omega)
    setOf_eq := by
      intro s j f hs ha hb hf hj
      by_cases hji : j = i
      · subst hji
        obtain rfl : f = e := Option.some.inj (hf.symm.trans he)
        rw [setOf, hoval, Function.update_self]
        exact run_eq h.first_le hi ha hb
      · rw [setOf, hoval, Function.update_of_ne (hother hf hji)]
        exact h.setOf_eq s j f hs ha hb hf (by omega)
    first_eq := h.first_eq
    past_eq := h.past_eq }

lemma advance?_spec {order : List Nat} {alike : Nat → Nat → Bool} (h : Settled p (order.splitBy alike) i)
    (he : order[i]? = some e) (hfirst : 0 < i → offset (order.splitBy alike) p.setCount < i) :
    ∃ q, advance? order.toArray alike p i e = some q ∧ Settled q (order.splitBy alike) i ∧
      i < offset (order.splitBy alike) (q.setCount + 1) := by
  have hflat : (order.splitBy alike).flatten = order := List.flatten_splitBy alike order
  have hne : ∀ run ∈ order.splitBy alike, run ≠ [] := fun run hr => List.ne_nil_of_mem_splitBy hr
  obtain ⟨hi, -⟩ := List.getElem?_eq_some_iff.mp he
  by_cases hzero : i = 0
  · refine ⟨p, if_pos hzero, h, ?_⟩
    have := offset_lt_succ hne h.setCount_lt
    omega
  · have hprev : order[i - 1]? = some order[i - 1] := List.getElem?_eq_getElem (by omega)
    have halike := alike_eq h.setCount_lt (hfirst (by omega)) h.le_past hprev he
    simp only [advance?, if_neg hzero, List.getElem?_toArray, hprev, Option.bind_eq_bind, Option.bind_some, halike,
      decide_eq_true_eq]
    by_cases hsame : i < offset (order.splitBy alike) (p.setCount + 1)
    · exact ⟨p, if_pos hsame, h, hsame⟩
    · have hend : i = offset (order.splitBy alike) (p.setCount + 1) := by
        have := h.le_past
        omega
      have hnext : p.setCount + 1 < (order.splitBy alike).length := by
        by_contra hge
        have hlast : p.setCount + 1 = (order.splitBy alike).length := by
          have := h.setCount_lt
          omega
        rw [hlast, offset_length, hflat] at hend
        omega
      obtain ⟨q, hq, hsettled, hcount⟩ := h.cut?_spec (length_le_flatten hne) hend hnext
      refine ⟨q, by rw [if_neg hsame, hq], hsettled, ?_⟩
      have := offset_lt_succ hne hnext
      rw [hcount]
      omega

lemma settle?_spec {order : List Nat} {alike : Nat → Nat → Bool} (h : Settled p (order.splitBy alike) i)
    (hn : order.Nodup) (hlt : ∀ e ∈ order, e < order.length) (hi : i < order.length)
    (hfirst : 0 < i → offset (order.splitBy alike) p.setCount < i) :
    ∃ q, settle? order.toArray alike p i = some q ∧ Settled q (order.splitBy alike) (i + 1) ∧
      offset (order.splitBy alike) q.setCount < i + 1 := by
  have hflat : (order.splitBy alike).flatten = order := List.flatten_splitBy alike order
  have hget : order[i]? = some order[i] := List.getElem?_eq_getElem hi
  obtain ⟨q, hq, hsettled, hrun⟩ := h.advance?_spec hget hfirst
  obtain ⟨r, hr, hplaced, hcount⟩ :=
    hsettled.place?_spec (by rwa [hflat]) (by rwa [hflat]) hrun (by rw [hflat, hget])
  refine ⟨r, by simp [settle?, hget, hq, hr], hplaced, ?_⟩
  rw [hcount]
  exact Nat.lt_succ_of_le hsettled.first_le

lemma foldlM_settle?_spec {order : List Nat} {alike : Nat → Nat → Bool} (h : Settled p (order.splitBy alike) 0)
    (hn : order.Nodup) (hlt : ∀ e ∈ order, e < order.length) {k : Nat} (hk : k ≤ order.length) :
    ∃ q, (List.range k).foldlM (settle? order.toArray alike) p = some q ∧ Settled q (order.splitBy alike) k ∧
      (0 < k → offset (order.splitBy alike) q.setCount < k) := by
  induction k with
  | zero => exact ⟨p, rfl, h, fun h => absurd h (Nat.lt_irrefl 0)⟩
  | succ k ih =>
    obtain ⟨q, hq, hsettled, hfirst⟩ := ih (by omega)
    obtain ⟨r, hr, hnext, hlast⟩ := hsettled.settle?_spec hn hlt hk hfirst
    refine ⟨r, ?_, hnext, fun _ => hlast⟩
    rw [List.range_succ, List.foldlM_append, hq]
    simpa using hr

lemma start {order : List Nat} (hflat : runs.flatten = order) (hruns : runs ≠ []) {table : Array Nat}
    (htable : put? (whole order.length).start 0 0 = some table) :
    Settled { whole order.length with setCount := 0, start := table } runs 0 := by
  obtain ⟨hsize, rfl⟩ := put?_eq_some_iff.mp htable
  refine ⟨by simp [whole, hflat], by simp [whole, hflat], by simp [whole, hflat], by simp [whole, hflat], by simp [hflat], rfl,
    List.length_pos_iff.mpr hruns, by simp, by simp, by simp, by simp, fun s hs => ?_, by simp⟩
  obtain rfl : s = 0 := Nat.le_zero.mp hs
  rw [first, val_set 0 hsize, Function.update_self, offset_zero]

lemma laidOut {order : List Nat} {stop : Array Nat} (h : Settled p runs order.length) (hflat : runs.flatten = order)
    (hne : ∀ run ∈ runs, run ≠ []) (hstop : put? p.stop p.setCount order.length = some stop) :
    LaidOut { p with stop, setCount := p.setCount + 1, order := order.toArray } runs := by
  obtain ⟨hsize, rfl⟩ := put?_eq_some_iff.mp hstop
  have hcount : p.setCount + 1 = runs.length := by
    by_contra hnot
    have hnext : p.setCount + 1 < runs.length := by
      have := h.setCount_lt
      omega
    have hlt := offset_lt_succ hne hnext
    have hle : offset runs (p.setCount + 1 + 1) ≤ offset runs runs.length := offset_mono hnext
    have := h.le_past
    rw [offset_length, hflat] at hle
    omega
  exact {
    size_eq := by simp [size, hflat]
    position_size := by simpa [size, hflat] using h.position_size
    owner_size := by simpa [size, hflat] using h.owner_size
    start_size := by simpa [size, hflat] using h.start_size
    stop_size := by simpa [size, hflat] using h.stop_size
    marks_size := by simp [size, h.marks_eq, whole, hflat]
    setCount_eq := hcount
    marked_eq := by
      intro s
      rw [marked, h.marks_eq]
      exact marked_whole _ s
    elementAt_eq := fun i hi => (val_eq_of_getElem? (by simp [hflat])).2
    placeOf_eq := fun i hi => h.placeOf_eq i _ (List.getElem?_eq_getElem hi) (hflat ▸ hi)
    setOf_eq := by
      intro s hs e he
      obtain ⟨j, hj, rfl⟩ := List.mem_iff_getElem.mp he
      have hget := getElem?_flatten hs hj
      have hlt : offset runs s + j < order.length := hflat ▸ (List.getElem?_eq_some_iff.mp hget).1
      exact h.setOf_eq s _ _ hs (Nat.le_add_right _ _) (by rw [offset_succ hs]; omega) hget hlt
    first_eq := fun s hs => h.first_eq s (by omega)
    past_eq := by
      intro s hs
      by_cases hlast : s = p.setCount
      · rw [past, val_set _ hsize, hlast, Function.update_self, hcount, offset_length, hflat]
      · rw [past, val_set _ hsize, Function.update_of_ne hlast]
        exact h.past_eq s (by omega) }

end Settled

lemma laidOut_nil : LaidOut (whole 0) [] where
  size_eq := rfl
  position_size := rfl
  owner_size := rfl
  start_size := Nat.zero_le _
  stop_size := Nat.zero_le _
  marks_size := Nat.zero_le _
  setCount_eq := rfl
  marked_eq := marked_whole 0
  elementAt_eq := by simp
  placeOf_eq := by simp
  setOf_eq := by simp
  first_eq := by simp
  past_eq := by simp

lemma ofRuns?_spec {order : List Nat} (alike : Nat → Nat → Bool) (hn : order.Nodup)
    (hlt : ∀ e ∈ order, e < order.length) :
    ∃ p, ofRuns? order alike = some p ∧ p.pending = [] ∧ LaidOut p (order.splitBy alike) := by
  by_cases hempty : order.length = 0
  · obtain rfl := List.length_eq_zero_iff.mp hempty
    exact ⟨whole 0, rfl, rfl, laidOut_nil⟩
  · have hflat : (order.splitBy alike).flatten = order := List.flatten_splitBy alike order
    have hne : ∀ run ∈ order.splitBy alike, run ≠ [] := fun run hr => List.ne_nil_of_mem_splitBy hr
    have hruns : order.splitBy alike ≠ [] := List.splitBy_ne_nil.mpr (fun h => hempty (by rw [h, List.length_nil]))
    obtain ⟨table, htable, -⟩ := put?_spec (t := (whole order.length).start) 0 (by simp [whole] : 0 < _)
    obtain ⟨p, hp, h, -⟩ := (Settled.start hflat hruns htable).foldlM_settle?_spec hn hlt (Nat.le_refl _)
    obtain ⟨stop, hstop, -⟩ := put?_spec (t := p.stop) order.length (Nat.lt_of_lt_of_le h.setCount_lt
      ((length_le_flatten hne).trans h.stop_size))
    have hbuilt : ofRuns? order alike =
        some { p with stop, setCount := p.setCount + 1, order := order.toArray } := by
      simp [ofRuns?, hempty, htable, hp, hstop]
    exact ⟨_, hbuilt, h.pending_eq, h.laidOut hflat hne hstop⟩

variable {κ : Type} [DecidableEq κ] [OrderedSymbol κ]

def byKey (keys : List κ) : List Nat :=
  (keys.zipIdx.mergeSort fun x y => OrderedSymbol.le x.1 y.1).map (·.2)

omit [DecidableEq κ] in
lemma byKey_perm (keys : List κ) : (byKey keys).Perm (List.range keys.length) := by
  have hp := (List.mergeSort_perm keys.zipIdx fun x y => OrderedSymbol.le x.1 y.1).map (·.2)
  rwa [List.zipIdx_map_snd, ← List.range_eq_range'] at hp

def KeyLe (keys : List κ) (e f : Nat) : Prop :=
  ∃ k l, keys[e]? = some k ∧ keys[f]? = some l ∧ OrderedSymbol.le k l = true

omit [DecidableEq κ] in
lemma KeyLe.trans {keys : List κ} {e f g : Nat} (h₁ : KeyLe keys e f) (h₂ : KeyLe keys f g) : KeyLe keys e g := by
  obtain ⟨k, l, hk, hl, hkl⟩ := h₁
  obtain ⟨l', m, hl', hm, hlm⟩ := h₂
  obtain rfl : l = l' := Option.some.inj (hl.symm.trans hl')
  exact ⟨k, m, hk, hm, OrderedSymbol.le_trans hkl hlm⟩

omit [DecidableEq κ] in
lemma KeyLe.antisymm {keys : List κ} {e f : Nat} (h₁ : KeyLe keys e f) (h₂ : KeyLe keys f e) :
    keys[e]? = keys[f]? := by
  obtain ⟨k, l, hk, hl, hkl⟩ := h₁
  obtain ⟨l', k', hl', hk', hlk⟩ := h₂
  obtain rfl : l = l' := Option.some.inj (hl.symm.trans hl')
  obtain rfl : k = k' := Option.some.inj (hk.symm.trans hk')
  rw [hk, hl, OrderedSymbol.le_antisymm hkl hlk]

omit [DecidableEq κ] in
lemma KeyLe.of_eq {keys : List κ} {e f : Nat} (he : e < keys.length) (h : keys[e]? = keys[f]?) : KeyLe keys e f := by
  refine ⟨keys[e], keys[e], by simp [he], by simp [← h, he], ?_⟩
  simpa using OrderedSymbol.le_total keys[e] keys[e]

omit [DecidableEq κ] in
lemma byKey_sorted (keys : List κ) : (byKey keys).Pairwise (KeyLe keys) := by
  have hs := @List.pairwise_mergeSort (κ × Nat) (fun x y => OrderedSymbol.le x.1 y.1)
    (fun _ _ _ => OrderedSymbol.le_trans) (fun x y => OrderedSymbol.le_total x.1 y.1) keys.zipIdx
  refine List.pairwise_map.mpr (hs.imp_of_mem fun {x y} hx hy hxy => ?_)
  rw [List.mem_mergeSort] at hx hy
  exact ⟨x.1, y.1, List.mk_mem_zipIdx_iff_getElem?.mp hx, List.mk_mem_zipIdx_iff_getElem?.mp hy, hxy⟩

def keyRuns (keys : List κ) : List (List Nat) :=
  (byKey keys).splitBy fun a b => keys.toArray[a]? == keys.toArray[b]?

lemma flatten_keyRuns (keys : List κ) : (keyRuns keys).flatten = byKey keys := List.flatten_splitBy _ _

lemma mem_keyRuns_lt {keys : List κ} {s e : Nat} (hs : s < (keyRuns keys).length) (he : e ∈ (keyRuns keys)[s]) :
    e < keys.length := by
  have hmem : e ∈ (keyRuns keys).flatten := List.mem_flatten.mpr ⟨_, List.getElem_mem hs, he⟩
  rw [flatten_keyRuns] at hmem
  simpa using (byKey_perm keys).mem_iff.mp hmem

lemma key_eq_of_mem_run {keys : List κ} {s e f : Nat} (hs : s < (keyRuns keys).length)
    (he : e ∈ (keyRuns keys)[s]) (hf : f ∈ (keyRuns keys)[s]) : keys[e]? = keys[f]? := by
  have hchain : (keyRuns keys)[s].IsChain fun a b => keys[a]? = keys[b]? :=
    (List.isChain_of_mem_splitBy (List.getElem_mem hs)).imp fun a b hab => by simpa using hab
  have : IsTrans Nat fun a b => keys[a]? = keys[b]? := ⟨fun _ _ _ => Eq.trans⟩
  have : Std.Symm fun a b : Nat => keys[a]? = keys[b]? := ⟨fun _ _ => Eq.symm⟩
  exact List.Pairwise.forall_of_forall (R := fun a b : Nat => keys[a]? = keys[b]?) (fun _ _ => rfl)
    (List.isChain_iff_pairwise.mp hchain) he hf

lemma key_ne_of_lt {keys : List κ} {s t e f : Nat} (hst : s < t) (ht : t < (keyRuns keys).length)
    (he : e ∈ (keyRuns keys)[s]) (hf : f ∈ (keyRuns keys)[t]) : keys[e]? ≠ keys[f]? := by
  -- in a sorted sequence no key comes back after its run
  intro hef
  have hsorted := byKey_sorted keys
  rw [← flatten_keyRuns, List.pairwise_flatten] at hsorted
  have hbetween : ∀ i j (hi : i < (keyRuns keys).length) (hj : j < (keyRuns keys).length), i < j →
      ∀ x ∈ (keyRuns keys)[i], ∀ y ∈ (keyRuns keys)[j], KeyLe keys x y :=
    fun i j hi hj hij => List.pairwise_iff_getElem.mp hsorted.2 i j hi hj hij
  have hchain := List.isChain_getLast_head_splitBy (fun a b => keys.toArray[a]? == keys.toArray[b]?) (byKey keys)
  obtain ⟨ha, hb, hlast⟩ := List.isChain_iff_getElem.mp hchain s (by change s + 1 < (keyRuns keys).length; omega)
  change (keyRuns keys)[s] ≠ [] at ha
  change (keyRuns keys)[s + 1] ≠ [] at hb
  set x := (keyRuns keys)[s].getLast ha with hx
  set y := (keyRuns keys)[s + 1].head hb with hy
  have hxm : x ∈ (keyRuns keys)[s] := List.getLast_mem ha
  have hym : y ∈ (keyRuns keys)[s + 1] := List.head_mem hb
  have hex : KeyLe keys e x := .of_eq (mem_keyRuns_lt (by omega) he) (key_eq_of_mem_run (by omega) he hxm)
  have hxy : KeyLe keys x y := hbetween s (s + 1) (by omega) (by omega) (by omega) x hxm y hym
  have hyf : KeyLe keys y f := by
    rcases Nat.lt_or_ge (s + 1) t with hlt | hge
    · exact hbetween (s + 1) t (by omega) ht hlt y hym f hf
    · obtain rfl : s + 1 = t := by omega
      exact .of_eq (mem_keyRuns_lt ht hym) (key_eq_of_mem_run ht hym hf)
  have hfe : KeyLe keys f e := .of_eq (mem_keyRuns_lt ht hf) hef.symm
  have hkeys := hxy.antisymm ((hyf.trans hfe).trans hex)
  have hne : (keys.toArray[x]? == keys.toArray[y]?) = false := hlast
  simp [hkeys] at hne

lemma ofKeys?_spec (keys : List κ) :
    ∃ p, ofKeys? OrderedSymbol.le keys = some p ∧ p.Valid keys.length ∧ p.pending = [] ∧ (∀ s, p.marked s = 0) ∧
      p.size = keys.length ∧
      ∀ t u, t < keys.length → u < keys.length → (p.setOf t = p.setOf u ↔ keys[t]? = keys[u]?) := by
  have hperm := byKey_perm keys
  have hlen : (byKey keys).length = keys.length := by simpa using hperm.length_eq
  have hn : (byKey keys).Nodup := hperm.nodup_iff.mpr List.nodup_range
  have hlt : ∀ e ∈ byKey keys, e < (byKey keys).length := fun e he => by
    rw [hlen]
    simpa using hperm.mem_iff.mp he
  obtain ⟨p, hp, hpending, x⟩ := ofRuns?_spec (fun a b => keys.toArray[a]? == keys.toArray[b]?) hn hlt
  change LaidOut p (keyRuns keys) at x
  have hflat : (keyRuns keys).flatten.length = keys.length := by rw [flatten_keyRuns, hlen]
  have hrun : ∀ t, t < keys.length → ∃ s, ∃ hs : s < (keyRuns keys).length, t ∈ (keyRuns keys)[s] := by
    intro t ht
    have hmem : t ∈ (keyRuns keys).flatten := by
      rw [flatten_keyRuns]
      exact mem_of_lt hn hlt (hlen ▸ ht)
    obtain ⟨run, hr, htr⟩ := List.mem_flatten.mp hmem
    obtain ⟨s, hs, rfl⟩ := List.mem_iff_getElem.mp hr
    exact ⟨s, hs, htr⟩
  refine ⟨p, hp, hflat ▸ x.valid (flatten_keyRuns keys ▸ hn) (flatten_keyRuns keys ▸ hlt)
    fun run hr => List.ne_nil_of_mem_splitBy hr, hpending, x.marked_eq, x.size_eq.trans hflat, fun t u ht hu => ?_⟩
  obtain ⟨s, hs, hts⟩ := hrun t ht
  obtain ⟨s', hs', hus⟩ := hrun u hu
  rw [x.setOf_eq s hs t hts, x.setOf_eq s' hs' u hus]
  constructor
  · rintro rfl
    exact key_eq_of_mem_run hs hts hus
  · intro hkeys
    rcases Nat.lt_trichotomy s s' with hlt | heq | hgt
    · exact absurd hkeys (key_ne_of_lt hlt hs' hts hus)
    · exact heq
    · exact absurd hkeys.symm (key_ne_of_lt hgt hs hus hts)

end PatternInference.Partition
