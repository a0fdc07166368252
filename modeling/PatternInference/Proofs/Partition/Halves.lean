import Mathlib.Order.Interval.Finset.Nat
import PatternInference.Proofs.Partition.Splitting

/-! What a split leaves of each range: the smaller of its two parts is a new set, and the other one keeps the number. -/

namespace PatternInference.Partition

variable {p q r : Partition} {live s t : Nat}

def range (p : Partition) (s : Nat) : Nat × Nat := (p.first s, p.past s)

def border (p : Partition) (s : Nat) : Nat := p.first s + p.marked s

def lesser (p : Partition) (s : Nat) : Nat × Nat :=
  if p.marked s ≤ p.past s - p.border s then (p.first s, p.border s) else (p.border s, p.past s)

def greater (p : Partition) (s : Nat) : Nat × Nat :=
  if p.marked s ≤ p.past s - p.border s then (p.border s, p.past s) else (p.first s, p.border s)

structure Undisturbed (p q : Partition) (t : Nat) : Prop where
  first_eq : q.first t = p.first t
  past_eq : q.past t = p.past t
  marked_eq : q.marked t = p.marked t

namespace Undisturbed

lemma range_eq (x : Undisturbed p q t) : q.range t = p.range t := by
  rw [range, range, x.first_eq, x.past_eq]

lemma border_eq (x : Undisturbed p q t) : q.border t = p.border t := by
  rw [border, border, x.first_eq, x.marked_eq]

lemma lesser_eq (x : Undisturbed p q t) : q.lesser t = p.lesser t := by
  rw [lesser, lesser, x.border_eq, x.first_eq, x.past_eq, x.marked_eq]

lemma greater_eq (x : Undisturbed p q t) : q.greater t = p.greater t := by
  rw [greater, greater, x.border_eq, x.first_eq, x.past_eq, x.marked_eq]

end Undisturbed

structure Cuts (p r : Partition) (sets : List Nat) : Prop where
  setCount_eq : r.setCount = p.setCount + sets.countP fun s => decide (p.border s < p.past s)
  undisturbed : ∀ t, t < p.setCount → t ∉ sets → Undisturbed p r t
  full : ∀ s ∈ sets, p.border s = p.past s → r.range s = p.range s
  halved : ∀ s ∈ sets, p.border s < p.past s →
    r.range s = p.greater s ∧ ∃ t, p.setCount ≤ t ∧ t < r.setCount ∧ r.range t = p.lesser s

lemma Cleared.cuts (x : Cleared p r s) (hfull : p.border s = p.past s) : Cuts p r [s] := by
  refine ⟨by simp [x.setCount_eq, hfull], fun t _ hts => ?_, fun t ht _ => ?_, fun t ht hlt => ?_⟩
  · refine ⟨congrFun x.first_eq t, congrFun x.past_eq t, ?_⟩
    rw [x.marked_eq, Function.update_of_ne (by simpa using hts)]
  · rw [range, range, x.first_eq, x.past_eq]
  · rw [List.mem_singleton.mp ht] at hlt
    omega

lemma Carved.cuts {a b c d : Nat} (x : Carved p r live s a b c d) (hs : s < p.setCount) (hlt : p.border s < p.past s)
    (hlesser : p.lesser s = (a, b)) (hgreater : p.greater s = (c, d)) : Cuts p r [s] := by
  refine ⟨by simp [x.setCount_eq, hlt], fun t ht hts => ?_, fun t ht hfull => ?_, fun t ht _ => ?_⟩
  · have hts : t ≠ s := by simpa using hts
    exact ⟨by simp [x.first_eq, hts, ht.ne], by simp [x.past_eq, hts, ht.ne], by simp [x.marked_eq, hts, ht.ne]⟩
  · rw [List.mem_singleton.mp ht] at hfull
    omega
  · obtain rfl := List.mem_singleton.mp ht
    refine ⟨by simp [range, x.first_eq, x.past_eq, hgreater], p.setCount, le_rfl, by rw [x.setCount_eq]; omega, ?_⟩
    simp [range, x.first_eq, x.past_eq, hlesser, hs.ne']

lemma Valid.splitSet?_cuts (h : p.Valid live) (hs : s < p.setCount) (hm : 0 < p.marked s) :
    ∃ r, p.splitSet? s = some r ∧ Split p r live (· = s) ∧ Cuts p r [s] := by
  obtain ⟨r, hr, x⟩ := h.splitSet?_split hs hm
  obtain ⟨r', hr', hcases⟩ := h.splitSet?_spec hs hm
  obtain rfl := Option.some.inj (hr.symm.trans hr')
  refine ⟨r, hr, x, ?_⟩
  obtain ⟨hfull, y⟩ | ⟨hlt, hle, y⟩ | ⟨hlt, hle, y⟩ := hcases
  · exact y.cuts hfull
  · exact y.cuts hs hlt (if_pos hle) (if_pos hle)
  · exact y.cuts hs hlt (if_neg (Nat.not_le.mpr hle)) (if_neg (Nat.not_le.mpr hle))

lemma Cuts.cons {sets : List Nat} (x : Cuts p q [s]) (y : Cuts q r sets) (hs : s < p.setCount) (hnew : s ∉ sets)
    (hsets : ∀ t ∈ sets, t < p.setCount) : Cuts p r (s :: sets) := by
  have hle : p.setCount ≤ q.setCount := by
    have := x.setCount_eq
    omega
  have hle' : q.setCount ≤ r.setCount := by
    have := y.setCount_eq
    omega
  have hother : ∀ t ∈ sets, Undisturbed p q t := fun t ht =>
    x.undisturbed t (hsets t ht) fun hts => hnew (List.mem_singleton.mp hts ▸ ht)
  have hkept := y.undisturbed s (hs.trans_le hle) hnew
  refine ⟨?_, fun t ht hts => ?_, fun t ht hfull => ?_, fun t ht hlt => ?_⟩
  · have hcount : sets.countP (fun t => decide (q.border t < q.past t)) =
        sets.countP fun t => decide (p.border t < p.past t) := by
      apply List.countP_congr
      intro t ht
      rw [(hother t ht).border_eq, (hother t ht).past_eq]
    rw [y.setCount_eq, x.setCount_eq, hcount, List.countP_cons, List.countP_cons, List.countP_nil]
    omega
  · simp only [List.mem_cons, not_or] at hts
    have h₁ := x.undisturbed t ht (by simpa using hts.1)
    have h₂ := y.undisturbed t (ht.trans_le hle) hts.2
    exact ⟨h₂.first_eq.trans h₁.first_eq, h₂.past_eq.trans h₁.past_eq, h₂.marked_eq.trans h₁.marked_eq⟩
  · rcases List.mem_cons.mp ht with rfl | ht
    · exact hkept.range_eq.trans (x.full t (by simp) hfull)
    · rw [y.full t ht, (hother t ht).range_eq]
      rw [(hother t ht).border_eq, (hother t ht).past_eq, hfull]
  · rcases List.mem_cons.mp ht with rfl | ht
    · -- what has just been cut off is none of the sets still to be cut
      obtain ⟨hgreater, u, hu, hur, hlesser⟩ := x.halved t (by simp) hlt
      have hfresh := y.undisturbed u hur fun hmem => by have := hsets u hmem; omega
      exact ⟨hkept.range_eq.trans hgreater, u, hu, hur.trans_le hle', hfresh.range_eq.trans hlesser⟩
    · obtain ⟨hgreater, u, hu, hur, hlesser⟩ := y.halved t ht (by
        rwa [(hother t ht).border_eq, (hother t ht).past_eq])
      rw [(hother t ht).greater_eq] at hgreater
      rw [(hother t ht).lesser_eq] at hlesser
      exact ⟨hgreater, u, hle.trans hu, hur, hlesser⟩

lemma Valid.foldlM_splitSet?_cuts (h : p.Valid live) {sets : List Nat} (hn : sets.Nodup)
    (hsets : ∀ s ∈ sets, s < p.setCount ∧ 0 < p.marked s) (hr : sets.foldlM splitSet? p = some r) : Cuts p r sets := by
  induction sets generalizing p with
  | nil =>
    obtain rfl := Option.some.inj hr
    exact ⟨rfl, fun _ _ _ => ⟨rfl, rfl, rfl⟩, nofun, nofun⟩
  | cons s sets ih =>
    obtain ⟨hsn, hn⟩ := List.nodup_cons.mp hn
    obtain ⟨hs, hm⟩ := hsets s (by simp)
    obtain ⟨q, hq, x, hcuts⟩ := h.splitSet?_cuts hs hm
    rw [List.foldlM_cons, hq] at hr
    have hrest : ∀ t ∈ sets, t < q.setCount ∧ 0 < q.marked t := fun t ht =>
      (x.marked_pos_iff t).mpr ⟨hsets t (by simp [ht]), fun hts => hsn (hts ▸ ht)⟩
    exact hcuts.cons (ih x.valid hn hrest hr) hs hsn fun t ht => (hsets t (by simp [ht])).1

def within (p : Partition) (x : Nat × Nat) : Finset Nat := (Finset.Ico x.1 x.2).image p.elementAt

def memberSet (p : Partition) (s : Nat) : Finset Nat := ((p.members? s).getD []).toFinset

namespace Valid

variable {e : Nat}

lemma card_within (h : p.Valid live) {x : Nat × Nat} (hx : x.2 ≤ p.size) : (p.within x).card = x.2 - x.1 := by
  rw [within, Finset.card_image_of_injOn, Nat.card_Ico]
  intro i hi j hj hij
  simp only [Finset.coe_Ico, Set.mem_Ico] at hi hj
  rw [← h.placeOf_elementAt i (by omega), hij, h.placeOf_elementAt j (by omega)]

lemma mem_within (h : p.Valid live) {x : Nat × Nat} (hx : x.2 ≤ live) :
    e ∈ p.within x ↔ p.Live live e ∧ x.1 ≤ p.placeOf e ∧ p.placeOf e < x.2 := by
  simp only [within, Finset.mem_image, Finset.mem_Ico]
  constructor
  · rintro ⟨i, hi, rfl⟩
    rw [h.placeOf_elementAt i (by have := h.live_le; omega)]
    exact ⟨h.live_elementAt (by omega), hi⟩
  · exact fun ⟨he, hplace⟩ => ⟨p.placeOf e, hplace, h.elementAt_placeOf e he.1⟩

lemma memberSet_eq (h : p.Valid live) (hs : s < p.setCount) : p.memberSet s = p.within (p.range s) := by
  have hrange := h.first_lt_past s hs
  ext e
  simp only [memberSet, h.members?_eq hs, Option.getD_some, List.mem_toFinset, List.mem_map, List.mem_range'_1,
    within, range, Finset.mem_image, Finset.mem_Ico]
  refine exists_congr fun i => and_congr_left fun _ => ?_
  omega

lemma mem_memberSet (h : p.Valid live) (hs : s < p.setCount) : e ∈ p.memberSet s ↔ p.Live live e ∧ p.setOf e = s := by
  rw [memberSet, h.members?_eq hs, Option.getD_some, List.mem_toFinset]
  obtain ⟨l, hl, hmem⟩ := h.members?_spec hs
  obtain rfl := Option.some.inj ((h.members?_eq hs).symm.trans hl)
  exact hmem e

lemma mem_within_iff_of_le (h : p.Valid live) (hs : s < p.setCount) {x : Nat × Nat} (hfirst : p.first s ≤ x.1)
    (hpast : x.2 ≤ p.past s) : e ∈ p.within x ↔ e ∈ p.memberSet s ∧ x.1 ≤ p.placeOf e ∧ p.placeOf e < x.2 := by
  rw [h.mem_within (hpast.trans (h.past_le s hs)), h.mem_memberSet hs, and_assoc]
  refine and_congr_right fun he => iff_and_self.mpr fun hplace => ?_
  have hset := h.setOf_eq s (p.placeOf e) hs (hfirst.trans hplace.1) (hplace.2.trans_le hpast)
  rwa [h.elementAt_placeOf e he.1] at hset

end Valid

end PatternInference.Partition
