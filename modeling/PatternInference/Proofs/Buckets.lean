import Mathlib.Data.List.Count
import Mathlib.Data.List.Nodup
import Mathlib.Data.List.Permutation
import Mathlib.Order.Nat
import PatternInference.Buckets
import PatternInference.Proofs.Lists
import PatternInference.Proofs.Table

namespace PatternInference.Buckets

open Table

def positionsFrom (start : Nat) (tails : List Nat) (s : Nat) : List Nat :=
  ((tails.zipIdx start).filter fun x => x.1 == s).map (·.2)

def positions (tails : List Nat) (s : Nat) : List Nat := positionsFrom 0 tails s

lemma mem_positions {tails : List Nat} {s t : Nat} : t ∈ positions tails s ↔ tails[t]? = some s := by
  simp [positions, positionsFrom, List.mk_mem_zipIdx_iff_getElem?]

lemma positionsFrom_cons (start x : Nat) (tails : List Nat) (s : Nat) :
    positionsFrom start (x :: tails) s =
      if x = s then start :: positionsFrom (start + 1) tails s else positionsFrom (start + 1) tails s := by
  by_cases h : x = s <;> simp [positionsFrom, List.zipIdx_cons, h]

lemma length_positionsFrom (start : Nat) (tails : List Nat) (s : Nat) :
    (positionsFrom start tails s).length = tails.count s := by
  induction tails generalizing start with
  | nil => simp [positionsFrom]
  | cons x tails ih => by_cases h : x = s <;> simp [positionsFrom_cons, h, ih]

def upTo (tails : List Nat) (s : Nat) : Nat := tails.countP (· ≤ s)

lemma upTo_add_count_le {tails : List Nat} {s t : Nat} (h : s < t) :
    upTo tails s + tails.count t ≤ upTo tails t := by
  induction tails with
  | nil => simp [upTo]
  | cons x tails ih =>
    simp only [upTo, List.countP_cons, List.count_cons, decide_eq_true_eq, beq_iff_eq] at ih ⊢
    split_ifs <;> omega

lemma upTo_succ (tails : List Nat) (s : Nat) : upTo tails (s + 1) = upTo tails s + tails.count (s + 1) := by
  induction tails with
  | nil => simp [upTo]
  | cons x tails ih =>
    simp only [upTo, List.countP_cons, List.count_cons, decide_eq_true_eq, beq_iff_eq] at ih ⊢
    split_ifs <;> omega

lemma count_le_upTo (tails : List Nat) (s : Nat) : tails.count s ≤ upTo tails s :=
  List.countP_mono_left fun x _ hx => by simp_all

lemma counts?_spec {stateCount : Nat} {tails : List Nat} (h : ∀ s ∈ tails, s < stateCount) :
    ∃ t, counts? stateCount tails = some t ∧ t.size = stateCount + 1 ∧ ∀ s, val t s = tails.count s := by
  suffices hs : ∀ t₀ : Array Nat, t₀.size = stateCount + 1 →
      ∃ t, tails.foldlM (fun t s => do put? t s ((← t[s]?) + 1)) t₀ = some t ∧ t.size = stateCount + 1 ∧
        ∀ s, val t s = val t₀ s + tails.count s by
    obtain ⟨t, ht, hsize, hval⟩ := hs (Array.replicate (stateCount + 1) 0) (by simp)
    refine ⟨t, ht, hsize, fun s => ?_⟩
    rw [hval]
    by_cases hlt : s < stateCount + 1 <;> simp [val, Array.getD, hlt]
  induction tails with
  | nil => exact fun t₀ h₀ => ⟨t₀, rfl, h₀, by simp⟩
  | cons x tails ih =>
    intro t₀ h₀
    have hx : x < t₀.size := by
      have := h x (by simp)
      omega
    obtain ⟨u, hu, husize, huval⟩ := put?_spec (t := t₀) (val t₀ x + 1) hx
    obtain ⟨t, ht, hsize, hval⟩ := ih (fun s hs => h s (by simp [hs])) u (husize.trans h₀)
    refine ⟨t, ?_, hsize, fun s => ?_⟩
    · simp only [List.foldlM_cons, getElem?_eq_val hx, Option.bind_eq_bind, Option.bind_some, hu]
      exact ht
    · rw [hval, huval, List.count_cons]
      by_cases hs : s = x
      · subst hs
        simp
        omega
      · simp [Function.update_of_ne hs, Ne.symm hs]

lemma sums?_spec {stateCount : Nat} {table : Array Nat} (hsize : table.size = stateCount + 1) {tails : List Nat}
    (hval : ∀ s, val table s = tails.count s) :
    ∃ t, sums? stateCount table = some t ∧ t.size = stateCount + 1 ∧ ∀ s, s ≤ stateCount → val t s = upTo tails s := by
  suffices hs : ∀ k, k ≤ stateCount →
      ∃ t, (List.range k).foldlM (fun t s => do put? t (s + 1) ((← t[s + 1]?) + (← t[s]?))) table = some t ∧
        t.size = stateCount + 1 ∧ ∀ s, val t s = if s ≤ k then upTo tails s else tails.count s by
    obtain ⟨t, ht, htsize, htval⟩ := hs stateCount le_rfl
    exact ⟨t, ht, htsize, fun s hle => by rw [htval, if_pos hle]⟩
  intro k hk
  induction k with
  | zero =>
    refine ⟨table, rfl, hsize, fun s => ?_⟩
    rw [hval]
    split
    · next h =>
      obtain rfl : s = 0 := by omega
      simp only [upTo, List.count]
      exact List.countP_congr fun x _ => by simp
    · rfl
  | succ k ih =>
    obtain ⟨t, ht, htsize, htval⟩ := ih (by omega)
    obtain ⟨u, hu, husize, huval⟩ := put?_spec (t := t) (i := k + 1) (val t (k + 1) + val t k) (by omega)
    refine ⟨u, ?_, husize.trans htsize, fun s => ?_⟩
    · rw [List.range_succ, List.foldlM_append, ht]
      simp [getElem?_eq_val (by omega : k + 1 < t.size), getElem?_eq_val (by omega : k < t.size), hu]
    · rw [huval]
      by_cases hs : s = k + 1
      · rw [hs, Function.update_self, htval, htval, if_neg (by omega), if_pos le_rfl, if_pos le_rfl, upTo_succ]
        omega
      · rw [Function.update_of_ne hs, htval]
        split_ifs <;> first | rfl | omega

/-- The positions from `start` on are placed; what is free of a bucket is its front. -/
structure Filled (b : Buckets) (tails : List Nat) (start : Nat) (rest : List Nat) : Prop where
  entries_size : b.entries.size = tails.length
  offset_add : ∀ s, s < b.offsets.size →
    val b.offsets s + (positionsFrom start rest s).length = upTo tails s
  entry_eq : ∀ s, s < b.offsets.size →
    (List.range' (val b.offsets s) (positionsFrom start rest s).length).map (val b.entries) =
      positionsFrom start rest s

lemma Filled.exists_free {b : Buckets} {tails rest : List Nat} {start x : Nat} (h : Filled b tails (start + 1) rest)
    (hx : x < b.offsets.size) (hc : (x :: rest).count x ≤ tails.count x) :
    ∃ free, val b.offsets x = free + 1 ∧ free < b.entries.size := by
  have hadd := h.offset_add x hx
  have hle := count_le_upTo tails x
  have htotal : upTo tails x ≤ tails.length := List.countP_le_length
  rw [length_positionsFrom] at hadd
  rw [List.count_cons_self] at hc
  refine ⟨val b.offsets x - 1, by omega, ?_⟩
  rw [h.entries_size]
  omega

-- what is still free of one bucket does not reach into another one
lemma Filled.apart {b : Buckets} {tails rest : List Nat} {start x s : Nat} (h : Filled b tails (start + 1) rest)
    (hx : x < b.offsets.size) (hs : s < b.offsets.size) (hc : ∀ s, (x :: rest).count s ≤ tails.count s) (hsx : s ≠ x) :
    val b.offsets x ≤ val b.offsets s ∨ upTo tails s < val b.offsets x := by
  have hadd := h.offset_add x hx
  have hadds := h.offset_add s hs
  have hcx := hc x
  have hcs := hc s
  rw [length_positionsFrom] at hadd hadds
  rw [List.count_cons_self] at hcx
  rw [List.count_cons_of_ne (Ne.symm hsx)] at hcs
  rcases Nat.lt_or_gt_of_ne hsx with hlt | hgt
  · have : upTo tails s + tails.count x ≤ upTo tails x := upTo_add_count_le hlt
    omega
  · have : upTo tails x + tails.count s ≤ upTo tails s := upTo_add_count_le hgt
    omega

lemma Filled.place?_spec {b : Buckets} {tails rest : List Nat} {start x : Nat}
    (h : Filled b tails (start + 1) rest) (hx : x < b.offsets.size) (hc : ∀ s, (x :: rest).count s ≤ tails.count s) :
    ∃ c, b.place? x start = some c ∧ c.offsets.size = b.offsets.size ∧ Filled c tails start (x :: rest) := by
  obtain ⟨free, hfree, hlt⟩ := h.exists_free hx (hc x)
  obtain ⟨offsets, ho, hosize, hoval⟩ := put?_spec free hx
  obtain ⟨entries, he, hesize, heval⟩ := put?_spec (t := b.entries) (i := free) start hlt
  refine ⟨⟨offsets, entries⟩, ?_, hosize, hesize.trans h.entries_size, fun s hs => ?_, fun s hs => ?_⟩
  · simp only [place?, getElem?_eq_val hx, hfree, Option.bind_eq_bind, Option.bind_some, ho, he]
    rfl
  · have hadds := h.offset_add s (hosize ▸ hs)
    rw [positionsFrom_cons]
    simp only [hoval]
    by_cases hsx : s = x
    · rw [hsx, hfree] at hadds
      rw [hsx, Function.update_self, if_pos rfl, List.length_cons]
      omega
    · rw [Function.update_of_ne hsx, if_neg (Ne.symm hsx)]
      exact hadds
  · have hentry := h.entry_eq s (hosize ▸ hs)
    rw [positionsFrom_cons]
    simp only [hoval, heval]
    by_cases hsx : s = x
    · rw [hsx, Function.update_self, if_pos rfl, List.length_cons, List.range'_succ, List.map_cons,
        Function.update_self]
      congr 1
      rw [hsx, hfree] at hentry
      rw [← hentry]
      simp only [List.length_map, List.length_range']
      refine List.map_congr_left fun i hi => Function.update_of_ne ?_ _ _
      rw [List.mem_range'_1] at hi
      omega
    · rw [Function.update_of_ne hsx, if_neg (Ne.symm hsx)]
      refine Eq.trans (List.map_congr_left fun i hi => Function.update_of_ne ?_ _ _) hentry
      rw [List.mem_range'_1] at hi
      have hadds := h.offset_add s (hosize ▸ hs)
      have := h.apart hx (hosize ▸ hs) hc hsx
      omega

lemma foldrM_place?_spec {b : Buckets} {tails rest : List Nat} (h : b.entries.size = tails.length)
    (ho : ∀ s, s < b.offsets.size → val b.offsets s = upTo tails s) (start : Nat)
    (hrest : ∀ s ∈ rest, s < b.offsets.size) (hc : ∀ s, rest.count s ≤ tails.count s) :
    ∃ c, (rest.zipIdx start).foldrM (fun x c => place? c x.1 x.2) b = some c ∧
      c.offsets.size = b.offsets.size ∧ Filled c tails start rest := by
  induction rest generalizing start with
  | nil =>
    refine ⟨b, rfl, rfl, h, fun s hs => ?_, fun s hs => by simp [positionsFrom]⟩
    simp [positionsFrom, ho s hs]
  | cons x rest ih =>
    obtain ⟨c, hfold, hsize, hfilled⟩ := ih (start + 1) (fun s hs => hrest s (by simp [hs])) fun s =>
      (List.count_le_count_cons ..).trans (hc s)
    obtain ⟨d, hd, hdsize, hplaced⟩ := hfilled.place?_spec (hsize ▸ hrest x (by simp)) hc
    refine ⟨d, ?_, hdsize.trans hsize, hplaced⟩
    rw [List.zipIdx_cons, List.foldrM_cons, hfold]
    exact hd

lemma ofTails?_spec {stateCount : Nat} {tails : List Nat} (h : ∀ s ∈ tails, s < stateCount) :
    ∃ b, ofTails? stateCount tails = some b ∧
      ∀ s, s < stateCount → b.bucket? s = some (positions tails s) := by
  obtain ⟨counts, hcounts, hcsize, hcval⟩ := counts?_spec h
  obtain ⟨offsets, ho, hosize, hoval⟩ := sums?_spec hcsize hcval
  have hplaced : ∀ s ∈ tails, s < offsets.size := by
    intro s hs
    have := h s hs
    omega
  obtain ⟨b, hb, hbsize, hfilled⟩ := foldrM_place?_spec (b := ⟨offsets, Array.replicate tails.length 0⟩) (by simp)
    (fun s hs => hoval s (by simp only [hosize] at hs; omega)) 0 hplaced fun _ => le_rfl
  refine ⟨b, ?_, fun s hs => ?_⟩
  · simp only [ofTails?, hcounts, ho, Option.bind_eq_bind, Option.bind_some, List.foldlM_reverse]
    exact hb
  · simp only [hosize] at hbsize
    have hlen : ∀ s, (positionsFrom 0 tails s).length = tails.count s := length_positionsFrom _ _
    have h₁ := hfilled.offset_add s (by omega)
    have h₂ := hfilled.offset_add (s + 1) (by omega)
    have h₃ := upTo_succ tails s
    have h₄ : upTo tails s ≤ tails.length := List.countP_le_length
    have hentry := hfilled.entry_eq s (by omega)
    rw [hlen] at h₁ h₂ hentry
    simp only [bucket?, getElem?_eq_val (by omega : s < b.offsets.size),
      getElem?_eq_val (by omega : s + 1 < b.offsets.size), Option.bind_eq_bind, Option.bind_some]
    rw [slice?_eq (by omega) (by have := hfilled.entries_size; omega),
      show val b.offsets (s + 1) - val b.offsets s = tails.count s by omega, hentry]
    rfl

lemma pairwise_positions (tails : List Nat) (s : Nat) : (positions tails s).Pairwise (· < ·) := by
  have hall : (tails.zipIdx.map Prod.snd).Pairwise (· < ·) := by
    rw [List.zipIdx_map_snd]
    exact List.pairwise_lt_range'
  exact hall.sublist (List.filter_sublist.map Prod.snd)

lemma flatMap_positions_perm {stateCount : Nat} {tails : List Nat} (h : ∀ s ∈ tails, s < stateCount) :
    ((List.range stateCount).flatMap (positions tails)).Perm (List.range tails.length) := by
  have hnodup : ((List.range stateCount).flatMap (positions tails)).Nodup := by
    apply List.nodup_flatMap.mpr
    constructor
    · exact fun s _ => (pairwise_positions tails s).imp Nat.ne_of_lt
    · apply List.nodup_range.imp
      intro s s' hne t ht ht'
      rw [mem_positions] at ht ht'
      exact hne (Option.some.inj (ht.symm.trans ht'))
  apply (List.perm_ext_iff_of_nodup hnodup List.nodup_range).mpr
  intro t
  simp only [List.mem_flatMap, List.mem_range, mem_positions]
  constructor
  · rintro ⟨s, _, ht⟩
    exact (List.getElem?_eq_some_iff.mp ht).1
  · intro ht
    exact ⟨tails[t], h _ (List.getElem_mem ht), List.getElem?_eq_getElem ht⟩

theorem buckets_list_positions {stateCount : Nat} {tails : List Nat} (h : ∀ s ∈ tails, s < stateCount) :
    ∃ b, ofTails? stateCount tails = some b ∧
      (∀ s, s < stateCount → ∃ bucket, b.bucket? s = some bucket ∧ bucket.Pairwise (· < ·) ∧
        ∀ t, t ∈ bucket ↔ tails[t]? = some s) ∧
      ∃ buckets, (List.range stateCount).mapM b.bucket? = some buckets ∧
        buckets.flatten.Perm (List.range tails.length) := by
  obtain ⟨b, hb, hbucket⟩ := ofTails?_spec h
  refine ⟨b, hb, fun s hs => ⟨_, hbucket s hs, pairwise_positions tails s, fun t => mem_positions⟩, ?_⟩
  refine ⟨_, mapM_eq_pure_map (positions tails) fun s hs => hbucket s (List.mem_range.mp hs), ?_⟩
  rw [← List.flatMap_def]
  exact flatMap_positions_perm h

theorem buckets_list_positions_repeated :
    ∃ b, ofTails? 4 [2, 0, 2, 3, 0, 2, 3] = some b ∧ b.bucket? 1 = some [] ∧ b.bucket? 2 = some [0, 2, 5] ∧
      ∃ buckets, (List.range 4).mapM b.bucket? = some buckets ∧ buckets.flatten.Perm (List.range 7) := by
  obtain ⟨b, hb, _, hall⟩ := @buckets_list_positions 4 [2, 0, 2, 3, 0, 2, 3] (by decide)
  have hread : ofTails? 4 [2, 0, 2, 3, 0, 2, 3] = some ⟨#[0, 2, 2, 5, 7], #[1, 4, 0, 2, 5, 3, 6]⟩ := by decide +kernel
  obtain rfl := Option.some.inj (hb.symm.trans hread)
  exact ⟨_, hb, by decide +kernel, by decide +kernel, hall⟩

end PatternInference.Buckets
