import PatternInference.Partition.Audit
import PatternInference.Proofs.Lists
import PatternInference.Proofs.Partition.Valid

namespace PatternInference.Partition

variable {p : Partition} {live cursor s t : Nat} {sets : List Nat}

lemma rangeLe_iff {x y : Nat × Nat × Nat} :
    rangeLe x y = true ↔ x.1 < y.1 ∨ x.1 = y.1 ∧ (x.2.1 < y.2.1 ∨ x.2.1 = y.2.1 ∧ x.2.2 ≤ y.2.2) := by
  simp [rangeLe]

def rangeOf (p : Partition) (s : Nat) : Nat × Nat × Nat := (p.first s, p.past s, s)

/-- The sets listed are those whose ranges begin at `cursor` or after it, in this order. No range crosses `cursor`. -/
structure Ahead (p : Partition) (cursor : Nat) (sets : List Nat) : Prop where
  sorted : sets.Pairwise fun s t => p.first s < p.first t
  mem_iff : ∀ s, s ∈ sets ↔ s < p.setCount ∧ cursor ≤ p.first s
  past_le : ∀ s, s < p.setCount → p.first s < cursor → p.past s ≤ cursor

namespace Valid

lemma past_le_first (h : p.Valid live) (hs : s < p.setCount) (ht : t < p.setCount) (hlt : p.first s < p.first t) :
    p.past s ≤ p.first t := by
  by_contra hpast
  have hset := h.setOf_eq s (p.first t) hs hlt.le (by omega)
  rw [h.setOf_eq t (p.first t) ht le_rfl (h.first_lt_past t ht)] at hset
  subst hset
  exact Nat.lt_irrefl _ hlt

lemma first_eq_of_ahead (h : p.Valid live) (x : Ahead p cursor (s :: sets)) : p.first s = cursor := by
  obtain ⟨hs, hcursor⟩ := (x.mem_iff s).mp (by simp)
  -- the set at `cursor` begins there, and no set in the list begins before `s`
  obtain ⟨ht, hfirst, hpast⟩ := h.covered cursor (hcursor.trans_lt (h.first_lt_live hs))
  have hge : cursor ≤ p.first (p.setOf (p.elementAt cursor)) := by
    by_contra hlt
    have := x.past_le _ ht (by omega)
    omega
  rcases List.mem_cons.mp ((x.mem_iff _).mpr ⟨ht, hge⟩) with heq | hmem
  · rw [heq] at hfirst
    omega
  · have := (List.pairwise_cons.mp x.sorted).1 _ hmem
    omega

lemma ahead_tail (h : p.Valid live) (x : Ahead p cursor (s :: sets)) : Ahead p (p.past s) sets := by
  obtain ⟨hs, hcursor⟩ := (x.mem_iff s).mp (by simp)
  obtain ⟨hleast, hsorted⟩ := List.pairwise_cons.mp x.sorted
  have hafter : ∀ t ∈ sets, t < p.setCount ∧ p.past s ≤ p.first t := by
    intro t ht
    have htc := ((x.mem_iff t).mp (by simp [ht])).1
    exact ⟨htc, h.past_le_first hs htc (hleast t ht)⟩
  have hrange := h.first_lt_past s hs
  refine ⟨hsorted, fun t => ⟨hafter t, fun ⟨ht, hpast⟩ => ?_⟩, fun t ht hlt => ?_⟩
  · rcases List.mem_cons.mp ((x.mem_iff t).mpr ⟨ht, by omega⟩) with rfl | hmem
    · omega
    · exact hmem
  · by_cases hbefore : p.first t < cursor
    · have := x.past_le t ht hbefore
      omega
    · rcases List.mem_cons.mp ((x.mem_iff t).mpr ⟨ht, by omega⟩) with rfl | hmem
      · exact le_rfl
      · have := (hafter t hmem).2
        omega

lemma tiled_of_ahead (h : p.Valid live) (x : Ahead p cursor sets) : p.tiled cursor (sets.map p.rangeOf) = true := by
  -- the first range is held against `cursor`, the others against its end
  induction sets generalizing cursor with
  | nil => rfl
  | cons s sets ih =>
    have hs := ((x.mem_iff s).mp (by simp)).1
    have hlt := h.first_lt_past s hs
    have hsize := (h.past_le s hs).trans h.live_le
    have howner : ∀ i, p.first s ≤ i → i < p.past s → p.owner[p.elementAt i]? = some s := by
      intro i hfirst hpast
      rw [h.owner_get (h.elementAt_lt i (hpast.trans_le hsize)), h.setOf_eq s i hs hfirst hpast]
    simp only [List.map_cons, rangeOf, tiled, Bool.and_eq_true, beq_iff_eq, decide_eq_true_eq]
    refine ⟨⟨⟨h.first_eq_of_ahead x, hlt⟩, ?_⟩, ih (h.ahead_tail x)⟩
    rw [Table.slice?_eq hlt.le hsize]
    simp only [Option.any_some, List.all_map, List.all_eq_true, List.mem_range'_1, Function.comp_apply, beq_iff_eq]
    exact fun i hi => howner i hi.1 (by omega)

lemma ahead_sorted (h : p.Valid live) :
    Ahead p 0 ((List.range p.setCount).mergeSort fun s t => rangeLe (p.rangeOf s) (p.rangeOf t)) := by
  set sets := (List.range p.setCount).mergeSort fun s t => rangeLe (p.rangeOf s) (p.rangeOf t) with hsets
  have hperm : sets.Perm (List.range p.setCount) := List.mergeSort_perm _ _
  have hmem : ∀ s, s ∈ sets ↔ s < p.setCount := fun s => hperm.mem_iff.trans List.mem_range
  have hsorted : sets.Pairwise fun s t => rangeLe (p.rangeOf s) (p.rangeOf t) = true := by
    refine List.pairwise_mergeSort (fun a b c hab hbc => ?_) (fun a b => ?_) _
    · rw [rangeLe_iff] at *
      omega
    · rw [Bool.or_eq_true, rangeLe_iff, rangeLe_iff]
      omega
  have hne : sets.Pairwise (· ≠ ·) := hperm.nodup_iff.mpr List.nodup_range
  refine ⟨?_, fun s => by simp [hmem], fun s _ hlt => absurd hlt (Nat.not_lt_zero _)⟩
  refine (hsorted.and hne).imp_of_mem fun {s t} hs ht hst => ?_
  have hfirst : p.first s ≠ p.first t := fun heq => hst.2 (h.first_injective ((hmem s).mp hs) ((hmem t).mp ht) heq)
  have hle := rangeLe_iff.mp hst.1
  simp only [rangeOf] at hle
  omega

lemma ranges?_eq (h : p.Valid live) :
    p.ranges? = some (((List.range p.setCount).mergeSort fun s t => rangeLe (p.rangeOf s) (p.rangeOf t)).map p.rangeOf) := by
  have hrange : ∀ s ∈ List.range p.setCount,
      (do return (← p.start[s]?, ← p.stop[s]?, s) : Option (Nat × Nat × Nat)) = pure (p.rangeOf s) := by
    intro s hs
    rw [List.mem_range] at hs
    rw [h.start_get hs, h.stop_get hs]
    rfl
  simp only [ranges?, mapM_eq_pure_map p.rangeOf hrange]
  exact congrArg some (List.map_mergeSort (f := p.rangeOf) (s := rangeLe) fun _ _ _ _ => rfl).symm

lemma inverted (h : p.Valid live) : p.inverted = true := by
  simp only [Partition.inverted, List.all_eq_true, beq_iff_eq]
  rintro ⟨e, i⟩ he
  rw [List.mem_zipIdx_iff_getElem?, Array.getElem?_toList] at he
  dsimp only at he ⊢
  obtain ⟨hi, rfl⟩ := Table.val_eq_of_getElem? he
  change p.position[p.elementAt i]? = some i
  rw [h.position_get (h.elementAt_lt i hi), h.placeOf_elementAt i hi]

lemma inOrder (h : p.Valid live) : p.inOrder = true := by
  simp only [Partition.inOrder, h.inverted, Bool.true_and, h.ranges?_eq, Option.any_some]
  exact h.tiled_of_ahead h.ahead_sorted

end Valid

end PatternInference.Partition
