import PatternInference.Proofs.Partition.Calls
import PatternInference.Proofs.Partition.Halves

namespace PatternInference.Partition

def Call.isMark : Call → Bool
  | mark _ | markFirst _ _ => true
  | _ => false

def Call.recorded (p : Partition) (M : Finset Nat) : Call → Finset Nat
  | mark e => insert e M
  | markFirst s length => M ∪ (((p.members? s).getD []).take length).toFinset
  | split _ => ∅
  | swap _ _ | truncate _ => M

/-- What may come of a partition of `0 .. n - 1` when no split is cancelled, and what was marked since the last one. -/
inductive Recorded (n : Nat) : Nat → Option Partition → Finset Nat → Prop
  | whole : Recorded n n (some (whole n)) ∅
  | ofRuns {order : List Nat} (alike : Nat → Nat → Bool) (h : order.Perm (List.range n)) :
    Recorded n n (ofRuns? order alike) ∅
  | call {live : Nat} {p : Partition} {M : Finset Nat} (c : Call) (h : Recorded n live (some p) M)
    (hc : c.Admissible p live) (hdone : c ≠ .split true) : Recorded n (c.live live) (c.run? p) (c.recorded p M)

inductive Batch (p : Partition) (live : Nat) (M : Finset Nat) : Option Partition → Finset Nat → Prop
  | start : Batch p live M (some p) M
  | call {q : Partition} {N : Finset Nat} (c : Call) (h : Batch p live M (some q) N) (hc : c.Admissible q live)
    (hmark : c.isMark = true) : Batch p live M (c.run? q) (c.recorded q N)

def cut (p : Partition) (M : Finset Nat) : Finset Nat :=
  {s ∈ Finset.range p.setCount | (p.memberSet s ∩ M).Nonempty ∧ (p.memberSet s \ M).Nonempty}

def newPart (p : Partition) (M : Finset Nat) (s : Nat) : Finset Nat :=
  if (p.memberSet s ∩ M).card ≤ (p.memberSet s \ M).card then p.memberSet s ∩ M else p.memberSet s \ M

/-- `r` is `p` with every set divided along `M`. -/
structure Divides (p r : Partition) (live : Nat) (M : Finset Nat) : Prop where
  clean : r.Clean live
  live_iff : ∀ e, r.Live live e ↔ p.Live live e
  same_iff : ∀ e f, p.Live live e → p.Live live f →
    (r.setOf e = r.setOf f ↔ p.setOf e = p.setOf f ∧ (e ∈ M ↔ f ∈ M))
  setCount_eq : r.setCount = p.setCount + (p.cut M).card
  others : ∀ s, s < p.setCount → s ∉ p.cut M → r.memberSet s = p.memberSet s
  parts : ∀ s, s ∈ p.cut M → r.memberSet s = p.memberSet s \ p.newPart M s ∧
    ∃! t, p.setCount ≤ t ∧ t < r.setCount ∧ r.memberSet t = p.newPart M s

structure Tracked (p : Partition) (live : Nat) (M : Finset Nat) : Prop where
  valid : p.Valid live
  touched : p.Touched
  marked_iff : ∀ e, p.Marked live e ↔ e ∈ M

variable {p q r r' : Partition} {n live s e : Nat} {M N : Finset Nat} {c : Call}

lemma Clean.tracked (h : p.Clean live) : p.Tracked live ∅ :=
  ⟨h.valid, h.touched, fun e => iff_of_false (h.not_marked e) (Finset.notMem_empty e)⟩

lemma Valid.mem_take_members (h : p.Valid live) (hs : s < p.setCount) {length : Nat}
    (hle : length ≤ p.past s - p.first s) : e ∈ (((p.members? s).getD []).take length).toFinset ↔
      p.Live live e ∧ p.setOf e = s ∧ p.placeOf e < p.first s + length := by
  rw [h.members?_eq hs, Option.getD_some, ← List.map_take, List.take_range'_of_length_ge hle, List.mem_toFinset,
    List.mem_map]
  have hrange := h.past_le s hs
  have hlive := h.live_le
  constructor
  · rintro ⟨i, hi, rfl⟩
    obtain ⟨hfirst, hlast⟩ := List.mem_range'_1.mp hi
    rw [h.placeOf_elementAt i (by omega)]
    exact ⟨h.live_elementAt (by omega), h.setOf_eq s i hs hfirst (by omega), hlast⟩
  · rintro ⟨he, rfl, hplace⟩
    exact ⟨p.placeOf e, List.mem_range'_1.mpr ⟨(h.mem_range he).2.1, hplace⟩, h.elementAt_placeOf e he.1⟩

namespace Tracked

lemma of_marking {K : Nat → Prop} (h : p.Tracked live M) (x : Marking p q live K) (hN : ∀ e, e ∈ N ↔ e ∈ M ∨ K e) :
    q.Tracked live N :=
  ⟨x.valid, x.touched, fun e => by rw [x.marked_iff, h.marked_iff, hN]⟩

lemma mark (h : p.Tracked live M) (hmark : c.isMark = true) (hc : c.Admissible p live) :
    ∃ q, c.run? p = some q ∧ Marking p q live (· ∈ c.recorded p M) ∧ q.Tracked live (c.recorded p M) := by
  obtain ⟨K, hK, q, hq, x⟩ : ∃ K : Nat → Prop, (∀ e, e ∈ c.recorded p M ↔ e ∈ M ∨ K e) ∧
      ∃ q, c.run? p = some q ∧ Marking p q live K := by
    cases c with
    | mark e => exact ⟨(· = e), fun f => by simp [Call.recorded, or_comm], h.valid.mark?_spec h.touched hc⟩
    | markFirst s length =>
      obtain ⟨hs, hm, hle⟩ := hc
      have hrange := h.valid.first_lt_past s hs
      obtain ⟨q, hq, _, x⟩ := h.valid.markFirst?_spec h.touched length hs hm (by omega)
      refine ⟨_, fun f => ?_, q, hq, x⟩
      rw [Call.recorded, Finset.mem_union, h.valid.mem_take_members hs hle]
    | swap | truncate | split => cases hmark
  refine ⟨q, hq, ?_, h.of_marking x hK⟩
  refine { x with marked_iff := fun e => ?_ }
  rw [x.marked_iff, hK, h.marked_iff]
  tauto

lemma eq_empty (h : p.Tracked live M) (hp : p.Undivided) : M = ∅ := by
  apply Finset.eq_empty_of_forall_notMem
  intro e he
  obtain ⟨hlive, hlt⟩ := (h.marked_iff e).mpr he
  have hrange := h.valid.mem_range hlive
  have hzero : p.setOf e = 0 := by
    have := hp.1
    omega
  rw [hzero, hp.2] at hlt
  rw [hzero] at hrange
  omega

end Tracked

lemma Undivided.clean (h : p.Undivided) (hv : p.Valid live) (hlisted : p.Listed) : p.Clean live := by
  have hzero : ∀ s, s < p.setCount → p.marked s = 0 := by
    intro s hs
    have hone := h.1
    obtain rfl : s = 0 := by omega
    exact h.2
  refine ⟨hv, List.eq_nil_iff_forall_not_mem.mpr fun s hs => ?_, hzero⟩
  obtain ⟨hlt, hpos⟩ := hlisted.2 s hs
  rw [hzero s hlt] at hpos
  omega

namespace Tracked

lemma within_marked (h : p.Tracked live M) (hs : s < p.setCount) :
    p.within (p.first s, p.border s) = p.memberSet s ∩ M := by
  have hborder : p.border s ≤ p.past s := h.valid.first_add_marked_le s hs
  ext e
  rw [h.valid.mem_within_iff_of_le hs le_rfl hborder, Finset.mem_inter, ← h.marked_iff]
  refine and_congr_right fun he => ?_
  obtain ⟨hlive, rfl⟩ := (h.valid.mem_memberSet hs).mp he
  exact ⟨fun hplace => ⟨hlive, hplace.2⟩, fun hmarked => ⟨(h.valid.mem_range hlive).2.1, hmarked.2⟩⟩

lemma within_unmarked (h : p.Tracked live M) (hs : s < p.setCount) :
    p.within (p.border s, p.past s) = p.memberSet s \ M := by
  have hborder : p.first s ≤ p.border s := Nat.le_add_right _ _
  ext e
  rw [h.valid.mem_within_iff_of_le hs hborder le_rfl, Finset.mem_sdiff, ← h.marked_iff]
  refine and_congr_right fun he => ?_
  obtain ⟨hlive, rfl⟩ := (h.valid.mem_memberSet hs).mp he
  constructor
  · exact fun hplace hmarked => Nat.not_lt.mpr hplace.1 hmarked.2
  · exact fun hmarked => ⟨Nat.not_lt.mp fun hlt => hmarked ⟨hlive, hlt⟩, (h.valid.mem_range hlive).2.2⟩

lemma card_marked (h : p.Tracked live M) (hs : s < p.setCount) : (p.memberSet s ∩ M).card = p.marked s := by
  have hborder : p.border s ≤ p.past s := h.valid.first_add_marked_le s hs
  rw [← h.within_marked hs, h.valid.card_within ((hborder.trans (h.valid.past_le s hs)).trans h.valid.live_le)]
  exact Nat.add_sub_cancel_left ..

lemma card_unmarked (h : p.Tracked live M) (hs : s < p.setCount) :
    (p.memberSet s \ M).card = p.past s - p.border s := by
  rw [← h.within_unmarked hs, h.valid.card_within ((h.valid.past_le s hs).trans h.valid.live_le)]

lemma mem_cut (h : p.Tracked live M) : s ∈ p.cut M ↔ s ∈ p.pending ∧ p.border s < p.past s := by
  rw [cut, Finset.mem_filter, Finset.mem_range, h.touched.2, and_assoc]
  refine and_congr_right fun hs => ?_
  rw [← Finset.card_pos, ← Finset.card_pos, h.card_marked hs, h.card_unmarked hs, Nat.sub_pos_iff_lt]

lemma within_lesser (h : p.Tracked live M) (hs : s < p.setCount) : p.within (p.lesser s) = p.newPart M s := by
  rw [lesser, newPart, h.card_marked hs, h.card_unmarked hs]
  split
  · exact h.within_marked hs
  · exact h.within_unmarked hs

lemma within_greater (h : p.Tracked live M) (hs : s < p.setCount) :
    p.within (p.greater s) = p.memberSet s \ p.newPart M s := by
  rw [greater, newPart, h.card_marked hs, h.card_unmarked hs]
  split
  · rw [Finset.sdiff_inter_self_left]
    exact h.within_unmarked hs
  · rw [Finset.sdiff_sdiff_self_left]
    exact h.within_marked hs

lemma newPart_nonempty (hs : s ∈ p.cut M) : (p.newPart M s).Nonempty := by
  obtain ⟨_, hinside, houtside⟩ := Finset.mem_filter.mp hs
  rw [newPart]
  split
  · exact hinside
  · exact houtside

lemma card_cut (h : p.Tracked live M) :
    (p.cut M).card = p.pending.countP fun s => decide (p.border s < p.past s) := by
  have hcut : p.cut M = (p.pending.filter fun s => decide (p.border s < p.past s)).toFinset := by
    ext s
    rw [h.mem_cut, List.mem_toFinset, List.mem_filter, decide_eq_true_eq]
  rw [hcut, List.toFinset_card_of_nodup (h.touched.1.filter _), List.countP_eq_length_filter]

lemma splitUnless?_divides (h : p.Tracked live M) :
    ∃ r, p.splitUnless? false = some (.done r) ∧ Divides p r live M := by
  obtain ⟨r, hr, horder, _, x⟩ := h.valid.split?_spec h.touched
  have hv : Valid { p with pending := [] } live := { h.valid with }
  have hcuts := hv.foldlM_splitSet?_cuts h.touched.1 (fun s hs => (h.touched.2 s).mp hs) hr
  have hwithin : r.within = p.within := by
    funext y
    rw [within, within, show r.elementAt = p.elementAt by funext i; rw [elementAt, elementAt, horder]]
  have hrange : ∀ t, t < r.setCount → r.memberSet t = p.within (r.range t) := fun t ht => by
    rw [x.clean.valid.memberSet_eq ht, hwithin]
  refine ⟨r, by simp [splitUnless?, hr], x.clean, x.live_iff, ?_, ?_, fun s hs hcut => ?_, fun s hcut => ?_⟩
  · intro e f he hf
    rw [x.same_iff e f he hf, h.marked_iff, h.marked_iff]
  · rw [h.card_cut]
    exact hcuts.setCount_eq
  · rw [hrange s (hs.trans_le x.setCount_le), h.valid.memberSet_eq hs]
    by_cases hpending : s ∈ p.pending
    · have hfull : p.border s = p.past s :=
        (h.valid.first_add_marked_le s hs).antisymm (Nat.not_lt.mp fun hlt => hcut (h.mem_cut.mpr ⟨hpending, hlt⟩))
      exact congrArg p.within (hcuts.full s hpending hfull)
    · exact congrArg p.within (hcuts.undisturbed s hs hpending).range_eq
  · obtain ⟨hpending, hlt⟩ := h.mem_cut.mp hcut
    have hs := ((h.touched.2 s).mp hpending).1
    obtain ⟨hgreater, t, ht, htr, hlesser⟩ := hcuts.halved s hpending hlt
    have hnew : r.memberSet t = p.newPart M s := by
      rw [hrange t htr, hlesser]
      exact h.within_lesser hs
    refine ⟨?_, t, ⟨ht, htr, hnew⟩, fun u hu => ?_⟩
    · rw [hrange s (hs.trans_le x.setCount_le), hgreater]
      exact h.within_greater hs
    · -- the new part has a member, which is in one set only
      obtain ⟨e, he⟩ := newPart_nonempty hcut
      have heu := (x.clean.valid.mem_memberSet hu.2.1).mp (hu.2.2 ▸ he)
      have het := (x.clean.valid.mem_memberSet htr).mp (hnew ▸ he)
      exact heu.2.symm.trans het.2

end Tracked

lemma Clean.splitUnless?_eq (h : p.Clean live) (cancelled : Bool) : p.splitUnless? cancelled = some (.done p) := by
  have hsplit : p.split? = some p := by
    rw [split?, h.pending_eq]
    cases p
    cases h.pending_eq
    rfl
  simp [splitUnless?, h.pending_eq, hsplit]

lemma Exchange.marked_iff {i j : Nat} (x : Exchange p q i j) (h : p.Valid live)
    (houtside : (∃ s, p.Unmarked s i j) ∨ live ≤ i ∧ live ≤ j) : q.Marked live e ↔ p.Marked live e := by
  rw [Marked, Marked, Live, Live, x.size_eq, x.setOf_eq, x.first_eq, x.marked_eq]
  by_cases he : e < p.size
  · rw [x.placeOf_eq e he, Equiv.swap_apply_def]
    obtain ⟨s, hs, hfi, hpi, hfj, hpj⟩ | ⟨hi, hj⟩ := houtside
    · have hset : ∀ k, p.placeOf e = k → p.first s + p.marked s ≤ k → k < p.past s → p.setOf e = s := by
        intro k hk hfirst hpast
        have hset := h.setOf_eq s k hs (by omega) hpast
        rwa [← hk, h.elementAt_placeOf e he] at hset
      split_ifs with hei hej
      · rw [hset i hei hfi hpi]
        omega
      · rw [hset j hej hfj hpj]
        omega
      · rfl
    · split_ifs <;> omega
  · simp [he]

namespace Tracked

lemma swap (h : p.Tracked live M) (hkept : Kept p n live) {i j : Nat} (hc : (Call.swap i j).Admissible p live) :
    ∃ q, p.swap? i j = some q ∧ q.Tracked live M := by
  obtain ⟨q, hq, hkept⟩ := hkept.swap? hc.1 hc.2.1 fun k hk => hkept.setOf_swap hc hk
  obtain ⟨q', hq', x⟩ := h.valid.swap?_spec hc.1 hc.2.1
  obtain rfl := Option.some.inj (hq.symm.trans hq')
  refine ⟨q, hq, ?_⟩
  rcases hc.2.2 with hundivided | houtside
  · have hclean : q.Undivided := by rwa [Undivided, x.setCount_eq, x.marked_eq]
    rw [h.eq_empty hundivided]
    exact (hclean.clean hkept.valid hkept.listed).tracked
  · refine ⟨hkept.valid, ?_, fun e => (x.marked_iff h.valid houtside).trans (h.marked_iff e)⟩
    rw [Touched, x.pending_eq, x.setCount_eq, x.marked_eq]
    exact h.touched

lemma truncate (h : p.Tracked live M) (hkept : Kept p n live) {length : Nat}
    (hc : (Call.truncate length).Admissible p live) : ∃ q, p.truncate? length = some q ∧ q.Tracked length M := by
  obtain ⟨q, hq, hkept⟩ := hkept.truncate? hc
  obtain ⟨⟨hone, hm⟩, hpos, hle⟩ := hc
  obtain ⟨_, hpast⟩ := h.valid.range_zero hone
  obtain ⟨q', hq', _, hrest⟩ := h.valid.truncate?_spec hone hm hpos (by omega)
  obtain rfl := Option.some.inj (hq.symm.trans hq')
  have hundivided : q.Undivided := by
    rw [hrest]
    exact ⟨hone, hm⟩
  rw [h.eq_empty ⟨hone, hm⟩]
  exact ⟨q, hq, (hundivided.clean hkept.valid hkept.listed).tracked⟩

lemma run? (h : p.Tracked live M) (hkept : Kept p n live) (hc : c.Admissible p live) (hdone : c ≠ .split true) :
    ∃ q, c.run? p = some q ∧ q.Tracked (c.live live) (c.recorded p M) := by
  cases c with
  | swap i j => exact h.swap hkept hc
  | truncate length => exact h.truncate hkept hc
  | mark | markFirst =>
    obtain ⟨q, hq, _, htracked⟩ := h.mark rfl hc
    exact ⟨q, hq, htracked⟩
  | split cancelled =>
    cases cancelled with
    | true => exact absurd rfl hdone
    | false =>
      obtain ⟨r, hr, x⟩ := h.splitUnless?_divides
      exact ⟨r, by rw [Call.run?, hr]; rfl, x.clean.tracked⟩

end Tracked

variable {o : Option Partition}

lemma Recorded.arises (h : Recorded n live o M) : Arises n live o := by
  induction h with
  | whole => exact .whole
  | ofRuns alike hperm => exact .ofRuns alike hperm
  | call c _ hc _ ih => exact .call c ih hc

lemma Recorded.tracked (h : Recorded n live o M) : ∃ p, o = some p ∧ p.Tracked live M := by
  induction h with
  | whole => exact ⟨_, rfl, (whole_clean n).tracked⟩
  | ofRuns alike hperm =>
    obtain ⟨p, hp, hclean, _⟩ := ofRuns?_clean alike hperm
    exact ⟨p, hp, hclean.tracked⟩
  | call c h hc hdone ih =>
    obtain ⟨p, hp, htracked⟩ := ih
    obtain ⟨q, hq, hkept⟩ := h.arises.kept
    obtain rfl := Option.some.inj hp
    obtain rfl := Option.some.inj hq
    exact htracked.run? hkept hc hdone

lemma Batch.marking (h : Batch p live M o N) (hp : p.Tracked live M) :
    ∃ q, o = some q ∧ Marking p q live (· ∈ N) ∧ q.Tracked live N := by
  induction h with
  | start => exact ⟨p, rfl, .refl hp.valid hp.touched fun e => (hp.marked_iff e).mpr, hp⟩
  | call c _ hc hmark ih =>
    obtain ⟨q, hq, x, htracked⟩ := ih
    obtain rfl := Option.some.inj hq
    obtain ⟨r, hr, y, hrecorded⟩ := htracked.mark hmark hc
    refine ⟨r, hr, (x.trans y).congr fun e => or_iff_right_of_imp fun he => ?_, hrecorded⟩
    exact (hrecorded.marked_iff e).mp ((y.marked_iff e).mpr (.inl ((htracked.marked_iff e).mpr he)))

namespace Divides

variable {K : Nat → Prop}

lemma of_marking (x : Marking p q live K) (hp : p.Valid live) (h : Divides q r live N) : Divides p r live N := by
  -- marks move elements inside their sets only
  have hmembers : ∀ s, s < p.setCount → q.memberSet s = p.memberSet s := by
    intro s hs
    ext e
    rw [x.valid.mem_memberSet (x.setCount_eq.symm ▸ hs), hp.mem_memberSet hs, x.live_iff, x.setOf_eq]
  have hcut : q.cut N = p.cut N := by
    rw [cut, cut, x.setCount_eq]
    refine Finset.filter_congr fun s hs => ?_
    rw [hmembers s (Finset.mem_range.mp hs)]
  refine ⟨h.clean, fun e => (h.live_iff e).trans (x.live_iff e), fun e f he hf => ?_, ?_, fun s hs hscut => ?_,
    fun s hscut => ?_⟩
  · rw [h.same_iff e f ((x.live_iff e).mpr he) ((x.live_iff f).mpr hf), x.setOf_eq]
  · rw [h.setCount_eq, x.setCount_eq, hcut]
  · rw [h.others s (x.setCount_eq.symm ▸ hs) (hcut.symm ▸ hscut), hmembers s hs]
  · have hs := Finset.mem_range.mp (Finset.mem_filter.mp hscut).1
    have hparts := h.parts s (hcut.symm ▸ hscut)
    rwa [newPart, x.setCount_eq, hmembers s hs] at hparts

lemma new_iff (h : Divides p r live M) (hp : p.Valid live) (he : p.Live live e) :
    p.setCount ≤ r.setOf e ↔ p.setOf e ∈ p.cut M ∧ e ∈ p.newPart M (p.setOf e) := by
  have hs := (hp.mem_range he).1
  have hmem := (hp.mem_memberSet hs).mpr ⟨he, rfl⟩
  have hle : p.setCount ≤ r.setCount := h.setCount_eq ▸ Nat.le_add_right _ _
  have hkept : e ∈ r.memberSet (p.setOf e) → ¬ p.setCount ≤ r.setOf e := fun hmem => by
    rw [((h.clean.valid.mem_memberSet (hs.trans_le hle)).mp hmem).2]
    exact Nat.not_le.mpr hs
  by_cases hcut : p.setOf e ∈ p.cut M
  · obtain ⟨hother, t, ⟨ht, htr, hnew⟩, _⟩ := h.parts _ hcut
    by_cases hpart : e ∈ p.newPart M (p.setOf e)
    · refine iff_of_true ?_ ⟨hcut, hpart⟩
      rwa [((h.clean.valid.mem_memberSet htr).mp (hnew ▸ hpart)).2]
    · refine iff_of_false (hkept ?_) fun hboth => hpart hboth.2
      rw [hother]
      exact Finset.mem_sdiff.mpr ⟨hmem, hpart⟩
  · exact iff_of_false (hkept (h.others _ hs hcut ▸ hmem)) fun hboth => hcut hboth.1

end Divides

theorem split_divides_by_marks (hp : Recorded n live (some p) M) (hq : Batch p live M o N) :
    ∃ q r, o = some q ∧ q.splitUnless? false = some (.done r) ∧ Divides p r live N ∧
      (∀ cancelled, r.splitUnless? cancelled = some (.done r)) ∧
      ∀ q' r', Batch p live M (some q') N → q'.splitUnless? false = some (.done r') →
        (∀ e f, p.Live live e → p.Live live f → (r'.setOf e = r'.setOf f ↔ r.setOf e = r.setOf f)) ∧
        ∀ e, p.Live live e → (p.setCount ≤ r'.setOf e ↔ p.setCount ≤ r.setOf e) := by
  obtain ⟨p', hp', htracked⟩ := hp.tracked
  obtain rfl := Option.some.inj hp'
  have hdivides : ∀ {o}, Batch p live M o N →
      ∃ q r, o = some q ∧ q.splitUnless? false = some (.done r) ∧ Divides p r live N := by
    intro o ho
    obtain ⟨q, hq, x, hmarked⟩ := ho.marking htracked
    obtain ⟨r, hr, y⟩ := hmarked.splitUnless?_divides
    exact ⟨q, r, hq, hr, y.of_marking x htracked.valid⟩
  obtain ⟨q, r, hq, hr, x⟩ := hdivides hq
  refine ⟨q, r, hq, hr, x, x.clean.splitUnless?_eq, fun q' r' hq' hr' => ?_⟩
  obtain ⟨q₂, r₂, hq₂, hr₂, y⟩ := hdivides hq'
  obtain rfl := Option.some.inj hq₂
  obtain rfl : r' = r₂ := congrArg Outcome.state (Option.some.inj (hr'.symm.trans hr₂))
  constructor
  · intro e f he hf
    rw [y.same_iff e f he hf, x.same_iff e f he hf]
  · intro e he
    rw [y.new_iff htracked.valid he, x.new_iff htracked.valid he]

theorem split_divides_by_marks_tie :
    ∃ q q' r r', Batch (whole 4) 4 ∅ (some q) {2, 0} ∧ Batch (whole 4) 4 ∅ (some q') {2, 0} ∧ q.order ≠ q'.order ∧
      q.splitUnless? false = some (.done r) ∧ q'.splitUnless? false = some (.done r') ∧ Divides (whole 4) r 4 {2, 0} ∧
      r.setCount = 2 ∧ r.memberSet 0 = {1, 3} ∧ r.memberSet 1 = {0, 2} ∧
      (r'.setOf 0 = r'.setOf 2 ↔ r.setOf 0 = r.setOf 2) := by
  have hfront : Batch (whole 4) 4 ∅ (some ⟨#[0, 1, 2, 3], #[0, 1, 2, 3], #[0, 0, 0, 0], #[0, 0, 0, 0], #[4, 0, 0, 0],
      #[1, 0, 0, 0], 1, [0]⟩) {0} :=
    .call (.markFirst 0 1) .start ⟨by decide, by decide, by decide⟩ rfl
  have hboth : Batch (whole 4) 4 ∅ (some ⟨#[0, 2, 1, 3], #[0, 2, 1, 3], #[0, 0, 0, 0], #[0, 0, 0, 0], #[4, 0, 0, 0],
      #[2, 0, 0, 0], 1, [0]⟩) {2, 0} :=
    .call (.mark 2) hfront ⟨by decide, by decide⟩ rfl
  have hback : Batch (whole 4) 4 ∅ (some ⟨#[2, 1, 0, 3], #[2, 1, 0, 3], #[0, 0, 0, 0], #[0, 0, 0, 0], #[4, 0, 0, 0],
      #[1, 0, 0, 0], 1, [0]⟩) {2} :=
    .call (.mark 2) .start ⟨by decide, by decide⟩ rfl
  have hrest : Batch (whole 4) 4 ∅ (some ⟨#[2, 0, 1, 3], #[1, 2, 0, 3], #[0, 0, 0, 0], #[0, 0, 0, 0], #[4, 0, 0, 0],
      #[2, 0, 0, 0], 1, [0]⟩) {0, 2} :=
    .call (.mark 0) hback ⟨by decide, by decide⟩ rfl
  rw [Finset.pair_comm] at hrest
  obtain ⟨q, r, hq, hr, hdivides, _, horder⟩ := split_divides_by_marks (.whole (n := 4)) hboth
  obtain rfl := Option.some.inj hq
  obtain ⟨hsame, _⟩ := horder _ _ hrest rfl
  have hsplit : some (Outcome.done r) = some (.done ⟨#[0, 2, 1, 3], #[0, 2, 1, 3], #[1, 0, 1, 0], #[2, 0, 0, 0],
      #[4, 2, 0, 0], #[0, 0, 0, 0], 2, []⟩) := hr.symm.trans rfl
  obtain rfl : r = _ := congrArg Outcome.state (Option.some.inj hsplit)
  exact ⟨_, _, _, _, hboth, hrest, by decide, hr, rfl, hdivides, by decide, by decide, by decide,
    hsame 0 2 ⟨by decide, by decide⟩ ⟨by decide, by decide⟩⟩

end PatternInference.Partition
