import Mathlib.Data.List.Induction
import Mathlib.Data.List.Nodup
import Mathlib.Data.List.Perm.Subperm
import Mathlib.Data.Set.Card
import PatternInference.Equations.Acyclic
import PatternInference.Proofs.Table

/-! The peel takes off exactly the states that no infinite chain of predecessors ends in. -/

namespace PatternInference.Equations

variable {α : Type} {n fuel s t : Nat} {edges E : List (Transition α)} {done targets : List Nat} {U : Nat → Prop}
  {p : Peel}

def Precedes (edges : List (Transition α)) (s t : Nat) : Prop := ∃ e ∈ edges, e.source = s ∧ e.target = t

def Closed (edges : List (Transition α)) (U : Nat → Prop) : Prop := ∀ s, U s → ∃ e ∈ edges, e.target = s ∧ U e.source

lemma closed_not_acc : Closed edges fun s => ¬ Acc (Precedes edges) s := by
  intro s hs
  by_contra hnone
  apply hs
  apply Acc.intro
  rintro t ⟨e, he, rfl, ht⟩
  by_contra hacc
  exact hnone ⟨e, he, ht, hacc⟩

lemma Closed.not_acc (hU : Closed edges U) (hs : U s) : ¬ Acc (Precedes edges) s := by
  intro hacc
  induction hacc with
  | intro s _ ih =>
    obtain ⟨e, he, ht, hsource⟩ := hU s hs
    exact ih e.source ⟨e, he, rfl, ht⟩ hsource

def followers (edges : List (Transition α)) (s : Nat) : List Nat :=
  (edges.filter fun e => e.source == s).map Transition.target

def pending (edges : List (Transition α)) (done : List Nat) (t : Nat) : Nat :=
  edges.countP fun e => e.target == t && !done.contains e.source

lemma mem_followers : t ∈ followers edges s ↔ Precedes edges s t := by
  simp [followers, Precedes, and_assoc]

lemma lt_of_mem_followers (hends : ∀ e ∈ edges, e.source < n ∧ e.target < n) (ht : t ∈ followers edges s) : t < n := by
  obtain ⟨e, he, -, rfl⟩ := mem_followers.mp ht
  exact (hends e he).2

lemma pending_nil : pending edges [] t = (edges.map Transition.target).count t := by
  rw [pending, List.count_eq_countP, List.countP_map]
  apply List.countP_congr
  simp

lemma pending_cons (hs : s ∉ done) :
    pending edges (s :: done) t + (followers edges s).count t = pending edges done t := by
  rw [pending, pending, followers]
  induction edges with
  | nil => rfl
  | cons e edges ih =>
    have hdone : e.source = s → e.source ∉ done := fun h => h ▸ hs
    by_cases ht : e.target = t <;> by_cases hsource : e.source = s <;> by_cases hmem : e.source ∈ done <;>
      simp_all <;> omega

lemma pending_eq_zero_iff : pending edges done t = 0 ↔ ∀ e ∈ edges, e.target = t → e.source ∈ done := by
  simp [pending, List.countP_eq_zero]

namespace Peel

structure Filled (n : Nat) (E : List (Transition α)) (p : Peel) : Prop where
  waiting_size : p.waiting.size = n
  leading_size : p.leading.size = n
  waiting_eq : ∀ s < n, Table.val p.waiting s = (E.map Transition.target).count s
  leading_eq : ∀ s < n, p.leading[s]? = some (followers E s)
  ready_eq : p.ready = []
  peeled_eq : p.peeled = 0

lemma filled_blank : Filled n ([] : List (Transition α)) (blank n) where
  waiting_size := by simp [blank]
  leading_size := by simp [blank]
  waiting_eq := fun s hs => by simp [blank, Table.val, hs]
  leading_eq := fun s hs => by simp [blank, followers, hs]
  ready_eq := rfl
  peeled_eq := rfl

lemma Filled.enter?_spec {e : Transition α} (h : Filled n E p) (hsource : e.source < n) (htarget : e.target < n) :
    ∃ q, p.enter? e = some q ∧ Filled n (E ++ [e]) q := by
  obtain ⟨waiting, hwaiting, hwsize, hval⟩ :=
    Table.put?_spec (Table.val p.waiting e.target + 1) (h.waiting_size.symm ▸ htarget)
  have hread := Table.getElem?_eq_val (h.waiting_size.symm ▸ htarget)
  have hlsize : e.source < p.leading.size := h.leading_size.symm ▸ hsource
  obtain ⟨leading, hleading⟩ : ∃ leading, leading = p.leading.set e.source (followers E e.source ++ [e.target]) := ⟨_, rfl⟩
  have hput := Table.put?_eq_some_iff.mpr ⟨hlsize, hleading.symm⟩
  refine ⟨{ p with waiting, leading }, ?_, ?_⟩
  · simp only [enter?, hread, h.leading_eq _ hsource, hwaiting, hput, Option.bind_eq_bind, Option.bind_some, Option.pure_def]
  · exact {
      waiting_size := hwsize.trans h.waiting_size
      leading_size := by simp [hleading, h.leading_size]
      waiting_eq := by
        intro s hs
        by_cases hst : s = e.target
        · simp [hval, hst, h.waiting_eq _ htarget]
        · simp [hval, Function.update_of_ne hst, h.waiting_eq s hs, Ne.symm hst]
      leading_eq := by
        intro s hs
        by_cases hss : s = e.source
        · simp [hss, hleading, hlsize, followers]
        · simp [Ne.symm hss, hleading, h.leading_eq s hs, followers]
      ready_eq := h.ready_eq
      peeled_eq := h.peeled_eq }

lemma foldlM_enter?_spec (hE : ∀ e ∈ E, e.source < n ∧ e.target < n) :
    ∃ q, E.foldlM enter? (blank n) = some q ∧ Filled n E q := by
  induction E using List.reverseRecOn with
  | nil => exact ⟨_, rfl, filled_blank⟩
  | append_singleton E e ih =>
    obtain ⟨p, hp, h⟩ := ih fun f hf => hE f (by simp [hf])
    obtain ⟨hsource, htarget⟩ := hE e (by simp)
    obtain ⟨q, hq, h'⟩ := h.enter?_spec hsource htarget
    exact ⟨q, by simp [List.foldlM_append, hp, hq], h'⟩

lemma foldlM_offer?_spec (hready : p.ready = []) {k : Nat} (hk : k ≤ p.waiting.size) :
    (List.range k).foldlM offer? p =
      some { p with ready := ((List.range k).filter fun s => Table.val p.waiting s == 0).reverse } := by
  induction k with
  | zero =>
    cases p
    subst hready
    rfl
  | succ k ih =>
    rw [List.range_succ, List.foldlM_append, ih (by omega)]
    by_cases hzero : Table.val p.waiting k = 0
    · simp [offer?, Table.getElem?_eq_val (Nat.lt_of_succ_le hk), hzero]
    · simp [offer?, Table.getElem?_eq_val (Nat.lt_of_succ_le hk), hzero]

/--
The states `done` have been peeled: a counter holds the transitions from other states only, and the
states to which none is left are done or ready, once each.
-/
structure Peeling (n : Nat) (edges : List (Transition α)) (done : List Nat) (p : Peel) : Prop where
  waiting_size : p.waiting.size = n
  waiting_eq : ∀ s < n, Table.val p.waiting s = pending edges done s
  leading_eq : ∀ s < n, p.leading[s]? = some (followers edges s)
  nodup : (done ++ p.ready).Nodup
  mem_iff : ∀ s, s ∈ done ++ p.ready ↔ s < n ∧ pending edges done s = 0
  acc : ∀ s ∈ done, Acc (Precedes edges) s
  peeled_eq : p.peeled = done.length

lemma start?_spec (hends : ∀ e ∈ edges, e.source < n ∧ e.target < n) :
    ∃ p, start? n edges = some p ∧ Peeling n edges [] p := by
  obtain ⟨p, hp, h⟩ := foldlM_enter?_spec hends
  have hstart := foldlM_offer?_spec h.ready_eq (Nat.le_of_eq h.waiting_size.symm)
  have hrun : start? n edges = (List.range n).foldlM offer? p := by simp [start?, hp]
  refine ⟨_, hrun.trans hstart, ?_⟩
  exact {
    waiting_size := h.waiting_size
    waiting_eq := fun s hs => by rw [pending_nil, h.waiting_eq s hs]
    leading_eq := h.leading_eq
    nodup := by
      rw [List.nil_append, List.nodup_reverse]
      exact List.nodup_range.filter _
    mem_iff := by
      intro s
      rw [List.nil_append, List.mem_reverse, List.mem_filter, List.mem_range, beq_iff_eq, pending_nil]
      exact and_congr_right fun hs => by rw [h.waiting_eq s hs]
    acc := by simp
    peeled_eq := h.peeled_eq }

structure Released (p : Peel) (targets new : List Nat) (q : Peel) : Prop where
  waiting_size : q.waiting.size = p.waiting.size
  waiting_eq : ∀ t, Table.val q.waiting t + targets.count t = Table.val p.waiting t
  leading_eq : q.leading = p.leading
  ready_eq : q.ready = new ++ p.ready
  peeled_eq : q.peeled = p.peeled
  nodup : new.Nodup
  mem_iff : ∀ t, t ∈ new ↔ t ∈ targets ∧ Table.val q.waiting t = 0

lemma release?_spec (ht : t < p.waiting.size) (hpos : 0 < Table.val p.waiting t) :
    ∃ q new, p.release? t = some q ∧ Released p [t] new q := by
  obtain ⟨left, hleft⟩ : ∃ left, Table.val p.waiting t = left + 1 := Nat.exists_eq_add_one.mpr hpos
  obtain ⟨waiting, hput, hsize, hval⟩ := Table.put?_spec left ht
  have hcount (u : Nat) : Table.val waiting u + [t].count u = Table.val p.waiting u := by
    by_cases hut : u = t
    · simp [hut, hval, hleft]
    · simp [hval, Function.update_of_ne hut, Ne.symm hut]
  have hself : Table.val waiting t = left := by rw [hval, Function.update_self]
  have hrun : p.release? t = some { p with waiting, ready := if left = 0 then t :: p.ready else p.ready } := by
    simp [release?, Table.getElem?_eq_val ht, hleft, hput]
  by_cases hzero : left = 0
  · rw [if_pos hzero] at hrun
    refine ⟨_, [t], hrun, hsize, hcount, rfl, rfl, rfl, List.pairwise_singleton _ t, fun u => ?_⟩
    rw [List.mem_singleton]
    exact ⟨fun hu => ⟨hu, by rw [hu, hself, hzero]⟩, And.left⟩
  · rw [if_neg hzero] at hrun
    refine ⟨_, [], hrun, hsize, hcount, rfl, rfl, rfl, List.nodup_nil, fun u => ?_⟩
    rw [List.mem_singleton]
    exact ⟨fun hu => (List.not_mem_nil hu).elim, fun ⟨hu, hqu⟩ => absurd (hself.symm.trans (hu ▸ hqu)) hzero⟩

lemma Released.cons {q r : Peel} {new late : List Nat} (h : Released p [t] new q) (h' : Released q targets late r) :
    Released p (t :: targets) (late ++ new) r := by
  have hcount (u : Nat) : (t :: targets).count u = targets.count u + [t].count u := by
    rw [List.count_cons, List.count_singleton]
  have hlater (u : Nat) (hu : u ∈ new) : u ∉ targets ∧ Table.val r.waiting u = 0 := by
    have hzero := ((h.mem_iff u).mp hu).2
    have := h'.waiting_eq u
    exact ⟨List.count_eq_zero.mp (by omega), by omega⟩
  exact {
    waiting_size := h'.waiting_size.trans h.waiting_size
    waiting_eq := by
      intro u
      have := h.waiting_eq u
      have := h'.waiting_eq u
      have := hcount u
      omega
    leading_eq := h'.leading_eq.trans h.leading_eq
    ready_eq := by rw [h'.ready_eq, h.ready_eq, List.append_assoc]
    peeled_eq := h'.peeled_eq.trans h.peeled_eq
    nodup := by
      apply List.nodup_append.mpr ⟨h'.nodup, h.nodup, ?_⟩
      rintro u hu _ hnew rfl
      exact (hlater u hnew).1 ((h'.mem_iff u).mp hu).1
    mem_iff := by
      intro u
      rw [List.mem_append, h'.mem_iff u, List.mem_cons]
      constructor
      · rintro (⟨hu, hzero⟩ | hu)
        · exact ⟨.inr hu, hzero⟩
        · exact ⟨.inl (List.mem_singleton.mp ((h.mem_iff u).mp hu).1), (hlater u hu).2⟩
      · rintro ⟨hu, hzero⟩
        by_cases hmem : u ∈ targets
        · exact .inl ⟨hmem, hzero⟩
        · have := h'.waiting_eq u
          rw [List.count_eq_zero_of_not_mem hmem] at this
          exact .inr ((h.mem_iff u).mpr ⟨List.mem_singleton.mpr (hu.resolve_right hmem), by omega⟩) }

lemma foldlM_release?_spec (hsize : ∀ t ∈ targets, t < p.waiting.size)
    (hcount : ∀ t, targets.count t ≤ Table.val p.waiting t) :
    ∃ q new, targets.foldlM release? p = some q ∧ Released p targets new q := by
  induction targets generalizing p with
  | nil => exact ⟨p, [], rfl, rfl, by simp, rfl, rfl, rfl, List.nodup_nil, by simp⟩
  | cons t targets ih =>
    have hpos : 0 < Table.val p.waiting t := by
      have := hcount t
      rw [List.count_cons_self] at this
      omega
    obtain ⟨q, new, hq, h⟩ := release?_spec (hsize t List.mem_cons_self) hpos
    have hcount' (u : Nat) : targets.count u ≤ Table.val q.waiting u := by
      have := hcount u
      have := h.waiting_eq u
      rw [List.count_cons] at *
      simp only [List.count_nil] at *
      omega
    obtain ⟨r, late, hr, h'⟩ := ih (fun u hu => h.waiting_size.symm ▸ hsize u (List.mem_cons_of_mem t hu)) hcount'
    exact ⟨r, late ++ new, by simp [hq, hr], h.cons h'⟩

namespace Peeling

variable {ready : List Nat}

lemma count_le (h : Peeling n edges done p) (hends : ∀ e ∈ edges, e.source < n ∧ e.target < n) (hs : s ∉ done) (t : Nat) :
    (followers edges s).count t ≤ Table.val p.waiting t := by
  by_cases ht : t ∈ followers edges s
  · rw [h.waiting_eq t (lt_of_mem_followers hends ht), ← pending_cons hs]
    exact Nat.le_add_left _ _
  · rw [List.count_eq_zero_of_not_mem ht]
    exact Nat.zero_le _

lemma of_released {q : Peel} {new : List Nat} (h : Peeling n edges done p)
    (hends : ∀ e ∈ edges, e.source < n ∧ e.target < n) (hready : p.ready = s :: ready)
    (hnew : Released { p with ready, peeled := p.peeled + 1 } (followers edges s) new q) :
    Peeling n edges (s :: done) q := by
  have hnodup := hready ▸ h.nodup
  have hmem := hready ▸ h.mem_iff
  have hs : s ∉ done := fun hs => (List.nodup_append.mp hnodup).2.2 s hs s List.mem_cons_self rfl
  have hpending (t : Nat) : pending edges (s :: done) t + (followers edges s).count t = pending edges done t := pending_cons hs
  have hwaiting : ∀ t < n, Table.val q.waiting t = pending edges (s :: done) t := by
    intro t ht
    have hval : Table.val q.waiting t + (followers edges s).count t = Table.val p.waiting t := hnew.waiting_eq t
    rw [h.waiting_eq t ht, ← hpending t] at hval
    omega
  have hperm : (s :: done ++ q.ready).Perm (new ++ (done ++ s :: ready)) := by
    rw [hnew.ready_eq, List.perm_iff_count]
    intro t
    simp only [List.count_append, List.count_cons]
    omega
  exact {
    waiting_size := hnew.waiting_size.trans h.waiting_size
    waiting_eq := hwaiting
    leading_eq := fun t ht => hnew.leading_eq ▸ h.leading_eq t ht
    nodup := by
      apply hperm.nodup_iff.mpr (List.nodup_append.mpr ⟨hnew.nodup, hnodup, ?_⟩)
      -- a state that is done or ready has no transition left that could be taken away
      rintro t ht _ hold rfl
      have hpos := List.count_pos_iff.mpr ((hnew.mem_iff t).mp ht).1
      have := hpending t
      have := ((hmem t).mp hold).2
      omega
    mem_iff := by
      intro t
      rw [hperm.mem_iff, List.mem_append, hmem t, hnew.mem_iff t]
      have := hpending t
      constructor
      · rintro (⟨ht, hzero⟩ | ⟨ht, hzero⟩)
        · have htn := lt_of_mem_followers hends ht
          exact ⟨htn, by rw [← hwaiting t htn, hzero]⟩
        · exact ⟨ht, by omega⟩
      · rintro ⟨ht, hzero⟩
        by_cases hfollows : t ∈ followers edges s
        · exact .inl ⟨hfollows, by rw [hwaiting t ht, hzero]⟩
        · rw [List.count_eq_zero_of_not_mem hfollows] at this
          exact .inr ⟨ht, by omega⟩
    acc := by
      rw [List.forall_mem_cons]
      refine ⟨Acc.intro s ?_, h.acc⟩
      rintro t ⟨e, he, rfl, htarget⟩
      exact h.acc _ (pending_eq_zero_iff.mp ((hmem s).mp (by simp)).2 e he htarget)
    peeled_eq := by rw [hnew.peeled_eq, List.length_cons, h.peeled_eq] }

lemma step (h : Peeling n edges done p) (hends : ∀ e ∈ edges, e.source < n ∧ e.target < n) (hready : p.ready = s :: ready) :
    ∃ q, (followers edges s).foldlM release? { p with ready, peeled := p.peeled + 1 } = some q ∧
      Peeling n edges (s :: done) q := by
  have hs : s ∉ done := fun hs => (List.nodup_append.mp h.nodup).2.2 s hs s (by simp [hready]) rfl
  obtain ⟨q, new, hq, hnew⟩ := foldlM_release?_spec (p := { p with ready, peeled := p.peeled + 1 })
    (fun t ht => h.waiting_size.symm ▸ lt_of_mem_followers hends ht) (h.count_le hends hs)
  exact ⟨q, hq, h.of_released hends hready hnew⟩

lemma length_le (h : Peeling n edges done p) : done.length + p.ready.length ≤ n := by
  have hsub : done ++ p.ready ⊆ List.range n := fun s hs => List.mem_range.mpr ((h.mem_iff s).mp hs).1
  simpa using (h.nodup.subperm hsub).length_le

lemma run?_spec (h : Peeling n edges done p) (hends : ∀ e ∈ edges, e.source < n ∧ e.target < n)
    (hfuel : n ≤ done.length + fuel) :
    ∃ done q, run? fuel p = some q ∧ Peeling n edges done q ∧ q.ready = [] := by
  induction fuel generalizing done p with
  | zero =>
    have hready : p.ready = [] := List.eq_nil_of_length_eq_zero (by have := h.length_le; omega)
    exact ⟨done, p, by simp [run?, hready], h, hready⟩
  | succ fuel ih =>
    cases hready : p.ready with
    | nil => exact ⟨done, p, by simp [run?, hready], h, hready⟩
    | cons s ready =>
      obtain ⟨q, hq, h'⟩ := h.step hends hready
      have hs : s < n := ((h.mem_iff s).mp (by simp [hready])).1
      obtain ⟨done', r, hr, hrest⟩ := ih h' (by rw [List.length_cons]; omega)
      exact ⟨done', r, by simp [run?, hready, h.leading_eq s hs, hq, hr], hrest⟩

lemma mem_done_iff (h : Peeling n edges done p) (hends : ∀ e ∈ edges, e.source < n ∧ e.target < n)
    (hready : p.ready = []) : s ∈ done ↔ s < n ∧ Acc (Precedes edges) s := by
  have hmem := h.mem_iff
  rw [hready, List.append_nil] at hmem
  constructor
  · exact fun hs => ⟨((hmem s).mp hs).1, h.acc s hs⟩
  · rintro ⟨hs, hacc⟩
    by_contra hnot
    -- what is left has a predecessor that is left, each
    have hclosed : Closed edges fun t => t < n ∧ t ∉ done := by
      rintro t ⟨ht, htdone⟩
      have hpending : pending edges done t ≠ 0 := fun hzero => htdone ((hmem t).mpr ⟨ht, hzero⟩)
      obtain ⟨e, he, htarget, hsource⟩ : ∃ e ∈ edges, e.target = t ∧ e.source ∉ done := by
        simpa [pending_eq_zero_iff] using hpending
      exact ⟨e, he, htarget, (hends e he).1, hsource⟩
    exact hclosed.not_acc ⟨hs, hnot⟩ hacc

end Peeling
end Peel

lemma peeled?_spec (hends : ∀ e ∈ edges, e.source < n ∧ e.target < n) :
    ∃ k ≤ n, peeled? n edges = some k ∧ n - k = {s | s < n ∧ ¬ Acc (Precedes edges) s}.ncard := by
  obtain ⟨p, hp, h⟩ := Peel.start?_spec hends
  obtain ⟨done, q, hq, hrest, hready⟩ := h.run?_spec hends (by simp : n ≤ ([] : List Nat).length + n)
  have hnodup : done.Nodup := (List.nodup_append.mp hrest.nodup).1
  have hmem (s : Nat) : s ∈ done ↔ s < n ∧ Acc (Precedes edges) s := hrest.mem_done_iff hends hready
  have hsub : done.toFinset ⊆ Finset.range n := by
    intro s hs
    exact Finset.mem_range.mpr ((hmem s).mp (List.mem_toFinset.mp hs)).1
  have hset : {s | s < n ∧ ¬ Acc (Precedes edges) s} = ((Finset.range n \ done.toFinset : Finset Nat) : Set Nat) := by
    ext s
    rw [Finset.mem_coe, Finset.mem_sdiff, Finset.mem_range, List.mem_toFinset, hmem s, not_and]
    exact and_congr_right fun hs => ⟨fun hacc _ => hacc, fun hacc => hacc hs⟩
  refine ⟨done.length, ?_, by simp [peeled?, hp, hq, hrest.peeled_eq], ?_⟩
  · simpa [List.toFinset_card_of_nodup hnodup] using Finset.card_le_card hsub
  · rw [hset, Set.ncard_coe_finset, Finset.card_sdiff_of_subset hsub, Finset.card_range, List.toFinset_card_of_nodup hnodup]

lemma wellFounded_iff_ncard (hends : ∀ e ∈ edges, e.source < n ∧ e.target < n) :
    WellFounded (Precedes edges) ↔ {s | s < n ∧ ¬ Acc (Precedes edges) s}.ncard = 0 := by
  have hfinite : {s | s < n ∧ ¬ Acc (Precedes edges) s}.Finite := (Set.finite_lt_nat n).subset fun s hs => hs.1
  rw [Set.ncard_eq_zero hfinite, Set.eq_empty_iff_forall_notMem]
  constructor
  · exact fun hwf s hs => hs.2 (hwf.apply s)
  · intro hnone
    refine ⟨fun s => ?_⟩
    by_contra hs
    obtain ⟨e, he, rfl, -⟩ := closed_not_acc s hs
    exact hnone e.target ⟨(hends e he).2, hs⟩

end PatternInference.Equations
