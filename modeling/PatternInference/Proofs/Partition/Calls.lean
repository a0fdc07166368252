import Mathlib.Logic.ExistsUnique
import PatternInference.Proofs.Partition.Audit
import PatternInference.Proofs.Partition.Runs
import PatternInference.Proofs.Partition.Splitting

/-! What holds of a partition after any calls, in any order, splits that were cancelled among them. -/

namespace PatternInference.Partition

inductive Call where
  | swap (i j : Nat)
  | truncate (length : Nat)
  | mark (e : Nat)
  | markFirst (s length : Nat)
  | split (cancelled : Bool)

def Call.run? (p : Partition) : Call → Option Partition
  | swap i j => p.swap? i j
  | truncate length => p.truncate? length
  | mark e => p.mark? e
  | markFirst s length => p.markFirst? s length
  | split cancelled => (p.splitUnless? cancelled).map Outcome.state

def Call.live (live : Nat) : Call → Nat
  | truncate length => length
  | _ => live

def Undivided (p : Partition) : Prop := p.setCount = 1 ∧ p.marked 0 = 0

def Unmarked (p : Partition) (s i j : Nat) : Prop :=
  s < p.setCount ∧ p.first s + p.marked s ≤ i ∧ i < p.past s ∧ p.first s + p.marked s ≤ j ∧ j < p.past s

/-- What a caller has to see to: elements are exchanged freely only while there is one set. -/
def Call.Admissible (p : Partition) (live : Nat) : Call → Prop
  | swap i j => i < p.size ∧ j < p.size ∧ (p.Undivided ∨ (∃ s, p.Unmarked s i j) ∨ live ≤ i ∧ live ≤ j)
  | truncate length => p.Undivided ∧ 0 < length ∧ length ≤ p.past 0 - p.first 0
  | mark e => p.Live live e
  | markFirst s length => s < p.setCount ∧ p.marked s = 0 ∧ length ≤ p.past s - p.first s
  | split _ => True

/-- What may come of a partition of `0 .. n - 1`, with the number of positions that belong to a set. -/
inductive Arises (n : Nat) : Nat → Option Partition → Prop
  | whole : Arises n n (some (whole n))
  | ofRuns {order : List Nat} (alike : Nat → Nat → Bool) (h : order.Perm (List.range n)) :
    Arises n n (ofRuns? order alike)
  | call {live : Nat} {p : Partition} (c : Call) (h : Arises n live (some p)) (hc : c.Admissible p live) :
    Arises n (c.live live) (c.run? p)

structure Kept (p : Partition) (n live : Nat) : Prop where
  valid : p.Valid live
  listed : p.Listed
  size_eq : p.size = n
  setOf_eq : p.setCount = 1 → ∀ e, e < n → p.setOf e = 0

variable {p q : Partition} {n live i j : Nat}

lemma Valid.eq_of_holds (h : p.Valid live) {s t : Nat} (hs : s < p.setCount ∧ p.first s ≤ i ∧ i < p.past s)
    (ht : t < p.setCount ∧ p.first t ≤ i ∧ i < p.past t) : s = t :=
  (h.setOf_eq s i hs.1 hs.2.1 hs.2.2).symm.trans (h.setOf_eq t i ht.1 ht.2.1 ht.2.2)

lemma Valid.lt_live_iff (h : p.Valid live) : i < live ↔ ∃! s, s < p.setCount ∧ p.first s ≤ i ∧ i < p.past s := by
  constructor
  · intro hi
    exact ⟨_, h.covered i hi, fun t ht => h.eq_of_holds ht (h.covered i hi)⟩
  · rintro ⟨s, ⟨hs, _, hi⟩, _⟩
    exact hi.trans_le (h.past_le s hs)

lemma listed_of_pending_eq (h : p.pending = []) : p.Listed := by
  rw [Listed, h]
  simp

lemma Valid.kept (h : p.Valid n) (hlisted : p.Listed) (hsize : p.size = n) : Kept p n n := by
  refine ⟨h, hlisted, hsize, fun hone e he => ?_⟩
  have hplace := h.placeOf_lt e (hsize ▸ he)
  rw [← h.elementAt_placeOf e (hsize ▸ he), h.setOf_eq_zero hone (hsize ▸ hplace)]

lemma Clean.kept (h : p.Clean n) (hsize : p.size = n) : Kept p n n :=
  h.valid.kept (listed_of_pending_eq h.pending_eq) hsize

lemma whole_clean (n : Nat) : (whole n).Clean n := ⟨whole_valid n, rfl, fun s _ => marked_whole n s⟩

lemma size_whole (n : Nat) : (whole n).size = n := by simp [whole, size]

lemma ofRuns?_clean {order : List Nat} (alike : Nat → Nat → Bool) (h : order.Perm (List.range n)) :
    ∃ p, ofRuns? order alike = some p ∧ p.Clean n ∧ p.size = n := by
  have hlen : order.length = n := by simpa using h.length_eq
  have hlt : ∀ e ∈ order, e < order.length := by
    intro e he
    rw [hlen]
    exact List.mem_range.mp (h.mem_iff.mp he)
  have hn : order.Nodup := h.nodup_iff.mpr List.nodup_range
  obtain ⟨p, hp, hpending, x⟩ := ofRuns?_spec alike hn hlt
  have hflat : (order.splitBy alike).flatten = order := List.flatten_splitBy alike order
  have hv := x.valid (hflat.symm ▸ hn) (hflat.symm ▸ hlt) fun run hrun => List.ne_nil_of_mem_splitBy hrun
  have hsize := x.size_eq
  rw [hflat, hlen] at hv hsize
  exact ⟨p, hp, ⟨hv, hpending, fun s _ => x.marked_eq s⟩, hsize⟩

namespace Kept

lemma swap? (h : Kept p n live) (hi : i < p.size) (hj : j < p.size)
    (hsets : ∀ k, k < live → p.setOf (p.elementAt (Equiv.swap i j k)) = p.setOf (p.elementAt k)) :
    ∃ q, p.swap? i j = some q ∧ Kept q n live := by
  obtain ⟨q, hq, x⟩ := h.valid.swap?_spec hi hj
  refine ⟨q, hq, x.valid_of_setOf_eq h.valid hi hj hsets, ?_, x.size_eq.trans h.size_eq, ?_⟩
  · rw [Listed, x.pending_eq, x.setCount_eq, x.marked_eq]
    exact h.listed
  · rw [x.setCount_eq, x.setOf_eq]
    exact h.setOf_eq

lemma setOf_swap (h : Kept p n live) (hc : (Call.swap i j).Admissible p live) {k : Nat} (hk : k < live) :
    p.setOf (p.elementAt (Equiv.swap i j k)) = p.setOf (p.elementAt k) := by
  obtain ⟨hi, hj, hundivided | ⟨s, hs, hfi, hpi, hfj, hpj⟩ | ⟨hli, hlj⟩⟩ := hc
  · have hzero : ∀ k, k < p.size → p.setOf (p.elementAt k) = 0 := fun k hk =>
      h.setOf_eq hundivided.1 _ (h.size_eq ▸ h.valid.elementAt_lt k hk)
    have hkn := hk.trans_le h.valid.live_le
    rw [hzero k hkn, hzero _ (Exchange.swap_lt hi hj hkn)]
  · apply Exchange.same_set
    rw [h.valid.setOf_eq s i hs (by omega) hpi, h.valid.setOf_eq s j hs (by omega) hpj]
  · rw [Equiv.swap_apply_of_ne_of_ne (by omega) (by omega)]

lemma truncate? (h : Kept p n live) {length : Nat} (hc : (Call.truncate length).Admissible p live) :
    ∃ q, p.truncate? length = some q ∧ Kept q n length := by
  obtain ⟨⟨hone, hm⟩, hpos, hle⟩ := hc
  obtain ⟨hfirst, hpast⟩ := h.valid.range_zero hone
  obtain ⟨q, hq, hv, hrest⟩ := h.valid.truncate?_spec hone hm hpos (by omega)
  refine ⟨q, hq, hv, ?_, ?_, ?_⟩
  · rw [hrest]
    exact h.listed
  · rw [hrest]
    exact h.size_eq
  · rw [hrest]
    exact h.setOf_eq

lemma mark? (h : Kept p n live) {e : Nat} (he : p.Live live e) : ∃ q, p.mark? e = some q ∧ Kept q n live := by
  rcases h.valid.mark?_cases he with ⟨_, hp⟩ | ⟨q, hq, x⟩
  · exact ⟨p, hp, h⟩
  · refine ⟨q, hq, x.valid, x.gained.listed h.listed, x.size_eq.trans h.size_eq, ?_⟩
    rw [x.gained.setCount_eq, x.setOf_eq]
    exact h.setOf_eq

lemma markFirst? (h : Kept p n live) {s length : Nat} (hc : (Call.markFirst s length).Admissible p live) :
    ∃ q, p.markFirst? s length = some q ∧ Kept q n live := by
  obtain ⟨hs, hm, hle⟩ := hc
  have hrange := h.valid.first_lt_past s hs
  have hpast : p.first s + length ≤ p.past s := by omega
  rcases h.valid.markFirst?_cases hs hm hpast with ⟨_, hp⟩ | ⟨q, hq, hv, x, hrest⟩
  · exact ⟨p, hp, h⟩
  · refine ⟨q, hq, hv, x.listed h.listed, ?_, ?_⟩
    · rw [hrest]
      exact h.size_eq
    · rw [hrest]
      exact h.setOf_eq

lemma split? (h : Kept p n live) : ∃ q, p.split? = some q ∧ Kept q n live := by
  have hv : Valid { p with pending := [] } live := { h.valid with }
  obtain ⟨q, hq, x⟩ := hv.foldlM_splitSet? h.listed.1 h.listed.2
  refine ⟨q, hq, x.valid, listed_of_pending_eq x.pending_eq, ?_, fun hone => ?_⟩
  · exact (congrArg Array.size x.order_eq).trans h.size_eq
  · -- one set at the end was one set all the time
    have hpos := h.valid.covered 0 (by have := x.valid.setCount_le; omega)
    have hle : p.setCount ≤ q.setCount := x.setCount_le
    have howner : q.owner = p.owner := x.owner_eq (by change q.setCount = p.setCount; omega)
    rw [show q.setOf = p.setOf by funext e; simp only [setOf, howner]]
    exact h.setOf_eq (by omega)

lemma splitUnless? (h : Kept p n live) (cancelled : Bool) :
    ∃ o, p.splitUnless? cancelled = some o ∧ Kept o.state n live := by
  fun_cases Partition.splitUnless? p cancelled with
  | case1 s rest hpending =>
    -- the set that is forgotten keeps its marks
    obtain ⟨hn, hlisted⟩ := h.listed
    rw [hpending] at hn hlisted
    refine ⟨_, rfl, { h.valid with }, ⟨hn.of_cons, fun t ht => ?_⟩, h.size_eq, h.setOf_eq⟩
    exact hlisted t (List.mem_cons_of_mem s ht)
  | case2 =>
    obtain ⟨q, hq, hkept⟩ := h.split?
    exact ⟨.done q, by rw [hq]; rfl, hkept⟩

lemma run? (h : Kept p n live) {c : Call} (hc : c.Admissible p live) :
    ∃ q, c.run? p = some q ∧ Kept q n (c.live live) := by
  cases c with
  | swap i j => exact h.swap? hc.1 hc.2.1 fun k hk => h.setOf_swap hc hk
  | truncate length => exact h.truncate? hc
  | mark e => exact h.mark? hc
  | markFirst s length => exact h.markFirst? hc
  | split cancelled =>
    obtain ⟨o, ho, hkept⟩ := h.splitUnless? cancelled
    exact ⟨o.state, by rw [Call.run?, ho]; rfl, hkept⟩

end Kept

lemma Arises.kept {r : Option Partition} (h : Arises n live r) : ∃ p, r = some p ∧ Kept p n live := by
  induction h with
  | whole => exact ⟨_, rfl, (whole_clean n).kept (size_whole n)⟩
  | ofRuns alike hperm =>
    obtain ⟨p, hp, hclean, hsize⟩ := ofRuns?_clean alike hperm
    exact ⟨p, hp, hclean.kept hsize⟩
  | call c _ hc ih =>
    obtain ⟨p, hp, hkept⟩ := ih
    obtain rfl := Option.some.inj hp
    exact hkept.run? hc

theorem arising_keeps_tiling {r : Option Partition} (h : Arises n live r) :
    ∃ p, r = some p ∧ p.size = n ∧ p.Valid live ∧
      (∀ i, i < live ↔ ∃! s, s < p.setCount ∧ p.first s ≤ i ∧ i < p.past s) ∧
      p.setCount ≤ max n 1 ∧ p.inOrder = true := by
  obtain ⟨p, hp, hkept⟩ := h.kept
  have hv := hkept.valid
  have hcount := hv.setCount_le
  have hlive := hv.live_le
  refine ⟨p, hp, hkept.size_eq, hv, fun i => hv.lt_live_iff, ?_, hv.inOrder⟩
  rw [hkept.size_eq] at hlive
  omega

theorem cancelled_split_keeps_tiling :
    ∃ p, Arises 3 3 (some p) ∧ p.pending = [] ∧ p.marked 0 = 1 ∧ p.size = 3 ∧ p.Valid 3 ∧
      (∀ i, i < 3 ↔ ∃! s, s < p.setCount ∧ p.first s ≤ i ∧ i < p.past s) ∧ p.setCount ≤ max 3 1 ∧ p.inOrder = true := by
  have hmarked : Arises 3 3 (some
      ⟨#[2, 1, 0], #[2, 1, 0], #[0, 0, 0], #[0, 0, 0], #[3, 0, 0], #[1, 0, 0], 1, [0]⟩) :=
    .call (.mark 2) .whole ⟨by decide, by decide⟩
  have hforgotten : Arises 3 3 (some
      ⟨#[2, 1, 0], #[2, 1, 0], #[0, 0, 0], #[0, 0, 0], #[3, 0, 0], #[1, 0, 0], 1, []⟩) :=
    .call (.split true) hmarked trivial
  have hswapped : Arises 3 3 (some
      ⟨#[2, 0, 1], #[1, 2, 0], #[0, 0, 0], #[0, 0, 0], #[3, 0, 0], #[1, 0, 0], 1, []⟩) :=
    .call (.swap 1 2) hforgotten
      ⟨by decide, by decide, .inr (.inl ⟨0, by decide, by decide, by decide, by decide, by decide⟩)⟩
  obtain ⟨p, hp, hkept⟩ := arising_keeps_tiling hswapped
  obtain rfl := Option.some.inj hp
  exact ⟨_, hswapped, rfl, rfl, hkept⟩

end PatternInference.Partition
