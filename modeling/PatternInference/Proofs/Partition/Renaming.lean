import Mathlib.Data.Nat.Log
import PatternInference.Proofs.Partition.Calls
import PatternInference.Proofs.Partition.Halves

/-! An element changes its set only when the set it is in at least halves, so it does not change it often. -/

namespace PatternInference.Partition

/-- What a split leaves that is stopped behind the first sets; the set it would go on with is forgotten. -/
def splitUntil? (p : Partition) (done : Nat) : Option Partition :=
  (p.pending.take done).foldlM splitSet? { p with pending := p.pending.drop (done + 1) }

def changes (p : Partition) (o : Option Partition) (e : Nat) : Nat :=
  if o.map (·.setOf e) = some (p.setOf e) then 0 else 1

def renamings (e : Nat) : List Nat → Partition → Nat
  | [], _ => 0
  | s :: sets, p => p.changes (p.splitSet? s) e + ((p.splitSet? s).map (renamings e sets)).getD 0

def renamingsUntil (p : Partition) (done e : Nat) : Nat :=
  renamings e (p.pending.take done) { p with pending := p.pending.drop (done + 1) }

namespace Call

def refines : Call → Bool
  | mark _ | markFirst _ _ | split _ => true
  | swap _ _ | truncate _ => false

def renamings (p : Partition) (e : Nat) : Call → Nat
  | split cancelled => p.renamingsUntil (if cancelled then 0 else p.pending.length) e
  | c => p.changes (c.run? p) e

end Call

/-- What marks and splits may make of a partition of `0 .. n - 1`, and how often each element has changed its set. -/
inductive Counted (n : Nat) : Option Partition → (Nat → Nat) → Prop
  | whole : Counted n (some (whole n)) fun _ => 0
  | ofRuns {order : List Nat} (alike : Nat → Nat → Bool) (h : order.Perm (List.range n)) :
    Counted n (ofRuns? order alike) fun _ => 0
  | call {p : Partition} {count : Nat → Nat} (c : Call) (h : Counted n (some p) count) (hc : c.Admissible p n)
    (hrefines : c.refines = true) : Counted n (c.run? p) fun e => count e + c.renamings p e
  | stopped {p : Partition} {count : Nat → Nat} (done : Nat) (h : Counted n (some p) count) :
    Counted n (p.splitUntil? done) fun e => count e + p.renamingsUntil done e

def companions (p : Partition) (n e : Nat) : Finset Nat := {f ∈ Finset.range n | p.setOf f = p.setOf e}

variable {p q r : Partition} {n e s done : Nat} {o : Option Partition} {count : Nat → Nat} {sets : List Nat} {c : Call}

lemma run?_split (cancelled : Bool) :
    (Call.split cancelled).run? p = p.splitUntil? (if cancelled then 0 else p.pending.length) := by
  cases cancelled with
  | false =>
    simp only [Call.run?, splitUnless?, splitUntil?, split?, Bool.false_eq_true, if_false, List.take_length,
      List.drop_eq_nil_of_le (Nat.le_succ _), Option.map_map]
    exact congrFun Option.map_id _
  | true =>
    cases hpending : p.pending <;>
      simp [Call.run?, splitUnless?, splitUntil?, split?, Outcome.done, Outcome.failed, hpending]

lemma two_pow_changes_le (hle : (q.companions n e).card ≤ (p.companions n e).card)
    (hhalf : q.setOf e ≠ p.setOf e → 2 * (q.companions n e).card ≤ (p.companions n e).card) :
    2 ^ p.changes (some q) e * (q.companions n e).card ≤ (p.companions n e).card := by
  simp only [changes, Option.map_some, Option.some_inj]
  split
  · rwa [Nat.pow_zero, Nat.one_mul]
  · next hne =>
    rw [Nat.pow_one]
    exact hhalf hne

lemma two_pow_changes_le_of_setOf_eq (h : q.setOf = p.setOf) (e : Nat) :
    2 ^ p.changes (some q) e * (q.companions n e).card ≤ (p.companions n e).card := by
  refine two_pow_changes_le ?_ fun hne => absurd (congrFun h e) hne
  simp only [companions, h, le_refl]

lemma two_mul_lesser_le (p : Partition) (s : Nat) :
    2 * ((p.lesser s).2 - (p.lesser s).1) ≤ p.past s - p.first s := by
  rw [lesser, border]
  split <;> dsimp only <;> omega

lemma mem_lesser {i : Nat} (hi : p.first s ≤ i ∧ i < p.past s)
    (hnot : ¬ ((p.greater s).1 ≤ i ∧ i < (p.greater s).2)) : (p.lesser s).1 ≤ i ∧ i < (p.lesser s).2 := by
  rw [greater] at hnot
  rw [lesser]
  split at hnot
  · next hle =>
    rw [if_pos hle]
    exact ⟨hi.1, by omega⟩
  · next hle =>
    rw [if_neg hle]
    exact ⟨by omega, hi.2⟩

namespace Valid

lemma live_of_lt (h : p.Valid n) (hsize : p.size = n) (he : e < n) : p.Live n e :=
  ⟨hsize.symm ▸ he, hsize ▸ h.placeOf_lt e (hsize.symm ▸ he)⟩

lemma card_companions (h : p.Valid n) (hsize : p.size = n) (he : e < n) :
    (p.companions n e).card = p.past (p.setOf e) - p.first (p.setOf e) := by
  have hs := (h.mem_range (h.live_of_lt hsize he)).1
  have hmembers : p.companions n e = p.memberSet (p.setOf e) := by
    ext f
    rw [h.mem_memberSet hs, companions, Finset.mem_filter, Finset.mem_range]
    exact and_congr_left fun _ => ⟨h.live_of_lt hsize, fun hf => hsize ▸ hf.1⟩
  rw [hmembers, h.memberSet_eq hs, h.card_within ((h.past_le _ hs).trans h.live_le)]
  rfl

lemma two_mul_range_le (h : p.Valid n) (hsplit : Split p r n (· = s)) (hcuts : Cuts p r [s]) (he : p.Live n e)
    (hset : p.setOf e = s) (hne : r.setOf e ≠ s) :
    2 * (r.past (r.setOf e) - r.first (r.setOf e)) ≤ p.past s - p.first s := by
  obtain ⟨hs, hrange⟩ := h.mem_range he
  rw [hset] at hs hrange
  have helem : r.elementAt (p.placeOf e) = e := by
    rw [elementAt, hsplit.order_eq]
    exact h.elementAt_placeOf e he.1
  have hmem : ∀ t, t < r.setCount → (r.first t ≤ p.placeOf e ∧ p.placeOf e < r.past t ↔ r.setOf e = t) := by
    intro t ht
    rw [hsplit.valid.range_iff ht, helem]
    exact and_iff_right he.2
  -- the element stays in its place, which its set has lost to the part that is a set of its own now
  have hlost : ¬ (r.first s ≤ p.placeOf e ∧ p.placeOf e < r.past s) := fun hkept =>
    hne ((hmem s (hs.trans_le hsplit.setCount_le)).mp hkept)
  have hborder : p.border s < p.past s := by
    by_contra hfull
    have hsame := hcuts.full s (by simp) ((h.first_add_marked_le s hs).antisymm (Nat.not_lt.mp hfull))
    obtain ⟨hfirst, hpast⟩ := Prod.mk.inj hsame
    exact hlost (hfirst ▸ hpast ▸ hrange)
  obtain ⟨hgreater, t, _, ht, hlesser⟩ := hcuts.halved s (by simp) hborder
  have hin := mem_lesser hrange (hgreater ▸ hlost)
  have hle := p.two_mul_lesser_le s
  rw [← hlesser] at hin hle
  rw [(hmem t ht).mp hin]
  exact hle

lemma two_pow_splitSet?_le (h : p.Valid n) (hsize : p.size = n) (hs : s < p.setCount) (hm : 0 < p.marked s) (he : e < n)
    (hr : p.splitSet? s = some r) :
    2 ^ p.changes (some r) e * (r.companions n e).card ≤ (p.companions n e).card := by
  obtain ⟨r', hr', hsplit, hcuts⟩ := h.splitSet?_cuts hs hm
  obtain rfl := Option.some.inj (hr.symm.trans hr')
  have hlive : ∀ f, f < n → p.Live n f := fun f => h.live_of_lt hsize
  refine two_pow_changes_le (Finset.card_le_card fun f hf => ?_) fun hne => ?_
  · simp only [companions, Finset.mem_filter, Finset.mem_range] at hf ⊢
    exact ⟨hf.1, ((hsplit.same_iff f e (hlive f hf.1) (hlive e he)).mp hf.2).1⟩
  · obtain rfl : p.setOf e = s := by
      by_contra hother
      exact hne (hsplit.others e (hlive e he) hother)
    have hrsize : r.size = n := (congrArg Array.size hsplit.order_eq).trans hsize
    rw [hsplit.valid.card_companions hrsize he, h.card_companions hsize he]
    exact h.two_mul_range_le hsplit hcuts (hlive e he) rfl hne

lemma two_pow_renamings_le (h : p.Valid n) (hsize : p.size = n) (hn : sets.Nodup)
    (hsets : ∀ s ∈ sets, s < p.setCount ∧ 0 < p.marked s) (he : e < n) (hq : sets.foldlM splitSet? p = some q) :
    2 ^ renamings e sets p * (q.companions n e).card ≤ (p.companions n e).card := by
  induction sets generalizing p with
  | nil =>
    obtain rfl := Option.some.inj hq
    rw [renamings, Nat.pow_zero, Nat.one_mul]
  | cons s sets ih =>
    obtain ⟨hsn, hn⟩ := List.nodup_cons.mp hn
    obtain ⟨hs, hm⟩ := hsets s (by simp)
    obtain ⟨r, hr, x⟩ := h.splitSet?_split hs hm
    rw [List.foldlM_cons, hr] at hq
    have hrest : ∀ t ∈ sets, t < r.setCount ∧ 0 < r.marked t := fun t ht =>
      (x.marked_pos_iff t).mpr ⟨hsets t (by simp [ht]), fun hts => hsn (hts ▸ ht)⟩
    have hrsize : r.size = n := (congrArg Array.size x.order_eq).trans hsize
    calc 2 ^ renamings e (s :: sets) p * (q.companions n e).card
      _ = 2 ^ p.changes (some r) e * (2 ^ renamings e sets r * (q.companions n e).card) := by
        rw [renamings, hr, Option.map_some, Option.getD_some, Nat.pow_add, Nat.mul_assoc]
      _ ≤ 2 ^ p.changes (some r) e * (r.companions n e).card :=
        Nat.mul_le_mul_left _ (ih x.valid hrsize hn hrest hq)
      _ ≤ (p.companions n e).card := h.two_pow_splitSet?_le hsize hs hm he hr

end Valid

namespace Kept

lemma splitUntil? (h : Kept p n n) (done : Nat) : ∃ q, p.splitUntil? done = some q ∧ Kept q n n ∧
    ∀ e, e < n → 2 ^ p.renamingsUntil done e * (q.companions n e).card ≤ (p.companions n e).card := by
  obtain ⟨hnodup, hlisted⟩ := h.listed
  rw [← List.take_append_drop done p.pending] at hnodup hlisted
  obtain ⟨htake, hdrop, hdisjoint⟩ := List.nodup_append.mp hnodup
  have hsub : (p.pending.drop (done + 1)).Sublist (p.pending.drop done) := by
    rw [← List.drop_drop]
    exact List.drop_sublist 1 _
  have hv : Valid { p with pending := p.pending.drop (done + 1) } n := { h.valid with }
  have hsets : ∀ s ∈ p.pending.take done, s < p.setCount ∧ 0 < p.marked s := fun s hs =>
    hlisted s (List.mem_append_left _ hs)
  obtain ⟨q, hq, x⟩ := hv.foldlM_splitSet? htake hsets
  -- a set that is listed still has not been split, and keeps its marks
  have hstill : q.Listed := by
    rw [Listed, x.pending_eq]
    refine ⟨hsub.nodup hdrop, fun s hs => (x.marked_pos_iff s).mpr ⟨?_, fun hmem => ?_⟩⟩
    · exact hlisted s (List.mem_append_right _ (hsub.mem hs))
    · exact hdisjoint s hmem s (hsub.mem hs) rfl
  refine ⟨q, hq, x.valid.kept hstill ((congrArg Array.size x.order_eq).trans h.size_eq), fun e he => ?_⟩
  exact hv.two_pow_renamings_le h.size_eq htake hsets he hq

lemma refine? (h : Kept p n n) (hc : c.Admissible p n) (hrefines : c.refines = true) :
    ∃ q, c.run? p = some q ∧ Kept q n n ∧
      ∀ e, e < n → 2 ^ c.renamings p e * (q.companions n e).card ≤ (p.companions n e).card := by
  cases c with
  | swap i j => cases hrefines
  | truncate length => cases hrefines
  | mark e =>
    obtain ⟨q, hq, hkept⟩ := h.mark? hc
    have hset : q.setOf = p.setOf := by
      rcases h.valid.mark?_cases hc with ⟨_, hp⟩ | ⟨r, hr, x⟩
      · rw [Option.some.inj (hq.symm.trans hp)]
      · rw [Option.some.inj (hq.symm.trans hr), x.setOf_eq]
    refine ⟨q, hq, hkept, fun f _ => ?_⟩
    have hle := two_pow_changes_le_of_setOf_eq (n := n) hset f
    rw [← hq] at hle
    exact hle
  | markFirst s length =>
    obtain ⟨q, hq, hkept⟩ := h.markFirst? hc
    have hset : q.setOf = p.setOf := by
      have hrange := h.valid.first_lt_past s hc.1
      have hpast : p.first s + length ≤ p.past s := by
        have := hc.2.2
        omega
      rcases h.valid.markFirst?_cases hc.1 hc.2.1 hpast with ⟨_, hp⟩ | ⟨r, hr, _, _, hrest⟩
      · rw [Option.some.inj (hq.symm.trans hp)]
      · rw [Option.some.inj (hq.symm.trans hr), hrest]
        rfl
    refine ⟨q, hq, hkept, fun f _ => ?_⟩
    have hle := two_pow_changes_le_of_setOf_eq (n := n) hset f
    rw [← hq] at hle
    exact hle
  | split cancelled =>
    rw [run?_split]
    exact h.splitUntil? _

end Kept

lemma Counted.kept (h : Counted n o count) :
    ∃ p, o = some p ∧ Kept p n n ∧ ∀ e, e < n → 2 ^ count e * (p.companions n e).card ≤ n := by
  have hall : ∀ (p : Partition) e, 2 ^ 0 * (p.companions n e).card ≤ n := fun p e => by
    rw [Nat.pow_zero, Nat.one_mul]
    exact (Finset.card_filter_le _ _).trans (Finset.card_range n).le
  -- a change of the set is paid for by the half of it that the element has left
  have hpaid : ∀ {a b x y : Nat}, 2 ^ a * x ≤ n → 2 ^ b * y ≤ x → 2 ^ (a + b) * y ≤ n := by
    intro a b x y hx hy
    rw [Nat.pow_add, Nat.mul_assoc]
    exact (Nat.mul_le_mul_left _ hy).trans hx
  induction h with
  | whole => exact ⟨_, rfl, (whole_clean n).kept (size_whole n), fun e _ => hall _ e⟩
  | ofRuns alike hperm =>
    obtain ⟨p, hp, hclean, hsize⟩ := ofRuns?_clean alike hperm
    exact ⟨p, hp, hclean.kept hsize, fun e _ => hall p e⟩
  | call c _ hc hrefines ih =>
    obtain ⟨p, hp, hkept, hcard⟩ := ih
    obtain rfl := Option.some.inj hp
    obtain ⟨q, hq, hkept', hhalves⟩ := hkept.refine? hc hrefines
    exact ⟨q, hq, hkept', fun e he => hpaid (hcard e he) (hhalves e he)⟩
  | stopped done _ ih =>
    obtain ⟨p, hp, hkept, hcard⟩ := ih
    obtain rfl := Option.some.inj hp
    obtain ⟨q, hq, hkept', hhalves⟩ := hkept.splitUntil? done
    exact ⟨q, hq, hkept', fun e he => hpaid (hcard e he) (hhalves e he)⟩

theorem set_changes_le_log (h : Counted n o count) : ∃ p, o = some p ∧ ∀ e, e < n → count e ≤ Nat.log 2 n := by
  obtain ⟨p, hp, _, hcard⟩ := h.kept
  refine ⟨p, hp, fun e he => Nat.le_log_of_pow_le (by omega) ?_⟩
  have hself : e ∈ p.companions n e := Finset.mem_filter.mpr ⟨Finset.mem_range.mpr he, rfl⟩
  exact (Nat.le_mul_of_pos_right _ (Finset.card_pos.mpr ⟨e, hself⟩)).trans (hcard e he)

theorem set_changes_attain_log : ∃ p count, Counted 4 (some p) count ∧ p.pending = [] ∧ p.marked 0 = 1 ∧
    count 0 = Nat.log 2 4 ∧ count 0 ≤ Nat.log 2 4 := by
  have hone : Counted 4 (some
      ⟨#[0, 1, 2, 3], #[0, 1, 2, 3], #[0, 0, 0, 0], #[0, 0, 0, 0], #[4, 0, 0, 0], #[1, 0, 0, 0], 1, [0]⟩) _ :=
    .call (.mark 0) .whole ⟨by decide, by decide⟩ rfl
  have htwo : Counted 4 (some
      ⟨#[0, 1, 2, 3], #[0, 1, 2, 3], #[0, 0, 0, 0], #[0, 0, 0, 0], #[4, 0, 0, 0], #[2, 0, 0, 0], 1, [0]⟩) _ :=
    .call (.mark 1) hone ⟨by decide, by decide⟩ rfl
  have hhalved : Counted 4 (some
      ⟨#[0, 1, 2, 3], #[0, 1, 2, 3], #[1, 1, 0, 0], #[2, 0, 0, 0], #[4, 2, 0, 0], #[0, 0, 0, 0], 2, []⟩) _ :=
    .call (.split false) htwo trivial rfl
  have hmarked : Counted 4 (some
      ⟨#[0, 1, 2, 3], #[0, 1, 2, 3], #[1, 1, 0, 0], #[2, 0, 0, 0], #[4, 2, 0, 0], #[0, 1, 0, 0], 2, [1]⟩) _ :=
    .call (.markFirst 1 1) hhalved ⟨by decide, by decide, by decide⟩ rfl
  have halone : Counted 4 (some
      ⟨#[0, 1, 2, 3], #[0, 1, 2, 3], #[2, 1, 0, 0], #[2, 1, 0, 0], #[4, 2, 1, 0], #[0, 0, 0, 0], 3, []⟩) _ :=
    .call (.split false) hmarked trivial rfl
  have hother : Counted 4 (some
      ⟨#[0, 1, 2, 3], #[0, 1, 2, 3], #[2, 1, 0, 0], #[2, 1, 0, 0], #[4, 2, 1, 0], #[1, 0, 0, 0], 3, [0]⟩) _ :=
    .call (.mark 2) halone ⟨by decide, by decide⟩ rfl
  have hforgotten : Counted 4 (some
      ⟨#[0, 1, 2, 3], #[0, 1, 2, 3], #[2, 1, 0, 0], #[2, 1, 0, 0], #[4, 2, 1, 0], #[1, 0, 0, 0], 3, []⟩) _ :=
    .call (.split true) hother trivial rfl
  obtain ⟨p, hp, hcount⟩ := set_changes_le_log hforgotten
  exact ⟨_, _, hforgotten, rfl, rfl, rfl, hcount 0 (by decide)⟩

end PatternInference.Partition
