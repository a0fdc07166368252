import Mathlib.Logic.Relation
import PatternInference.Minimization.Pruning
import PatternInference.Proofs.Buckets
import PatternInference.Proofs.Partition.Marking

namespace PatternInference.Minimization

open PatternInference.Partition

namespace Frontier

variable {f g h : Frontier} {live : Nat} {M N : Nat → Prop}

structure Valid (f : Frontier) (live : Nat) : Prop where
  states : f.states.Valid live
  setCount_eq : f.states.setCount = 1
  reached_le : f.reached ≤ live

def Front (f : Frontier) (e : Nat) : Prop := e < f.states.size ∧ f.states.placeOf e < f.reached

lemma Valid.setOf_eq (hf : f.Valid live) {i : Nat} (hi : i < live) : f.states.setOf (f.states.elementAt i) = 0 :=
  hf.states.setOf_eq_zero hf.setCount_eq hi

lemma Valid.front_elementAt (hf : f.Valid live) {i : Nat} (hi : i < f.reached) : f.Front (f.states.elementAt i) := by
  have hn := (hi.trans_le hf.reached_le).trans_le hf.states.live_le
  exact ⟨hf.states.elementAt_lt i hn, by rwa [hf.states.placeOf_elementAt i hn]⟩

structure Extends (f g : Frontier) (live : Nat) (N : Nat → Prop) : Prop where
  valid : g.Valid live
  rest : g.states = { f.states with order := g.states.order, position := g.states.position }
  size_eq : g.states.size = f.states.size
  live_iff : ∀ e, g.states.Live live e ↔ f.states.Live live e
  reached_le : f.reached ≤ g.reached
  elementAt_eq : ∀ i, i < f.reached → g.states.elementAt i = f.states.elementAt i
  front_iff : ∀ e, g.Front e ↔ f.Front e ∨ N e

lemma Extends.refl (hf : f.Valid live) (hN : ∀ e, N e → f.Front e) : Extends f f live N :=
  ⟨hf, rfl, rfl, fun _ => Iff.rfl, le_rfl, fun _ _ => rfl, fun e => ⟨.inl, (·.elim id (hN e))⟩⟩

lemma Extends.trans (h₁ : Extends f g live M) (h₂ : Extends g h live N) :
    Extends f h live fun e => M e ∨ N e := by
  refine ⟨h₂.valid, ?_, h₂.size_eq.trans h₁.size_eq, fun e => (h₂.live_iff e).trans (h₁.live_iff e),
    h₁.reached_le.trans h₂.reached_le, fun i hi => ?_, fun e => ?_⟩
  · rw [h₂.rest, h₁.rest]
  · rw [h₂.elementAt_eq i (hi.trans_le h₁.reached_le), h₁.elementAt_eq i hi]
  · rw [h₂.front_iff, h₁.front_iff, or_assoc]

lemma Extends.congr (x : Extends f g live M) (he : ∀ e, M e ↔ N e) : Extends f g live N :=
  { x with front_iff := fun e => by rw [x.front_iff, he] }

lemma Extends.placeOf_lt_iff (x : Extends f g live N) (hf : f.Valid live) {e : Nat} (he : e < g.states.size) :
    g.states.placeOf e < f.reached ↔ f.Front e := by
  have hg := x.valid.states
  constructor
  · intro hlt
    have hat := x.elementAt_eq _ hlt
    rw [hg.elementAt_placeOf e he] at hat
    rw [hat]
    exact hf.front_elementAt hlt
  · rintro ⟨hsize, hlt⟩
    have hat := x.elementAt_eq _ hlt
    rw [hf.states.elementAt_placeOf e hsize] at hat
    rw [← hat, hg.placeOf_elementAt _ (hlt.trans_le (x.reached_le.trans (x.valid.reached_le.trans hg.live_le)))]
    exact hlt

lemma Valid.reach?_spec (hf : f.Valid live) {s : Nat} (hs : f.states.Live live s) :
    ∃ g, f.reach? s = some g ∧ Extends f g live (· = s) := by
  have hp := hf.states
  simp only [reach?, hp.position_get hs.1, Option.bind_eq_bind, Option.bind_some]
  split
  · next hlt => exact ⟨f, rfl, .refl hf fun e he => he ▸ ⟨hs.1, hlt⟩⟩
  · next hge =>
    have hreached : f.reached < live := by have := hs.2; omega
    have hsame : f.states.setOf (f.states.elementAt (f.states.placeOf s)) =
        f.states.setOf (f.states.elementAt f.reached) := by
      rw [hf.setOf_eq hs.2, hf.setOf_eq hreached]
    obtain ⟨q, hq, x⟩ := hp.swap?_spec (hs.2.trans_le hp.live_le) (hreached.trans_le hp.live_le)
    rw [hq]
    refine ⟨⟨q, f.reached + 1⟩, rfl, ⟨x.valid hp hs.2 hreached hsame, x.setCount_eq.trans hf.setCount_eq, hreached⟩,
      x.rest, x.size_eq, x.live_iff hs.2 hreached, Nat.le_succ _, fun i hi => ?_, fun e => ?_⟩
    · rw [x.elementAt_eq, Equiv.swap_apply_of_ne_of_ne (by omega) (by omega)]
    · simp only [Front, x.size_eq]
      by_cases he : e < f.states.size
      · have hes : e = s ↔ f.states.placeOf e = f.states.placeOf s :=
          ⟨fun h => h ▸ rfl, fun h => by rw [← hp.elementAt_placeOf e he, h, hp.elementAt_placeOf s hs.1]⟩
        rw [x.placeOf_eq e he, hes, Equiv.swap_apply_def]
        simp only [he, true_and]
        split_ifs <;> omega
      · have hne : e ≠ s := fun h => he (h ▸ hs.1)
        simp [he, hne]

lemma Valid.foldlM_reach? (hf : f.Valid live) {ι : Type} (xs : List ι) {head : ι → Nat}
    {step : Frontier → ι → Option Frontier} (hstep : ∀ x ∈ xs, ∀ f : Frontier, step f x = f.reach? (head x))
    (hlive : ∀ x ∈ xs, f.states.Live live (head x)) :
    ∃ g, xs.foldlM step f = some g ∧ Extends f g live fun e => ∃ x ∈ xs, e = head x := by
  induction xs generalizing f with
  | nil => exact ⟨f, rfl, .refl hf (by simp)⟩
  | cons x xs ih =>
    obtain ⟨g, hg, hx⟩ := hf.reach?_spec (hlive x (by simp))
    obtain ⟨h, hh, hxs⟩ := ih hx.valid (fun y hy => hstep y (by simp [hy]))
      fun y hy => (hx.live_iff _).mpr (hlive y (by simp [hy]))
    refine ⟨h, ?_, (hx.trans hxs).congr fun e => by simp⟩
    rw [List.foldlM_cons, hstep x (by simp), hg]
    exact hh

def Step (tails heads : List Nat) (s e : Nat) : Prop := ∃ t : Nat, tails[t]? = some s ∧ heads[t]? = some e

section Spread

variable {tails heads : List Nat} {buckets : Buckets} {stateCount : Nat}

lemma Valid.spreadFrom?_spec (hf : f.Valid live) (hsize : f.states.size = stateCount)
    (hbuckets : ∀ s, s < stateCount → buckets.bucket? s = some (Buckets.positions tails s))
    (hlen : heads.length = tails.length) (hlive : ∀ e ∈ heads, f.states.Live live e) {i : Nat} (hi : i < f.reached) :
    ∃ g, f.spreadFrom? buckets heads.toArray i = some g ∧
      Extends f g live (Step tails heads (f.states.elementAt i)) := by
  have hn := (hi.trans_le hf.reached_le).trans_le hf.states.live_le
  have hget : ∀ t ∈ Buckets.positions tails (f.states.elementAt i), heads[t]? = some (heads.getD t 0) := by
    intro t ht
    have hlt := (List.getElem?_eq_some_iff.mp (Buckets.mem_positions.mp ht)).1
    simp [hlen, hlt]
  have hstep : ∀ t ∈ Buckets.positions tails (f.states.elementAt i), ∀ f : Frontier,
      (do f.reach? (← heads.toArray[t]?)) = f.reach? (heads.getD t 0) := by
    intro t ht f
    rw [List.getElem?_toArray, hget t ht]
    rfl
  obtain ⟨g, hg, x⟩ := hf.foldlM_reach? _ hstep fun t ht =>
    hlive (heads.getD t 0) (List.mem_of_getElem? (hget t ht))
  refine ⟨g, ?_, x.congr fun e => ?_⟩
  · simp only [spreadFrom?, hf.states.order_get hn, Option.bind_eq_bind, Option.bind_some,
      hbuckets _ (hsize ▸ hf.states.elementAt_lt i hn)]
    exact hg
  · constructor
    · rintro ⟨t, ht, rfl⟩
      exact ⟨t, Buckets.mem_positions.mp ht, hget t ht⟩
    · rintro ⟨t, ht, he⟩
      have hm := Buckets.mem_positions.mpr ht
      exact ⟨t, hm, Option.some.inj (he.symm.trans (hget t hm))⟩

def ClosedBelow (f : Frontier) (tails heads : List Nat) (i : Nat) : Prop :=
  ∀ j, j < i → j < f.reached → ∀ e, Step tails heads (f.states.elementAt j) e → f.Front e

lemma Extends.of_closed (hf : f.Valid live) (hc : ∀ i, i < f.reached → ∀ e,
    Step tails heads (f.states.elementAt i) e → f.Front e) :
    Extends f f live fun e => ∃ r, f.Front r ∧ Relation.ReflTransGen (Step tails heads) r e := by
  refine .refl hf ?_
  rintro e ⟨r, hr, hre⟩
  induction hre with
  | refl => exact hr
  | tail _ hstep ih =>
    refine hc _ ih.2 _ ?_
    rwa [hf.states.elementAt_placeOf _ ih.1]

lemma Valid.spread?_spec (hf : f.Valid live) (hsize : f.states.size = stateCount)
    (hbuckets : ∀ s, s < stateCount → buckets.bucket? s = some (Buckets.positions tails s))
    (hlen : heads.length = tails.length) (hlive : ∀ e ∈ heads, f.states.Live live e) {fuel i : Nat}
    (hfuel : live ≤ i + fuel) (hc : f.ClosedBelow tails heads i) :
    ∃ g, spread? buckets heads.toArray fuel i f = some g ∧
      Extends f g live fun e => ∃ r, f.Front r ∧ Relation.ReflTransGen (Step tails heads) r e := by
  induction fuel generalizing f i with
  | zero =>
    have hge : ¬ i < f.reached := by have := hf.reached_le; omega
    exact ⟨f, by rw [spread?, if_neg hge], .of_closed hf fun j hj => hc j (by omega) hj⟩
  | succ fuel ih =>
    rw [spread?]
    split
    · next hi =>
      obtain ⟨g, hg, x⟩ := hf.spreadFrom?_spec hsize hbuckets hlen hlive hi
      have hclosed : g.ClosedBelow tails heads (i + 1) := by
        intro j hj _ e hstep
        rw [x.elementAt_eq j (by omega)] at hstep
        rw [x.front_iff]
        by_cases hji : j = i
        · exact .inr (hji ▸ hstep)
        · exact .inl (hc j (by omega) (by omega) e hstep)
      obtain ⟨h, hh, y⟩ := ih x.valid (x.size_eq.trans hsize) (fun e he => (x.live_iff e).mpr (hlive e he))
        (by omega) hclosed
      rw [hg]
      refine ⟨h, hh, { x.trans y with front_iff := fun e => ?_ }⟩
      rw [y.front_iff, x.front_iff]
      have hfront := hf.front_elementAt hi
      constructor
      · rintro ((he | hstep) | ⟨r, hr, hre⟩)
        · exact .inl he
        · exact .inr ⟨_, hfront, .single hstep⟩
        · rcases (x.front_iff r).mp hr with hr | hstep
          · exact .inr ⟨r, hr, hre⟩
          · exact .inr ⟨_, hfront, .head hstep hre⟩
      · rintro (he | ⟨r, hr, hre⟩)
        · exact .inl (.inl he)
        · exact .inr ⟨r, (x.front_iff r).mpr (.inl hr), hre⟩
    · next hi => exact ⟨f, rfl, .of_closed hf fun j hj => hc j (by omega) hj⟩

end Spread

end Frontier
end PatternInference.Minimization
