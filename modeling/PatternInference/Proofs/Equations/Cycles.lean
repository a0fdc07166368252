import Mathlib.Data.Fintype.Card
import Mathlib.Data.Set.Card
import PatternInference.Proofs.Equations.Basic

/-! Equations are made for exactly the automata without a cycle, and the error counts the states behind the cycles. -/

namespace PatternInference.Equations

section

variable {α : Type} {n s t : Nat} {edges : List (Transition α)}

def OnCycle (edges : List (Transition α)) (s : Nat) : Prop := ∃ w, w ≠ [] ∧ Reads edges s w s

/-- On a cycle, or reachable from a state on one. -/
def BehindCycle (edges : List (Transition α)) (s : Nat) : Prop := ∃ c, OnCycle edges c ∧ Reachable edges c s

lemma OnCycle.behindCycle (h : OnCycle edges s) : BehindCycle edges s := ⟨s, h, .refl s⟩

lemma BehindCycle.step (h : BehindCycle edges s) (hst : Precedes edges s t) : BehindCycle edges t := by
  obtain ⟨c, hc, hreach⟩ := h
  obtain ⟨e, he, hs, rfl⟩ := hst
  exact ⟨c, hc, hreach.step he hs⟩

lemma closed_behindCycle : Closed edges (BehindCycle edges) := by
  have hlast {c s : Nat} {w : List α} (hc : OnCycle edges c) (hne : w ≠ []) (hw : Reads edges c w s) :
      ∃ e ∈ edges, e.target = s ∧ BehindCycle edges e.source := by
    obtain ⟨v, a, rfl⟩ := (List.eq_nil_or_concat' w).resolve_left hne
    obtain ⟨e, he, ht, -, hv⟩ := reads_concat_iff.mp hw
    exact ⟨e, he, ht, c, hc, v, hv⟩
  rintro s ⟨c, hc, w, hw⟩
  by_cases hne : w = []
  · subst hne
    obtain rfl := reads_nil_iff.mp hw
    obtain ⟨v, hv, hcycle⟩ := hc
    exact hlast ⟨v, hv, hcycle⟩ hv hcycle
  · exact hlast hc hne hw

lemma acc_of_not_behindCycle (hends : ∀ e ∈ edges, e.source < n ∧ e.target < n) (hs : ¬ BehindCycle edges s) :
    Acc (Precedes edges) s := by
  -- away from the cycles no word but the empty one leads back, and the states are finitely many
  let before : Fin n → Fin n → Prop := fun t u => ¬ BehindCycle edges u ∧ ∃ w, w ≠ [] ∧ Reads edges t w u
  have htrans : IsTrans (Fin n) before := by
    refine ⟨fun t u v htu huv => ⟨huv.1, ?_⟩⟩
    obtain ⟨-, x, hx, hreads⟩ := htu
    obtain ⟨-, y, -, hreads'⟩ := huv
    exact ⟨x ++ y, List.append_ne_nil_of_left_ne_nil hx y, hreads.append hreads'⟩
  have hirrefl : Std.Irrefl before := ⟨fun t h => h.1 (OnCycle.behindCycle h.2)⟩
  have hacc (t : Fin n) (ht : ¬ BehindCycle edges t) : Acc (Precedes edges) t := by
    induction t using (Finite.wellFounded_of_trans_of_irrefl before).induction with
    | _ t ih =>
      apply Acc.intro
      intro p hp
      have haway : ¬ BehindCycle edges p := fun h => ht (h.step hp)
      obtain ⟨e, he, rfl, htarget⟩ := hp
      refine ih ⟨e.source, (hends e he).1⟩ ⟨ht, [e.symbol], List.cons_ne_nil _ _, ?_⟩ haway
      exact htarget ▸ .cons he (.nil _)
  by_cases hlt : s < n
  · exact hacc ⟨s, hlt⟩ hs
  · refine ⟨s, fun p hp => ?_⟩
    obtain ⟨e, he, -, rfl⟩ := hp
    exact absurd (hends e he).2 hlt

lemma not_acc_iff_behindCycle (hends : ∀ e ∈ edges, e.source < n ∧ e.target < n) :
    ¬ Acc (Precedes edges) s ↔ BehindCycle edges s := by
  constructor
  · intro hs
    by_contra haway
    exact hs (acc_of_not_behindCycle hends haway)
  · exact closed_behindCycle.not_acc

lemma wellFounded_precedes_iff (hends : ∀ e ∈ edges, e.source < n ∧ e.target < n) :
    WellFounded (Precedes edges) ↔ ∀ s, ¬ OnCycle edges s := by
  constructor
  · intro hwf s hs
    exact closed_behindCycle.not_acc hs.behindCycle (hwf.apply s)
  · intro hnone
    refine ⟨fun s => acc_of_not_behindCycle hends ?_⟩
    rintro ⟨c, hc, -⟩
    exact hnone c hc

end

variable {n initial s : Nat} {edges : List (Transition Char)} {grouped : Bool} {e : Error}

lemma accepted_iff : Accepted n initial edges ↔ initial < n ∧ (∀ e ∈ edges, e.source < n ∧ e.target < n) ∧
    (∀ s, s < n → s ≠ initial → ∃ e ∈ edges, e.target = s) ∧ ∀ s, ¬ OnCycle edges s := by
  constructor
  · rintro ⟨hinitial, hends, hentered, hwf⟩
    exact ⟨hinitial, hends, hentered, (wellFounded_precedes_iff hends).mp hwf⟩
  · rintro ⟨hinitial, hends, hentered, hnone⟩
    exact ⟨hinitial, hends, hentered, (wellFounded_precedes_iff hends).mpr hnone⟩

lemma Accepted.reachable (h : Accepted n initial edges) (hs : s < n) : Reachable edges initial s := by
  induction s using h.acyclic.induction with
  | _ s ih =>
    by_cases hne : s = initial
    · exact hne ▸ .refl s
    · obtain ⟨e, he, rfl⟩ := h.entered s hs hne
      exact (ih e.source ⟨e, he, rfl, rfl⟩ (h.ends e he).1).step he rfl

lemma invalid_of_create_eq_error (h : create n initial edges grouped = .error e) :
    ∃ argument fault, e = .invalid argument fault := by
  rcases invalid_or_entered n initial edges grouped with ⟨argument, fault, herror⟩ | ⟨hinitial, hends, hentered⟩
  · rw [herror] at h
    cases h
    exact ⟨argument, fault, rfl⟩
  · rw [create_of_entered hinitial hends hentered] at h
    split at h
    · cases h
    · cases h
      exact ⟨_, _, rfl⟩

lemma create_of_onCycle (hinitial : initial < n) (hends : ∀ e ∈ edges, e.source < n ∧ e.target < n)
    (hentered : ∀ s, s < n → s ≠ initial → ∃ e ∈ edges, e.target = s) (hcycle : OnCycle edges s) :
    create n initial edges grouped =
      .error (.invalid .transitions (.cyclic {s | s < n ∧ BehindCycle edges s}.ncard n)) := by
  have hnot : ¬ WellFounded (Precedes edges) := fun hwf => (wellFounded_precedes_iff hends).mp hwf s hcycle
  rw [create_of_entered hinitial hends hentered, if_neg (mt (wellFounded_iff_ncard hends).mpr hnot)]
  simp only [not_acc_iff_behindCycle hends]

theorem create_accepts_acyclic (n initial : Nat) (edges : List (Transition Char)) (grouped : Bool) :
    ((∃ q, create n initial edges grouped = .ok q) ↔
      initial < n ∧ (∀ e ∈ edges, e.source < n ∧ e.target < n) ∧
      (∀ s, s < n → s ≠ initial → ∃ e ∈ edges, e.target = s) ∧ ∀ s, ¬ OnCycle edges s) ∧
    ((∃ q, create n initial edges grouped = .ok q) →
      (∀ e ∈ edges, e.target ≠ initial) ∧ ∀ s, s < n → Reachable edges initial s) ∧
    (∀ e, create n initial edges grouped = .error e → ∃ argument fault, e = .invalid argument fault) ∧
    (initial < n → (∀ e ∈ edges, e.source < n ∧ e.target < n) →
      (∀ s, s < n → s ≠ initial → ∃ e ∈ edges, e.target = s) → (∃ s, OnCycle edges s) →
      ∃ behind, behind = {s | s < n ∧ BehindCycle edges s}.ncard ∧
        create n initial edges grouped = .error (.invalid .transitions (.cyclic behind n)) ∧
        (Fault.cyclic behind n).reason =
          s!"automaton is cyclic: {behind} of {n} states lie on or behind a cycle") := by
  have haccepted : (∃ q, create n initial edges grouped = .ok q) ↔ Accepted n initial edges := by
    simp only [create_eq_ok_iff, exists_and_left, exists_eq, and_true]
  refine ⟨haccepted.trans accepted_iff, ?_, fun e => invalid_of_create_eq_error, ?_⟩
  · intro hok
    have h := haccepted.mp hok
    exact ⟨fun e => h.target_ne, fun s => h.reachable⟩
  · rintro hinitial hends hentered ⟨s, hs⟩
    exact ⟨_, rfl, create_of_onCycle hinitial hends hentered hs, rfl⟩

theorem create_accepts_acyclic_diamond_and_loop :
    let diamond : List (Transition Char) := [⟨0, 'a', 2⟩, ⟨2, 'b', 1⟩, ⟨0, 'a', 2⟩, ⟨0, 'c', 1⟩]
    let loop : List (Transition Char) := [⟨0, 'a', 1⟩, ⟨0, 'a', 1⟩, ⟨1, 'b', 2⟩, ⟨2, 'c', 1⟩, ⟨2, 'd', 3⟩, ⟨0, 'e', 4⟩]
    ((∃ q, create 3 0 diamond false = .ok q) ∧ Reachable diamond 0 1) ∧ OnCycle loop 1 ∧
      create 5 0 loop false = .error (.invalid .transitions (.cyclic 3 5)) ∧
      {s | s < 5 ∧ BehindCycle loop s}.ncard = 3 := by
  intro diamond loop
  have hok : ∃ q, create 3 0 diamond false = .ok q := ⟨start 3 0 diamond false, by decide +kernel⟩
  have hcycle : OnCycle loop 1 := by
    refine ⟨['b', 'c'], List.cons_ne_nil _ _, ?_⟩
    have hb : ⟨1, 'b', 2⟩ ∈ loop := by decide
    have hc : ⟨2, 'c', 1⟩ ∈ loop := by decide
    exact .cons hb (.cons hc (.nil 1))
  have herror : create 5 0 loop false = .error (.invalid .transitions (.cyclic 3 5)) := by decide +kernel
  obtain ⟨behind, hbehind, hcreate, -⟩ :=
    (create_accepts_acyclic 5 0 loop false).2.2.2 (by decide) (by decide) (by decide) ⟨1, hcycle⟩
  rw [herror] at hcreate
  cases hcreate
  exact ⟨⟨hok, ((create_accepts_acyclic 3 0 diamond false).2.1 hok).2 1 (by decide)⟩, hcycle, herror, hbehind.symm⟩

end PatternInference.Equations
