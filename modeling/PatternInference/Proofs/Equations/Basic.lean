import Mathlib.Data.List.Basic
import PatternInference.Equations.Basic
import PatternInference.Proofs.Automaton.Words
import PatternInference.Proofs.Equations.Acyclic
import PatternInference.Proofs.Expr.Language

namespace PatternInference.Equations

open PatternInference.Expr

variable {n initial s t o : Nat} {edges incoming : List (Transition Char)} {grouped : Bool} {ρ : Nat → Language Char}
  {w cs : List Char} {q : Equations}

def paths (edges : List (Transition Char)) (initial s : Nat) : Language Char := {w | Reads edges initial w s}

lemma mem_paths : w ∈ paths edges initial s ↔ Reads edges initial w s := Iff.rfl

lemma mem_meaning_term {x : Nat × List Char} : w ∈ (term x).meaning ρ ↔ ∃ c ∈ x.2, w ∈ ρ x.1 * {[c]} := by
  fun_cases term x with
  | case1 p c => simp
  | case2 p cs =>
    simp only [meaning_seq, meaning_pending, singleton_nil, mul_one, Language.mem_mul, mem_meaning_union, List.mem_map,
      exists_exists_and_eq_and, meaning_lit]
    constructor
    · rintro ⟨u, hu, v, ⟨c, hc, hv⟩, rfl⟩
      exact ⟨c, hc, u, hu, v, hv, rfl⟩
    · rintro ⟨c, hc, u, hu, v, hv, rfl⟩
      exact ⟨u, hu, v, ⟨c, hc, hv⟩, rfl⟩

lemma mem_origins_term {x : Nat × List Char} : o ∈ (term x).origins ↔ o = x.1 := by
  fun_cases term x with
  | case1 p c => simp [origins]
  | case2 p cs => simp [origins, mem_origins_union]

lemma exists_predecessor_iff {P : Nat → Char → Prop} :
    (∃ x ∈ predecessors grouped incoming, ∃ c ∈ x.2, P x.1 c) ↔ ∃ e ∈ incoming, P e.source e.symbol := by
  rw [predecessors]
  split
  · simp only [List.mem_map, List.mem_eraseDups, exists_exists_and_eq_and, List.mem_filter, beq_iff_eq]
    constructor
    · rintro ⟨_, _, e, ⟨he, hsource⟩, hP⟩
      exact ⟨e, he, hsource ▸ hP⟩
    · rintro ⟨e, he, hP⟩
      exact ⟨e, he, e, ⟨he, rfl⟩, hP⟩
  · simp

lemma exists_source_iff : (∃ x ∈ predecessors grouped incoming, x.1 = o) ↔ ∃ e ∈ incoming, e.source = o := by
  rw [predecessors]
  split
  · simp
  · simp

lemma mem_meaning_equation : w ∈ (equation grouped edges s).meaning ρ ↔
    ∃ e ∈ edges, e.target = s ∧ w ∈ ρ e.source * {[e.symbol]} := by
  simp only [equation, mem_meaning_alt, List.mem_map, exists_exists_and_eq_and, mem_meaning_term,
    exists_predecessor_iff (P := fun p c => w ∈ ρ p * {[c]}), List.mem_filter, beq_iff_eq, and_assoc]

lemma mem_origins_equation : o ∈ (equation grouped edges s).origins ↔ Precedes edges o s := by
  simp only [equation, mem_origins_alt, List.mem_map, exists_exists_and_eq_and, mem_origins_term, eq_comm (a := o),
    exists_source_iff, List.mem_filter, beq_iff_eq, and_assoc, Precedes]
  exact exists_congr fun e => and_congr_right fun _ => and_comm

lemma meaning_equation (hs : s ≠ initial) : (equation grouped edges s).meaning (paths edges initial) =
    paths edges initial s := by
  ext w
  rw [mem_meaning_equation, mem_paths]
  constructor
  · rintro ⟨e, he, rfl, hw⟩
    obtain ⟨u, hu, v, hv, rfl⟩ := Language.mem_mul.mp hw
    rw [mem_singleton.mp hv]
    exact reads_concat_iff.mpr ⟨e, he, rfl, rfl, hu⟩
  · intro hw
    rcases List.eq_nil_or_concat w with rfl | ⟨u, a, rfl⟩
    · exact absurd (reads_nil_iff.mp hw).symm hs
    · rw [List.concat_eq_append] at hw ⊢
      obtain ⟨e, he, ht, rfl, hu⟩ := reads_concat_iff.mp hw
      exact ⟨e, he, ht, Language.mem_mul.mpr ⟨u, hu, [e.symbol], rfl, rfl⟩⟩

lemma paths_initial (h : ∀ e ∈ edges, e.target ≠ initial) : paths edges initial initial = 1 := by
  ext w
  rw [mem_paths, Language.mem_one]
  constructor
  · intro hw
    rcases List.eq_nil_or_concat w with rfl | ⟨u, a, rfl⟩
    · rfl
    · rw [List.concat_eq_append] at hw
      obtain ⟨e, he, ht, _⟩ := reads_concat_iff.mp hw
      exact absurd ht (h e he)
  · rintro rfl
    exact .nil initial

def start (n initial : Nat) (edges : List (Transition Char)) (grouped : Bool) : Equations where
  stateCount := n
  initial := initial
  unsolved := ((List.range n).filter (· != initial)).map fun s => (s, equation grouped edges s)
  solved := [(initial, .epsilon)]

structure Accepted (n initial : Nat) (edges : List (Transition Char)) : Prop where
  initial_lt : initial < n
  ends : ∀ e ∈ edges, e.source < n ∧ e.target < n
  entered : ∀ s, s < n → s ≠ initial → ∃ e ∈ edges, e.target = s
  acyclic : WellFounded (Precedes edges)

lemma mem_candidates {m : Nat} : s ∈ (List.range m).filter (· != initial) ↔ s < m ∧ s ≠ initial := by
  simp

lemma unentered?_eq_none_iff :
    unentered? n initial edges = none ↔ ∀ s, s < n → s ≠ initial → ∃ e ∈ edges, e.target = s := by
  have hfind : unentered? n initial edges = none ↔
      ∀ s, s < min n (edges.length + 2) → s ≠ initial → ∃ e ∈ edges, e.target = s := by
    simp [unentered?]
  rw [hfind]
  constructor
  · intro h s hs hne
    by_cases hlt : s < edges.length + 2
    · exact h s (by omega) hne
    · -- the search was cut short: all candidates were targets, and there are too few edges for that
      have hsub : (List.range (edges.length + 2)).filter (· != initial) ⊆ edges.map Transition.target := by
        intro t ht
        obtain ⟨htl, htne⟩ := mem_candidates.mp ht
        obtain ⟨e, he, rfl⟩ := h t (by omega) htne
        exact List.mem_map.mpr ⟨e, he, rfl⟩
      have hnodup : ((List.range (edges.length + 2)).filter (· != initial)).Nodup := List.nodup_range.filter _
      have hle := (hnodup.subperm hsub).length_le
      have hcount : edges.length + 1 ≤ ((List.range (edges.length + 2)).filter (· != initial)).length := by
        rw [← List.nodup_range.erase_eq_filter, List.length_erase, List.length_range]
        split <;> omega
      rw [List.length_map] at hle
      omega
  · intro h s hs hne
    exact h s (by omega) hne

lemma findSome?_fault?_eq_none_iff :
    edges.findSome? (Transition.fault? n) = none ↔ ∀ e ∈ edges, e.source < n ∧ e.target < n := by
  simp only [List.findSome?_eq_none_iff, Transition.fault?_eq_none_iff]

lemma create_of_entered (hinitial : initial < n) (hends : ∀ e ∈ edges, e.source < n ∧ e.target < n)
    (hentered : ∀ s, s < n → s ≠ initial → ∃ e ∈ edges, e.target = s) :
    create n initial edges grouped =
      if {s | s < n ∧ ¬ Acc (Precedes edges) s}.ncard = 0 then .ok (start n initial edges grouped)
      else .error (.invalid .transitions (.cyclic {s | s < n ∧ ¬ Acc (Precedes edges) s}.ncard n)) := by
  obtain ⟨k, hk, hpeeled, hrest⟩ := peeled?_spec hends
  rw [create, if_neg (by omega), findSome?_fault?_eq_none_iff.mpr hends, unentered?_eq_none_iff.mpr hentered]
  simp only [hpeeled]
  by_cases hlt : k < n
  · rw [if_pos hlt, if_neg (by omega), hrest]
  · rw [if_neg hlt, if_pos (by omega), start]

lemma invalid_or_entered (n initial : Nat) (edges : List (Transition Char)) (grouped : Bool) :
    (∃ argument fault, create n initial edges grouped = .error (.invalid argument fault)) ∨
    initial < n ∧ (∀ e ∈ edges, e.source < n ∧ e.target < n) ∧ ∀ s, s < n → s ≠ initial → ∃ e ∈ edges, e.target = s := by
  by_cases hinitial : initial < n
  · cases hfault : edges.findSome? (Transition.fault? n) with
    | some error =>
      obtain ⟨e, -, he⟩ := List.exists_of_findSome?_eq_some hfault
      obtain ⟨s, rfl⟩ := Transition.exists_of_fault?_eq_some he
      exact .inl ⟨_, _, by rw [create, if_neg (by omega), hfault, Error.outOfRange]⟩
    | none =>
      cases hentered : unentered? n initial edges with
      | some s => exact .inl ⟨_, _, by rw [create, if_neg (by omega), hfault, hentered]⟩
      | none => exact .inr ⟨hinitial, findSome?_fault?_eq_none_iff.mp hfault, unentered?_eq_none_iff.mp hentered⟩
  · exact .inl ⟨_, _, by rw [create, if_pos (by omega), Error.outOfRange]⟩

lemma create_eq_ok_iff : create n initial edges grouped = .ok q ↔
    Accepted n initial edges ∧ q = start n initial edges grouped := by
  constructor
  · intro h
    rcases invalid_or_entered n initial edges grouped with ⟨argument, fault, herror⟩ | ⟨hinitial, hends, hentered⟩
    · rw [herror] at h
      cases h
    · rw [create_of_entered hinitial hends hentered] at h
      split at h
      · next hzero =>
        cases h
        exact ⟨⟨hinitial, hends, hentered, (wellFounded_iff_ncard hends).mpr hzero⟩, rfl⟩
      · cases h
  · rintro ⟨h, rfl⟩
    rw [create_of_entered h.initial_lt h.ends h.entered, if_pos ((wellFounded_iff_ncard h.ends).mp h.acyclic)]

lemma Accepted.target_ne (h : Accepted n initial edges) {e : Transition Char} (he : e ∈ edges) :
    e.target ≠ initial := by
  -- otherwise every state would have a predecessor
  intro ht
  have hclosed : Closed edges (· < n) := by
    intro s hs
    by_cases hsi : s = initial
    · exact ⟨e, he, ht.trans hsi.symm, (h.ends e he).1⟩
    · obtain ⟨f, hf, htf⟩ := h.entered s hs hsi
      exact ⟨f, hf, htf, (h.ends f hf).1⟩
  exact hclosed.not_acc h.initial_lt (h.acyclic.apply initial)

end PatternInference.Equations
