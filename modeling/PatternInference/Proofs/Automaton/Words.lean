import Mathlib.Computability.Language
import Mathlib.Data.List.Pairwise
import Mathlib.Tactic.SplitIfs
import PatternInference.Automaton

namespace PatternInference

variable {α : Type}

inductive Reads (edges : List (Transition α)) : Nat → List α → Nat → Prop
  | nil (s : Nat) : Reads edges s [] s
  | cons {e : Transition α} {w : List α} {u : Nat} : e ∈ edges → Reads edges e.target w u → Reads edges e.source (e.symbol :: w) u

def Deterministic (edges : List (Transition α)) : Prop :=
  edges.Pairwise fun e f => ¬ (e.source = f.source ∧ e.symbol = f.symbol)

def residual (edges : List (Transition α)) (finals : List Nat) (s : Nat) : Language α :=
  {w | ∃ u ∈ finals, Reads edges s w u}

def Reachable (edges : List (Transition α)) (initial s : Nat) : Prop := ∃ w, Reads edges initial w s

def Productive (edges : List (Transition α)) (finals : List Nat) (s : Nat) : Prop :=
  ∃ w, w ∈ residual edges finals s

def Dump.language (d : Dump α) : Language α := residual d.transitions d.accepting d.initial

variable {edges : List (Transition α)} {finals : List Nat} {s t u : Nat} {v w : List α}

lemma Transition.exists_of_fault?_eq_some {n : Nat} {e : Transition α} {err : Error} (h : e.fault? n = some err) :
    ∃ s, err = .outOfRange .transitions s n := by
  rw [fault?] at h
  split_ifs at h
  · exact ⟨e.source, (Option.some.inj h).symm⟩
  · exact ⟨e.target, (Option.some.inj h).symm⟩

lemma Transition.fault?_ne_outOfTable {n : Nat} {e : Transition α} : e.fault? n ≠ some (.logic .outOfTable) := by
  intro h
  obtain ⟨s, hs⟩ := exists_of_fault?_eq_some h
  cases hs

lemma Transition.fault?_eq_none_iff {n : Nat} {e : Transition α} :
    e.fault? n = none ↔ e.source < n ∧ e.target < n := by
  simp only [Transition.fault?]
  split_ifs <;> simp <;> omega

lemma mem_residual : w ∈ residual edges finals s ↔ ∃ u ∈ finals, Reads edges s w u := Iff.rfl

lemma reads_nil_iff : Reads edges s [] t ↔ s = t := by
  constructor
  · rintro ⟨⟩
    rfl
  · rintro rfl
    exact .nil s

lemma reads_cons_iff {a : α} :
    Reads edges s (a :: w) u ↔ ∃ e ∈ edges, e.source = s ∧ e.symbol = a ∧ Reads edges e.target w u := by
  constructor
  · rintro (_ | ⟨he, hr⟩)
    exact ⟨_, he, rfl, rfl, hr⟩
  · rintro ⟨e, he, rfl, rfl, hr⟩
    exact .cons he hr

lemma Reads.append (h₁ : Reads edges s v t) (h₂ : Reads edges t w u) : Reads edges s (v ++ w) u := by
  induction h₁ with
  | nil => exact h₂
  | cons he _ ih => exact .cons he (ih h₂)

lemma reads_append_iff : Reads edges s (v ++ w) u ↔ ∃ t, Reads edges s v t ∧ Reads edges t w u := by
  constructor
  · intro h
    induction v generalizing s with
    | nil => exact ⟨s, .nil s, h⟩
    | cons a v ih =>
      obtain ⟨e, he, rfl, rfl, hr⟩ := reads_cons_iff.mp h
      obtain ⟨t, hv, hw⟩ := ih hr
      exact ⟨t, .cons he hv, hw⟩
  · rintro ⟨t, hv, hw⟩
    exact hv.append hw

lemma reads_concat_iff {a : α} :
    Reads edges s (w ++ [a]) u ↔ ∃ e ∈ edges, e.target = u ∧ e.symbol = a ∧ Reads edges s w e.source := by
  rw [reads_append_iff]
  constructor
  · rintro ⟨t, hw, ha⟩
    obtain ⟨e, he, rfl, rfl, hu⟩ := reads_cons_iff.mp ha
    exact ⟨e, he, reads_nil_iff.mp hu, rfl, hw⟩
  · rintro ⟨e, he, rfl, rfl, hw⟩
    exact ⟨e.source, hw, .cons he (.nil _)⟩

lemma Reads.mono {edges' : List (Transition α)} (h : Reads edges s w u) (hsub : ∀ e ∈ edges, e ∈ edges') :
    Reads edges' s w u := by
  induction h with
  | nil => exact .nil _
  | cons he _ ih => exact .cons (hsub _ he) ih

lemma Deterministic.eq (h : Deterministic edges) {e f : Transition α} (he : e ∈ edges) (hf : f ∈ edges)
    (hs : e.source = f.source) (ha : e.symbol = f.symbol) : e = f := by
  by_contra hne
  have hsymm : Std.Symm fun e f : Transition α => ¬ (e.source = f.source ∧ e.symbol = f.symbol) :=
    ⟨fun _ _ hn hh => hn ⟨hh.1.symm, hh.2.symm⟩⟩
  exact h.forall he hf hne ⟨hs, ha⟩

lemma Deterministic.getElem?_index_eq (h : Deterministic edges) {i j : Nat} {e f : Transition α}
    (hi : edges[i]? = some e) (hj : edges[j]? = some f) (hs : e.source = f.source) (ha : e.symbol = f.symbol) :
    i = j := by
  obtain ⟨hil, rfl⟩ := List.getElem?_eq_some_iff.mp hi
  obtain ⟨hjl, rfl⟩ := List.getElem?_eq_some_iff.mp hj
  rcases Nat.lt_trichotomy i j with hlt | heq | hgt
  · exact absurd ⟨hs, ha⟩ (List.pairwise_iff_getElem.mp h i j hil hjl hlt)
  · exact heq
  · exact absurd ⟨hs.symm, ha.symm⟩ (List.pairwise_iff_getElem.mp h j i hjl hil hgt)

lemma Deterministic.reads_unique (h : Deterministic edges) (ht : Reads edges s w t) (hu : Reads edges s w u) : t = u := by
  induction ht with
  | nil => exact reads_nil_iff.mp hu
  | cons he _ ih =>
    obtain ⟨f, hf, hs, ha, hu⟩ := reads_cons_iff.mp hu
    rw [h.eq hf he hs ha] at hu
    exact ih hu

lemma Deterministic.nodup (h : Deterministic edges) : edges.Nodup := by
  apply List.Pairwise.imp _ h
  rintro e _ hne rfl
  exact hne ⟨rfl, rfl⟩

lemma Reads.target_lt {n : Nat} (h : Reads edges s w u) (hs : s < n) (hedges : ∀ e ∈ edges, e.target < n) : u < n := by
  induction h with
  | nil => exact hs
  | cons he _ ih => exact ih (hedges _ he)

lemma Reachable.refl (s : Nat) : Reachable edges s s := ⟨[], .nil s⟩

lemma Reachable.step (h : Reachable edges s t) {e : Transition α} (he : e ∈ edges) (hs : e.source = t) :
    Reachable edges s e.target := by
  obtain ⟨w, hw⟩ := h
  exact ⟨w ++ [e.symbol], hw.append (hs ▸ .cons he (.nil _))⟩

lemma Productive.of_final (h : s ∈ finals) : Productive edges finals s := ⟨[], s, h, .nil s⟩

lemma Productive.step {e : Transition α} (he : e ∈ edges) (h : Productive edges finals e.target) :
    Productive edges finals e.source := by
  obtain ⟨w, u, hu, hw⟩ := h
  exact ⟨e.symbol :: w, u, hu, .cons he hw⟩

lemma nil_mem_residual_iff : [] ∈ residual edges finals s ↔ s ∈ finals := by
  simp [mem_residual, reads_nil_iff]

lemma residual_cons {a : α} : a :: w ∈ residual edges finals s ↔
    ∃ e ∈ edges, e.source = s ∧ e.symbol = a ∧ w ∈ residual edges finals e.target := by
  simp only [mem_residual, reads_cons_iff]
  constructor
  · rintro ⟨u, hu, e, he, hs, ha, hr⟩
    exact ⟨e, he, hs, ha, u, hu, hr⟩
  · rintro ⟨e, he, hs, ha, u, hu, hr⟩
    exact ⟨u, hu, e, he, hs, ha, hr⟩

lemma Deterministic.residual_target (h : Deterministic edges) {e : Transition α} (he : e ∈ edges) :
    w ∈ residual edges finals e.target ↔ e.symbol :: w ∈ residual edges finals e.source := by
  rw [residual_cons]
  constructor
  · exact fun hw => ⟨e, he, rfl, rfl, hw⟩
  · rintro ⟨f, hf, hs, ha, hw⟩
    rwa [h.eq hf he hs ha] at hw

lemma Deterministic.mem_residual_iff (h : Deterministic edges) (hw : Reads edges s w t) :
    v ∈ residual edges finals t ↔ w ++ v ∈ residual edges finals s := by
  induction hw with
  | nil => rfl
  | cons he _ ih => rw [ih, h.residual_target he, List.cons_append]

end PatternInference
