import Mathlib.Data.List.Dedup
import Mathlib.Data.List.Permutation
import PatternInference.Proofs.Minimization.Partitioning

/-! Loading keeps what is reachable, partitioning what is productive too, each edge with its symbol and in its place. -/

namespace PatternInference.Minimization

open scoped Classical

variable {α : Type} {m : Minimization α} {n i : Nat} {E : List (Transition α)} {F : List Nat} {s : Nat}

def Useful (E : List (Transition α)) (i : Nat) (F : List Nat) (s : Nat) : Prop := Reachable E i s ∧ Productive E F s

lemma Loaded.isLive?_iff (h : Loaded m n i E F) : m.isLive? s = some true ↔ Reachable E i s := by
  rw [isLive?_eq_true_iff h.unsplit.front.states, h.live_iff]

lemma Loaded.edges_eq_filter (h : Loaded m n i E F) : m.edges = E.filter fun e => decide (Reachable E i e.source) := by
  rw [h.edges_eq]
  exact List.filter_congr fun e _ => decide_eq_decide.mpr (h.live_iff e.source)

lemma Trimmed.isLive?_iff (h : Trimmed m n i E F) : m.isLive? s = some true ↔ Useful E i F s := by
  rw [isLive?_eq_true_iff h.blocks, h.live_iff, Useful]

lemma Trimmed.edges_eq_filter (h : Trimmed m n i E F) :
    m.edges = E.filter fun e => decide (Useful E i F e.source ∧ Useful E i F e.target) := by
  rw [h.edges_eq]
  exact List.filter_congr fun e _ => decide_eq_decide.mpr (and_congr (h.live_iff e.source) (h.live_iff e.target))

lemma Trimmed.finals_perm (h : Trimmed m n i E F) :
    (m.blocks.order.toList.take m.finals).Perm (F.filter fun s => decide (Reachable E i s)).dedup := by
  have hnodup := h.blocks.nodup_order.sublist (List.take_sublist m.finals _)
  refine (List.perm_ext_iff_of_nodup hnodup (List.nodup_dedup _)).mpr fun s => ?_
  rw [h.mem_take_finals_iff, h.live_iff, List.mem_dedup, List.mem_filter, decide_eq_true_eq]
  constructor
  · exact fun ⟨⟨hs, _⟩, hF⟩ => ⟨hF, hs⟩
  · exact fun ⟨hF, hs⟩ => ⟨⟨hs, .of_final hF⟩, hF⟩

variable [DecidableEq α] [OrderedSymbol α]

theorem pruning_keeps_useful (hi : i < n) (hE : ∀ e ∈ E, e.source < n ∧ e.target < n) (hF : ∀ s ∈ F, s < n)
    (hreach : ∃ s ∈ F, Reachable E i s) :
    ∃ m₀ m₁ m₂ m₃ : Minimization α, create n i = .ok m₀ ∧ m₀.load E .never = .done m₁ ∧
      m₁.setFinals F .never = .done m₂ ∧ m₂.partition false = .done m₃ ∧
      m₁.columns.Holds (E.filter fun e => decide (Reachable E i e.source)) ∧
      (∀ s, m₁.isLive? s = some true ↔ Reachable E i s) ∧
      m₃.columns.Holds (E.filter fun e => decide (Useful E i F e.source ∧ Useful E i F e.target)) ∧
      (∀ s, m₃.isLive? s = some true ↔ Useful E i F s) ∧
      (m₃.blocks.order.toList.take m₃.finals).Perm (F.filter fun s => decide (Reachable E i s)).dedup := by
  obtain ⟨m₀, m₁, m₂, m₃, hcreate, hload, hfinals, hpartition, -, h₁, h₃⟩ := exists_partitioned hi hE hF hreach
  exact ⟨m₀, m₁, m₂, m₃, hcreate, hload, hfinals, hpartition, h₁.edges_eq_filter ▸ m₁.columns.holds_rows,
    fun s => h₁.isLive?_iff, h₃.toTrimmed.edges_eq_filter ▸ m₃.columns.holds_rows, fun s => h₃.toTrimmed.isLive?_iff,
    h₃.toTrimmed.finals_perm⟩

theorem pruning_keeps_useful_loop :
    let E : List (Transition Char) :=
      [⟨0, 'a', 1⟩, ⟨0, 'a', 2⟩, ⟨1, 'b', 0⟩, ⟨0, 'a', 1⟩, ⟨3, 'c', 1⟩, ⟨1, 'c', 4⟩, ⟨4, 'b', 2⟩]
    ∃ m₀ m₁ m₂ m₃ : Minimization Char, create 5 0 = .ok m₀ ∧ m₀.load E .never = .done m₁ ∧
      m₁.setFinals [4, 3, 4] .never = .done m₂ ∧ m₂.partition false = .done m₃ ∧
      m₁.columns.Holds [⟨0, 'a', 1⟩, ⟨0, 'a', 2⟩, ⟨1, 'b', 0⟩, ⟨0, 'a', 1⟩, ⟨1, 'c', 4⟩, ⟨4, 'b', 2⟩] ∧
      (∀ s, m₁.isLive? s = some true ↔ Reachable E 0 s) ∧
      m₃.columns.Holds [⟨0, 'a', 1⟩, ⟨1, 'b', 0⟩, ⟨0, 'a', 1⟩, ⟨1, 'c', 4⟩] ∧
      (∀ s, m₃.isLive? s = some true ↔ Useful E 0 [4, 3, 4] s) ∧
      (m₃.blocks.order.toList.take m₃.finals).Perm ([4, 3, 4].filter fun s => decide (Reachable E 0 s)).dedup := by
  intro E
  have hreach : Reachable E 0 4 :=
    ⟨['a', 'c'], .cons (by decide : ⟨0, 'a', 1⟩ ∈ E) (.cons (by decide : ⟨1, 'c', 4⟩ ∈ E) (.nil 4))⟩
  obtain ⟨m₀, m₁, m₂, m₃, hcreate, hload, hfinals, hpartition, hloaded, hlive, hkept, huseful, hperm⟩ :=
    pruning_keeps_useful (n := 5) (i := 0) (E := E) (F := [4, 3, 4]) (by decide) (by decide) (by decide)
      ⟨4, by decide, hreach⟩
  have hrows : m₁.columns.rows = [⟨0, 'a', 1⟩, ⟨0, 'a', 2⟩, ⟨1, 'b', 0⟩, ⟨0, 'a', 1⟩, ⟨1, 'c', 4⟩, ⟨4, 'b', 2⟩] := by
    obtain rfl := Except.ok.inj hcreate
    obtain rfl := congrArg Outcome.state hload
    cbv
  have hrows' : m₃.columns.rows = [⟨0, 'a', 1⟩, ⟨1, 'b', 0⟩, ⟨0, 'a', 1⟩, ⟨1, 'c', 4⟩] := by
    obtain rfl := Except.ok.inj hcreate
    obtain rfl := congrArg Outcome.state hload
    obtain rfl := congrArg Outcome.state hfinals
    obtain rfl := congrArg Outcome.state hpartition
    cbv
  rw [← hloaded.rows_eq, hrows] at hloaded
  rw [← hkept.rows_eq, hrows'] at hkept
  exact ⟨m₀, m₁, m₂, m₃, hcreate, hload, hfinals, hpartition, hloaded, hlive, hkept, huseful, hperm⟩

end PatternInference.Minimization
