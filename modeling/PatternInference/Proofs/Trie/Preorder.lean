import PatternInference.Proofs.Trie.Additions
import PatternInference.Proofs.Trie.Walk

/-! The edge walk of a prefix tree: it ends, and gives the edges of the recursive preorder, one for each state but the root. -/

namespace PatternInference.Trie

variable {α : Type} {t : Trie α} {word : Nat → List α} {s c n : Nat} {w : Walk α} {es fs : List (Transition α)}

/-- The walk gives these edges one by one, and then ends. -/
inductive Walk.Yields (t : Trie α) : Walk α → List (Transition α) → Prop
  | ended {w : Walk α} (h : Walk.next? t w = none) : Yields t w []
  | next {w w' : Walk α} {e : Transition α} {es : List (Transition α)} (h : Walk.next? t w = some (e, w'))
      (rest : Yields t w' es) : Yields t w (e :: es)

lemma Walk.Yields.unique (h : w.Yields t es) (h' : w.Yields t fs) : es = fs := by
  induction h generalizing fs with
  | ended hend =>
    cases h' with
    | ended => rfl
    | next hnext => simp [hend] at hnext
  | next hnext _ ih =>
    cases h' with
    | ended hend => simp [hnext] at hend
    | next hnext' rest =>
      rw [hnext, Option.some_inj, Prod.mk.injEq] at hnext'
      obtain ⟨rfl, rfl⟩ := hnext'
      rw [ih rest]

namespace Spelled

lemma yields_pending (h : Spelled t word) (w : Walk α) : w.Yields t (w.pending t) := by
  induction hpending : w.pending t generalizing w with
  | nil =>
    have hnext := h.next?_spec w
    cases hcase : Walk.next? t w with
    | none => exact .ended hcase
    | some x => simp [hcase, hpending] at hnext
  | cons e es ih =>
    have hnext := h.next?_spec w
    cases hcase : Walk.next? t w with
    | none => simp [hcase, hpending] at hnext
    | some x =>
      simp only [hcase, hpending, List.cons.injEq] at hnext
      obtain ⟨he, hes⟩ := hnext
      rw [he]
      exact .next hcase (ih x.2 hes.symm)

lemma pending_walk (h : Spelled t word) : t.walk.pending t = t.transitions := by
  rw [h.transitions_eq, h.edgesBehind_eq, walk]
  simp [Walk.pending]

lemma yields_walk_iff (h : Spelled t word) : t.walk.Yields t es ↔ es = t.transitions := by
  have hyields := h.yields_pending t.walk
  rw [h.pending_walk] at hyields
  constructor
  · exact fun hes => hes.unique hyields
  · rintro rfl
    exact hyields

lemma take_walk (h : Spelled t word) : Walk.take t n t.walk = t.transitions.take n := by
  rw [h.take_eq, h.pending_walk]

lemma eq_edgesBehind_iff (h : Spelled t word) (edges : Nat → List (Transition α)) :
    (∀ s, edges s = (t.children s).flatMap fun x => ⟨s, x.1, x.2⟩ :: edges x.2) ↔ edges = t.edgesBehind := by
  constructor
  · intro hedges
    funext s
    induction hm : t.stateCount - s using Nat.strong_induction_on generalizing s with
    | _ m ih =>
      rw [hedges, h.edgesBehind_eq, edgesTo]
      apply List.flatMap_congr
      intro x hx
      have hlt := h.lt_of_mem_children hx
      have hcount := (h.mem_children hx).1
      rw [ih _ (by omega) x.2 rfl]
  · rintro rfl s
    exact h.edgesBehind_eq

lemma nodup_map_target (h : Spelled t word) : (t.transitions.map Transition.target).Nodup := by
  rw [h.transitions_eq]
  exact h.nodup_targets h.pos

lemma mem_targets_iff (h : Spelled t word) : c ∈ t.transitions.map Transition.target ↔ c < t.stateCount ∧ c ≠ 0 := by
  rw [List.mem_map]
  constructor
  · rintro ⟨e, he, rfl⟩
    rw [h.mem_transitions] at he
    exact ⟨(h.mem_children he).1, Nat.ne_of_gt (Nat.zero_lt_of_lt (h.lt_of_mem_children he))⟩
  · intro ⟨hc, h0⟩
    obtain ⟨⟨s, a⟩, hparent, _⟩ := h.existsUnique_parent hc h0
    exact ⟨⟨s, a, c⟩, h.mem_transitions.mpr hparent, rfl⟩

lemma length_transitions (h : Spelled t word) : t.transitions.length + 1 = t.stateCount := by
  -- each state but the root is the target of one edge
  have hperm : (0 :: t.transitions.map Transition.target).Perm (List.range t.stateCount) := by
    apply (List.perm_ext_iff_of_nodup _ List.nodup_range).mpr
    · intro c
      rw [List.mem_cons, h.mem_targets_iff, List.mem_range]
      have hpos := h.pos
      omega
    · refine List.nodup_cons.mpr ⟨fun hmem => ?_, h.nodup_map_target⟩
      exact (h.mem_targets_iff.mp hmem).2 rfl
  simpa using hperm.length_eq

end Spelled

variable [DecidableEq α]

theorem transitions_in_preorder (additions : List (Addition α)) :
    let t := grownBy additions
    (∀ es, t.walk.Yields t es ↔ es = t.transitions) ∧ t.transitions = t.edgesBehind 0 ∧
      (∀ edges : Nat → List (Transition α),
        (∀ s, edges s = (t.children s).flatMap fun x => ⟨s, x.1, x.2⟩ :: edges x.2) ↔ edges = t.edgesBehind) ∧
      (∀ e, e ∈ t.transitions ↔ (e.symbol, e.target) ∈ t.children e.source) ∧ t.transitions.Nodup ∧
      t.transitions.length = t.transitionCount ∧ t.transitionCount + 1 = t.stateCount ∧
      ∀ n, Walk.take t n t.walk = t.transitions.take n := by
  intro t
  obtain ⟨word, h⟩ : ∃ word, t.Spelled word := by
    obtain ⟨word, h⟩ := holds_ofList (additions.flatMap Addition.added)
    rw [← grownBy_eq] at h
    exact ⟨word, h.toSpelled⟩
  have hlength := h.length_transitions
  have hcount : t.transitionCount + 1 = t.stateCount := Nat.sub_add_cancel h.pos
  exact ⟨fun _ => h.yields_walk_iff, h.transitions_eq, h.eq_edgesBehind_iff, fun _ => h.mem_transitions,
    h.nodup_map_target.of_map, by omega, hcount, fun _ => h.take_walk⟩

example : (grownBy [.one [1, 2], .many [[3], [1, 4]]]).transitions = [⟨0, 1, 1⟩, ⟨1, 2, 2⟩, ⟨1, 4, 4⟩, ⟨0, 3, 3⟩] := by
  decide

end PatternInference.Trie
