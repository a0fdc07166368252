import PatternInference.Proofs.Automaton.Words
import PatternInference.Proofs.Trie.Words
import PatternInference.Trie.Walk

namespace PatternInference.Trie

variable {α : Type} {t : Trie α} {word : Nat → List α} {s u n : Nat} {w : List α} {e : Transition α}

def edgesWithin (t : Trie α) : Nat → Nat → List (Transition α)
  | 0, _ => []
  | depth + 1, s => (t.children s).flatMap fun x => ⟨s, x.1, x.2⟩ :: t.edgesWithin depth x.2

def edgesBehind (t : Trie α) (s : Nat) : List (Transition α) := t.edgesWithin (t.stateCount - s) s

def edgesTo (t : Trie α) (s : Nat) (children : List (α × Nat)) : List (Transition α) :=
  children.flatMap fun x => ⟨s, x.1, x.2⟩ :: t.edgesBehind x.2

lemma Spelled.edgesWithin_eq (h : Spelled t word) {d m : Nat} (hd : t.stateCount - s ≤ d) (hm : t.stateCount - s ≤ m) :
    t.edgesWithin d s = t.edgesWithin m s := by
  induction d generalizing s m with
  | zero =>
    have hnil := children_of_le (t := t) (s := s) (by omega)
    cases m <;> simp [edgesWithin, hnil]
  | succ d ih =>
    cases m with
    | zero =>
      have hnil := children_of_le (t := t) (s := s) (by omega)
      simp [edgesWithin, hnil]
    | succ m =>
      simp only [edgesWithin]
      apply List.flatMap_congr
      intro x hx
      have := h.lt_of_mem_children hx
      rw [ih (m := m) (by omega) (by omega)]

lemma Spelled.edgesBehind_eq (h : Spelled t word) : t.edgesBehind s = t.edgesTo s (t.children s) := by
  rw [edgesBehind, h.edgesWithin_eq (m := t.stateCount - s + 1) le_rfl (by omega)]
  simp only [edgesWithin, edgesTo, edgesBehind]
  apply List.flatMap_congr
  intro x hx
  have := h.lt_of_mem_children hx
  rw [h.edgesWithin_eq (s := x.2) (by omega) le_rfl]

def Walk.pending (t : Trie α) (w : Walk α) : List (Transition α) := w.flatMap fun f => t.edgesTo f.state f.rest

lemma Spelled.next?_spec (h : Spelled t word) (w : Walk α) :
    match Walk.next? t w with
    | none => w.pending t = []
    | some (e, w') => w.pending t = e :: w'.pending t := by
  fun_induction Walk.next? t w with
  | case1 => rfl
  | case2 _ outer ih => exact ih
  | case3 s a c rest outer =>
    simp only [Walk.pending, List.flatMap_cons, ← h.edgesBehind_eq]
    simp [edgesTo]

lemma Spelled.take_eq (h : Spelled t word) (w : Walk α) : Walk.take t n w = (w.pending t).take n := by
  induction n generalizing w with
  | zero => rfl
  | succ n ih =>
    have hnext := h.next?_spec w
    rw [Walk.take]
    cases hcase : Walk.next? t w with
    | none =>
      rw [hcase] at hnext
      simp [hnext]
    | some x =>
      rw [hcase] at hnext
      simp only at hnext
      simp [hnext, ih]

lemma Spelled.transitions_eq_take (h : Spelled t word) : t.transitions = (t.edgesBehind 0).take t.stateCount := by
  rw [transitions, h.take_eq, walk, h.edgesBehind_eq]
  simp [Walk.pending]

lemma mem_edgesTo {children : List (α × Nat)} : e ∈ t.edgesTo s children ↔
    ∃ x ∈ children, e = ⟨s, x.1, x.2⟩ ∨ e ∈ t.edgesBehind x.2 := by
  simp only [edgesTo, List.mem_flatMap, List.mem_cons]

lemma Spelled.mem_edgesBehind (h : Spelled t word) (hs : s < t.stateCount) :
    e ∈ t.edgesBehind s ↔ word s <+: word e.source ∧ (e.symbol, e.target) ∈ t.children e.source := by
  induction hm : t.stateCount - s using Nat.strong_induction_on generalizing s with
  | _ m ih =>
    rw [h.edgesBehind_eq, mem_edgesTo]
    constructor
    · rintro ⟨⟨a, c⟩, hc, rfl | he⟩
      · exact ⟨List.prefix_rfl, hc⟩
      · obtain ⟨hlt, hword⟩ := h.mem_children hc
        have hsc := h.lt_of_mem_children hc
        obtain ⟨hpre, he⟩ := (ih _ (by omega) hlt rfl).mp he
        exact ⟨(hword ▸ List.prefix_append (word s) [a]).trans hpre, he⟩
    · rintro ⟨⟨v, hv⟩, he⟩
      have hsource := Trie.lt_of_mem_children he
      cases v with
      | nil =>
        have heq := h.inj hs hsource (by simpa using hv)
        subst heq
        exact ⟨(e.symbol, e.target), he, .inl rfl⟩
      | cons a v =>
        have hpre : word s ++ [a] <+: word e.source := ⟨v, by simpa using hv⟩
        obtain ⟨c, hlt, hword⟩ := h.exists_of_prefix hsource hpre
        have hc := (h.child_iff hs).mpr ⟨hlt, hword⟩
        have hsc := h.lt_of_mem_children hc
        exact ⟨(a, c), hc, .inr ((ih _ (by omega) hlt rfl).mpr ⟨hword ▸ hpre, he⟩)⟩

lemma Spelled.prefix_of_mem_edgesTo (h : Spelled t word) {a : α} {c : Nat} (hc : (a, c) ∈ t.children s)
    (he : e ∈ t.edgesTo s [(a, c)]) : word s ++ [a] <+: word e.target := by
  obtain ⟨hlt, hword⟩ := h.mem_children hc
  rw [← hword]
  obtain ⟨x, hx, rfl | he⟩ := mem_edgesTo.mp he
  · rw [List.mem_singleton.mp hx]
  · rw [List.mem_singleton.mp hx] at he
    obtain ⟨hpre, he⟩ := (h.mem_edgesBehind hlt).mp he
    rw [(h.mem_children he).2]
    exact hpre.trans (List.prefix_append _ _)

lemma Spelled.nodup_targets (h : Spelled t word) (hs : s < t.stateCount) :
    ((t.edgesBehind s).map Transition.target).Nodup := by
  -- behind different children the words differ already in the first symbol
  induction hm : t.stateCount - s using Nat.strong_induction_on generalizing s with
  | _ m ih =>
    rw [h.edgesBehind_eq, edgesTo, List.map_flatMap, List.nodup_flatMap]
    refine ⟨?_, ?_⟩
    · intro ⟨a, c⟩ hc
      obtain ⟨hlt, hword⟩ := h.mem_children hc
      have hsc := h.lt_of_mem_children hc
      rw [List.map_cons, List.nodup_cons]
      refine ⟨?_, ih _ (by omega) hlt rfl⟩
      intro hmem
      obtain ⟨e, he, htarget⟩ := List.mem_map.mp hmem
      obtain ⟨hpre, he⟩ := (h.mem_edgesBehind hlt).mp he
      have hlt' := h.lt_of_mem_children he
      rw [htarget] at hlt'
      have hle := h.le_of_prefix (Trie.lt_of_mem_children he) hlt hpre
      exact absurd hlt' (Nat.not_lt.mpr hle)
    · apply (h.nodup s).imp_of_mem
      intro ⟨a, c⟩ ⟨b, d⟩ hc hd hne u hu hu'
      obtain ⟨e, he, rfl⟩ := List.mem_map.mp hu
      obtain ⟨f, hf, htarget⟩ := List.mem_map.mp hu'
      have hpre := h.prefix_of_mem_edgesTo hc (by simpa [edgesTo] using he)
      have hpre' := h.prefix_of_mem_edgesTo hd (by simpa [edgesTo] using hf)
      rw [htarget] at hpre'
      have heq := (List.prefix_of_prefix_length_le hpre hpre' (by simp)).eq_of_length (by simp)
      have hab : a = b := by simpa using heq
      subst hab
      obtain ⟨hclt, hcword⟩ := h.mem_children hc
      obtain ⟨hdlt, hdword⟩ := h.mem_children hd
      exact hne (by rw [h.inj hclt hdlt (hcword.trans hdword.symm)])

lemma Spelled.length_edgesBehind_le (h : Spelled t word) : (t.edgesBehind 0).length ≤ t.stateCount := by
  have hsub : (t.edgesBehind 0).map Transition.target ⊆ List.range t.stateCount := by
    intro u hu
    obtain ⟨e, he, rfl⟩ := List.mem_map.mp hu
    obtain ⟨_, he⟩ := (h.mem_edgesBehind h.pos).mp he
    exact List.mem_range.mpr (h.mem_children he).1
  have hle := ((h.nodup_targets h.pos).subperm hsub).length_le
  simpa using hle

lemma Spelled.transitions_eq (h : Spelled t word) : t.transitions = t.edgesBehind 0 := by
  rw [h.transitions_eq_take, List.take_of_length_le h.length_edgesBehind_le]

lemma Spelled.mem_transitions (h : Spelled t word) :
    e ∈ t.transitions ↔ (e.symbol, e.target) ∈ t.children e.source := by
  rw [h.transitions_eq, h.mem_edgesBehind h.pos, h.root]
  simp

lemma Spelled.mem_transitions_iff (h : Spelled t word) : e ∈ t.transitions ↔
    e.source < t.stateCount ∧ e.target < t.stateCount ∧ word e.target = word e.source ++ [e.symbol] := by
  rw [h.mem_transitions]
  constructor
  · intro he
    exact ⟨Trie.lt_of_mem_children he, h.mem_children he⟩
  · intro ⟨hsource, he⟩
    exact (h.child_iff hsource).mpr he

lemma Spelled.deterministic (h : Spelled t word) : Deterministic t.transitions := by
  have hnodup := h.nodup_targets h.pos
  rw [← h.transitions_eq, List.Nodup, List.pairwise_map] at hnodup
  apply hnodup.imp_of_mem
  intro e f he hf hne ⟨hs, ha⟩
  obtain ⟨_, helt, heword⟩ := h.mem_transitions_iff.mp he
  obtain ⟨_, hflt, hfword⟩ := h.mem_transitions_iff.mp hf
  rw [← hs, ← ha, ← heword] at hfword
  exact hne (h.inj helt hflt hfword.symm)

lemma Spelled.reads_iff (h : Spelled t word) (hs : s < t.stateCount) :
    Reads t.transitions s w u ↔ u < t.stateCount ∧ word u = word s ++ w := by
  induction w generalizing s with
  | nil =>
    rw [reads_nil_iff, List.append_nil]
    constructor
    · rintro rfl
      exact ⟨hs, rfl⟩
    · exact fun ⟨hu, hword⟩ => h.inj hs hu hword.symm
  | cons a w ih =>
    rw [reads_cons_iff]
    constructor
    · rintro ⟨e, he, rfl, rfl, hr⟩
      obtain ⟨_, hlt, hword⟩ := h.mem_transitions_iff.mp he
      obtain ⟨hu, huword⟩ := (ih hlt).mp hr
      exact ⟨hu, by simp [huword, hword]⟩
    · intro ⟨hu, huword⟩
      have hpre : word s ++ [a] <+: word u := ⟨w, by simp [huword]⟩
      obtain ⟨c, hlt, hword⟩ := h.exists_of_prefix hu hpre
      refine ⟨⟨s, a, c⟩, h.mem_transitions_iff.mpr ⟨hs, hlt, hword⟩, rfl, rfl, ?_⟩
      exact (ih hlt).mpr ⟨hu, by simp [huword, hword]⟩

lemma Spelled.mem_residual_iff (h : Spelled t word) :
    w ∈ residual t.transitions t.accepted 0 ↔ w ∈ t.spellings word := by
  rw [mem_residual, spellings, List.mem_map]
  apply exists_congr
  intro u
  apply and_congr_right
  intro hu
  rw [h.reads_iff h.pos, h.root, List.nil_append]
  exact ⟨fun hr => hr.2, fun hword => ⟨h.lt_of_mem_accepted hu, hword⟩⟩

end PatternInference.Trie
