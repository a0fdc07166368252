import Mathlib.Data.List.Infix
import Mathlib.Logic.Function.Basic
import Mathlib.Tactic.Lemma
import PatternInference.Trie.Basic

namespace PatternInference.Trie

variable {α : Type} {t : Trie α} {word : Nat → List α} {s c x n : Nat} {a : α} {w v : List α}

/-- `word` names the states by their words; a child comes after its parent. -/
structure Spelled (t : Trie α) (word : Nat → List α) : Prop where
  pos : 0 < t.stateCount
  root : word 0 = []
  inj : ∀ {s c}, s < t.stateCount → c < t.stateCount → word s = word c → s = c
  child_iff : ∀ {s a c}, s < t.stateCount → ((a, c) ∈ t.children s ↔ c < t.stateCount ∧ word c = word s ++ [a])
  parent : ∀ {c}, c < t.stateCount → c ≠ 0 → ∃ s a, s < c ∧ word c = word s ++ [a]
  nodup : ∀ s, (t.children s).Nodup
  accepted_nodup : t.accepted.Nodup
  mem_accepted : ∀ {s}, s ∈ t.accepted ↔ t.isAccepting s = true

lemma lt_of_isAccepting (h : t.isAccepting s = true) : s < t.stateCount := by
  by_contra hs
  have hnone : t.nodes[s]? = none := Array.getElem?_eq_none (Nat.not_lt.mp hs)
  simp [isAccepting, hnone] at h

lemma children_of_le (h : t.stateCount ≤ s) : t.children s = [] := by
  have hnone : t.nodes[s]? = none := Array.getElem?_eq_none h
  simp [children, hnone]

lemma lt_of_mem_children (h : (a, c) ∈ t.children s) : s < t.stateCount := by
  by_contra hs
  simp [children_of_le (Nat.not_lt.mp hs)] at h

namespace Spelled

lemma lt_of_mem_accepted (h : Spelled t word) (hs : s ∈ t.accepted) : s < t.stateCount :=
  lt_of_isAccepting (h.mem_accepted.mp hs)

lemma mem_children (h : Spelled t word) (hc : (a, c) ∈ t.children s) : c < t.stateCount ∧ word c = word s ++ [a] :=
  (h.child_iff (lt_of_mem_children hc)).mp hc

lemma word_ne_nil (h : Spelled t word) (hc : c < t.stateCount) (h0 : c ≠ 0) : word c ≠ [] := by
  obtain ⟨s, a, _, hword⟩ := h.parent hc h0
  simp [hword]

lemma le_of_prefix (h : Spelled t word) (hc : c < t.stateCount) (hs : s < t.stateCount) (hword : word s <+: word c) :
    s ≤ c := by
  induction c using Nat.strong_induction_on with
  | _ c ih =>
    by_cases h0 : c = 0
    · rw [h0, h.root, List.prefix_nil] at hword
      by_contra hlt
      exact h.word_ne_nil hs (by omega) hword
    · obtain ⟨p, a, hp, hc'⟩ := h.parent hc h0
      rw [hc', List.prefix_concat_iff] at hword
      cases hword with
      | inl heq => exact (h.inj hs hc (heq.trans hc'.symm)).le
      | inr hpre => exact (ih p hp (hp.trans hc) hpre).trans hp.le

lemma lt_of_mem_children (h : Spelled t word) (hc : (a, c) ∈ t.children s) : s < c := by
  obtain ⟨hlt, hword⟩ := h.mem_children hc
  have hs := Trie.lt_of_mem_children hc
  have hle := h.le_of_prefix hlt hs (hword ▸ List.prefix_append _ _)
  apply Nat.lt_of_le_of_ne hle
  rintro rfl
  simp at hword

lemma exists_of_prefix (h : Spelled t word) (hc : c < t.stateCount) (hw : w <+: word c) :
    ∃ s, s < t.stateCount ∧ word s = w := by
  induction c using Nat.strong_induction_on with
  | _ c ih =>
    by_cases h0 : c = 0
    · rw [h0, h.root, List.prefix_nil] at hw
      exact ⟨0, h.pos, h.root.trans hw.symm⟩
    · obtain ⟨p, a, hp, hc'⟩ := h.parent hc h0
      rw [hc', List.prefix_concat_iff] at hw
      cases hw with
      | inl heq => exact ⟨c, hc, hc'.trans heq.symm⟩
      | inr hpre => exact ih p hp (hp.trans hc) hpre

lemma word_ne (h : Spelled t word) (hs : s < t.stateCount) (hnew : ∀ c, (a, c) ∉ t.children s) (hc : c < t.stateCount)
    (v : List α) : word c ≠ word s ++ [a] ++ v := by
  intro hword
  obtain ⟨x, hx, hxword⟩ := h.exists_of_prefix hc (hword ▸ List.prefix_append _ v)
  exact hnew x ((h.child_iff hs).mpr ⟨hx, hxword⟩)

lemma update_inj (h : Spelled t word) (hs : s < t.stateCount) (hnew : ∀ c, (a, c) ∉ t.children s)
    (hx : x < t.stateCount + 1) (hc : c < t.stateCount + 1)
    (hword : Function.update word t.stateCount (word s ++ [a]) x =
      Function.update word t.stateCount (word s ++ [a]) c) : x = c := by
  have hne {y : Nat} (hy : y < t.stateCount) : word y ≠ word s ++ [a] := by simpa using h.word_ne hs hnew hy []
  rcases Nat.lt_succ_iff_lt_or_eq.mp hx with hx | rfl
  · rw [Function.update_of_ne (Nat.ne_of_lt hx)] at hword
    rcases Nat.lt_succ_iff_lt_or_eq.mp hc with hc | rfl
    · rw [Function.update_of_ne (Nat.ne_of_lt hc)] at hword
      exact h.inj hx hc hword
    · rw [Function.update_self] at hword
      exact absurd hword (hne hx)
  · rw [Function.update_self] at hword
    rcases Nat.lt_succ_iff_lt_or_eq.mp hc with hc | rfl
    · rw [Function.update_of_ne (Nat.ne_of_lt hc)] at hword
      exact absurd hword.symm (hne hc)
    · rfl

end Spelled

lemma spelled_empty : Spelled (empty : Trie α) fun _ => [] := by
  have hchildren : ∀ s, (empty : Trie α).children s = [] := by
    intro s
    cases s <;> simp [empty, children]
  have haccepting : ∀ s, (empty : Trie α).isAccepting s = false := by
    intro s
    cases s <;> simp [empty, isAccepting]
  exact {
    pos := by simp [stateCount, empty]
    root := rfl
    inj := by
      intro s c hs hc _
      simp only [stateCount, empty, List.size_toArray, List.length_singleton] at hs hc
      omega
    child_iff := by simp [hchildren]
    parent := by
      intro c hc h0
      simp only [stateCount, empty, List.size_toArray, List.length_singleton] at hc
      omega
    nodup := by simp [hchildren]
    accepted_nodup := by simp [empty]
    mem_accepted := by
      simp only [haccepting]
      simp [empty] }

section grow

variable [DecidableEq α]

@[simp] lemma stateCount_grow : (t.grow s a n).stateCount = t.stateCount + 1 := by
  simp [stateCount, grow]

lemma children_grow (hs : s < t.stateCount) :
    (t.grow s a n).children x = if x = s then t.children s ++ [(a, n)] else t.children x := by
  simp only [stateCount] at hs
  simp only [children, grow, Array.getElem?_push, Array.size_modify, Array.getElem?_modify]
  by_cases hx : x = s
  · subst hx
    simp [hs, Nat.ne_of_lt hs]
  · by_cases hlast : x = t.nodes.size
    · subst hlast
      simp [hx]
    · simp [hx, hlast, Ne.symm hx]

lemma mem_children_grow {b : α} (hs : s < t.stateCount) :
    (b, c) ∈ (t.grow s a n).children x ↔ (b, c) ∈ t.children x ∨ x = s ∧ b = a ∧ c = n := by
  rw [children_grow hs]
  by_cases hx : x = s
  · simp [hx]
  · simp [hx]

@[simp] lemma isAccepting_grow : (t.grow s a n).isAccepting x = t.isAccepting x := by
  simp only [isAccepting, grow, Array.getElem?_push, Array.size_modify, Array.getElem?_modify]
  by_cases hlast : x = t.nodes.size
  · simp [hlast]
  · by_cases hx : s = x
    · subst hx
      cases t.nodes[s]? <;> simp [hlast]
    · simp [hx, hlast]

@[simp] lemma accepted_grow : (t.grow s a n).accepted = t.accepted := rfl

namespace Spelled

lemma child_grow_iff (h : Spelled t word) (hs : s < t.stateCount) (hnew : ∀ c, (a, c) ∉ t.children s) {b : α}
    (hx : x < t.stateCount + 1) : (b, c) ∈ (t.grow s a t.stateCount).children x ↔
      c < t.stateCount + 1 ∧ Function.update word t.stateCount (word s ++ [a]) c =
        Function.update word t.stateCount (word s ++ [a]) x ++ [b] := by
  rw [mem_children_grow hs, Nat.lt_succ_iff_lt_or_eq]
  rcases Nat.lt_succ_iff_lt_or_eq.mp hx with hx | rfl
  · rw [Function.update_of_ne (Nat.ne_of_lt hx), h.child_iff hx]
    constructor
    · rintro (⟨hc, hword⟩ | ⟨rfl, rfl, rfl⟩)
      · exact ⟨.inl hc, (Function.update_of_ne (Nat.ne_of_lt hc) _ _).trans hword⟩
      · exact ⟨.inr rfl, Function.update_self _ _ _⟩
    · rintro ⟨hc | rfl, hword⟩
      · exact .inl ⟨hc, (Function.update_of_ne (Nat.ne_of_lt hc) _ _).symm.trans hword⟩
      · rw [Function.update_self] at hword
        obtain ⟨hsx, hab⟩ := List.append_inj' hword rfl
        exact .inr ⟨h.inj hx hs hsx.symm, (List.cons.inj hab).1.symm, rfl⟩
  · rw [Function.update_self]
    constructor
    · rintro (hmem | ⟨heq, _⟩)
      · exact absurd (Trie.lt_of_mem_children hmem) (Nat.lt_irrefl _)
      · exact absurd hs (heq ▸ Nat.lt_irrefl _)
    · rintro ⟨hc | rfl, hword⟩
      · rw [Function.update_of_ne (Nat.ne_of_lt hc)] at hword
        exact absurd hword (h.word_ne hs hnew hc [b])
      · simp at hword

lemma grow (h : Spelled t word) (hs : s < t.stateCount) (hnew : ∀ c, (a, c) ∉ t.children s) :
    Spelled (t.grow s a t.stateCount) (Function.update word t.stateCount (word s ++ [a])) := by
  have hold {c : Nat} (hc : c < t.stateCount) : Function.update word t.stateCount (word s ++ [a]) c = word c :=
    Function.update_of_ne (Nat.ne_of_lt hc) _ _
  exact {
    pos := by simp
    root := (hold h.pos).trans h.root
    inj := by
      intro x c hx hc
      rw [stateCount_grow] at hx hc
      exact h.update_inj hs hnew hx hc
    child_iff := by
      intro x b c hx
      rw [stateCount_grow] at hx ⊢
      exact h.child_grow_iff hs hnew hx
    parent := by
      intro c hc h0
      rw [stateCount_grow] at hc
      rcases Nat.lt_succ_iff_lt_or_eq.mp hc with hc | rfl
      · obtain ⟨p, b, hp, hword⟩ := h.parent hc h0
        exact ⟨p, b, hp, by rw [hold hc, hold (hp.trans hc), hword]⟩
      · exact ⟨s, a, hs, by rw [Function.update_self, hold hs]⟩
    nodup := by
      intro x
      rw [children_grow hs]
      split
      · refine List.nodup_append.mpr ⟨h.nodup s, List.pairwise_singleton _ _, ?_⟩
        intro y hy z hz hyz
        rw [List.mem_singleton.mp hz] at hyz
        exact hnew t.stateCount (hyz ▸ hy)
      · exact h.nodup x
    accepted_nodup := h.accepted_nodup
    mem_accepted := fun {s} => by simpa using h.mem_accepted }

end Spelled

end grow

section accept

lemma accept_of_isAccepting (h : t.isAccepting s = true) : t.accept s = t := by
  rw [accept, if_pos h]

lemma accepted_accept_of_not (h : t.isAccepting s = false) : (t.accept s).accepted = t.accepted ++ [s] := by
  rw [accept, if_neg (by simp [h])]

@[simp] lemma stateCount_accept : (t.accept s).stateCount = t.stateCount := by
  rw [accept]
  split <;> simp [stateCount]

@[simp] lemma children_accept : (t.accept s).children x = t.children x := by
  rw [accept]
  split
  · rfl
  · simp only [children, Array.getElem?_modify]
    by_cases hx : s = x
    · subst hx
      cases t.nodes[s]? <;> simp
    · simp [hx]

lemma isAccepting_accept (hs : s < t.stateCount) :
    (t.accept s).isAccepting x = true ↔ t.isAccepting x = true ∨ x = s := by
  cases haccepting : t.isAccepting s with
  | true =>
    rw [accept_of_isAccepting haccepting]
    constructor
    · exact .inl
    · rintro (hx | rfl)
      · exact hx
      · exact haccepting
  | false =>
    rw [accept, if_neg (by simp [haccepting])]
    simp only [isAccepting, Array.getElem?_modify]
    by_cases hx : x = s
    · subst hx
      simp [Array.getElem?_eq_getElem hs]
    · simp [hx, Ne.symm hx]

lemma Spelled.accept (h : Spelled t word) (hs : s < t.stateCount) :
    Spelled (t.accept s) word ∧ ∀ x, x ∈ (t.accept s).accepted ↔ x ∈ t.accepted ∨ x = s := by
  have hmem : ∀ x, x ∈ (t.accept s).accepted ↔ x ∈ t.accepted ∨ x = s := by
    intro x
    cases haccepting : t.isAccepting s with
    | true =>
      rw [accept_of_isAccepting haccepting, iff_self_or]
      rintro rfl
      exact h.mem_accepted.mpr haccepting
    | false => simp [accepted_accept_of_not haccepting]
  refine ⟨?_, hmem⟩
  constructor
  case pos => simpa using h.pos
  case root => exact h.root
  case inj => simpa using @h.inj
  case child_iff => simpa using @h.child_iff
  case parent => simpa using @h.parent
  case nodup => simpa using h.nodup
  case accepted_nodup =>
    cases haccepting : t.isAccepting s with
    | true =>
      rw [accept_of_isAccepting haccepting]
      exact h.accepted_nodup
    | false =>
      rw [accepted_accept_of_not haccepting, List.nodup_append]
      refine ⟨h.accepted_nodup, by simp, ?_⟩
      intro x hx y hy hxy
      rw [List.mem_singleton.mp hy] at hxy
      rw [← hxy, h.mem_accepted.mp hx] at haccepting
      cases haccepting
  case mem_accepted =>
    intro x
    rw [hmem, isAccepting_accept hs, h.mem_accepted]

end accept

section insert

variable [DecidableEq α]

lemma Spelled.child?_eq_some_iff (h : Spelled t word) : t.child? s a = some c ↔ (a, c) ∈ t.children s := by
  rw [child?, List.lookup_eq_some_iff]
  constructor
  · rintro ⟨before, after, heq, _⟩
    simp [heq]
  · intro hc
    obtain ⟨before, after, heq⟩ := List.append_of_mem hc
    refine ⟨before, after, heq, fun x hx => ?_⟩
    by_contra hax
    obtain ⟨b, d⟩ := x
    have hab : a = b := by simpa using hax
    subst hab
    have hd : (a, d) ∈ t.children s := by simp [heq, hx]
    obtain ⟨hclt, hcword⟩ := h.mem_children hc
    obtain ⟨hdlt, hdword⟩ := h.mem_children hd
    have hcd := h.inj hclt hdlt (hcword.trans hdword.symm)
    have hnodup := h.nodup s
    rw [heq, List.nodup_append] at hnodup
    exact hnodup.2.2 (a, d) hx (a, c) (by simp) (by rw [hcd])

lemma Spelled.child?_eq_none_iff (h : Spelled t word) : t.child? s a = none ↔ ∀ c, (a, c) ∉ t.children s := by
  rw [Option.eq_none_iff_forall_ne_some]
  exact forall_congr' fun c => not_congr h.child?_eq_some_iff

lemma Spelled.extend (h : Spelled t word) (hs : s < t.stateCount) (w : List α) :
    ∃ word', Spelled (t.extend s w).1 word' ∧ (t.extend s w).1.accepted = t.accepted ∧
      t.stateCount ≤ (t.extend s w).1.stateCount ∧ (∀ c, c < t.stateCount → word' c = word c) ∧
      (t.extend s w).2 < (t.extend s w).1.stateCount ∧ word' (t.extend s w).2 = word s ++ w ∧
      ∀ c, c < (t.extend s w).1.stateCount → c < t.stateCount ∨ word' c <+: word s ++ w := by
  induction w generalizing t word s with
  | nil => exact ⟨word, h, rfl, le_rfl, fun c _ => rfl, hs, by simp [Trie.extend], fun c => .inl⟩
  | cons a w ih =>
    cases hchild : t.child? s a with
    | some c =>
      obtain ⟨hc, hword⟩ := h.mem_children (h.child?_eq_some_iff.mp hchild)
      obtain ⟨word', hspelled, haccepted, hle, hold, hlt, hend, hnew⟩ := ih h hc
      rw [hword, List.append_assoc, List.singleton_append] at hend hnew
      simp only [Trie.extend, hchild]
      exact ⟨word', hspelled, haccepted, hle, hold, hlt, hend, hnew⟩
    | none =>
      have hgrow := h.grow hs (h.child?_eq_none_iff.mp hchild)
      obtain ⟨word', hspelled, haccepted, hle, hold, hlt, hend, hnew⟩ := ih hgrow (s := t.stateCount) (by simp)
      rw [stateCount_grow] at hle hold hnew
      rw [Function.update_self, List.append_assoc, List.singleton_append] at hend hnew
      simp only [Trie.extend, hchild]
      refine ⟨word', hspelled, haccepted, by omega, ?_, hlt, hend, ?_⟩
      · intro c hc
        rw [hold c (by omega), Function.update_of_ne (Nat.ne_of_lt hc)]
      · intro c hc
        rcases hnew c hc with hc | hpre
        · rcases Nat.lt_succ_iff_lt_or_eq.mp hc with hc | rfl
          · exact .inl hc
          · right
            rw [hold t.stateCount (Nat.lt_succ_self _), Function.update_self]
            exact (List.prefix_append_right_inj (word s)).mpr ⟨w, rfl⟩
        · exact .inr hpre

def spellings (t : Trie α) (word : Nat → List α) : List (List α) := t.accepted.map word

omit [DecidableEq α] in
lemma Spelled.mem_spellings_iff (h : Spelled t word) (hs : s < t.stateCount) :
    word s ∈ t.spellings word ↔ t.isAccepting s = true := by
  rw [← h.mem_accepted]
  constructor
  · intro hmem
    obtain ⟨c, hc, hword⟩ := List.mem_map.mp hmem
    rwa [← h.inj (h.lt_of_mem_accepted hc) hs hword]
  · exact List.mem_map_of_mem

def Named (t : Trie α) (word : Nat → List α) (w : List α) : Prop := ∃ s, s < t.stateCount ∧ word s = w

lemma Spelled.insert (h : Spelled t word) (w : List α) :
    ∃ word', Spelled (t.insert w) word' ∧ (t.insert w).spellings word' =
        (if w ∈ t.spellings word then t.spellings word else t.spellings word ++ [w]) ∧
      ∀ v, (t.insert w).Named word' v ↔ t.Named word v ∨ v <+: w := by
  obtain ⟨word', hgrown, haccepted, hle, hold, hlt, hend, hnew⟩ := h.extend h.pos w
  rw [h.root, List.nil_append] at hend hnew
  have hwords : (t.extend 0 w).1.spellings word' = t.spellings word := by
    rw [spellings, haccepted]
    exact List.map_congr_left fun c hc => hold c (h.lt_of_mem_accepted hc)
  refine ⟨word', (hgrown.accept hlt).1, ?_, fun v => ?_⟩
  · have hiff := hgrown.mem_spellings_iff hlt
    rw [hend, hwords] at hiff
    change ((t.extend 0 w).1.accept (t.extend 0 w).2).spellings word' = _
    cases haccepting : (t.extend 0 w).1.isAccepting (t.extend 0 w).2 with
    | true => rw [accept_of_isAccepting haccepting, hwords, if_pos (hiff.mpr haccepting)]
    | false =>
      rw [spellings, accepted_accept_of_not haccepting, List.map_append, List.map_singleton, hend,
        if_neg (by simp [hiff, haccepting])]
      exact congrArg (· ++ [w]) hwords
  · change (∃ c, c < ((t.extend 0 w).1.accept (t.extend 0 w).2).stateCount ∧ word' c = v) ↔ _
    rw [stateCount_accept]
    constructor
    · rintro ⟨c, hc, rfl⟩
      rcases hnew c hc with hc | hpre
      · exact .inl ⟨c, hc, (hold c hc).symm⟩
      · exact .inr hpre
    · rintro (⟨c, hc, rfl⟩ | hpre)
      · exact ⟨c, by omega, hold c hc⟩
      · rw [← hend] at hpre
        exact hgrown.exists_of_prefix hlt hpre

lemma Spelled.insertMany (h : Spelled t word) (ws : List (List α)) :
    ∃ word', Spelled (t.insertMany ws) word' ∧
      ∀ w, w ∈ (t.insertMany ws).spellings word' ↔ w ∈ t.spellings word ∨ w ∈ ws := by
  induction ws generalizing t word with
  | nil => exact ⟨word, h, fun w => by simp [Trie.insertMany]⟩
  | cons v ws ih =>
    obtain ⟨word₁, h₁, hwords₁, _⟩ := h.insert v
    obtain ⟨word', h', hwords'⟩ := ih h₁
    refine ⟨word', h', fun w => ?_⟩
    rw [Trie.insertMany, List.foldl_cons]
    refine (hwords' w).trans ?_
    rw [hwords₁, List.mem_cons, ← or_assoc]
    apply or_congr_left
    split
    · next hv =>
      constructor
      · exact .inl
      · rintro (hw | rfl)
        · exact hw
        · exact hv
    · simp

end insert

end PatternInference.Trie
