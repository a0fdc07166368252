import Mathlib.Data.List.Nodup
import PatternInference.Proofs.Lists
import PatternInference.Proofs.Trie.Words

namespace PatternInference.Trie

variable {α : Type} [DecidableEq α] {t : Trie α} {word : Nat → List α} {s u : Nat} {w : List α} {ws : List (List α)}
  {symbols : List α}

inductive Addition (α : Type) where
  | one (w : List α)
  | many (ws : List (List α))

def Addition.added : Addition α → List (List α)
  | one w => [w]
  | many ws => ws

def Addition.run (t : Trie α) : Addition α → Trie α
  | one w => t.insert w
  | many ws => t.insertMany ws

def grownBy (additions : List (Addition α)) : Trie α := additions.foldl Addition.run empty

lemma grownBy_eq (additions : List (Addition α)) : grownBy additions = ofList (additions.flatMap Addition.added) := by
  have hrun : ∀ t : Trie α, additions.foldl Addition.run t = t.insertMany (additions.flatMap Addition.added) := by
    induction additions with
    | nil => exact fun t => rfl
    | cons x additions ih =>
      intro t
      rw [List.foldl_cons, ih, List.flatMap_cons, insertMany, insertMany, List.foldl_append]
      cases x <;> rfl
  exact hrun empty

omit [DecidableEq α] in
@[simp] lemma alphabet_accept : (t.accept s).alphabet = t.alphabet := by
  rw [accept]
  split <;> rfl

lemma Spelled.alphabet_extend (h : Spelled t word) (hs : s < t.stateCount) (halphabet : t.alphabet = symbols.eraseDups)
    (hsymbols : ∀ x a c, (a, c) ∈ t.children x → a ∈ symbols) (w : List α) :
    (t.extend s w).1.alphabet = (symbols ++ w).eraseDups := by
  induction w generalizing t word s symbols with
  | nil => rw [Trie.extend, halphabet, List.append_nil]
  | cons a w ih =>
    rw [List.append_cons]
    cases hchild : t.child? s a with
    | some c =>
      have hc := h.child?_eq_some_iff.mp hchild
      rw [Trie.extend, hchild, eraseDups_append_congr (eraseDups_concat_of_mem (hsymbols s a c hc))]
      exact ih h (h.mem_children hc).1 halphabet hsymbols
    | none =>
      rw [Trie.extend, hchild]
      apply ih (h.grow hs (h.child?_eq_none_iff.mp hchild)) (by simp)
      · simp only [Trie.grow, halphabet, List.mem_eraseDups]
        split
        · next hmem => rw [eraseDups_concat_of_mem hmem]
        · next hmem => rw [eraseDups_concat_of_notMem hmem]
      · intro x b c hc
        rw [List.mem_append, List.mem_singleton]
        rcases (mem_children_grow hs).mp hc with hc | ⟨_, rfl, _⟩
        · exact .inl (hsymbols x b c hc)
        · exact .inr rfl

/-- The tree has these words and what they begin with, and nothing else. -/
structure Holds (t : Trie α) (word : Nat → List α) (ws : List (List α)) : Prop extends Spelled t word where
  spellings_eq : t.spellings word = ws.eraseDups
  named_iff : ∀ w, t.Named word w ↔ w = [] ∨ ∃ v ∈ ws, w <+: v
  alphabet_eq : t.alphabet = ws.flatten.eraseDups

lemma holds_empty : Holds (empty : Trie α) (fun _ => []) [] := by
  refine ⟨spelled_empty, rfl, fun w => ?_, rfl⟩
  constructor
  · rintro ⟨_, _, rfl⟩
    exact .inl rfl
  · rintro (rfl | ⟨_, hv, _⟩)
    · exact ⟨0, spelled_empty.pos, rfl⟩
    · cases hv

namespace Holds

lemma mem_flatten (h : Holds t word ws) {a : α} {c : Nat} (hc : (a, c) ∈ t.children s) : a ∈ ws.flatten := by
  obtain ⟨hlt, hword⟩ := h.mem_children hc
  rcases (h.named_iff (word c)).mp ⟨c, hlt, rfl⟩ with hnil | ⟨v, hv, hpre⟩
  · simp [hword] at hnil
  · exact List.mem_flatten.mpr ⟨v, hv, hpre.subset (by simp [hword])⟩

lemma insert (h : Holds t word ws) (w : List α) : ∃ word', Holds (t.insert w) word' (ws ++ [w]) := by
  obtain ⟨word', hspelled, hspellings, hnamed⟩ := h.toSpelled.insert w
  refine ⟨word', hspelled, ?_, fun v => ?_, ?_⟩
  · rw [hspellings, h.spellings_eq]
    simp only [List.mem_eraseDups]
    split
    · next hw => rw [eraseDups_concat_of_mem hw]
    · next hw => rw [eraseDups_concat_of_notMem hw]
  · rw [hnamed, h.named_iff, or_assoc]
    simp only [List.mem_append, List.mem_singleton, or_and_right, exists_or, exists_eq_left]
  · change ((t.extend 0 w).1.accept (t.extend 0 w).2).alphabet = _
    rw [alphabet_accept, h.alphabet_extend h.pos h.alphabet_eq (fun _ _ _ => h.mem_flatten) w, List.flatten_append]
    simp

lemma insertMany (h : Holds t word ws) (vs : List (List α)) : ∃ word', Holds (t.insertMany vs) word' (ws ++ vs) := by
  induction vs generalizing t word ws with
  | nil => exact ⟨word, by simpa [Trie.insertMany] using h⟩
  | cons v vs ih =>
    obtain ⟨word₁, h₁⟩ := h.insert v
    obtain ⟨word', h'⟩ := ih h₁
    exact ⟨word', by simpa [Trie.insertMany] using h'⟩

lemma stateCount_eq (h : Holds t word ws) : t.stateCount = ([] :: ws.flatMap List.inits).eraseDups.length := by
  have hnodup : ((List.range t.stateCount).map word).Nodup := by
    apply List.Nodup.map_on _ List.nodup_range
    intro s hs c hc hword
    exact h.inj (List.mem_range.mp hs) (List.mem_range.mp hc) hword
  have hperm : ((List.range t.stateCount).map word).Perm ([] :: ws.flatMap List.inits).eraseDups := by
    apply (List.perm_ext_iff_of_nodup hnodup nodup_eraseDups).mpr
    intro w
    have hnamed := h.named_iff w
    simpa [Named] using hnamed
  simpa using hperm.length_eq

end Holds

lemma holds_ofList (ws : List (List α)) : ∃ word, Holds (ofList ws) word ws := holds_empty.insertMany ws

lemma Spelled.follow?_eq_some_iff (h : Spelled t word) (hs : s < t.stateCount) :
    t.follow? s w = some u ↔ u < t.stateCount ∧ word u = word s ++ w := by
  induction w generalizing s with
  | nil =>
    rw [follow?, Option.some_inj, List.append_nil]
    constructor
    · rintro rfl
      exact ⟨hs, rfl⟩
    · exact fun ⟨hu, hword⟩ => h.inj hs hu hword.symm
  | cons a w ih =>
    rw [follow?, Option.bind_eq_some_iff, List.append_cons]
    constructor
    · rintro ⟨c, hc, hfollow⟩
      obtain ⟨hlt, hword⟩ := h.mem_children (h.child?_eq_some_iff.mp hc)
      rwa [ih hlt, hword] at hfollow
    · intro ⟨hu, huword⟩
      obtain ⟨c, hlt, hword⟩ := h.exists_of_prefix hu (huword ▸ List.prefix_append (word s ++ [a]) w)
      refine ⟨c, h.child?_eq_some_iff.mpr ((h.child_iff hs).mpr ⟨hlt, hword⟩), ?_⟩
      rw [ih hlt, hword]
      exact ⟨hu, huword⟩

lemma Spelled.contains_iff (h : Spelled t word) : t.contains w = true ↔ w ∈ t.spellings word := by
  have hfollow : ∀ u, t.follow? 0 w = some u ↔ u < t.stateCount ∧ word u = w := by
    intro u
    rw [h.follow?_eq_some_iff h.pos, h.root, List.nil_append]
  rw [contains]
  split
  · next s hs =>
    obtain ⟨hlt, rfl⟩ := (hfollow s).mp hs
    exact (h.mem_spellings_iff hlt).symm
  · next hnone =>
    simp only [Bool.false_eq_true, false_iff]
    intro hw
    obtain ⟨u, hu, hword⟩ := List.mem_map.mp hw
    rw [(hfollow u).mpr ⟨h.lt_of_mem_accepted hu, hword⟩] at hnone
    cases hnone

lemma Spelled.map_follow?_spellings (h : Spelled t word) :
    (t.spellings word).map (t.follow? 0) = t.accepted.map some := by
  rw [spellings, List.map_map]
  apply List.map_congr_left
  intro s hs
  exact (h.follow?_eq_some_iff h.pos).mpr ⟨h.lt_of_mem_accepted hs, by rw [h.root, List.nil_append]⟩

omit [DecidableEq α] in
lemma Spelled.nodup_symbols (h : Spelled t word) (s : Nat) : ((t.children s).map Prod.fst).Nodup := by
  apply List.Nodup.map_on _ (h.nodup s)
  rintro ⟨a, c⟩ hc ⟨b, d⟩ hd hab
  obtain ⟨hclt, hcword⟩ := h.mem_children hc
  obtain ⟨hdlt, hdword⟩ := h.mem_children hd
  obtain rfl : a = b := hab
  rw [h.inj hclt hdlt (hcword.trans hdword.symm)]

omit [DecidableEq α] in
lemma Spelled.existsUnique_parent (h : Spelled t word) {c : Nat} (hc : c < t.stateCount) (h0 : c ≠ 0) :
    ∃! p : Nat × α, (p.2, c) ∈ t.children p.1 := by
  obtain ⟨s, a, hs, hword⟩ := h.parent hc h0
  refine ⟨(s, a), (h.child_iff (hs.trans hc)).mpr ⟨hc, hword⟩, ?_⟩
  rintro ⟨x, b⟩ hx
  have hxlt := Trie.lt_of_mem_children hx
  obtain ⟨_, hxword⟩ := h.mem_children hx
  obtain ⟨hxs, hba⟩ := List.append_inj' (hxword.symm.trans hword) rfl
  exact Prod.ext (h.inj hxlt (hs.trans hc) hxs) (List.singleton_inj.mp hba)

theorem states_are_prefixes (additions : List (Addition α)) :
    let t := grownBy additions
    let ws := additions.flatMap Addition.added
    (∀ w, t.contains w = true ↔ w ∈ ws) ∧
      t.accepted.Nodup ∧ t.accepted.map some = ws.eraseDups.map (t.follow? 0) ∧
      (∀ s a c, (a, c) ∈ t.children s → s < c ∧ c < t.stateCount) ∧
      (∀ s, ((t.children s).map Prod.fst).Nodup) ∧
      (∀ c, c < t.stateCount → c ≠ 0 → ∃! p : Nat × α, (p.2, c) ∈ t.children p.1) ∧
      t.stateCount = ([] :: ws.flatMap List.inits).eraseDups.length ∧
      t.alphabet = ws.flatten.eraseDups := by
  intro t ws
  obtain ⟨word, h⟩ : ∃ word, Holds t word ws := by
    have hmany := holds_empty.insertMany ws
    rwa [List.nil_append, ← ofList, ← grownBy_eq] at hmany
  refine ⟨fun w => ?_, h.accepted_nodup, ?_, fun s a c hc => ?_, h.nodup_symbols, fun c => h.existsUnique_parent,
    h.stateCount_eq, h.alphabet_eq⟩
  · rw [h.contains_iff, h.spellings_eq, List.mem_eraseDups]
  · rw [← h.spellings_eq, h.map_follow?_spellings]
  · exact ⟨h.lt_of_mem_children hc, (h.mem_children hc).1⟩

example : (grownBy [.many [[0, 1], [0]], .one [0, 2], .one [0, 1]]).accepted = [2, 1, 3] := by decide

end PatternInference.Trie
