import Mathlib.Data.List.Infix
import Mathlib.Tactic.Lemma
import PatternInference.Proofs.Lists
import PatternInference.Text.CommonPrefix

namespace PatternInference.Text

variable {p s t : List Char} {texts : List (List Char)}

lemma foldl_shorter_spec (best : List Char) :
    texts.foldl (fun best t => if t.length < best.length then t else best) best ∈ best :: texts ∧
      ∀ t ∈ best :: texts,
        (texts.foldl (fun best t => if t.length < best.length then t else best) best).length ≤ t.length := by
  apply foldl_pick_spec (R := fun s t : List Char => t.length ≤ s.length)
  · exact fun t => le_rfl
  · exact fun s t u hst htu => htu.trans hst
  · apply List.pairwise_of_forall
    intro s t
    split <;> omega

lemma shortest_mem (hne : texts ≠ []) : shortest texts ∈ texts := by
  cases texts with
  | nil => exact absurd rfl hne
  | cons s texts => exact (foldl_shorter_spec s).1

lemma length_shortest_le (ht : t ∈ texts) : (shortest texts).length ≤ t.length := by
  cases texts with
  | nil => cases ht
  | cons s texts => exact (foldl_shorter_spec s).2 t ht

lemma exists_of_mem_neighbourPrefixes (h : p ∈ neighbourPrefixes texts) :
    ∃ s ∈ texts, ∃ t ∈ texts, p = commonPrefix s t := by
  fun_induction neighbourPrefixes texts with
  | case1 s t rest ih =>
    cases List.mem_cons.mp h with
    | inl heq => exact ⟨s, by simp, t, by simp, heq⟩
    | inr htail =>
      obtain ⟨a, ha, b, hb, heq⟩ := ih htail
      exact ⟨a, List.mem_cons_of_mem _ ha, b, List.mem_cons_of_mem _ hb, heq⟩
  | case2 => cases h

lemma prefix_congr (hlen : p.length ≤ (commonPrefix s t).length) : p <+: s ↔ p <+: t := by
  obtain ⟨hs, ht⟩ := prefix_commonPrefix_iff.mp (List.prefix_refl (commonPrefix s t))
  constructor
  · exact fun hp => (List.prefix_of_prefix_length_le hp hs hlen).trans ht
  · exact fun hp => (List.prefix_of_prefix_length_le hp ht hlen).trans hs

lemma prefix_of_mem (hlen : ∀ c ∈ neighbourPrefixes texts, p.length ≤ c.length) (hs : s ∈ texts) (ht : t ∈ texts)
    (hp : p <+: s) : p <+: t := by
  -- along the list, a text so short is a prefix of the next one whenever it is one of the last
  suffices h : ∀ t ∈ texts, p <+: t ↔ p <+: texts.headD [] from (h t ht).mpr ((h s hs).mp hp)
  clear hs ht hp
  fun_induction neighbourPrefixes texts with
  | case1 a b rest ih =>
    intro t ht
    have hab : p.length ≤ (commonPrefix a b).length := hlen _ (by simp)
    rcases List.mem_cons.mp ht with rfl | ht
    · rfl
    · rw [ih (fun c hc => hlen c (List.mem_cons_of_mem _ hc)) t ht]
      exact (prefix_congr hab).symm
  | case2 texts hsmall =>
    intro t ht
    cases texts with
    | nil => cases ht
    | cons a texts =>
      cases texts with
      | nil => rw [List.mem_singleton.mp ht]; rfl
      | cons b rest => exact absurd rfl (hsmall a b rest)

lemma neighbourPrefixes_ne (h : 2 ≤ texts.length) : neighbourPrefixes texts ≠ [] := by
  match texts, h with
  | s :: t :: rest, _ => simp [neighbourPrefixes]

lemma commonPrefixOfAll_eq (h : 2 ≤ texts.length) :
    commonPrefixOfAll texts = shortest (neighbourPrefixes (texts.mergeSort le)) := by
  match texts, h with
  | s :: t :: rest, _ => rfl

lemma prefix_shortest_iff (h : 2 ≤ texts.length) :
    p <+: shortest (neighbourPrefixes texts) ↔ ∀ t ∈ texts, p <+: t := by
  obtain ⟨a, ha, b, hb, heq⟩ := exists_of_mem_neighbourPrefixes (shortest_mem (neighbourPrefixes_ne h))
  constructor
  · intro hp t ht
    obtain ⟨hpa, _⟩ := prefix_commonPrefix_iff.mp (List.prefix_refl (commonPrefix a b))
    rw [← heq] at hpa
    exact hp.trans (prefix_of_mem (fun c hc => length_shortest_le hc) ha ht hpa)
  · intro hp
    rw [heq]
    exact prefix_commonPrefix_iff.mpr ⟨hp a ha, hp b hb⟩

theorem prefix_commonPrefixOfAll_iff (hne : texts ≠ []) :
    p <+: commonPrefixOfAll texts ↔ ∀ t ∈ texts, p <+: t := by
  by_cases hmany : 2 ≤ texts.length
  · rw [commonPrefixOfAll_eq hmany, prefix_shortest_iff (by rwa [List.length_mergeSort])]
    simp only [List.mem_mergeSort]
  · match texts, hne, hmany with
    | [t], _, _ => simp [commonPrefixOfAll]
    | s :: t :: rest, _, hmany => simp at hmany

end PatternInference.Text
