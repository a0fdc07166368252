import PatternInference.Proofs.Text.CommonPrefix
import PatternInference.Proofs.Trie.Additions

namespace PatternInference.Trie

variable {α : Type} [DecidableEq α] {t : Trie α} {word : Nat → List α} {ws : List (List α)} {s c fuel : Nat} {a b : α}
  {w p : List α}

namespace Holds

lemma isAccepting_iff (h : Holds t word ws) (hs : s < t.stateCount) : t.isAccepting s = true ↔ word s ∈ ws := by
  rw [← h.mem_spellings_iff hs, h.spellings_eq, List.mem_eraseDups]

lemma exists_child_iff (h : Holds t word ws) (hs : s < t.stateCount) :
    (∃ c, (a, c) ∈ t.children s) ↔ ∃ w ∈ ws, word s ++ [a] <+: w := by
  have hnamed := h.named_iff (word s ++ [a])
  simp only [List.append_eq_nil_iff, List.cons_ne_nil, and_false, false_or] at hnamed
  rw [← hnamed]
  exact exists_congr fun c => h.child_iff hs

lemma exists_child_prefix (h : Holds t word ws) (hs : s < t.stateCount) (hend : t.isAccepting s = false) (hw : w ∈ ws)
    (hpre : word s <+: w) : ∃ a c, (a, c) ∈ t.children s ∧ word c <+: w := by
  obtain ⟨v, rfl⟩ := hpre
  cases v with
  | nil =>
    rw [List.append_nil, ← h.isAccepting_iff hs, hend] at hw
    cases hw
  | cons a v =>
    have hgo : word s ++ [a] <+: word s ++ a :: v := ⟨v, by simp⟩
    obtain ⟨c, hc⟩ := (h.exists_child_iff hs).mpr ⟨_, hw, hgo⟩
    exact ⟨a, c, hc, (h.mem_children hc).2 ▸ hgo⟩

lemma prefix_of_onlyPath (h : Holds t word ws) (fuel : Nat) (hs : s < t.stateCount) (hall : ∀ w ∈ ws, word s <+: w) :
    ∀ w ∈ ws, word s ++ t.onlyPath fuel s <+: w := by
  fun_induction onlyPath t fuel s with
  | case3 s fuel hend a c hchildren ih =>
    have hc : (a, c) ∈ t.children s := by simp [hchildren]
    obtain ⟨hlt, hword⟩ := h.mem_children hc
    have hnext := ih hlt
    simp only [hword, List.append_assoc, List.singleton_append] at hnext
    apply hnext
    -- no word ends here, so each goes on along the only edge
    intro w hw
    obtain ⟨b, d, hd, hpre⟩ := h.exists_child_prefix hs (by simpa using hend) hw (hall w hw)
    simp only [hchildren, List.mem_singleton, Prod.mk.injEq] at hd
    rwa [hd.2, hword] at hpre
  | case1 | case2 | case4 => simpa using hall

lemma not_isAccepting (h : Holds t word ws) (hs : s < t.stateCount) (hp : ∀ w ∈ ws, word s ++ b :: p <+: w) :
    t.isAccepting s = false := by
  rw [← Bool.not_eq_true, h.isAccepting_iff hs]
  intro hw
  have hle := (hp _ hw).length_le
  simp only [List.length_append, List.length_cons] at hle
  omega

lemma children_eq (h : Holds t word ws) (hne : ws ≠ []) (hs : s < t.stateCount)
    (hp : ∀ w ∈ ws, word s ++ b :: p <+: w) : ∃ c, t.children s = [(b, c)] := by
  have hsymbol : ∀ x ∈ t.children s, x.1 = b := by
    rintro ⟨a, c⟩ hc
    obtain ⟨w, hw, ha⟩ := (h.exists_child_iff hs).mp ⟨c, hc⟩
    have hle := List.prefix_of_prefix_length_le ha (hp w hw) (by simp)
    rw [List.prefix_append_right_inj, List.cons_prefix_cons] at hle
    exact hle.1
  obtain ⟨w, hw⟩ := List.exists_mem_of_ne_nil ws hne
  have hgo : word s ++ [b] <+: w := List.IsPrefix.trans ⟨p, by simp⟩ (hp w hw)
  obtain ⟨c, hc⟩ := (h.exists_child_iff hs).mpr ⟨w, hw, hgo⟩
  have hnodup := h.nodup_symbols s
  match hchildren : t.children s with
  | [] => simp [hchildren] at hc
  | [x] =>
    rw [hchildren, List.mem_singleton] at hc
    exact ⟨c, by rw [hc]⟩
  | x :: y :: rest =>
    simp only [hchildren, List.forall_mem_cons] at hsymbol
    simp [hchildren, hsymbol.1, hsymbol.2.1] at hnodup

lemma prefix_onlyPath (h : Holds t word ws) (hne : ws ≠ []) (hs : s < t.stateCount) (hfuel : t.stateCount ≤ s + fuel)
    (hp : ∀ w ∈ ws, word s ++ p <+: w) : p <+: t.onlyPath fuel s := by
  induction fuel generalizing s p with
  | zero => omega
  | succ fuel ih =>
    cases p with
    | nil => exact List.nil_prefix
    | cons b p =>
      obtain ⟨c, hchildren⟩ := h.children_eq hne hs hp
      have hc : (b, c) ∈ t.children s := by simp [hchildren]
      obtain ⟨hlt, hword⟩ := h.mem_children hc
      have hsc := h.lt_of_mem_children hc
      rw [onlyPath, h.not_isAccepting hs hp, if_neg Bool.false_ne_true, hchildren, List.cons_prefix_cons]
      exact ⟨rfl, ih hlt (by omega) (by simpa [hword] using hp)⟩

lemma prefix_commonPrefix_iff (h : Holds t word ws) (hne : ws ≠ []) : p <+: t.commonPrefix ↔ ∀ w ∈ ws, p <+: w := by
  constructor
  · intro hp w hw
    have hall := h.prefix_of_onlyPath t.stateCount h.pos (by simp [h.root]) w hw
    rw [h.root, List.nil_append] at hall
    exact hp.trans hall
  · intro hp
    apply h.prefix_onlyPath hne h.pos (by omega)
    rwa [h.root]

end Holds

lemma commonPrefix_ofList_eq (texts : List (List Char)) : (ofList texts).commonPrefix = Text.commonPrefixOfAll texts := by
  cases texts with
  | nil =>
    have hroot : (ofList ([] : List (List Char))).commonPrefix = [] := rfl
    simp [hroot, Text.commonPrefixOfAll, Text.neighbourPrefixes, Text.shortest]
  | cons t texts =>
    obtain ⟨word, h⟩ := holds_ofList (t :: texts)
    have hiff : ∀ p, p <+: (ofList (t :: texts)).commonPrefix ↔ p <+: Text.commonPrefixOfAll (t :: texts) := by
      intro p
      rw [h.prefix_commonPrefix_iff (by simp), Text.prefix_commonPrefixOfAll_iff (by simp)]
    exact ((hiff _).mp List.prefix_rfl).eq_of_length_le ((hiff _).mpr List.prefix_rfl).length_le

theorem commonPrefix_ofList_longest (texts : List (List Char)) :
    (ofList texts).commonPrefix = Text.commonPrefixOfAll texts ∧
      (texts ≠ [] → ∀ r, r = (ofList texts).commonPrefix ↔
        (∀ t ∈ texts, r <+: t) ∧ ∀ p, (∀ t ∈ texts, p <+: t) → p.length ≤ r.length) := by
  refine ⟨commonPrefix_ofList_eq texts, fun hne r => ?_⟩
  obtain ⟨word, h⟩ := holds_ofList texts
  constructor
  · rintro rfl
    exact ⟨(h.prefix_commonPrefix_iff hne).mp List.prefix_rfl,
      fun p hp => ((h.prefix_commonPrefix_iff hne).mpr hp).length_le⟩
  · intro ⟨hr, hlongest⟩
    have hpre := (h.prefix_commonPrefix_iff hne).mpr hr
    exact hpre.eq_of_length_le (hlongest _ ((h.prefix_commonPrefix_iff hne).mp List.prefix_rfl))

theorem commonPrefix_ofList_longest_repeated :
    let texts := ["äb1".toList, "äb".toList, "äb23".toList, "äb".toList]
    (ofList texts).commonPrefix = Text.commonPrefixOfAll texts ∧ texts ≠ [] ∧
      ∀ r, r = (ofList texts).commonPrefix ↔
        (∀ t ∈ texts, r <+: t) ∧ ∀ p, (∀ t ∈ texts, p <+: t) → p.length ≤ r.length := by
  intro texts
  obtain ⟨heq, hlongest⟩ := commonPrefix_ofList_longest texts
  have hne : texts ≠ [] := by simp [texts]
  exact ⟨heq, hne, hlongest hne⟩

example : (ofList ["äb1".toList, "äb".toList, "äb23".toList]).commonPrefix = "äb".toList := by decide

end PatternInference.Trie
