import Mathlib.Data.List.Infix
import Mathlib.Tactic.Lemma
import PatternInference.Text.CommonSubstring

namespace PatternInference.Text

variable {part other text first : List Char} {texts rest : List (List Char)} {m n i j start : Nat}

lemma mem_lengthsDown : n ∈ lengthsDown m ↔ 0 < n ∧ n ≤ m := by
  induction m with
  | zero =>
    simp only [lengthsDown, List.not_mem_nil, false_iff, not_and]
    omega
  | succ m ih =>
    rw [lengthsDown, List.mem_cons, ih]
    omega

lemma findSome?_lengthsDown_eq_some {β : Type} {f : Nat → Option β} {x : β}
    (h : (lengthsDown m).findSome? f = some x) : ∃ n, f n = some x ∧ ∀ k, n < k → k ≤ m → f k = none := by
  induction m with
  | zero => cases h
  | succ m ih =>
    rw [lengthsDown, List.findSome?_cons] at h
    cases hm : f (m + 1) with
    | some y =>
      rw [hm] at h
      exact ⟨m + 1, hm.trans h, fun k hk hkm => by omega⟩
    | none =>
      rw [hm] at h
      obtain ⟨n, hn, hlonger⟩ := ih h
      refine ⟨n, hn, fun k hk hkm => ?_⟩
      by_cases hlast : k = m + 1
      · rw [hlast, hm]
      · exact hlonger k hk (by omega)

lemma mem_substrings : part ∈ substrings n text ↔ part <:+: text ∧ part.length = n := by
  simp only [substrings, List.mem_map, List.mem_range]
  refine ⟨?_, ?_⟩
  · rintro ⟨start, hstart, rfl⟩
    refine ⟨(List.take_prefix _ _).isInfix.trans (List.drop_suffix _ _).isInfix, ?_⟩
    rw [List.length_take, List.length_drop]
    omega
  · rintro ⟨⟨before, after, rfl⟩, rfl⟩
    refine ⟨before.length, ?_, by simp⟩
    simp only [List.length_append]
    omega

lemma find?_substrings_eq_some_iff {p : List Char → Bool} : (substrings n text).find? p = some part ↔
    ∃ start, start + n ≤ text.length ∧ (text.drop start).take n = part ∧ p part = true ∧
      ∀ i < start, p ((text.drop i).take n) = false := by
  simp only [substrings, List.find?_map, Option.map_eq_some_iff, List.find?_range_eq_some, List.mem_range,
    Function.comp_apply, Bool.not_eq_true']
  constructor
  · rintro ⟨start, ⟨hp, hstart, hbefore⟩, rfl⟩
    exact ⟨start, by omega, rfl, hp, hbefore⟩
  · rintro ⟨start, hstart, rfl, hp, hbefore⟩
    exact ⟨start, ⟨hp, by omega, hbefore⟩, rfl⟩

def Common (texts : List (List Char)) (part : List Char) : Prop := ∀ text ∈ texts, part <:+: text

lemma common_cons_iff : Common (first :: rest) part ↔ part <:+: first ∧ Common rest part := List.forall_mem_cons

lemma all_occursIn_iff : rest.all (occursIn part) = true ↔ Common rest part := by
  simp only [List.all_eq_true, occursIn_iff, Common]

/-- Of the longest common substrings, `part` stands at `start` in the first text and no other starts before it. -/
structure Foremost (first : List Char) (rest : List (List Char)) (part : List Char) (start : Nat) : Prop where
  common : Common (first :: rest) part
  longest : ∀ other, Common (first :: rest) other → other.length ≤ part.length
  stands : part <+: first.drop start
  earliest : ∀ other i, Common (first :: rest) other → other.length = part.length → other <+: first.drop i → start ≤ i

lemma Foremost.unique (h : Foremost first rest part i) (h' : Foremost first rest other j) : part = other ∧ i = j := by
  have hlength : part.length = other.length :=
    Nat.le_antisymm (h'.longest part h.common) (h.longest other h'.common)
  have hplace : i = j :=
    Nat.le_antisymm (h.earliest other j h'.common hlength.symm h'.stands) (h'.earliest part i h.common hlength h.stands)
  refine ⟨?_, hplace⟩
  rw [List.prefix_iff_eq_take.mp h.stands, List.prefix_iff_eq_take.mp h'.stands, hplace, hlength]

lemma length_ne_of_find?_eq_none (h : ((substrings n first).find? fun part => rest.all (occursIn part)) = none)
    (hother : Common (first :: rest) other) : other.length ≠ n := by
  intro hlength
  obtain ⟨hfirst, hrest⟩ := common_cons_iff.mp hother
  exact List.find?_eq_none.mp h other (mem_substrings.mpr ⟨hfirst, hlength⟩) (all_occursIn_iff.mpr hrest)

lemma exists_foremost (first : List Char) (rest : List (List Char)) :
    ∃ start, Foremost first rest (longestCommonSubstring (first :: rest)) start := by
  rw [longestCommonSubstring]
  cases hfound : (lengthsDown first.length).findSome? fun n =>
    (substrings n first).find? fun part => rest.all (occursIn part) with
  | none =>
    have hnil : ∀ other, Common (first :: rest) other → other.length ≤ 0 := by
      intro other hother
      by_contra hpos
      have hlength : other.length ∈ lengthsDown first.length :=
        mem_lengthsDown.mpr ⟨Nat.lt_of_not_le hpos, (common_cons_iff.mp hother).1.length_le⟩
      exact length_ne_of_find?_eq_none (List.findSome?_eq_none_iff.mp hfound _ hlength) hother rfl
    exact ⟨0, fun _ _ => List.nil_infix, hnil, List.nil_prefix, fun _ _ _ _ _ => Nat.zero_le _⟩
  | some part =>
    rw [Option.getD_some]
    obtain ⟨n, hfind, hlonger⟩ := findSome?_lengthsDown_eq_some hfound
    obtain ⟨start, hstart, hpart, hall, hbefore⟩ := find?_substrings_eq_some_iff.mp hfind
    have hlength : part.length = n := by
      rw [← hpart, List.length_take, List.length_drop]
      omega
    have hstands : part <+: first.drop start := hpart ▸ List.take_prefix n _
    refine ⟨start, common_cons_iff.mpr ⟨?_, all_occursIn_iff.mp hall⟩, fun other hother => ?_, hstands,
      fun other i hother hsame hi => ?_⟩
    · exact hstands.isInfix.trans (List.drop_suffix _ _).isInfix
    · by_contra hlong
      have hmissed := hlonger other.length (by omega) (common_cons_iff.mp hother).1.length_le
      exact length_ne_of_find?_eq_none hmissed hother rfl
    · by_contra hearly
      have hmissed := hbefore i (by omega)
      rw [← hlength, ← hsame, ← List.prefix_iff_eq_take.mp hi] at hmissed
      exact Bool.eq_false_iff.mp hmissed (all_occursIn_iff.mpr (common_cons_iff.mp hother).2)

lemma isInfix_longestCommonSubstring (htext : text ∈ texts) : longestCommonSubstring texts <:+: text := by
  cases texts with
  | nil => cases htext
  | cons first rest =>
    obtain ⟨start, h⟩ := exists_foremost first rest
    exact h.common text htext

lemma eq_nil_of_isInfix (hne : texts ≠ []) (hnil : longestCommonSubstring texts = [])
    (hpart : ∀ t ∈ texts, part <:+: t) : part = [] := by
  obtain ⟨first, rest, rfl⟩ := List.exists_cons_of_ne_nil hne
  obtain ⟨start, h⟩ := exists_foremost first rest
  rw [hnil] at h
  exact List.length_eq_zero_iff.mp (Nat.le_zero.mp (h.longest part hpart))

theorem longestCommonSubstring_foremost (first : List Char) (rest : List (List Char)) :
    (∃ start, Foremost first rest (longestCommonSubstring (first :: rest)) start ∧
      ∀ part i, Foremost first rest part i → part = longestCommonSubstring (first :: rest) ∧ i = start) ∧
      (longestCommonSubstring (first :: rest) = [] ↔ ¬ ∃ c, ∀ text ∈ first :: rest, c ∈ text) := by
  obtain ⟨start, h⟩ := exists_foremost first rest
  refine ⟨⟨start, h, fun part i hpart => hpart.unique h⟩, ?_⟩
  constructor
  · rintro hnil ⟨c, hc⟩
    have hsingle : [c] = [] := eq_nil_of_isInfix (List.cons_ne_nil first rest) hnil fun text htext =>
      (List.singleton_infix_iff c text).mpr (hc text htext)
    cases hsingle
  · intro hnone
    by_contra hne
    obtain ⟨c, hc⟩ := List.exists_mem_of_ne_nil _ hne
    exact hnone ⟨c, fun text htext => (h.common text htext).subset hc⟩

theorem longestCommonSubstring_foremost_tie :
    longestCommonSubstring [['x', 'é', 'd', 'é', 'a', 'b'], ['a', 'b', 'é', 'd']] = ['é', 'd'] ∧
      ∃ start, Foremost ['x', 'é', 'd', 'é', 'a', 'b'] [['a', 'b', 'é', 'd']] ['é', 'd'] start := by
  have hroot : longestCommonSubstring [['x', 'é', 'd', 'é', 'a', 'b'], ['a', 'b', 'é', 'd']] = ['é', 'd'] := by
    decide +kernel
  obtain ⟨⟨start, h, _⟩, _⟩ := longestCommonSubstring_foremost ['x', 'é', 'd', 'é', 'a', 'b'] [['a', 'b', 'é', 'd']]
  rw [hroot] at h
  exact ⟨hroot, start, h⟩

end PatternInference.Text
