import Mathlib.Data.List.Basic
import Mathlib.Tactic.Lemma
import Mathlib.Tactic.SplitIfs
import PatternInference.Text.Lines

namespace PatternInference.Text

def IsLine (text : List Char) : Prop := '\n' ∉ text ∧ text.getLast? ≠ some '\r'

section

variable {α : Type} [DecidableEq α] {newline carriage c : α} {line rest text : List α}

def dropReturn (carriage : α) (line : List α) : List α :=
  if line.getLast? = some carriage then line.dropLast else line

omit [DecidableEq α] in
@[elab_as_elim]
theorem line_induction {P : List α → Prop} (newline : α) (last : ∀ line, newline ∉ line → P line)
    (more : ∀ line rest, newline ∉ line → P rest → P (line ++ newline :: rest)) (text : List α) : P text := by
  induction h : text.length using Nat.strongRecOn generalizing text with
  | ind n ih =>
    by_cases hn : newline ∈ text
    · obtain ⟨line, rest, rfl, hline⟩ := List.eq_append_cons_of_mem hn
      apply more line rest hline
      apply ih rest.length _ rest rfl
      simp at h
      omega
    · exact last text hn

lemma dropReturn_cons (h : ¬ (c = carriage ∧ line = [])) :
    dropReturn carriage (c :: line) = c :: dropReturn carriage line := by
  cases line with
  | nil =>
    have hc : c ≠ carriage := fun hc => h ⟨hc, rfl⟩
    simp [dropReturn, hc]
  | cons b line =>
    rw [dropReturn, dropReturn, List.getLast?_cons_cons]
    split
    · rw [List.dropLast_cons_cons]
    · rfl

lemma dropReturn_concat : dropReturn carriage (line ++ [c]) = if c = carriage then line else line ++ [c] := by
  simp [dropReturn]

lemma splitLines_append (hne : carriage ≠ newline) (hn : newline ∉ line) :
    splitLines newline carriage (line ++ newline :: rest) =
      dropReturn carriage line :: splitLines newline carriage rest := by
  induction line with
  | nil => simp [splitLines, dropReturn]
  | cons c line ih =>
    rw [List.mem_cons, not_or] at hn
    have hhead : (line ++ newline :: rest).head? = some newline ↔ line = [] := by
      cases line with
      | nil => simp
      | cons b line => simpa using fun hb => hn.2 (by simp [hb])
    rw [List.cons_append, splitLines, if_neg (Ne.symm hn.1), ih hn.2]
    split
    · next hdrop =>
      obtain ⟨rfl, hline⟩ := hdrop
      simp [dropReturn, hhead.mp hline]
    · next hkeep => rw [dropReturn_cons (by rwa [← hhead])]

lemma splitLines_eq_singleton (hn : newline ∉ line) (hne : line ≠ []) : splitLines newline carriage line = [line] := by
  induction line with
  | nil => exact absurd rfl hne
  | cons c line ih =>
    rw [List.mem_cons, not_or] at hn
    have hkeep : ¬ (c = carriage ∧ line.head? = some newline) := fun h => hn.2 (List.mem_of_head? h.2)
    rw [splitLines, if_neg (Ne.symm hn.1), if_neg hkeep]
    cases line with
    | nil => rfl
    | cons b line => rw [ih hn.2 (List.cons_ne_nil b line)]

lemma splitLines_append_append (hne : carriage ≠ newline) :
    splitLines newline carriage (text ++ newline :: rest) =
      splitLines newline carriage (text ++ [newline]) ++ splitLines newline carriage rest := by
  induction text using line_induction newline with
  | last line hline => rw [splitLines_append hne hline, splitLines_append hne hline]; rfl
  | more line more hline ih =>
    rw [List.append_assoc, List.append_assoc, List.cons_append, List.cons_append, splitLines_append hne hline,
      splitLines_append hne hline, ih, List.cons_append]

lemma splitLines_append_of_ended (hne : carriage ≠ newline) (h : text = [] ∨ text.getLast? = some newline) :
    splitLines newline carriage (text ++ rest) = splitLines newline carriage text ++ splitLines newline carriage rest := by
  rcases h with rfl | h
  · rfl
  · rw [← List.dropLast_append_getLast? newline h, List.append_assoc, List.singleton_append]
    exact splitLines_append_append hne

lemma splitLines_flatMap {β : Type} [DecidableEq β] {code : α → List β} {newline' carriage' : β}
    (hne : carriage ≠ newline) (hne' : carriage' ≠ newline') (hnewline : code newline = [newline'])
    (hcarriage : code carriage = [carriage']) (hcode : ∀ c, code c ≠ [])
    (hnewline' : ∀ c, newline' ∈ code c → c = newline) (hcarriage' : ∀ c, carriage' ∈ code c → c = carriage) :
    splitLines newline' carriage' (text.flatMap code) =
      (splitLines newline carriage text).map (List.flatMap code) := by
  have hmem : ∀ line : List α, newline ∉ line → newline' ∉ line.flatMap code := by
    intro line hline hmem
    obtain ⟨c, hc, hcode⟩ := List.mem_flatMap.mp hmem
    exact hline (hnewline' c hcode ▸ hc)
  induction text using line_induction newline with
  | last line hline =>
    by_cases hnil : line = []
    · rw [hnil]
      rfl
    · have hcodes : line.flatMap code ≠ [] := by
        obtain ⟨c, hc⟩ := List.exists_mem_of_ne_nil line hnil
        simpa using ⟨c, hc, hcode c⟩
      rw [splitLines_eq_singleton hline hnil, splitLines_eq_singleton (hmem line hline) hcodes]
      rfl
  | more line rest hline ih =>
    have hdrop : dropReturn carriage' (line.flatMap code) = (dropReturn carriage line).flatMap code := by
      rcases List.eq_nil_or_concat line with rfl | ⟨front, c, rfl⟩
      · rfl
      · rw [List.concat_eq_append, dropReturn_concat, List.flatMap_append, List.flatMap_singleton]
        split
        · next hc => rw [hc, hcarriage, dropReturn_concat, if_pos rfl]
        · next hc =>
          have hlast : (front.flatMap code ++ code c).getLast? ≠ some carriage' := by
            rw [List.getLast?_append_of_ne_nil _ (hcode c)]
            exact fun h => hc (hcarriage' c (List.mem_of_getLast? h))
          rw [dropReturn, if_neg hlast, List.flatMap_append, List.flatMap_singleton]
    rw [splitLines_append hne hline, List.flatMap_append, List.flatMap_cons, hnewline, List.singleton_append,
      splitLines_append hne' (hmem line hline), ih, hdrop, List.map_cons]

lemma newline_notMem_of_mem_splitLines : ∀ l ∈ splitLines newline carriage text, newline ∉ l := by
  induction text with
  | nil => simp [splitLines]
  | cons c rest ih =>
    rw [splitLines]
    split_ifs with hc hdrop
    · exact List.forall_mem_cons.mpr ⟨List.not_mem_nil, ih⟩
    · exact ih
    · cases h : splitLines newline carriage rest with
      | nil => simpa using Ne.symm hc
      | cons l more =>
        rw [h, List.forall_mem_cons] at ih
        exact List.forall_mem_cons.mpr ⟨List.not_mem_cons_of_ne_of_not_mem (Ne.symm hc) ih.1, ih.2⟩

end

lemma lines_flatMap {ls : List (List Char)} (h : ∀ l ∈ ls, IsLine l) : lines (ls.flatMap (· ++ ['\n'])) = ls := by
  induction ls with
  | nil => rfl
  | cons l ls ih =>
    obtain ⟨⟨hn, hr⟩, hls⟩ := List.forall_mem_cons.mp h
    have hsplit : lines (l ++ '\n' :: ls.flatMap (· ++ ['\n'])) = l :: lines (ls.flatMap (· ++ ['\n'])) := by
      rw [lines, splitLines_append (by decide) hn, dropReturn, if_neg hr]
      rfl
    simpa only [List.flatMap_cons, List.append_assoc, List.singleton_append, ih hls] using hsplit

inductive SplitInto : List Char → List (List Char) → Prop
  | nil : SplitInto [] []
  | last {line : List Char} : '\n' ∉ line → line ≠ [] → SplitInto line [line]
  | cons {raw rest : List Char} {ls : List (List Char)} :
      '\n' ∉ raw → SplitInto rest ls → SplitInto (raw ++ '\n' :: rest) (dropReturn '\r' raw :: ls)

lemma splitInto_iff {text : List Char} {ls : List (List Char)} : SplitInto text ls ↔ ls = lines text := by
  constructor
  · intro h
    induction h with
    | nil => rfl
    | last hline hne => exact (splitLines_eq_singleton hline hne).symm
    | cons hraw _ ih => rw [lines, splitLines_append (by decide) hraw, ih, lines]
  · rintro rfl
    induction text using line_induction '\n' with
    | last line hline =>
      by_cases hne : line = []
      · subst hne
        exact .nil
      · rw [lines, splitLines_eq_singleton hline hne]
        exact .last hline hne
    | more raw rest hraw ih =>
      rw [lines, splitLines_append (by decide) hraw]
      exact .cons hraw ih

lemma length_lines_le (text : List Char) : (lines text).length ≤ text.length := by
  induction text using line_induction '\n' with
  | last line hline =>
    by_cases hne : line = []
    · simp [hne, lines, splitLines]
    · rw [lines, splitLines_eq_singleton hline hne]
      exact List.length_pos_of_ne_nil hne
  | more raw rest hraw ih =>
    rw [lines, splitLines_append (by decide) hraw]
    simp only [lines, List.length_cons, List.length_append] at ih ⊢
    omega

/-- A line stands between newlines or the ends of the text; a carriage return before its newline is not part of it. -/
def LineOf (text line : List Char) : Prop :=
  ∃ before raw after, text = before ++ raw ++ after ∧ '\n' ∉ raw ∧
    (before = [] ∨ ∃ front, before = front ++ ['\n']) ∧
    (after = [] ∧ line = raw ∨ ∃ rest, after = '\n' :: rest ∧ line = dropReturn '\r' raw)

lemma lineOf_of_mem_lines {text line : List Char} (h : line ∈ lines text) : LineOf text line := by
  induction text using line_induction '\n' with
  | last raw hraw =>
    have hne : raw ≠ [] := by
      rintro rfl
      cases h
    rw [lines, splitLines_eq_singleton hraw hne, List.mem_singleton] at h
    exact ⟨[], raw, [], by simp, hraw, .inl rfl, .inl ⟨rfl, h⟩⟩
  | more raw rest hraw ih =>
    rw [lines, splitLines_append (by decide) hraw, List.mem_cons] at h
    rcases h with rfl | h
    · exact ⟨[], raw, '\n' :: rest, rfl, hraw, .inl rfl, .inr ⟨rest, rfl, rfl⟩⟩
    · obtain ⟨before, inner, after, rfl, hinner, hbefore, hafter⟩ := ih h
      refine ⟨raw ++ '\n' :: before, inner, after, by simp, hinner, .inr ?_, hafter⟩
      rcases hbefore with rfl | ⟨front, rfl⟩
      · exact ⟨raw, rfl⟩
      · exact ⟨raw ++ '\n' :: front, by simp⟩

lemma LineOf.mem_lines {text line : List Char} (h : LineOf text line) (hne : line ≠ []) : line ∈ lines text := by
  obtain ⟨before, raw, after, rfl, hraw, hbefore, hafter⟩ := h
  have hrest : line ∈ lines (raw ++ after) := by
    rcases hafter with ⟨rfl, rfl⟩ | ⟨rest, rfl, rfl⟩
    · rw [List.append_nil, lines, splitLines_eq_singleton hraw hne]
      exact List.mem_singleton_self line
    · rw [lines, splitLines_append (by decide) hraw]
      exact List.mem_cons_self
  rcases hbefore with rfl | ⟨front, rfl⟩
  · exact hrest
  · rw [List.append_assoc, List.append_assoc, List.singleton_append, lines, splitLines_append_append (by decide)]
    exact List.mem_append_right _ hrest

variable {sep : Char} {before after text : List Char}

lemma fields_append (h : sep ∉ before) : fields sep (before ++ sep :: after) = before :: fields sep after := by
  induction before with
  | nil => simp [fields]
  | cons c before ih =>
    rw [List.mem_cons, not_or] at h
    rw [List.cons_append, fields, if_neg (Ne.symm h.1), ih h.2]

lemma fields_eq_singleton (h : sep ∉ text) : fields sep text = [text] := by
  induction text with
  | nil => rfl
  | cons c text ih =>
    rw [List.mem_cons, not_or] at h
    rw [fields, if_neg (Ne.symm h.1), ih h.2]

lemma fields_eq_iff {parts : List (List Char)} :
    fields sep text = parts ↔ parts ≠ [] ∧ (∀ part ∈ parts, sep ∉ part) ∧ [sep].intercalate parts = text := by
  constructor
  · rintro rfl
    refine ⟨fields_ne_nil sep text, ?_⟩
    induction text using line_induction sep with
    | last text htext => simp [fields_eq_singleton htext, htext, List.intercalate]
    | more before rest hbefore ih =>
      rw [fields_append hbefore, List.forall_mem_cons]
      obtain ⟨part, more, hparts⟩ := List.exists_cons_of_ne_nil (fields_ne_nil sep rest)
      refine ⟨⟨hbefore, ih.1⟩, ?_⟩
      rw [hparts] at ih ⊢
      rw [List.intercalate_cons_cons, ih.2]
      simp
  · rintro ⟨hne, hparts, rfl⟩
    induction parts with
    | nil => exact absurd rfl hne
    | cons part more ih =>
      rw [List.forall_mem_cons] at hparts
      cases more with
      | nil => simpa [List.intercalate] using fields_eq_singleton hparts.1
      | cons next more =>
        rw [List.intercalate_cons_cons, List.append_assoc, List.singleton_append, fields_append hparts.1,
          ih (List.cons_ne_nil next more) hparts.2]

end PatternInference.Text
