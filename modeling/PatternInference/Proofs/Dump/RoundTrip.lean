import PatternInference.Proofs.Dump.Grammar
import PatternInference.Proofs.Lists
import PatternInference.Proofs.Text.Lines

/-! The text of an automaton is read as that automaton, and so is the text of whatever a text is read as. -/

namespace PatternInference

lemma Numeral.notMem_digits {n : Nat} {c : Char} (hc : c.isDigit = false) : c ∉ digits n := by
  intro h
  rw [isDigit_of_mem_digits h] at hc
  cases hc

class SingleLine (α : Type) [PrintedSymbol α] : Prop where
  newline_notMem_print {text : List Char} {a : α} :
    '\n' ∉ text → PrintedSymbol.parse? text = some a → '\n' ∉ PrintedSymbol.print a

instance : SingleLine Char where
  newline_notMem_print {text a} htext h := by
    match text, h with
    | [c], h =>
      obtain rfl : c = a := Option.some.inj h
      exact htext

instance : SingleLine Int64 where
  newline_notMem_print {text a} _ _ := by
    change '\n' ∉ Numeral.ofWord a
    have hdigits : '\n' ∉ Numeral.digits a.toInt.natAbs := Numeral.notMem_digits rfl
    unfold Numeral.ofWord
    split_ifs
    · exact List.not_mem_cons_of_ne_of_not_mem (by decide) hdigits
    · exact hdigits

instance : SingleLine (List Char) where
  newline_notMem_print {text a} htext h := by
    obtain rfl : text = a := Option.some.inj h
    exact htext

namespace Dump

variable {α : Type} [PrintedSymbol α]

structure Printable (d : Dump α) : Prop where
  stateCount_le : d.stateCount ≤ Numeral.maxCount
  transitions_le : d.transitions.length ≤ Numeral.maxCount
  accepting_le : d.accepting.length ≤ Numeral.maxCount
  initial_lt : d.initial < d.stateCount
  ends_lt : ∀ t ∈ d.transitions, t.source < d.stateCount ∧ t.target < d.stateCount
  accepting_lt : ∀ s ∈ d.accepting, s < d.stateCount
  newline_notMem : ∀ t ∈ d.transitions, '\n' ∉ PrintedSymbol.print t.symbol

variable {d : Dump α} {t : Transition α} {n s : Nat} {ls : List (List Char)}

lemma isLine_append_digits {front : List Char} (h : '\n' ∉ front) : Text.IsLine (front ++ Numeral.digits n) := by
  constructor
  · rw [List.mem_append, not_or]
    exact ⟨h, Numeral.notMem_digits rfl⟩
  · intro hlast
    have hne : Numeral.digits n ≠ [] := Nat.toDigits_ne_nil
    rw [List.getLast?_append_of_ne_nil _ hne] at hlast
    exact Numeral.notMem_digits rfl (List.mem_of_getLast? hlast)

lemma isLine_of_mem_printLines (h : d.Printable) : ∀ l ∈ d.printLines, Text.IsLine l := by
  have hnl (n : Nat) : '\n' ∉ Numeral.digits n := Numeral.notMem_digits rfl
  rw [printLines, List.forall_mem_cons, List.forall_mem_append, List.forall_mem_map, List.forall_mem_map]
  refine ⟨?_, fun t ht => ?_, fun s _ => ?_⟩
  · have hfront : '\n' ∉ Numeral.digits d.stateCount ++ ' ' :: Numeral.digits d.transitions.length ++
        ' ' :: Numeral.digits d.initial ++ [' '] := by simp [hnl]
    simpa [header] using isLine_append_digits hfront
  · have hfront : '\n' ∉ Numeral.digits t.source ++ ' ' :: PrintedSymbol.print t.symbol ++ [' '] := by
      simp [hnl, h.newline_notMem t ht]
    simpa [Transition.print] using isLine_append_digits hfront
  · exact isLine_append_digits List.not_mem_nil

lemma spells_digits (hn : n ≤ Numeral.maxCount) : Numeral.Spells (Numeral.digits n) n :=
  Numeral.count?_eq_some_iff.mp (Numeral.count?_digits hn)

lemma stateText_digits (hn : n ≤ Numeral.maxCount) (hs : s < n) : StateText n (Numeral.digits s) s :=
  ⟨spells_digits (by omega), hs⟩

lemma headerText_header (h : d.Printable) : HeaderText d.header d.shape := by
  refine ⟨Numeral.digits d.stateCount, Numeral.digits d.transitions.length, Numeral.digits d.initial,
    Numeral.digits d.accepting.length, ?_, spells_digits h.stateCount_le, spells_digits h.transitions_le,
    stateText_digits h.stateCount_le h.initial_lt, spells_digits h.accepting_le⟩
  simp [header]

lemma transitionText_print (hn : n ≤ Numeral.maxCount) (ht : t.source < n ∧ t.target < n) :
    TransitionText n t.print t := by
  refine ⟨Numeral.digits t.source, PrintedSymbol.print t.symbol, Numeral.digits t.target, ?_, Numeral.notMem_digits rfl,
    Numeral.notMem_digits rfl, stateText_digits hn ht.1, stateText_digits hn ht.2, PrintedSymbol.parse?_print t.symbol⟩
  simp [Transition.print]

lemma linesOf_printLines (h : d.Printable) : LinesOf d.printLines d := by
  have hedges : List.Forall₂ (TransitionText d.stateCount) (d.transitions.map Transition.print) d.transitions := by
    rw [List.forall₂_map_left_iff, List.forall₂_same]
    exact fun t ht => transitionText_print h.stateCount_le (h.ends_lt t ht)
  have hfinals : List.Forall₂ (StateText d.stateCount) (d.accepting.map Numeral.digits) d.accepting := by
    rw [List.forall₂_map_left_iff, List.forall₂_same]
    exact fun s hs => stateText_digits h.stateCount_le (h.accepting_lt s hs)
  have hlines := LinesOf.intro (headerText_header h) hedges hfinals (List.forall_mem_nil _)
  simpa only [printLines, List.append_nil] using hlines

lemma parse_print (h : d.Printable) : parse d.print = .ok d := by
  rw [parse, print, Text.lines_flatMap (isLine_of_mem_printLines h), ofLines_eq_ok_iff]
  exact linesOf_printLines h

lemma LinesOf.printable [SingleLine α] (h : LinesOf ls d) (hls : ∀ l ∈ ls, '\n' ∉ l) : d.Printable := by
  obtain ⟨⟨_, _, _, _, -, hstates, htransitions, hinitial, haccepting⟩, hedges, hfinals, -⟩ := h
  rw [List.forall_mem_cons, List.forall_mem_append] at hls
  constructor
  · exact hstates.le
  · exact htransitions.le
  · exact haccepting.le
  · exact hinitial.2
  · refine forall_mem_of_forall₂ hedges ?_
    rintro _ t - ⟨_, _, _, -, -, -, hs, hu, -⟩
    exact ⟨hs.2, hu.2⟩
  · exact forall_mem_of_forall₂ hfinals fun _ _ _ h => h.2
  · refine forall_mem_of_forall₂ hedges ?_
    rintro l t hl ⟨source, symbol, target, rfl, -, -, -, -, hsymbol⟩
    refine SingleLine.newline_notMem_print (fun hmem => hls.2.1 _ hl ?_) hsymbol
    simp [hmem]

theorem print_round_trips [SingleLine α] :
    (∀ d : Dump α, d.Printable → parse d.print = .ok d) ∧
      ∀ (text : List Char) (d : Dump α), parse text = .ok d → parse d.print = .ok d := by
  refine ⟨fun d => parse_print, fun text d htext => ?_⟩
  rw [parse, ofLines_eq_ok_iff] at htext
  exact parse_print (htext.printable Text.newline_notMem_of_mem_splitLines)

theorem print_round_trips_odd_symbols :
    let words : Dump (List Char) := ⟨2, 0, [⟨0, [' ', '\r', ' '], 1⟩, ⟨1, [], 0⟩, ⟨1, ['\r'], 1⟩], [1, 1]⟩
    let chars : Dump Char := ⟨2, 1, [⟨1, ' ', 0⟩, ⟨0, '\r', 0⟩], []⟩
    let numbers : Dump Int64 := ⟨11, 10, [⟨10, -7, 3⟩], [0]⟩
    parse words.print = .ok words ∧ parse chars.print = .ok chars ∧ parse numbers.print = .ok numbers ∧
      parse "11 +1 10 01\n10 -07 3\r\n0\n\n\r\n".toList = .ok numbers := by
  intro words chars numbers
  have hread : parse "11 +1 10 01\n10 -07 3\r\n0\n\n\r\n".toList = .ok numbers := by rfl
  exact ⟨print_round_trips.1 words (by constructor <;> decide), print_round_trips.1 chars (by constructor <;> decide),
    print_round_trips.2 _ numbers hread, hread⟩

end Dump
end PatternInference
