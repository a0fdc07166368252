import PatternInference.Proofs.Automaton.Counts
import PatternInference.Proofs.CommandLine.Samples
import PatternInference.Proofs.Dump.RoundTrip
import PatternInference.Proofs.Inference.Samples

namespace PatternInference.CommandLine

variable {args : List String} {settings : Settings} {files : Files} {stdin : ByteArray} {texts words : List (List Char)}

lemma output_dump (o : Options) (hne : words ≠ []) (hlines : ∀ w ∈ words, '\n' ∉ w)
    (hsize : (Trie.empty.insertMany words).stateCount ≤ Numeral.maxCount) :
    ∃ d : Dump Char, output .dump o words = .ok d.print ∧ d.Printable ∧ d.Minimal ∧
      ∀ w, w ∈ d.language ↔ w ∈ words := by
  obtain ⟨word, hspelled, hwords⟩ := Inference.spelled_load o [words]
  rw [List.flatten_singleton] at hwords
  obtain ⟨m, d, hm, hd, hminimal, hlanguage⟩ := Inference.automaton_spec hspelled (Inference.accepted_ne hwords hne)
  have htransitions := hminimal.transitions_length_lt hspelled fun w => (hlanguage w).mp
  rw [Inference.foldl_load, List.flatten_singleton] at htransitions
  have htransitions := htransitions.trans_le hsize
  have hstates := hminimal.stateCount_le
  have haccepting := hminimal.accepting_length_le
  refine ⟨d, ?_, ?_, hminimal, fun w => (hlanguage w).trans (hwords w)⟩
  · rw [List.foldl_cons, List.foldl_nil] at hm
    simp only [output, hm, hd, bind, Except.bind, pure, Except.pure]
  · refine ⟨by omega, by omega, by omega, hminimal.initial_lt, hminimal.ends_lt, hminimal.accepting_lt, ?_⟩
    intro e he hnewline
    obtain ⟨u, v, _, hw⟩ := hminimal.exists_word he
    apply hlines _ ((hwords _).mp ((hlanguage _).mp hw))
    rw [List.mem_singleton.mp hnewline]
    exact List.mem_append_right u List.mem_cons_self

theorem dump_accepts_lines (hhelp : wantsHelp args = false) (hsettings : Settings.read {} args = .ok settings)
    (htexts : Gives files stdin (sources settings.files) texts)
    (hne : ∃ line, Text.isBlank line = false ∧ ∃ text ∈ texts, Text.LineOf text line)
    (hsize : (Trie.empty.insertMany (linesOf texts)).stateCount ≤ Numeral.maxCount) :
    (run .dump args stdin files).code = 0 ∧
      ∃ d : Dump Char, Dump.parse (run .dump args stdin files).stdout.toList = .ok d ∧ d.Minimal ∧
        ∀ w, w ∈ d.language ↔ Text.isBlank w = false ∧ ∃ text ∈ texts, Text.LineOf text w := by
  obtain ⟨line, hline⟩ := hne
  obtain ⟨d, hd, hprintable, hminimal, hlanguage⟩ := output_dump settings.options
    (List.ne_nil_of_mem (mem_linesOf.mpr hline)) (fun w => newline_notMem_of_mem_linesOf) hsize
  have hanswer : answer .dump args stdin files = .ok d.print := by
    simp only [answer, hsettings, htexts.samples, hd, Except.mapError, bind, Except.bind]
  rw [run, hhelp, hanswer]
  refine ⟨rfl, d, ?_, hminimal, fun w => (hlanguage w).trans mem_linesOf⟩
  simpa using Dump.parse_print hprintable

theorem dump_accepts_lines_mixed :
    let files : Files := fun _ => .ok ['a', ' ', '\r', '\n', ' ', '\n', '\t', 'a', '\r'].utf8Encode
    let result := run .dump ["-v", "x", "-"] ['é', '\n', 'a', ' ', '\n'].utf8Encode files
    result.code = 0 ∧ ∃ d : Dump Char, Dump.parse result.stdout.toList = .ok d ∧ d.Minimal ∧
      ∀ w, w ∈ d.language ↔ w ∈ [['a', ' '], ['\t', 'a', '\r'], ['é'], ['a', ' ']] := by
  intro files result
  have htexts : Gives files ['é', '\n', 'a', ' ', '\n'].utf8Encode ["x", "-"]
      [['a', ' ', '\r', '\n', ' ', '\n', '\t', 'a', '\r'], ['é', '\n', 'a', ' ', '\n']] :=
    .file _ (by decide) rfl (.dash _ rfl (.nil _))
  have hlines : linesOf [['a', ' ', '\r', '\n', ' ', '\n', '\t', 'a', '\r'], ['é', '\n', 'a', ' ', '\n']] =
      [['a', ' '], ['\t', 'a', '\r'], ['é'], ['a', ' ']] := by decide +kernel
  have hsettings : Settings.read {} ["-v", "x", "-"] = .ok ⟨{}, 1, ["x", "-"]⟩ := by decide +kernel
  obtain ⟨hcode, d, hparse, hminimal, hlanguage⟩ := dump_accepts_lines (by decide) hsettings htexts
    ⟨['é'], mem_linesOf.mp (by rw [hlines]; decide)⟩ (by rw [hlines]; decide +kernel)
  refine ⟨hcode, d, hparse, hminimal, fun w => (hlanguage w).trans ?_⟩
  rw [← mem_linesOf, hlines]

end PatternInference.CommandLine
