import PatternInference.Proofs.CommandLine.Arguments
import PatternInference.Proofs.CommandLine.Samples
import PatternInference.Proofs.Inference.Exactness

/-! A tool fails only for its arguments or its inputs: once there is a sample, all that follows succeeds. -/

namespace PatternInference.CommandLine

variable {tool : Tool} {args : List String} {settings : Settings} {files : Files} {stdin : ByteArray}
  {texts words : List (List Char)} {o : Options} {out : List Char}

inductive Prints (words : List (List Char)) : Tool → Options → List Char → Prop
  | pattern {o : Options} {text : List Char} (h : ((Inference.create o).load words).pattern false = .ok text) :
    Prints words .pattern o (text ++ ['\n'])
  | dump {o : Options} {m : Minimization Char} {d : Dump Char}
    (hm : ∀ o', ((Inference.create o').load words).automaton false = .ok m) (hd : m.dump = .ok d) :
    Prints words .dump o d.print

lemma output_eq_ok_iff : output tool o words = .ok out ↔ Prints words tool o out := by
  constructor
  · intro h
    cases tool with
    | pattern =>
      obtain ⟨text, htext, h⟩ := bind_eq_ok_iff.mp h
      rw [← Except.ok.inj h]
      exact .pattern htext
    | dump =>
      obtain ⟨m, hm, h⟩ := bind_eq_ok_iff.mp h
      obtain ⟨d, hd, h⟩ := bind_eq_ok_iff.mp h
      rw [← Except.ok.inj h]
      exact .dump (fun _ => hm) hd
  · intro h
    cases h with
    | pattern htext => exact bind_eq_ok_iff.mpr ⟨_, htext, rfl⟩
    | dump hm hd => exact bind_eq_ok_iff.mpr ⟨_, hm o, bind_eq_ok_iff.mpr ⟨_, hd, rfl⟩⟩

lemma exists_prints (tool : Tool) (o : Options) (hne : words ≠ []) : ∃ out, Prints words tool o out := by
  obtain ⟨word, hspelled, hwords⟩ := Inference.spelled_load o [words]
  rw [List.flatten_singleton] at hwords
  have haccepted := Inference.accepted_ne hwords hne
  cases tool with
  | pattern =>
    obtain ⟨text, _, htext, _⟩ := Inference.pattern_spec hspelled haccepted
    exact ⟨_, .pattern htext⟩
  | dump =>
    obtain ⟨m, d, hm, hd, _⟩ := Inference.automaton_spec hspelled haccepted
    exact ⟨_, .dump (fun _ => hm) hd⟩

lemma Prints.ne_nil (h : Prints words tool o out) : words ≠ [] := by
  rintro rfl
  cases h with
  | pattern h => cases h
  | dump hm => cases hm o

/-- The arguments can be read, all inputs are texts, and not every line is blank. -/
structure Accepts (args : List String) (stdin : ByteArray) (files : Files) (settings : Settings)
    (texts : List (List Char)) : Prop where
  parsed : Settings.read {} args = .ok settings
  given : Gives files stdin (sources settings.files) texts
  sample : ∃ text ∈ texts, ∃ line, Text.LineOf text line ∧ Text.isBlank line = false

lemma linesOf_ne_nil_iff :
    linesOf texts ≠ [] ↔ ∃ text ∈ texts, ∃ line, Text.LineOf text line ∧ Text.isBlank line = false := by
  constructor
  · intro hne
    obtain ⟨line, hline⟩ := List.exists_mem_of_ne_nil _ hne
    obtain ⟨hblank, text, htext, hof⟩ := mem_linesOf.mp hline
    exact ⟨text, htext, line, hof, hblank⟩
  · rintro ⟨text, htext, line, hof, hblank⟩
    exact List.ne_nil_of_mem (mem_linesOf.mpr ⟨hblank, text, htext, hof⟩)

lemma answer_eq_ok_iff : answer tool args stdin files = .ok out ↔
    ∃ settings texts, Accepts args stdin files settings texts ∧ Prints (linesOf texts) tool settings.options out := by
  constructor
  · intro h
    obtain ⟨settings, hsettings, h⟩ := bind_eq_ok_iff.mp h
    obtain ⟨words, hwords, hout⟩ := bind_eq_ok_iff.mp h
    obtain ⟨texts, htexts, rfl⟩ := samples_eq_ok_iff.mp hwords
    have hprints := output_eq_ok_iff.mp (mapError_eq_ok_iff.mp hout)
    exact ⟨settings, texts, ⟨mapError_eq_ok_iff.mp hsettings, htexts, linesOf_ne_nil_iff.mp hprints.ne_nil⟩, hprints⟩
  · rintro ⟨settings, texts, haccepts, hprints⟩
    refine bind_eq_ok_iff.mpr ⟨settings, mapError_eq_ok_iff.mpr haccepts.parsed, ?_⟩
    refine bind_eq_ok_iff.mpr ⟨linesOf texts, samples_eq_ok_iff.mpr ⟨texts, haccepts.given, rfl⟩, ?_⟩
    exact mapError_eq_ok_iff.mpr (output_eq_ok_iff.mpr hprints)

def report : Except Failure (List Char) → Result
  | .ok out => ⟨0, String.ofList out, ""⟩
  | .error failure => ⟨1, "", text ["error: " ++ failure.message]⟩

lemma run_eq_report (hhelp : wantsHelp args = false) :
    run tool args stdin files = report (answer tool args stdin files) := by
  rw [run, hhelp]
  cases answer tool args stdin files <;> rfl

lemma report_code_iff {x : Except Failure (List Char)} : (report x).code = 0 ↔ ∃ out, x = .ok out := by
  cases x with
  | ok out => exact ⟨fun _ => ⟨out, rfl⟩, fun _ => rfl⟩
  | error failure => simp [report]

lemma Accepts.answer (h : Accepts args stdin files settings texts) (tool : Tool) :
    ∃ out, Prints (linesOf texts) tool settings.options out ∧ CommandLine.answer tool args stdin files = .ok out := by
  obtain ⟨out, hprints⟩ := exists_prints tool settings.options (linesOf_ne_nil_iff.mpr h.sample)
  exact ⟨out, hprints, answer_eq_ok_iff.mpr ⟨settings, texts, h, hprints⟩⟩

lemma exists_answer_iff : (∃ out, answer tool args stdin files = .ok out) ↔
    ∃ settings texts, Accepts args stdin files settings texts := by
  constructor
  · rintro ⟨out, hout⟩
    obtain ⟨settings, texts, haccepts, _⟩ := answer_eq_ok_iff.mp hout
    exact ⟨settings, texts, haccepts⟩
  · rintro ⟨settings, texts, haccepts⟩
    obtain ⟨out, _, hout⟩ := haccepts.answer tool
    exact ⟨out, hout⟩

theorem run_exit_code (tool : Tool) (hshort : "-h" ∉ args) (hlong : "--help" ∉ args) :
    ((run tool args stdin files).code = 0 ↔ ∃ settings texts, Accepts args stdin files settings texts) ∧
      (∀ settings texts, Accepts args stdin files settings texts → ∃ out,
        Prints (linesOf texts) tool settings.options out ∧ run tool args stdin files = ⟨0, String.ofList out, ""⟩) ∧
      ((run tool args stdin files).code ≠ 0 →
        (run tool args stdin files).code = 1 ∧ (run tool args stdin files).stdout = "") := by
  rw [run_eq_report (wantsHelp_eq_false_iff.mpr ⟨hshort, hlong⟩)]
  refine ⟨report_code_iff.trans exists_answer_iff, ?_, ?_⟩
  · intro settings texts haccepts
    obtain ⟨out, hprints, hout⟩ := haccepts.answer tool
    exact ⟨out, hprints, by rw [hout, report]⟩
  · cases answer tool args stdin files with
    | ok out => exact fun hcode => absurd rfl hcode
    | error failure => exact fun _ => ⟨rfl, rfl⟩

theorem run_exit_code_dash_twice :
    let files : Files := fun _ => .ok ['a', 'b', '\n', ' ', '\n'].utf8Encode
    let args := ["--group", "-", "x", "-"]
    (run .pattern args ['c', '\n'].utf8Encode files).code = 0 ∧
      (∃ out, Prints [['c'], ['a', 'b']] .pattern { grouped := true } out ∧
        run .pattern args ['c', '\n'].utf8Encode files = ⟨0, String.ofList out, ""⟩) ∧
      (run .dump ["-v", "-"] ['\n', ' ', '\n'].utf8Encode files).code = 1 ∧
      (run .dump ["-v", "-"] ['\n', ' ', '\n'].utf8Encode files).stdout = "" := by
  intro files args
  have hsettings : Settings.read {} args = .ok ⟨{ grouped := true }, 0, ["-", "x", "-"]⟩ := by decide +kernel
  have hgives : Gives files ['c', '\n'].utf8Encode ["-", "x", "-"] [['c', '\n'], ['a', 'b', '\n', ' ', '\n'], []] :=
    .dash _ rfl (.file _ (by decide) rfl (.dash _ rfl (.nil _)))
  have hlines : linesOf [['c', '\n'], ['a', 'b', '\n', ' ', '\n'], []] = [['c'], ['a', 'b']] := by decide +kernel
  have haccepts : Accepts args ['c', '\n'].utf8Encode files ⟨{ grouped := true }, 0, ["-", "x", "-"]⟩ _ :=
    ⟨hsettings, hgives, linesOf_ne_nil_iff.mp (by rw [hlines]; decide)⟩
  obtain ⟨hcode, hout, _⟩ := @run_exit_code args files ['c', '\n'].utf8Encode .pattern (by decide) (by decide)
  obtain ⟨out, hprints, hrun⟩ := hout _ _ haccepts
  rw [hlines] at hprints
  refine ⟨hcode.mpr ⟨_, _, haccepts⟩, ⟨out, hprints, hrun⟩, ?_⟩
  apply (@run_exit_code ["-v", "-"] files ['\n', ' ', '\n'].utf8Encode .dump (by decide) (by decide)).2.2
  decide +kernel

end PatternInference.CommandLine
