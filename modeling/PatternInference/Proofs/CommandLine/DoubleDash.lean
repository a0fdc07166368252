import PatternInference.Proofs.CommandLine.ExitCodes

namespace PatternInference.CommandLine

variable {tool : Tool} {args : List String} {s : Settings} {files : Files} {stdin : ByteArray}

def respond (tool : Tool) (options : Options) (names : List String) (stdin : ByteArray) (files : Files) :
    Except Failure (List Char) := do
  let words ← samples files stdin names
  (output tool options words).mapError .inference

lemma answer_of_read (h : Settings.read {} args = .ok s) :
    answer tool args stdin files = respond tool s.options s.files stdin files := by
  rw [answer, h]
  rfl

lemma samples_unreadable (names : List String) :
    ∃ failure, samples (fun _ => .error .notFound) ⟨#[255]⟩ names = .error failure := by
  have hstdin : ∀ source, samplesFrom source ⟨#[255]⟩ = .error (.unreadable source .notText) := by
    intro source
    have hnone : samplesOfBytes? ⟨#[255]⟩ = none := by decide +kernel
    rw [samplesFrom, hnone]
  cases names with
  | nil => exact ⟨_, hstdin "stdin"⟩
  | cons name rest =>
    by_cases hname : name = "-"
    · refine ⟨.unreadable name .notText, ?_⟩
      rw [samples, if_neg (List.cons_ne_nil name rest), samplesOf, if_pos hname, hstdin]
      rfl
    · refine ⟨.unreadable name .notFound, ?_⟩
      rw [samples, if_neg (List.cons_ne_nil name rest), samplesOf, if_neg hname]

lemma prints_help_iff :
    (∀ stdin files, run tool args stdin files = ⟨0, text tool.help, ""⟩) ↔ "-h" ∈ args ∨ "--help" ∈ args := by
  have hwants : wantsHelp args = true ↔ "-h" ∈ args ∨ "--help" ∈ args := by
    rw [← Bool.not_eq_false, wantsHelp_eq_false_iff]
    grind
  rw [← hwants]
  constructor
  · intro hhelp
    by_contra hwants
    have hrun := hhelp ⟨#[255]⟩ fun _ => .error .notFound
    rw [run_eq_report (by simpa using hwants)] at hrun
    obtain ⟨out, hout⟩ := report_code_iff.mp (congrArg Result.code hrun)
    obtain ⟨s, _, hout⟩ := bind_eq_ok_iff.mp hout
    obtain ⟨words, hwords, _⟩ := bind_eq_ok_iff.mp hout
    obtain ⟨failure, hfailure⟩ := samples_unreadable s.files
    rw [hfailure] at hwords
    cases hwords
  · intro hwants stdin files
    rw [run, if_pos hwants]

lemma read_behind (h : Settings.read {} (ahead args) = .ok s) :
    s.files = (ahead args).filter (fun arg => ¬ IsFlag arg) ∧
      Settings.read {} args = .ok { s with files := s.files ++ behind args } := by
  have hknown := known_of_read h
  rw [ahead_ahead] at hknown
  obtain ⟨t, ht, hahead, hread⟩ := read_of_known hknown
  rw [h] at hahead
  obtain rfl := Except.ok.inj hahead
  exact ⟨ht.files, hread⟩

theorem double_dash_ends_options (tool : Tool) (args : List String) :
    ((∀ stdin files, run tool args stdin files = ⟨0, text tool.help, ""⟩) ↔
        ("-h" ∈ ahead args ∨ "--help" ∈ ahead args) ∨ "-h" ∈ behind args ∨ "--help" ∈ behind args) ∧
      ("-h" ∉ args → "--help" ∉ args → ∀ s, Settings.read {} (ahead args) = .ok s → ∀ stdin files,
        run tool args stdin files =
          report (respond tool s.options ((ahead args).filter (fun arg => ¬ IsFlag arg) ++ behind args) stdin files)) := by
  constructor
  · have hshort : "-h" ∈ args ↔ "-h" ∈ ahead args ∨ "-h" ∈ behind args := mem_iff_ahead_or_behind (by decide)
    have hlong : "--help" ∈ args ↔ "--help" ∈ ahead args ∨ "--help" ∈ behind args := mem_iff_ahead_or_behind (by decide)
    rw [prints_help_iff, hshort, hlong]
    exact or_or_or_comm
  · intro hshort hlong s hs stdin files
    obtain ⟨hfiles, hread⟩ := read_behind hs
    rw [run_eq_report (wantsHelp_eq_false_iff.mpr ⟨hshort, hlong⟩), answer_of_read hread, hfiles]

theorem double_dash_ends_options_of_flags :
    let args := ["--group", "a", "--", "-v", "--", "-"]
    (∀ stdin files, run .dump args stdin files =
        report (respond .dump { grouped := true } ["a", "-v", "--", "-"] stdin files)) ∧
      ∃ stdin files, run .dump args stdin files ≠ ⟨0, text Tool.dump.help, ""⟩ := by
  intro args
  have hread : Settings.read {} (ahead args) = .ok ⟨{ grouped := true }, 0, ["a"]⟩ := by decide +kernel
  have hnames : (ahead args).filter (fun arg => ¬ IsFlag arg) ++ behind args = ["a", "-v", "--", "-"] := by decide +kernel
  obtain ⟨hhelp, hrun⟩ := double_dash_ends_options .dump args
  refine ⟨fun stdin files => ?_, ?_⟩
  · rw [hrun (by decide) (by decide) _ hread, hnames]
  · by_contra hall
    simp only [ne_eq, not_exists, not_not] at hall
    exact absurd (hhelp.mp hall) (by decide +kernel)

theorem help_behind_double_dash :
    let files : Files := fun _ => .ok ['m', '\n', 'n', '\n'].utf8Encode
    run .pattern ["--", "-h"] .empty files = ⟨0, text Tool.pattern.help, ""⟩ ∧
      "-h" ∉ ahead ["--", "-h"] ∧ "--help" ∉ ahead ["--", "-h"] := by
  refine ⟨rfl, ?_, ?_⟩ <;> decide

end PatternInference.CommandLine
