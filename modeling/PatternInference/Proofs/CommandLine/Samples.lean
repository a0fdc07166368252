import Mathlib.Tactic.SplitIfs
import PatternInference.CommandLine.Run
import PatternInference.Proofs.Lists
import PatternInference.Proofs.Text.Lines

namespace PatternInference.CommandLine

lemma toNat_eq_of_mem_utf8EncodeChar {c : Char} {b : UInt8} (hb : b.toNat < 128)
    (h : b ∈ String.utf8EncodeChar c) : c.toNat = b.toNat := by
  -- all bytes of a longer code have their highest bit set
  rw [String.utf8EncodeChar] at h
  split_ifs at h <;> simp only [List.mem_cons, List.not_mem_nil, or_false] at h
  · rw [h, UInt8.toNat_ofNat']
    change c.val.toNat = _
    omega
  · rcases h with rfl | rfl <;> rw [UInt8.toNat_ofNat'] at hb <;> omega
  · rcases h with rfl | rfl | rfl <;> rw [UInt8.toNat_ofNat'] at hb <;> omega
  · rcases h with rfl | rfl | rfl | rfl <;> rw [UInt8.toNat_ofNat'] at hb <;> omega

lemma splitLines_utf8Encode (text : List Char) :
    Text.splitLines 10 13 text.utf8Encode.data.toList = (Text.lines text).map (List.flatMap String.utf8EncodeChar) := by
  have hascii : ∀ {c d : Char} {b : UInt8}, b.toNat < 128 → d.toNat = b.toNat → b ∈ String.utf8EncodeChar c → c = d :=
    fun hb hd h => Text.eq_of_toNat_eq ((toNat_eq_of_mem_utf8EncodeChar hb h).trans hd.symm)
  rw [List.utf8Encode, List.toList_data_toByteArray]
  apply Text.splitLines_flatMap (by decide) (by decide) (by decide) (by decide)
  · intro c
    rw [String.utf8EncodeChar]
    split_ifs <;> exact List.cons_ne_nil _ _
  · exact fun c => hascii (by decide) (by decide)
  · exact fun c => hascii (by decide) (by decide)

lemma decode?_utf8 (line : List Char) : decode? (line.flatMap String.utf8EncodeChar) = some line := by
  have hbytes : ByteArray.mk (line.flatMap String.utf8EncodeChar).toArray = line.utf8Encode := by
    apply ByteArray.ext
    apply Array.toList_inj.mp
    rw [List.utf8Encode, List.toList_data_toByteArray]
  rw [decode?, hbytes, List.utf8Decode?_utf8Encode]
  rfl

lemma samplesOfBytes?_utf8Encode (text : List Char) :
    samplesOfBytes? text.utf8Encode = some ((Text.lines text).filter fun line => !Text.isBlank line) := by
  have hlines : ((Text.lines text).map (List.flatMap String.utf8EncodeChar)).mapM decode? = some (Text.lines text) := by
    rw [List.mapM_map, mapM_eq_pure_map (f := decode? ∘ _) id fun line _ => decode?_utf8 line, List.map_id]
    rfl
  rw [samplesOfBytes?, splitLines_utf8Encode, hlines]
  rfl

lemma eq_utf8_of_decode? {line : List UInt8} {cs : List Char} (h : decode? line = some cs) :
    line = cs.flatMap String.utf8EncodeChar := by
  obtain ⟨text, htext, rfl⟩ := Option.map_eq_some_iff.mp h
  have hbytes := ByteArray.utf8Encode_get_utf8Decode? (b := ⟨line.toArray⟩) (h := by rw [htext]; rfl)
  simp only [htext, Option.get_some] at hbytes
  rw [← List.toList_data_toByteArray (l := text.toList.flatMap String.utf8EncodeChar), ← List.utf8Encode, hbytes]

lemma exists_text_of_mapM_decode? {bytes : List UInt8} {lines : List (List Char)}
    (h : (Text.splitLines 10 13 bytes).mapM decode? = some lines) : 
    ∃ text : List Char, bytes = text.flatMap String.utf8EncodeChar := by
  induction bytes using Text.line_induction (10 : UInt8) generalizing lines with
  | last line hline =>
    by_cases hne : line = []
    · exact ⟨[], hne⟩
    · rw [Text.splitLines_eq_singleton hline hne, List.mapM_cons] at h
      obtain ⟨cs, hcs, _⟩ := Option.bind_eq_some_iff.mp h
      exact ⟨cs, eq_utf8_of_decode? hcs⟩
  | more line rest hline ih =>
    rw [Text.splitLines_append (by decide) hline, List.mapM_cons] at h
    obtain ⟨cs, hcs, h⟩ := Option.bind_eq_some_iff.mp h
    obtain ⟨more, hmore, _⟩ := Option.bind_eq_some_iff.mp h
    obtain ⟨text, rfl⟩ := ih hmore
    have hdropped := eq_utf8_of_decode? hcs
    rw [Text.dropReturn] at hdropped
    split at hdropped
    · next hlast =>
      have hline : line = line.dropLast ++ [13] := (List.dropLast_append_getLast? 13 hlast).symm
      refine ⟨cs ++ '\r' :: '\n' :: text, ?_⟩
      rw [hline, hdropped, List.append_assoc, List.flatMap_append]
      rfl
    · refine ⟨cs ++ '\n' :: text, ?_⟩
      rw [List.flatMap_append, List.flatMap_cons, hdropped]
      rfl

lemma samplesOfBytes?_eq_some_iff {bytes : ByteArray} {words : List (List Char)} :
    samplesOfBytes? bytes = some words ↔
      ∃ text : List Char, bytes = text.utf8Encode ∧ words = (Text.lines text).filter fun line => !Text.isBlank line := by
  constructor
  · intro h
    obtain ⟨lines, hlines, _⟩ := Option.bind_eq_some_iff.mp h
    obtain ⟨text, htext⟩ := exists_text_of_mapM_decode? hlines
    have hbytes : bytes = text.utf8Encode := by
      apply ByteArray.ext
      apply Array.toList_inj.mp
      rw [htext, List.utf8Encode, List.toList_data_toByteArray]
    rw [hbytes, samplesOfBytes?_utf8Encode, Option.some_inj] at h
    exact ⟨text, hbytes, h.symm⟩
  · rintro ⟨text, rfl, rfl⟩
    exact samplesOfBytes?_utf8Encode text

/-- The names give these texts; a dash gives the standard input, which is empty from then on. -/
inductive Gives (files : Files) : ByteArray → List String → List (List Char) → Prop
  | nil (stdin : ByteArray) : Gives files stdin [] []
  | dash {stdin : ByteArray} {names : List String} {texts : List (List Char)} (text : List Char)
    (hstdin : stdin = text.utf8Encode) (h : Gives files .empty names texts) :
    Gives files stdin ("-" :: names) (text :: texts)
  | file {stdin : ByteArray} {names : List String} {texts : List (List Char)} {name : String} (text : List Char)
    (hname : name ≠ "-") (hfile : files name = .ok text.utf8Encode) (h : Gives files stdin names texts) :
    Gives files stdin (name :: names) (text :: texts)

def sources (names : List String) : List String := if names = [] then ["-"] else names

def linesOf (texts : List (List Char)) : List (List Char) :=
  texts.flatMap fun text => (Text.lines text).filter fun line => !Text.isBlank line

variable {files : Files} {stdin : ByteArray} {names : List String} {texts : List (List Char)} {line : List Char}

lemma samplesFrom_utf8Encode (source : String) (text : List Char) :
    samplesFrom source text.utf8Encode = .ok ((Text.lines text).filter fun line => !Text.isBlank line) := by
  rw [samplesFrom, samplesOfBytes?_utf8Encode]

lemma Gives.samplesOf (h : Gives files stdin names texts) :
    CommandLine.samplesOf files stdin names = .ok (linesOf texts) := by
  induction h with
  | nil => rfl
  | dash text hstdin _ ih =>
    simp only [CommandLine.samplesOf, if_true, hstdin, samplesFrom_utf8Encode, ih, bind, Except.bind, pure, Except.pure]
    rfl
  | file text hname hfile _ ih =>
    simp only [CommandLine.samplesOf, if_neg hname, hfile, samplesFrom_utf8Encode, ih, bind, Except.bind, pure, Except.pure]
    rfl

lemma Gives.samples (h : Gives files stdin (sources names) texts) :
    CommandLine.samples files stdin names = .ok (linesOf texts) := by
  by_cases hnames : names = []
  · rw [sources, if_pos hnames] at h
    cases h with
    | dash text hstdin hnone =>
      cases hnone
      rw [CommandLine.samples, if_pos hnames, hstdin, samplesFrom_utf8Encode]
      simp [linesOf]
    | file _ hname => exact absurd rfl hname
  · rw [sources, if_neg hnames] at h
    rw [CommandLine.samples, if_neg hnames, h.samplesOf]

lemma exists_text_of_samplesFrom {source : String} {bytes : ByteArray} {words : List (List Char)}
    (h : samplesFrom source bytes = .ok words) : ∃ text : List Char, bytes = text.utf8Encode := by
  rw [samplesFrom] at h
  split at h
  · next hsamples =>
    obtain ⟨text, htext, _⟩ := samplesOfBytes?_eq_some_iff.mp hsamples
    exact ⟨text, htext⟩
  · cases h

lemma exists_gives_of_samplesOf {words : List (List Char)} (h : CommandLine.samplesOf files stdin names = .ok words) :
    ∃ texts, Gives files stdin names texts := by
  induction names generalizing stdin words with
  | nil => exact ⟨[], .nil stdin⟩
  | cons name rest ih =>
    rw [CommandLine.samplesOf] at h
    split at h
    · next hname =>
      subst hname
      obtain ⟨first, hfirst, h⟩ := bind_eq_ok_iff.mp h
      obtain ⟨more, hmore, _⟩ := bind_eq_ok_iff.mp h
      obtain ⟨text, htext⟩ := exists_text_of_samplesFrom hfirst
      obtain ⟨texts, htexts⟩ := ih hmore
      exact ⟨text :: texts, .dash text htext htexts⟩
    · next hname =>
      split at h
      · cases h
      · next bytes hfile =>
        obtain ⟨first, hfirst, h⟩ := bind_eq_ok_iff.mp h
        obtain ⟨more, hmore, _⟩ := bind_eq_ok_iff.mp h
        obtain ⟨text, rfl⟩ := exists_text_of_samplesFrom hfirst
        obtain ⟨texts, htexts⟩ := ih hmore
        exact ⟨text :: texts, .file text hname hfile htexts⟩

lemma samples_eq_ok_iff {words : List (List Char)} : CommandLine.samples files stdin names = .ok words ↔
    ∃ texts, Gives files stdin (sources names) texts ∧ words = linesOf texts := by
  constructor
  · intro h
    obtain ⟨texts, htexts⟩ : ∃ texts, Gives files stdin (sources names) texts := by
      by_cases hnames : names = []
      · rw [CommandLine.samples, if_pos hnames] at h
        obtain ⟨text, htext⟩ := exists_text_of_samplesFrom h
        rw [sources, if_pos hnames]
        exact ⟨[text], .dash text htext (.nil _)⟩
      · rw [CommandLine.samples, if_neg hnames] at h
        rw [sources, if_neg hnames]
        exact exists_gives_of_samplesOf h
    rw [htexts.samples] at h
    exact ⟨texts, htexts, (Except.ok.inj h).symm⟩
  · rintro ⟨texts, htexts, rfl⟩
    exact htexts.samples

lemma mem_linesOf : line ∈ linesOf texts ↔ Text.isBlank line = false ∧ ∃ text ∈ texts, Text.LineOf text line := by
  have hempty : Text.isBlank [] = true := rfl
  simp only [linesOf, List.mem_flatMap, List.mem_filter, Bool.not_eq_true']
  constructor
  · rintro ⟨text, htext, hline, hblank⟩
    exact ⟨hblank, text, htext, Text.lineOf_of_mem_lines hline⟩
  · rintro ⟨hblank, text, htext, hline⟩
    refine ⟨text, htext, hline.mem_lines ?_, hblank⟩
    rintro rfl
    rw [hempty] at hblank
    cases hblank

lemma newline_notMem_of_mem_linesOf (h : line ∈ linesOf texts) : '\n' ∉ line := by
  obtain ⟨text, _, hline⟩ := List.mem_flatMap.mp h
  exact Text.newline_notMem_of_mem_splitLines line (List.mem_filter.mp hline).1

end PatternInference.CommandLine
