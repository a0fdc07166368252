import PatternInference.Proofs.CommandLine.Samples

namespace PatternInference

namespace Text

def WhiteSpace (c : Char) : Prop :=
  c.toNat ∈ [0x9, 0xa, 0xb, 0xc, 0xd, 0x20, 0x85, 0xa0, 0x1680, 0x2000, 0x2001, 0x2002, 0x2003, 0x2004, 0x2005, 0x2006,
    0x2007, 0x2008, 0x2009, 0x200a, 0x2028, 0x2029, 0x202f, 0x205f, 0x3000]

instance : DecidablePred WhiteSpace := fun c => inferInstanceAs (Decidable (c.toNat ∈ _))

lemma isWhite_iff {c : Char} : isWhite c = true ↔ WhiteSpace c := by
  simp only [isWhite, whiteSpace, WhiteSpace, List.any_cons, List.any_nil, List.mem_cons, List.not_mem_nil, Bool.or_eq_true,
    Bool.and_eq_true, decide_eq_true_eq, Bool.false_eq_true, or_false]
  omega

def NonBlank (line : List Char) : Prop := ∃ c ∈ line, ¬ WhiteSpace c

instance : DecidablePred NonBlank := fun line => List.decidableBEx (fun c => ¬ WhiteSpace c) line

lemma isBlank_eq_false_iff {line : List Char} : isBlank line = false ↔ NonBlank line := by
  simp only [isBlank, List.all_eq_false, isWhite_iff, NonBlank]

lemma filter_isBlank (ls : List (List Char)) : ls.filter (fun line => !isBlank line) = ls.filter (NonBlank ·) := by
  apply List.filter_congr
  intro line _
  simp only [← isBlank_eq_false_iff, Bool.decide_eq_false]

end Text

namespace CommandLine

variable {bytes more : ByteArray}

lemma samplesOfBytes?_eq_none_iff : samplesOfBytes? bytes = none ↔ ¬ bytes.IsValidUTF8 := by
  rw [Option.eq_none_iff_forall_ne_some]
  constructor
  · rintro hnone ⟨text, htext⟩
    exact hnone _ (samplesOfBytes?_eq_some_iff.mpr ⟨text, htext, rfl⟩)
  · intro hinvalid words hwords
    obtain ⟨text, htext, _⟩ := samplesOfBytes?_eq_some_iff.mp hwords
    exact hinvalid ⟨text, htext⟩

lemma samplesOfBytes?_append (h : bytes = .empty ∨ bytes.data.toList.getLast? = some 10) :
    samplesOfBytes? (bytes ++ more) = do
      let front ← samplesOfBytes? bytes
      let rest ← samplesOfBytes? more
      return front ++ rest := by
  have hended : bytes.data.toList = [] ∨ bytes.data.toList.getLast? = some 10 := h.imp_left fun h => by rw [h]; rfl
  have hlines : Text.splitLines 10 13 (bytes ++ more).data.toList =
      Text.splitLines 10 13 bytes.data.toList ++ Text.splitLines 10 13 more.data.toList := by
    rw [ByteArray.data_append, Array.toList_append]
    exact Text.splitLines_append_of_ended (by decide) hended
  simp only [samplesOfBytes?, hlines, List.mapM_append, Option.bind_eq_bind, Option.pure_def, Option.bind_assoc,
    Option.bind_some, List.filter_append]

theorem samples_of_bytes (bytes : ByteArray) :
    (samplesOfBytes? bytes = none ↔ ¬ bytes.IsValidUTF8) ∧
      (∀ text : List Char, bytes = text.utf8Encode → ∃ ls, Text.SplitInto text ls ∧
        samplesOfBytes? bytes = some (ls.filter (Text.NonBlank ·))) ∧
      (∀ words, samplesOfBytes? bytes = some words → ∀ word ∈ words, '\n' ∉ word ∧ Text.NonBlank word) ∧
      (bytes = .empty ∨ bytes.data.toList.getLast? = some 10 → ∀ more : ByteArray,
        (samplesOfBytes? (bytes ++ more) = none ↔ samplesOfBytes? bytes = none ∨ samplesOfBytes? more = none) ∧
          ∀ front rest, samplesOfBytes? bytes = some front → samplesOfBytes? more = some rest →
            samplesOfBytes? (bytes ++ more) = some (front ++ rest)) := by
  refine ⟨samplesOfBytes?_eq_none_iff, ?_, ?_, ?_⟩
  · rintro text rfl
    refine ⟨Text.lines text, Text.splitInto_iff.mpr rfl, ?_⟩
    rw [samplesOfBytes?_utf8Encode, Text.filter_isBlank]
  · intro words hwords word hword
    obtain ⟨text, _, rfl⟩ := samplesOfBytes?_eq_some_iff.mp hwords
    obtain ⟨hline, hblank⟩ := List.mem_filter.mp hword
    exact ⟨Text.newline_notMem_of_mem_splitLines word hline, Text.isBlank_eq_false_iff.mp (by simpa using hblank)⟩
  · intro hended more
    rw [samplesOfBytes?_append hended]
    constructor
    · cases samplesOfBytes? bytes <;> cases samplesOfBytes? more <;> simp
    · rintro front rest hfront hrest
      rw [hfront, hrest]
      rfl

theorem samples_of_bytes_seam :
    samplesOfBytes? (['a', 'é', '\r', '\n'].utf8Encode ++ [' ', '\n', 'x', '\r'].utf8Encode) =
        some [['a', 'é'], ['x', '\r']] ∧
      samplesOfBytes? (['a', 'é', '\r', '\n'].utf8Encode ++ ⟨#[97, 0xc3, 10]⟩) = none := by
  obtain ⟨_, _, _, happend⟩ := samples_of_bytes ['a', 'é', '\r', '\n'].utf8Encode
  have happend := happend (.inr (by decide +kernel))
  constructor
  · exact (happend _).2 [['a', 'é']] [['x', '\r']] (by decide +kernel) (by decide +kernel)
  · exact (happend _).1.mpr (.inr (by decide +kernel))

end CommandLine
end PatternInference
