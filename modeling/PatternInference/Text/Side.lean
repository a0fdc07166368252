namespace PatternInference

inductive Side where
  | leading
  | trailing
deriving DecidableEq

namespace Side

def affixName : Side → String
  | leading => "prefix"
  | trailing => "suffix"

def verb : Side → String
  | leading => "start"
  | trailing => "end"

def inward : Side → List Char → List Char
  | leading, text => text
  | trailing, text => text.reverse

def strip? : Side → List Char → List Char → Option (List Char)
  | leading, affix, text =>
    if affix.isPrefixOf text then some (text.drop affix.length) else none
  | trailing, affix, text =>
    if affix.isSuffixOf text then some (text.take (text.length - affix.length)) else none

theorem inward_inward (side : Side) (text : List Char) : side.inward (side.inward text) = text := by
  cases side <;> simp [inward]

theorem strip?_leading_eq_some_iff {affix text rest : List Char} :
    strip? leading affix text = some rest ↔ text = affix ++ rest := by
  simp only [strip?, Option.ite_none_right_eq_some, List.isPrefixOf_iff_prefix, Option.some.injEq]
  constructor
  · rintro ⟨⟨r, rfl⟩, rfl⟩
    simp
  · rintro rfl
    simp

theorem strip?_trailing_eq_some_iff {affix text rest : List Char} :
    strip? trailing affix text = some rest ↔ text = rest ++ affix := by
  simp only [strip?, Option.ite_none_right_eq_some, List.isSuffixOf_iff_suffix, Option.some.injEq]
  constructor
  · rintro ⟨⟨r, rfl⟩, rfl⟩
    simp
  · rintro rfl
    simp

end Side
end PatternInference
