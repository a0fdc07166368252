namespace PatternInference.Text

def cutAround? (part : List Char) : List Char → Option (List Char × List Char)
  | [] => if part.isEmpty then some ([], []) else none
  | c :: rest =>
    if part.isPrefixOf (c :: rest) then some ([], (c :: rest).drop part.length)
    else (cutAround? part rest).map fun (before, after) => (c :: before, after)

def occursIn (part text : List Char) : Bool := (cutAround? part text).isSome

def substrings (length : Nat) (text : List Char) : List (List Char) :=
  (List.range (text.length + 1 - length)).map fun start => (text.drop start).take length

def lengthsDown : Nat → List Nat
  | 0 => []
  | n + 1 => (n + 1) :: lengthsDown n

def longestCommonSubstring : List (List Char) → List Char
  | [] => []
  | text :: rest =>
    let sharedOf (length : Nat) := (substrings length text).find? fun part => rest.all (occursIn part)
    ((lengthsDown text.length).findSome? sharedOf).getD []

theorem cutAround?_eq_some {part text before after : List Char}
    (h : cutAround? part text = some (before, after)) : text = before ++ part ++ after := by
  induction text generalizing before after with
  | nil =>
    simp only [cutAround?, Option.ite_none_right_eq_some, List.isEmpty_iff, Option.some.injEq,
      Prod.mk.injEq] at h
    simp [← h.2.1, ← h.2.2, h.1]
  | cons c rest ih =>
    simp only [cutAround?] at h
    split at h
    · rename_i hp
      obtain ⟨r, hr⟩ := List.isPrefixOf_iff_prefix.mp hp
      simp only [Option.some.injEq, Prod.mk.injEq] at h
      rw [← h.1, ← h.2, ← hr]
      simp
    · obtain ⟨⟨x, y⟩, hxy, hb⟩ := Option.map_eq_some_iff.mp h
      simp only [Prod.mk.injEq] at hb
      rw [← hb.1, ← hb.2, ih hxy]
      simp

theorem occursIn_iff {part text : List Char} : occursIn part text = true ↔ part <:+: text := by
  constructor
  · intro h
    obtain ⟨⟨before, after⟩, h⟩ := Option.isSome_iff_exists.mp h
    exact ⟨before, after, (cutAround?_eq_some h).symm⟩
  · rintro ⟨before, after, rfl⟩
    induction before with
    | nil =>
      cases hp : part ++ after with
      | nil => simp_all [occursIn, cutAround?]
      | cons c rest =>
        have : part.isPrefixOf (c :: rest) = true :=
          List.isPrefixOf_iff_prefix.mpr ⟨after, hp⟩
        simp [occursIn, cutAround?, hp, this]
    | cons b bs ih =>
      simp only [occursIn, List.cons_append, cutAround?] at ih ⊢
      split
      · simp
      · simpa using ih

end PatternInference.Text
