import PatternInference.Text.Order

/-!
Common prefixes of a list of texts. Sorting brings the texts that share a prefix together, so only
neighbours of the sorted list are compared.
-/

namespace PatternInference.Text

def commonPrefix : List Char → List Char → List Char
  | a :: as, b :: bs => if a = b then a :: commonPrefix as bs else []
  | _, _ => []

def neighbourPrefixes : List (List Char) → List (List Char)
  | s :: t :: rest => commonPrefix s t :: neighbourPrefixes (t :: rest)
  | _ => []

def longest (texts : List (List Char)) : List Char :=
  texts.foldl (fun best t => if best.length ≤ t.length then t else best) []

def shortest : List (List Char) → List Char
  | [] => []
  | t :: rest => rest.foldl (fun best t => if t.length < best.length then t else best) t

def longestSharedPrefix (texts : List (List Char)) : List Char :=
  match texts with
  | [t] => t
  | _ => longest (neighbourPrefixes (texts.mergeSort le))

def commonPrefixOfAll (texts : List (List Char)) : List Char :=
  match texts with
  | [t] => t
  | _ => shortest (neighbourPrefixes (texts.mergeSort le))

theorem prefix_commonPrefix_iff {p s t : List Char} :
    p <+: commonPrefix s t ↔ p <+: s ∧ p <+: t := by
  induction s generalizing p t with
  | nil => cases t <;> simp +contextual [commonPrefix]
  | cons a as ih =>
    cases t with
    | nil => simp +contextual [commonPrefix]
    | cons b bs =>
      cases p with
      | nil => simp
      | cons c cs =>
        by_cases h : a = b
        · subst h
          simp only [commonPrefix, if_true, List.cons_prefix_cons, ih]
          exact ⟨fun ⟨hc, hs, ht⟩ => ⟨⟨hc, hs⟩, hc, ht⟩, fun ⟨⟨hc, hs⟩, _, ht⟩ => ⟨hc, hs, ht⟩⟩
        · simp only [commonPrefix, h, if_false, List.cons_prefix_cons, List.prefix_nil, reduceCtorEq,
            false_iff, not_and]
          rintro ⟨rfl, _⟩ hb
          exact absurd hb h

end PatternInference.Text
