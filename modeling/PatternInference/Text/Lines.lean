/-!
Lines and fields of a text, and white space as the Unicode property `White_Space` has it.
-/

namespace PatternInference.Text

/--
A line ends at a newline, which takes one carriage return before it along. After the last newline
a line follows only if it is not empty.
-/
def splitLines {α : Type} [DecidableEq α] (newline carriage : α) : List α → List (List α)
  | [] => []
  | c :: rest =>
    if c = newline then [] :: splitLines newline carriage rest
    else if c = carriage ∧ rest.head? = some newline then splitLines newline carriage rest
    else
      match splitLines newline carriage rest with
      | [] => [[c]]
      | line :: more => (c :: line) :: more

def lines (text : List Char) : List (List Char) := splitLines '\n' '\r' text

def fields (sep : Char) : List Char → List (List Char)
  | [] => [[]]
  | c :: rest =>
    if c = sep then [] :: fields sep rest
    else
      match fields sep rest with
      | [] => [[c]]
      | part :: more => (c :: part) :: more

def whiteSpace : List (Nat × Nat) :=
  [(0x9, 0xd), (0x20, 0x20), (0x85, 0x85), (0xa0, 0xa0), (0x1680, 0x1680), (0x2000, 0x200a),
    (0x2028, 0x2029), (0x202f, 0x202f), (0x205f, 0x205f), (0x3000, 0x3000)]

def isWhite (c : Char) : Bool :=
  whiteSpace.any fun (lo, hi) => decide (lo ≤ c.toNat) && decide (c.toNat ≤ hi)

def isBlank (text : List Char) : Bool := text.all isWhite

def cutFirst? (sep : Char) : List Char → Option (List Char × List Char)
  | [] => none
  | c :: rest =>
    if c = sep then some ([], rest)
    else (cutFirst? sep rest).map fun (before, after) => (c :: before, after)

def cutLast? (sep : Char) : List Char → Option (List Char × List Char)
  | [] => none
  | c :: rest =>
    match cutLast? sep rest with
    | some (before, after) => some (c :: before, after)
    | none => if c = sep then some ([], rest) else none

theorem fields_ne_nil (sep : Char) (text : List Char) : fields sep text ≠ [] := by
  cases text with
  | nil => simp [fields]
  | cons c rest =>
    simp only [fields]
    split
    · simp
    · split <;> simp

theorem cutFirst?_eq_some_iff {sep : Char} {text before after : List Char} :
    cutFirst? sep text = some (before, after) ↔ text = before ++ sep :: after ∧ sep ∉ before := by
  induction text generalizing before with
  | nil => simp [cutFirst?]
  | cons c rest ih =>
    by_cases h : c = sep
    · subst h
      cases before <;> simp [cutFirst?, eq_comm]
      intro h; simp [h]
    · cases before with
      | nil => simp [cutFirst?, h]
      | cons b bs =>
        simp only [cutFirst?, h, if_false, Option.map_eq_some_iff, Prod.exists, Prod.mk.injEq,
          List.cons.injEq, List.cons_append, List.mem_cons, not_or]
        constructor
        · rintro ⟨x, y, hxy, ⟨rfl, rfl⟩, rfl⟩
          obtain ⟨rfl, hx⟩ := ih.mp hxy
          exact ⟨⟨rfl, rfl⟩, Ne.symm h, hx⟩
        · rintro ⟨⟨rfl, rfl⟩, _, hbs⟩
          exact ⟨bs, after, ih.mpr ⟨rfl, hbs⟩, ⟨rfl, rfl⟩, rfl⟩

theorem cutLast?_eq_none_iff {sep : Char} {text : List Char} :
    cutLast? sep text = none ↔ sep ∉ text := by
  induction text with
  | nil => simp [cutLast?]
  | cons c rest ih =>
    simp only [cutLast?]
    split
    · rename_i h
      have : ¬ sep ∉ rest := fun hn => by rw [ih.mpr hn] at h; simp at h
      simp only [List.mem_cons, not_or]
      simp [this]
    · rename_i h
      have hn := ih.mp h
      by_cases hc : c = sep
      · simp [hc]
      · simp [hc, hn, Ne.symm hc]

theorem cutLast?_eq_some_iff {sep : Char} {text before after : List Char} :
    cutLast? sep text = some (before, after) ↔ text = before ++ sep :: after ∧ sep ∉ after := by
  induction text generalizing before after with
  | nil => simp [cutLast?]
  | cons c rest ih =>
    simp only [cutLast?]
    split
    · rename_i x y h
      obtain ⟨rfl, hy⟩ := ih.mp h
      cases before with
      | nil =>
        simp only [Option.some.injEq, Prod.mk.injEq, reduceCtorEq, false_and, List.nil_append,
          List.cons.injEq, false_iff, not_and]
        rintro ⟨rfl, rfl⟩
        simp
      | cons b bs =>
        have hb := @ih bs after
        simp only [h, Option.some.injEq, Prod.mk.injEq] at hb
        simp only [Option.some.injEq, Prod.mk.injEq, List.cons.injEq, List.cons_append, and_assoc]
        rw [hb]
    · rename_i h
      have hn := cutLast?_eq_none_iff.mp h
      cases before with
      | nil =>
        by_cases hc : c = sep
        · simp only [hc, if_true, Option.some.injEq, Prod.mk.injEq, true_and, List.nil_append,
            List.cons.injEq]
          exact ⟨fun e => e ▸ ⟨rfl, hn⟩, fun e => e.1⟩
        · simp [hc]
      | cons b bs =>
        have hr : ¬ (c = b ∧ rest = bs ++ sep :: after) := by
          rintro ⟨_, rfl⟩
          simp at hn
        by_cases hc : c = sep <;> simp_all

end PatternInference.Text
