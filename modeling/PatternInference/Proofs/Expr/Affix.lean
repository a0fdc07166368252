import PatternInference.Expr.Concat
import PatternInference.Proofs.Expr.Expansions
import PatternInference.Proofs.Expr.Forked
import PatternInference.Proofs.Expr.Letters

/-! Taking a text off one side of an expression and putting it back. -/

namespace PatternInference

variable {side : Side} {affix text rest : List Char}

lemma Side.exists_strip? (h : side.inward affix <+: side.inward text) : ∃ rest, side.strip? affix text = some rest := by
  obtain ⟨rest, hrest⟩ := h
  cases side with
  | leading => exact ⟨rest, strip?_leading_eq_some_iff.mpr hrest.symm⟩
  | trailing =>
    refine ⟨rest.reverse, strip?_trailing_eq_some_iff.mpr ?_⟩
    have hrev := congrArg List.reverse hrest
    simpa [inward, eq_comm] using hrev

def Side.glue : Side → List Char → List Char → List Char
  | leading, affix, w => affix ++ w
  | trailing, affix, w => w ++ affix

lemma Side.glue_injective : Function.Injective (side.glue affix) := by
  cases side with
  | leading => exact List.append_right_injective affix
  | trailing => exact List.append_left_injective affix

lemma Side.glue_of_strip? (h : side.strip? affix text = some rest) : side.glue affix rest = text := by
  cases side with
  | leading => exact (strip?_leading_eq_some_iff.mp h).symm
  | trailing => exact (strip?_trailing_eq_some_iff.mp h).symm

namespace Expr

variable {e f m : Expr} {es fs : List Expr} {ρ : Nat → Language Char}

lemma isSolved_concat : (concat e f).isSolved = true ↔ e.isSolved = true ∧ f.isSolved = true := by
  simp only [isSolved_iff, origins_concat, List.mem_append, not_or, forall_and]

lemma isSolved_attach : (attach side e f).isSolved = true ↔ e.isSolved = true ∧ f.isSolved = true := by
  cases side with
  | leading => exact isSolved_concat
  | trailing => exact isSolved_concat.trans and_comm

lemma letters_attach : (attach side e f).letters = e.letters + f.letters := by
  cases side with
  | leading => exact letters_concat
  | trailing => exact letters_concat.trans (Nat.add_comm _ _)

lemma expansions_attach : (attach side (lit affix) e).expansions = e.expansions.map (side.glue affix) := by
  cases side with
  | leading => exact expansions_concat.trans pairings_singleton_left
  | trailing => exact expansions_concat.trans pairings_singleton_right

lemma mem_language_attach {w : List Char} :
    w ∈ (attach side (lit affix) e).language ↔ ∃ v ∈ e.language, side.glue affix v = w := by
  simp only [← mem_expansions, expansions_attach, List.mem_map]

lemma Forked.attach (he : e.Forked) (hf : f.Forked) : (attach side e f).Forked := by
  cases side with
  | leading => exact he.concat hf
  | trailing => exact hf.concat he

/-- `m` is what remains of `e` without the affix. -/
structure Stripped (side : Side) (affix : List Char) (e m : Expr) : Prop where
  solved : m.isSolved = true
  letters : m.letters + affix.length = e.letters
  expansions : m.expansions.map (side.glue affix) = e.expansions
  forked : e.Forked → m.Forked

lemma Stripped.mem_language {w : List Char} (h : Stripped side affix e m) :
    w ∈ e.language ↔ ∃ v ∈ m.language, side.glue affix v = w := by
  simp only [← mem_expansions, ← h.expansions, List.mem_map]

lemma strip_spec (hsolved : e.isSolved = true) (hexposed : e.exposed? side = some text)
    (hstrip : side.strip? affix text = some rest) : ∃ m, e.strip side affix = .ok m ∧ Stripped side affix e m := by
  induction e using Expr.structural with
  | lit s =>
    cases hexposed
    have hglue := Side.glue_of_strip? hstrip
    refine ⟨lit rest, by simp [strip, stripText, hstrip], rfl, ?_, by simp [Expr.expansions, hglue], fun _ => .lit rest⟩
    rw [Expr.letters, Expr.letters, ← hglue]
    cases side <;> simp [Side.glue, Nat.add_comm]
  | pending s o => cases hsolved
  | alt parts _ => cases hexposed
  | seq left right ihl ihr =>
    simp only [isSolved, Bool.and_eq_true] at hsolved
    cases side with
    | leading =>
      obtain ⟨m, hm, h⟩ := ihl hsolved.1 hexposed
      refine ⟨concat m right, by simp [strip, hm, Except.map], isSolved_concat.mpr ⟨h.solved, hsolved.2⟩, ?_, ?_, ?_⟩
      · rw [letters_concat, Expr.letters, ← h.letters]
        omega
      · have hleft : pairings [affix] m.expansions = left.expansions := pairings_singleton_left.trans h.expansions
        rw [expansions_concat, Expr.expansions, ← hleft, pairings_assoc]
        exact pairings_singleton_left.symm
      · intro hf
        cases hf with
        | seq hl hr => exact (h.forked hl).concat hr
    | trailing =>
      obtain ⟨m, hm, h⟩ := ihr hsolved.2 hexposed
      refine ⟨concat left m, by simp [strip, hm, Except.map], isSolved_concat.mpr ⟨hsolved.1, h.solved⟩, ?_, ?_, ?_⟩
      · rw [letters_concat, Expr.letters, ← h.letters]
        omega
      · have hright : pairings m.expansions [affix] = right.expansions := pairings_singleton_right.trans h.expansions
        rw [expansions_concat, Expr.expansions, ← hright, ← pairings_assoc]
        exact pairings_singleton_right.symm
      · intro hf
        cases hf with
        | seq hl hr => exact hl.concat (h.forked hr)

lemma strip_of_exposed?_eq_none (h : e.exposed? side = none) :
    e.strip side affix = .error (.logic (.affixOfAlternation side affix)) := by
  induction e using Expr.structural with
  | lit s => cases h
  | pending s o => cases h
  | alt parts _ => rfl
  | seq left right ihl ihr =>
    cases side with
    | leading => rw [strip, ihl h, Except.map]
    | trailing => rw [strip, ihr h, Except.map]

lemma strip_of_strip?_eq_none (h : e.exposed? side = some text) (hs : side.strip? affix text = none) :
    e.strip side affix = .error (.logic (.affixMismatch side text affix)) := by
  induction e using Expr.structural with
  | lit s =>
    cases h
    rw [strip, stripText, hs]
  | pending s o =>
    cases h
    rw [strip, stripText, hs]
  | alt parts _ => cases h
  | seq left right ihl ihr =>
    cases side with
    | leading => rw [strip, ihl h, Except.map]
    | trailing => rw [strip, ihr h, Except.map]

inductive Stripping (side : Side) (affix : List Char) (e : Expr) : Except Error Expr → Prop
  | removed {text rest : List Char} {m : Expr} (hexposed : e.exposed? side = some text)
    (hstrip : side.strip? affix text = some rest) (h : Stripped side affix e m) : Stripping side affix e (.ok m)
  | differs {text : List Char} (hexposed : e.exposed? side = some text) (hstrip : side.strip? affix text = none) :
    Stripping side affix e (.error (.logic (.affixMismatch side text affix)))
  | hidden (hexposed : e.exposed? side = none) :
    Stripping side affix e (.error (.logic (.affixOfAlternation side affix)))

lemma stripping (side : Side) (affix : List Char) (hsolved : e.isSolved = true) :
    Stripping side affix e (e.strip side affix) := by
  cases hexposed : e.exposed? side with
  | none => exact strip_of_exposed?_eq_none hexposed ▸ .hidden hexposed
  | some text =>
    cases hstrip : side.strip? affix text with
    | none => exact strip_of_strip?_eq_none hexposed hstrip ▸ .differs hexposed hstrip
    | some rest =>
      obtain ⟨m, hm, h⟩ := strip_spec hsolved hexposed hstrip
      exact hm ▸ .removed hexposed hstrip h

lemma Stripped.language_leading (h : Stripped .leading affix e m) : e.language = {affix} * m.language := by
  ext w
  rw [h.mem_language, Language.mem_mul]
  simp [mem_singleton, Side.glue]

lemma Stripped.language_trailing (h : Stripped .trailing affix e m) : e.language = m.language * {affix} := by
  ext w
  rw [h.mem_language, Language.mem_mul]
  simp [mem_singleton, Side.glue]

lemma exists_strip_iff (hsolved : e.isSolved = true) :
    (∃ m, e.strip side affix = .ok m) ↔ ∃ t, e.exposed? side = some t ∧ ∃ rest, side.strip? affix t = some rest := by
  constructor
  · rintro ⟨m, hm⟩
    cases hm ▸ stripping side affix hsolved with
    | removed hexposed hstrip _ => exact ⟨_, hexposed, _, hstrip⟩
  · rintro ⟨t, hexposed, rest, hstrip⟩
    obtain ⟨m, hm, _⟩ := strip_spec hsolved hexposed hstrip
    exact ⟨m, hm⟩

lemma stripped_of_strip (hsolved : e.isSolved = true) (h : e.strip side affix = .ok m) : Stripped side affix e m := by
  cases h ▸ stripping side affix hsolved with
  | removed _ _ hstripped => exact hstripped

lemma strip_refusal {err : Error} (hsolved : e.isSolved = true) (h : e.strip side affix = .error err) :
    e.exposed? side = none ∧ err = .logic (.affixOfAlternation side affix) ∨
      ∃ t, e.exposed? side = some t ∧ err = .logic (.affixMismatch side t affix) := by
  cases h ▸ stripping side affix hsolved with
  | differs hexposed _ => exact .inr ⟨_, hexposed, rfl⟩
  | hidden hexposed => exact .inl ⟨hexposed, rfl⟩

theorem strip_removes_affix (hsolved : e.isSolved = true) (affix : List Char) :
    (((∃ m, e.strip .leading affix = .ok m) ↔ ∃ t, e.exposed? .leading = some t ∧ affix <+: t) ∧
      (∀ m, e.strip .leading affix = .ok m →
        m.isSolved = true ∧ e.language = {affix} * m.language ∧ m.letters + affix.length = e.letters) ∧
      ∀ err, e.strip .leading affix = .error err →
        e.exposed? .leading = none ∧ err = .logic (.affixOfAlternation .leading affix) ∨
          ∃ t, e.exposed? .leading = some t ∧ err = .logic (.affixMismatch .leading t affix)) ∧
    ((∃ m, e.strip .trailing affix = .ok m) ↔ ∃ t, e.exposed? .trailing = some t ∧ affix <:+ t) ∧
      (∀ m, e.strip .trailing affix = .ok m →
        m.isSolved = true ∧ e.language = m.language * {affix} ∧ m.letters + affix.length = e.letters) ∧
      ∀ err, e.strip .trailing affix = .error err →
        e.exposed? .trailing = none ∧ err = .logic (.affixOfAlternation .trailing affix) ∨
          ∃ t, e.exposed? .trailing = some t ∧ err = .logic (.affixMismatch .trailing t affix) := by
  refine ⟨⟨?_, fun m hm => ?_, fun err => strip_refusal hsolved⟩, ?_, fun m hm => ?_, fun err => strip_refusal hsolved⟩
  · rw [exists_strip_iff hsolved]
    simp only [Side.strip?_leading_eq_some_iff, List.prefix_iff_exists_eq_append]
  · have h := stripped_of_strip hsolved hm
    exact ⟨h.solved, h.language_leading, h.letters⟩
  · rw [exists_strip_iff hsolved]
    simp only [Side.strip?_trailing_eq_some_iff, List.suffix_iff_exists_eq_append]
  · have h := stripped_of_strip hsolved hm
    exact ⟨h.solved, h.language_trailing, h.letters⟩

theorem strip_uncovers_alternation :
    ∃ e m : Expr, e = seq (lit ['a', 'b']) (alt [lit ['c'], lit ['d']]) ∧ m = alt [lit ['c'], lit ['d']] ∧
      e.isSolved = true ∧ e.strip .leading ['a', 'b'] = .ok m ∧ e.language = {['a', 'b']} * m.language ∧
      e.strip .trailing ['d'] = .error (.logic (.affixOfAlternation .trailing ['d'])) := by
  have hsolved : (seq (lit ['a', 'b']) (alt [lit ['c'], lit ['d']])).isSolved = true := by decide
  have hstrip : (seq (lit ['a', 'b']) (alt [lit ['c'], lit ['d']])).strip .leading ['a', 'b'] =
      .ok (alt [lit ['c'], lit ['d']]) := rfl
  obtain ⟨⟨_, hremoved, _⟩, _⟩ := strip_removes_affix hsolved ['a', 'b']
  exact ⟨_, _, rfl, rfl, hsolved, hstrip, (hremoved _ hstrip).2.1, rfl⟩

end Expr
end PatternInference
