import Mathlib.Data.List.Forall2
import Mathlib.Tactic.Lemma
import Mathlib.Tactic.SplitIfs
import PatternInference.Dump.Parser
import PatternInference.Proofs.Lists
import PatternInference.Proofs.Text.Lines
import PatternInference.Proofs.Text.Numeral

namespace PatternInference.Dump

def StateText (stateCount : Nat) (text : List Char) (s : Nat) : Prop :=
  Numeral.Spells text s ∧ s < stateCount

def HeaderText (text : List Char) (x : Shape) : Prop :=
  ∃ states transitions initial accepting,
    text = states ++ ' ' :: (transitions ++ ' ' :: (initial ++ ' ' :: accepting)) ∧
    Numeral.Spells states x.states ∧ Numeral.Spells transitions x.transitions ∧ StateText x.states initial x.initial ∧
    Numeral.Spells accepting x.accepting

variable {α : Type} [PrintedSymbol α]

def TransitionText (stateCount : Nat) (text : List Char) (t : Transition α) : Prop :=
  ∃ source symbol target, text = source ++ ' ' :: (symbol ++ ' ' :: target) ∧ ' ' ∉ source ∧ ' ' ∉ target ∧
    StateText stateCount source t.source ∧ StateText stateCount target t.target ∧
    PrintedSymbol.parse? symbol = some t.symbol

/-- A header, a line for each transition, a line for each accepting state, and no more lines but empty ones. -/
inductive LinesOf : List (List Char) → Dump α → Prop
  | intro {header : List Char} {edges finals blanks : List (List Char)} {d : Dump α} :
      HeaderText header d.shape →
      List.Forall₂ (TransitionText d.stateCount) edges d.transitions →
      List.Forall₂ (StateText d.stateCount) finals d.accepting →
      (∀ l ∈ blanks, l = []) →
      LinesOf (header :: (edges ++ (finals ++ blanks))) d

variable {stateCount line due n : Nat} {field : Field} {text : List Char} {ls : List (List Char)}
  {rest : List (List Char × Nat)}

lemma number_eq_ok_iff {s : Nat} : number line field text = .ok s ↔ Numeral.Spells text s := by
  rw [← Numeral.count?_eq_some_iff, number, wrong]
  cases Numeral.count? text <;> simp

lemma state_eq_ok_iff {s : Nat} : state stateCount line field text = .ok s ↔ StateText stateCount text s := by
  rw [state, StateText, ← @number_eq_ok_iff line field text s]
  cases number line field text with
  | error e => simp
  | ok m =>
    simp only [Except.ok.injEq]
    split_ifs with hm
    · rw [Except.ok.injEq]
      exact ⟨fun h => ⟨h, h ▸ hm⟩, And.left⟩
    · simp only [wrong, reduceCtorEq, false_iff, not_and]
      exact fun h => h ▸ hm

lemma acceptingState_eq_ok_iff (line : Nat) (text : List Char) (s : Nat) :
    acceptingState stateCount line text = .ok s ↔ StateText stateCount text s := by
  rw [acceptingState, state_eq_ok_iff]

lemma transition_eq_ok_iff {t : Transition α} :
    transition stateCount line text = .ok t ↔ TransitionText stateCount text t := by
  constructor
  · intro h
    unfold transition at h
    split at h
    · cases h
    · rename_i source rest hfirst
      split at h
      · cases h
      · rename_i symbol target hlast
        obtain ⟨s, hs, u, hu, h⟩ := by simpa only [bind_eq_ok_iff] using h
        obtain ⟨rfl, hsource⟩ := Text.cutFirst?_eq_some_iff.mp hfirst
        obtain ⟨rfl, htarget⟩ := Text.cutLast?_eq_some_iff.mp hlast
        rw [state_eq_ok_iff] at hs hu
        split at h
        · rename_i a ha
          cases h
          exact ⟨source, symbol, target, rfl, hsource, htarget, hs, hu, ha⟩
        · cases h
  · rintro ⟨source, symbol, target, rfl, hsource, htarget, hs, hu, ha⟩
    simp only [transition, Text.cutFirst?_eq_some_iff.mpr ⟨rfl, hsource⟩, Text.cutLast?_eq_some_iff.mpr ⟨rfl, htarget⟩,
      state_eq_ok_iff.mpr hs, state_eq_ok_iff.mpr hu, ha]
    rfl

lemma items_eq_ok_iff {β : Type} {read : Nat → List Char → Except Error β} {missing : Fault}
    {R : List Char → β → Prop} (hread : ∀ line text x, read line text = .ok x ↔ R text x) {xs : List β} :
    items read missing n due (ls.zipIdx line) = .ok (xs, rest) ↔ ∃ front back, ls = front ++ back ∧
      rest = back.zipIdx (line + n) ∧ xs.length = n ∧ List.Forall₂ R front xs := by
  induction n generalizing line due ls xs rest with
  | zero =>
    simp only [items, pure, Except.pure, Except.ok.injEq, Prod.mk.injEq, List.length_eq_zero_iff]
    constructor
    · rintro ⟨rfl, rfl⟩
      exact ⟨[], ls, rfl, rfl, rfl, .nil⟩
    · rintro ⟨front, back, rfl, rfl, rfl, h⟩
      cases h
      exact ⟨rfl, rfl⟩
  | succ n ih =>
    cases ls with
    | nil =>
      simp only [List.zipIdx_nil, items, wrong, reduceCtorEq, false_iff]
      rintro ⟨front, back, hnil, -, hlen, h⟩
      obtain ⟨rfl, -⟩ := List.append_eq_nil_iff.mp hnil.symm
      cases h
      cases hlen
    | cons text ls =>
      simp only [List.zipIdx_cons, items, bind_eq_ok_iff, hread, Prod.exists]
      constructor
      · rintro ⟨x, hx, more, rest, hmore, h⟩
        cases h
        obtain ⟨front, back, rfl, rfl, rfl, hfront⟩ := ih.mp hmore
        exact ⟨text :: front, back, rfl, by rw [Nat.add_right_comm, Nat.add_assoc], rfl, .cons hx hfront⟩
      · rintro ⟨front, back, hls, rfl, hlen, h⟩
        cases h with
        | nil => cases hlen
        | @cons text' x front more hx hmore =>
          obtain ⟨rfl, rfl⟩ := List.cons.inj hls
          rw [← Nat.add_assoc, Nat.add_right_comm]
          exact ⟨x, hx, more, _, ih.mpr ⟨front, back, rfl, rfl, Nat.succ.inj hlen, hmore⟩, rfl⟩

lemma transitions_eq_ok_iff {missing : Fault} {ts : List (Transition α)} :
    items (transition stateCount) missing n due (ls.zipIdx line) = .ok (ts, rest) ↔ ∃ front back, ls = front ++ back ∧
      rest = back.zipIdx (line + n) ∧ ts.length = n ∧ List.Forall₂ (TransitionText stateCount) front ts :=
  items_eq_ok_iff fun _ _ _ => transition_eq_ok_iff

lemma acceptingStates_eq_ok_iff {missing : Fault} {fs : List Nat} :
    items (acceptingState stateCount) missing n due (ls.zipIdx line) = .ok (fs, rest) ↔ ∃ front back, ls = front ++ back ∧
      rest = back.zipIdx (line + n) ∧ fs.length = n ∧ List.Forall₂ (StateText stateCount) front fs :=
  items_eq_ok_iff acceptingState_eq_ok_iff

lemma noMore_cons : noMore ((text :: ls).zipIdx line) =
    if text.isEmpty then noMore (ls.zipIdx (line + 1)) else wrong line .trailing := by
  cases text with
  | nil => simp [noMore]
  | cons c text => simp [noMore]

lemma noMore_eq_ok_iff : noMore (ls.zipIdx line) = .ok () ↔ ∀ l ∈ ls, l = [] := by
  induction ls generalizing line with
  | nil => simp [noMore, pure, Except.pure]
  | cons text ls ih =>
    rw [noMore_cons, List.forall_mem_cons]
    split_ifs with h
    · rw [ih, and_iff_right (List.isEmpty_iff.mp h)]
    · simp only [wrong, reduceCtorEq, false_iff, not_and]
      exact fun htext => absurd (List.isEmpty_iff.mpr htext) h

lemma headerText_iff {x : Shape} : HeaderText text x ↔ ∃ states transitions initial accepting,
    Text.fields ' ' text = [states, transitions, initial, accepting] ∧ Numeral.Spells states x.states ∧
      Numeral.Spells transitions x.transitions ∧ StateText x.states initial x.initial ∧
      Numeral.Spells accepting x.accepting := by
  simp only [Text.fields_eq_iff, HeaderText]
  constructor
  · rintro ⟨states, transitions, initial, accepting, rfl, hstates, htransitions, hinitial, haccepting⟩
    have hsp {text : List Char} {n : Nat} (h : Numeral.Spells text n) : ' ' ∉ text := h.notMem rfl (by decide)
    refine ⟨states, transitions, initial, accepting, ⟨by simp, ?_, by simp [List.intercalate]⟩, hstates, htransitions,
      hinitial, haccepting⟩
    simp [hsp hstates, hsp htransitions, hsp hinitial.1, hsp haccepting]
  · rintro ⟨states, transitions, initial, accepting, ⟨-, -, rfl⟩, h⟩
    exact ⟨states, transitions, initial, accepting, by simp [List.intercalate], h⟩

lemma ofLines_of_headerText {x : Shape} (h : HeaderText text x) : (ofLines (text :: ls) : Except Error (Dump α)) = do
    let (transitions, rest) ← items (transition x.states) .missingTransition x.transitions 2 (ls.zipIdx 2)
    let (accepting, rest) ← items (acceptingState x.states) .missingAccepting x.accepting (2 + x.transitions) rest
    noMore rest
    return { stateCount := x.states, initial := x.initial, transitions, accepting } := by
  obtain ⟨states, transitions, initial, accepting, hfields, hstates, htransitions, hinitial, haccepting⟩ :=
    headerText_iff.mp h
  simp only [ofLines, ofNumbered, List.zipIdx_cons, hfields, number_eq_ok_iff.mpr hstates, number_eq_ok_iff.mpr htransitions,
    state_eq_ok_iff.mpr hinitial, number_eq_ok_iff.mpr haccepting, ok_bind]

lemma ofLines_eq_ok_iff {d : Dump α} : ofLines ls = .ok d ↔ LinesOf ls d := by
  constructor
  · intro h
    cases ls with
    | nil => cases h
    | cons header ls =>
      simp only [ofLines, ofNumbered, List.zipIdx_cons] at h
      split at h
      · next states transitions initial accepting hfields =>
        obtain ⟨stateCount, hstates, transitionCount, htransitions, start, hinitial, acceptingCount, haccepting,
          ts, rest, hts, fs, blanks, hfs, _, hblanks, h⟩ := by
          simpa only [bind_eq_ok_iff, Prod.exists] using h
        cases h
        obtain ⟨edges, ls, rfl, rfl, rfl, hedges⟩ := transitions_eq_ok_iff.mp hts
        obtain ⟨finals, ls, rfl, rfl, rfl, hfinals⟩ := acceptingStates_eq_ok_iff.mp hfs
        refine .intro (headerText_iff.mpr ?_) hedges hfinals (noMore_eq_ok_iff.mp hblanks)
        exact ⟨states, transitions, initial, accepting, hfields, number_eq_ok_iff.mp hstates,
          number_eq_ok_iff.mp htransitions, state_eq_ok_iff.mp hinitial, number_eq_ok_iff.mp haccepting⟩
      · cases h
  · rintro ⟨hheader, hedges, hfinals, hblanks⟩
    rw [ofLines_of_headerText hheader]
    simp only [bind_eq_ok_iff, Prod.exists]
    exact ⟨_, _, transitions_eq_ok_iff.mpr ⟨_, _, rfl, rfl, rfl, hedges⟩,
      _, _, acceptingStates_eq_ok_iff.mpr ⟨_, _, rfl, rfl, rfl, hfinals⟩,
      (), noMore_eq_ok_iff.mpr hblanks, rfl⟩

end PatternInference.Dump
