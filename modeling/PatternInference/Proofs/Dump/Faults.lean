import Mathlib.Order.Bounds.Basic
import PatternInference.Proofs.Dump.Grammar

/-! A text that is no automaton is refused, and the error names its first line that is wrong or missing. -/

namespace PatternInference.Dump

variable (α : Type) [PrintedSymbol α]

def Allowed (x : Shape) (place : Nat) (text : List Char) : Prop :=
  if place < x.transitions then ∃ t : Transition α, TransitionText x.states text t
  else if place < x.transitions + x.accepting then ∃ s, StateText x.states text s
  else text = []

/-- The line with this number, from 1 on, is not what it has to be, or it is missing. -/
inductive Violates : List (List Char) → Nat → Prop
  | noHeader : Violates [] 1
  | header {text : List Char} {ls : List (List Char)} : (∀ x, ¬ HeaderText text x) → Violates (text :: ls) 1
  | line {header text : List Char} {x : Shape} {ls : List (List Char)} {place : Nat} :
      HeaderText header x → ls[place]? = some text → ¬ Allowed α x place text → Violates (header :: ls) (place + 2)
  | missing {header : List Char} {x : Shape} {ls : List (List Char)} :
      HeaderText header x → ls.length < x.transitions + x.accepting → Violates (header :: ls) (ls.length + 2)

def AtLine (line : Nat) (e : Error) : Prop := ∃ fault, e = .invalid .dump (.line line fault)

variable {α} {stateCount line n : Nat} {field : Field} {text : List Char} {ls front rest : List (List Char)} {e : Error}
  {x : Shape}

lemma number_atLine (h : number line field text = .error e) : AtLine line e := by
  rw [number, wrong] at h
  split at h
  · cases h
  · cases h
    exact ⟨_, rfl⟩

lemma state_atLine (h : state stateCount line field text = .error e) : AtLine line e := by
  rw [state] at h
  split at h
  · split_ifs at h
    cases h
    exact ⟨_, rfl⟩
  · next hnumber =>
    cases h
    exact number_atLine hnumber

lemma transition_atLine (h : (transition stateCount line text : Except Error (Transition α)) = .error e) :
    AtLine line e := by
  rw [transition] at h
  split at h
  · cases h
    exact ⟨_, rfl⟩
  · split at h
    · cases h
      exact ⟨_, rfl⟩
    · simp only [bind_eq_error_iff] at h
      rcases h with h | ⟨_, _, h | ⟨_, _, h⟩⟩
      · exact state_atLine h
      · exact state_atLine h
      · split at h
        · cases h
        · cases h
          exact ⟨_, rfl⟩

structure Breaks (fits : List Char → Prop) (line : Nat) (e : Error) (ls front rest : List (List Char)) : Prop where
  eq : ls = front ++ rest
  front_fits : ∀ text ∈ front, fits text
  rest_not : ∀ text ∈ rest.head?, ¬ fits text
  atLine : AtLine (line + front.length) e

lemma Breaks.nil {fits : List Char → Prop} (hrest : ∀ text ∈ ls.head?, ¬ fits text) (he : AtLine line e) :
    Breaks fits line e ls [] ls :=
  ⟨rfl, List.forall_mem_nil _, hrest, he⟩

lemma Breaks.cons {fits : List Char → Prop} (htext : fits text) (h : Breaks fits (line + 1) e ls front rest) :
    Breaks fits line e (text :: ls) (text :: front) rest := by
  refine ⟨by rw [h.eq, List.cons_append], List.forall_mem_cons.mpr ⟨htext, h.front_fits⟩, h.rest_not, ?_⟩
  rw [List.length_cons, Nat.add_comm front.length, ← Nat.add_assoc]
  exact h.atLine

lemma items_eq_error {β : Type} {read : Nat → List Char → Except Error β} {missing : Fault} {R : List Char → β → Prop}
    (hread : ∀ line text y, read line text = .ok y ↔ R text y)
    (hline : ∀ line text e, read line text = .error e → AtLine line e) (h : items read missing n line (ls.zipIdx line) = .error e) :
    ∃ front rest, Breaks (fun text => ∃ y, R text y) line e ls front rest ∧ front.length < n := by
  -- a missing line is due where the numbering of the lines ends
  induction n generalizing line ls with
  | zero => cases h
  | succ n ih =>
    cases ls with
    | nil =>
      cases h
      exact ⟨[], [], .nil nofun ⟨missing, rfl⟩, n.succ_pos⟩
    | cons text ls =>
      simp only [List.zipIdx_cons, items, bind_eq_error_iff] at h
      rcases h with h | ⟨y, hy, h | ⟨_, _, h⟩⟩
      · refine ⟨[], text :: ls, .nil ?_ (hline line text e h), n.succ_pos⟩
        rintro _ ⟨⟩ ⟨y, hy⟩
        rw [(hread line text y).mpr hy] at h
        cases h
      · obtain ⟨front, rest, hbreaks, hlen⟩ := ih h
        exact ⟨text :: front, rest, hbreaks.cons ⟨y, (hread line text y).mp hy⟩, Nat.succ_lt_succ hlen⟩
      · cases h

lemma noMore_eq_error (h : noMore (ls.zipIdx line) = .error e) :
    ∃ front rest, Breaks (· = []) line e ls front rest ∧ rest ≠ [] := by
  induction ls generalizing line with
  | nil => cases h
  | cons text ls ih =>
    rw [noMore_cons] at h
    split_ifs at h with htext
    · obtain ⟨front, rest, hbreaks, hne⟩ := ih h
      exact ⟨text :: front, rest, hbreaks.cons (List.isEmpty_iff.mp htext), hne⟩
    · cases h
      refine ⟨[], text :: ls, .nil ?_ ⟨.trailing, rfl⟩, List.cons_ne_nil text ls⟩
      rintro _ ⟨⟩ rfl
      exact htext rfl

lemma allowed_transition {place : Nat} (h : place < x.transitions) :
    Allowed α x place text ↔ ∃ t : Transition α, TransitionText x.states text t := by
  rw [Allowed, if_pos h]

lemma allowed_accepting {place : Nat} (h : x.transitions ≤ place) (hlt : place < x.transitions + x.accepting) :
    Allowed α x place text ↔ ∃ s, StateText x.states text s := by
  rw [Allowed, if_neg (by omega), if_pos hlt]

lemma allowed_blank {place : Nat} (h : x.transitions + x.accepting ≤ place) : Allowed α x place text ↔ text = [] := by
  rw [Allowed, if_neg (by omega), if_neg (by omega)]

def Fits (α : Type) [PrintedSymbol α] (x : Shape) (start : Nat) (ls : List (List Char)) : Prop :=
  ∀ i text, ls[i]? = some text → Allowed α x (start + i) text

lemma Fits.nil {start : Nat} : Fits α x start [] := by
  intro i text h
  cases h

lemma Fits.append {start : Nat} (hfront : Fits α x start front) (hrest : Fits α x (start + front.length) rest) :
    Fits α x start (front ++ rest) := by
  intro i text h
  rw [List.getElem?_append] at h
  split at h
  · exact hfront i text h
  · have hallowed := hrest _ text h
    rwa [Nat.add_assoc, Nat.add_sub_cancel' (by omega)] at hallowed

lemma fits_of_forall {start : Nat} {fits : List Char → Prop} (hfront : ∀ text ∈ front, fits text)
    (h : ∀ i text, i < front.length → fits text → Allowed α x (start + i) text) : Fits α x start front := by
  intro i text hi
  exact h i text (List.getElem?_eq_some_iff.mp hi).1 (hfront text (List.mem_of_getElem? hi))

lemma fits_transitions {ts : List (Transition α)} (h : List.Forall₂ (TransitionText x.states) front ts)
    (hlen : ts.length = x.transitions) : Fits α x 0 front := by
  have hfront := forall_mem_of_forall₂ h.flip fun t text _ htext => Exists.intro t htext
  refine fits_of_forall hfront fun i text hi htext => (allowed_transition ?_).mpr htext
  rw [h.length_eq, hlen] at hi
  omega

lemma fits_accepting {fs : List Nat} (h : List.Forall₂ (StateText x.states) front fs)
    (hlen : fs.length = x.accepting) : Fits α x x.transitions front := by
  have hfront := forall_mem_of_forall₂ h.flip fun s text _ htext => Exists.intro s htext
  refine fits_of_forall hfront fun i text hi htext => (allowed_accepting ?_ ?_).mpr htext
  all_goals
    rw [h.length_eq, hlen] at hi
    omega

lemma HeaderText.unique {y : Shape} (hx : HeaderText text x) (hy : HeaderText text y) : x = y := by
  obtain ⟨_, _, _, _, hfields, hstates, htransitions, hinitial, haccepting⟩ := headerText_iff.mp hx
  obtain ⟨_, _, _, _, hfields', hstates', htransitions', hinitial', haccepting'⟩ := headerText_iff.mp hy
  rw [hfields] at hfields'
  cases hfields'
  cases x
  cases y
  simp only [Shape.mk.injEq]
  exact ⟨hstates.unique hstates', htransitions.unique htransitions', hinitial.1.unique hinitial'.1,
    haccepting.unique haccepting'⟩

lemma isLeast_violates {header : List Char} (hheader : HeaderText header x) (hfront : Fits α x 0 front)
    (hrest : ∀ text ∈ rest.head?, ¬ Allowed α x front.length text)
    (hmissing : rest = [] → front.length < x.transitions + x.accepting) :
    IsLeast {k | Violates α (header :: (front ++ rest)) k} (front.length + 2) := by
  constructor
  · cases rest with
    | nil =>
      rw [List.append_nil]
      exact .missing hheader (hmissing rfl)
    | cons text rest => exact .line hheader (by simp) (hrest text rfl)
  · intro k hk
    cases hk with
    | header hnone => exact absurd hheader (hnone x)
    | @line _ text y _ place hy hget hnot =>
      by_contra hlt
      rw [List.getElem?_append_left (by omega)] at hget
      have hallowed := hfront place text hget
      rw [Nat.zero_add, hheader.unique hy] at hallowed
      exact hnot hallowed
    | missing => simp

lemma Breaks.isLeast_violates {header : List Char} {before : List (List Char)} {fits : List Char → Prop}
    (hheader : HeaderText header x) (hbefore : Fits α x 0 before)
    (h : Breaks fits (2 + before.length) e ls front rest)
    (hfits : ∀ i text, i ≤ front.length → (Allowed α x (before.length + i) text ↔ fits text))
    (hmissing : rest = [] → before.length + front.length < x.transitions + x.accepting) :
    ∃ line, AtLine line e ∧ IsLeast {k | Violates α (header :: (before ++ ls)) k} line := by
  refine ⟨2 + before.length + front.length, h.atLine, ?_⟩
  have hfront : Fits α x (0 + before.length) front := by
    rw [Nat.zero_add]
    exact fits_of_forall h.front_fits fun i text hi htext => (hfits i text hi.le).mpr htext
  have hrest : ∀ text ∈ rest.head?, ¬ Allowed α x (before ++ front).length text := by
    simpa only [List.length_append, hfits _ _ le_rfl] using h.rest_not
  rw [← List.length_append] at hmissing
  rw [h.eq, ← List.append_assoc, Nat.add_assoc, Nat.add_comm 2, ← List.length_append]
  exact Dump.isLeast_violates hheader (hbefore.append hfront) hrest hmissing

lemma header_atLine (hheader : ∀ x, ¬ HeaderText text x)
    (h : (ofLines (text :: ls) : Except Error (Dump α)) = .error e) : AtLine 1 e := by
  simp only [ofLines, ofNumbered, List.zipIdx_cons] at h
  split at h
  · next states transitions initial accepting hfields =>
    simp only [bind_eq_error_iff] at h
    rcases h with h | ⟨S, hstates, h | ⟨T, htransitions, h | ⟨I, hinitial, h | ⟨A, haccepting, -⟩⟩⟩⟩
    · exact number_atLine h
    · exact number_atLine h
    · exact state_atLine h
    · exact number_atLine h
    · refine absurd (headerText_iff.mpr ?_) (hheader ⟨S, T, I, A⟩)
      exact ⟨states, transitions, initial, accepting, hfields, number_eq_ok_iff.mp hstates,
        number_eq_ok_iff.mp htransitions, state_eq_ok_iff.mp hinitial, number_eq_ok_iff.mp haccepting⟩
  · cases h
    exact ⟨_, rfl⟩

lemma exists_isLeast_violates (h : (ofLines ls : Except Error (Dump α)) = .error e) :
    ∃ line, AtLine line e ∧ IsLeast {k | Violates α ls k} line := by
  cases ls with
  | nil =>
    cases h
    refine ⟨1, ⟨_, rfl⟩, .noHeader, ?_⟩
    rintro k ⟨⟩
    exact le_rfl
  | cons header ls =>
    by_cases hheader : ∃ x, HeaderText header x
    · obtain ⟨x, hheader⟩ := hheader
      rw [ofLines_of_headerText hheader] at h
      simp only [bind_eq_error_iff, Prod.exists] at h
      -- The section of the text that the reader stops in.
      rcases h with h | ⟨ts, ls', hts, h | ⟨fs, ls'', hfs, h | ⟨_, _, h⟩⟩⟩
      · obtain ⟨front, rest, hbreaks, hlen⟩ := items_eq_error (fun _ _ _ => transition_eq_ok_iff)
          (fun _ _ _ => transition_atLine) h
        have hnone : Fits α x 0 [] := Fits.nil
        refine hbreaks.isLeast_violates hheader hnone ?_ ?_
        · exact fun i text hi => allowed_transition (by simp; omega)
        · simp; omega
      · obtain ⟨edges, ls, rfl, rfl, hcount, hedges⟩ := transitions_eq_ok_iff.mp hts
        obtain ⟨front, rest, hbreaks, hlen⟩ := items_eq_error acceptingState_eq_ok_iff
          (fun _ _ _ => state_atLine) h
        have hlength : edges.length = x.transitions := hedges.length_eq.trans hcount
        rw [← hlength] at hbreaks
        refine hbreaks.isLeast_violates hheader (fits_transitions hedges hcount) ?_ (by omega)
        exact fun i text hi => allowed_accepting (by omega) (by omega)
      · obtain ⟨edges, ls, rfl, rfl, hcount, hedges⟩ := transitions_eq_ok_iff.mp hts
        obtain ⟨finals, ls, rfl, rfl, hcount', hfinals⟩ := acceptingStates_eq_ok_iff.mp hfs
        obtain ⟨front, rest, hbreaks, hne⟩ := noMore_eq_error h
        have hlength : edges.length = x.transitions := hedges.length_eq.trans hcount
        have hlength' : (edges ++ finals).length = x.transitions + x.accepting := by
          rw [List.length_append, hlength, hfinals.length_eq, hcount']
        rw [Nat.add_assoc, ← hlength'] at hbreaks
        rw [← List.append_assoc]
        have hbefore : Fits α x 0 (edges ++ finals) := by
          refine (fits_transitions hedges hcount).append ?_
          rw [Nat.zero_add, hlength]
          exact fits_accepting hfinals hcount'
        refine hbreaks.isLeast_violates hheader hbefore ?_ fun hrest => absurd hrest hne
        exact fun i text hi => allowed_blank (by omega)
      · cases h
    · simp only [not_exists] at hheader
      refine ⟨1, header_atLine hheader h, .header hheader, ?_⟩
      intro k hk
      cases hk <;> omega

lemma Violates.le {k : Nat} (h : Violates α ls k) : k ≤ ls.length + 1 := by
  cases h with
  | noHeader | header => simp
  | line _ hget =>
    obtain ⟨hlt, -⟩ := List.getElem?_eq_some_iff.mp hget
    rw [List.length_cons]
    omega
  | missing => simp

theorem parse_accepts_grammar (text : List Char) :
    (∀ ls, Text.SplitInto text ls ↔ ls = Text.lines text) ∧
    (∀ d : Dump α, parse text = .ok d ↔ LinesOf (Text.lines text) d) ∧
    ((∀ d : Dump α, ¬ LinesOf (Text.lines text) d) → ∃ line fault,
      (parse text : Except Error (Dump α)) = .error (.invalid .dump (.line line fault)) ∧
      IsLeast {k | Violates α (Text.lines text) k} line ∧ line ≤ text.length + 1 ∧
      (PatternInference.Fault.line line fault).reason = s!"line {line}: " ++ fault.reason) := by
  refine ⟨fun ls => Text.splitInto_iff, fun d => ofLines_eq_ok_iff, fun hnone => ?_⟩
  cases h : (parse text : Except Error (Dump α)) with
  | ok d => exact absurd (ofLines_eq_ok_iff.mp h) (hnone d)
  | error e =>
    obtain ⟨line, ⟨fault, rfl⟩, hleast⟩ := exists_isLeast_violates h
    refine ⟨line, fault, rfl, hleast, ?_, rfl⟩
    exact hleast.1.le.trans (Nat.succ_le_succ (Text.length_lines_le text))

theorem parse_accepts_grammar_counts_past_the_text :
    let text := "2 0 0 18446744073709551615\r\n+1\n".toList
    (parse text : Except Error (Dump Char)) = .error (.invalid .dump (.line 3 .missingAccepting)) ∧
      IsLeast {k | Violates Char (Text.lines text) k} 3 := by
  intro text
  have herror : (parse text : Except Error (Dump Char)) = .error (.invalid .dump (.line 3 .missingAccepting)) := by rfl
  obtain ⟨-, hok, hinvalid⟩ := parse_accepts_grammar (α := Char) text
  obtain ⟨line, fault, hline, hleast, -⟩ := hinvalid fun d hd => by
    rw [← hok, herror] at hd
    cases hd
  rw [herror] at hline
  cases hline
  exact ⟨herror, hleast⟩

end PatternInference.Dump
