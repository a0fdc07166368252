import Mathlib.Data.List.TakeWhile
import Mathlib.Tactic.SplitIfs
import PatternInference.CommandLine.Arguments

/-! What reading the arguments gives: flags and files ahead of the first double dash, in any order, and all behind it. -/

namespace PatternInference.CommandLine

variable {arg : String} {args front rest : List String} {s t : Settings} {f : Flag} {n : Nat}

def Flag.value : Flag → Options → Bool
  | noSimplify, o => o.simplify
  | noInterior, o => o.interior
  | group, o => o.grouped
  | anchored, o => o.anchored

def longFlags : List String := ["--no-simplify", "--no-interior", "--group", "--anchored", "--verbose"]

def IsLetters (arg : String) : Prop := ∃ n, 0 < n ∧ arg.toList = '-' :: List.replicate n 'v'

def IsFlag (arg : String) : Prop := arg ∈ longFlags ∨ IsLetters arg

def Unknown (arg : String) : Prop := arg.toList.head? = some '-' ∧ arg ≠ "-" ∧ ¬ IsFlag arg

def ahead (args : List String) : List String := args.takeWhile (· != "--")

def behind (args : List String) : List String := (args.dropWhile (· != "--")).tail

lemma letterV?_eq_some_iff : letterV? arg = some n ↔ 0 < n ∧ arg.toList = '-' :: List.replicate n 'v' := by
  have hrest : ∀ rest : List Char, rest ≠ [] ∧ rest.all (· == 'v') = true ∧ rest.length = n ↔
      0 < n ∧ rest = List.replicate n 'v' := by
    intro rest
    simp only [List.all_eq_true, beq_iff_eq, List.eq_replicate_iff, ← List.length_pos_iff]
    grind
  rw [letterV?]
  split
  · next rest harg =>
    simp only [harg, List.cons.injEq, true_and, ← hrest, Option.ite_none_right_eq_some, Option.some.injEq, and_assoc]
  · next harg =>
    simp only [reduceCtorEq, false_iff, not_and]
    exact fun _ => harg _

instance : DecidablePred IsLetters := fun arg =>
  decidable_of_iff ((letterV? arg).isSome = true) (by
    simp only [Option.isSome_iff_exists, letterV?_eq_some_iff, IsLetters])

instance : DecidablePred IsFlag := fun _ => inferInstanceAs (Decidable (_ ∨ _))

instance : DecidablePred Unknown := fun _ => inferInstanceAs (Decidable (_ ∧ _ ∧ ¬ _))

lemma find?_name (f : Flag) :
    [Flag.noSimplify, .noInterior, .group, .anchored].find? (·.name == f.name) = some f := by
  cases f <;> rfl

lemma mem_longFlags_iff : arg ∈ longFlags ↔ (∃ f : Flag, f.name = arg) ∨ arg = "--verbose" := by
  simp only [longFlags, List.mem_cons, List.not_mem_nil, or_false]
  constructor
  · rintro (rfl | rfl | rfl | rfl | rfl)
    · exact .inl ⟨.noSimplify, rfl⟩
    · exact .inl ⟨.noInterior, rfl⟩
    · exact .inl ⟨.group, rfl⟩
    · exact .inl ⟨.anchored, rfl⟩
    · exact .inr rfl
  · rintro (⟨f, rfl⟩ | rfl)
    · cases f <;> simp [Flag.name]
    · simp

/-- What an argument asks for where options may stand. -/
inductive Means : String → Word → Prop
  | file {arg : String} (h : arg.toList.head? = some '-' → arg = "-") : Means arg .file
  | endOfOptions : Means "--" .endOfOptions
  | flag (f : Flag) : Means f.name (.flag f)
  | verbose : Means "--verbose" (.verbose 1)
  | letters {arg : String} {n : Nat} (hn : 0 < n) (h : arg.toList = '-' :: List.replicate n 'v') : Means arg (.verbose n)
  | unknown {arg : String} (hne : arg ≠ "--") (h : Unknown arg) : Means arg .unknown

lemma means_ofArgument (arg : String) : Means arg (Word.ofArgument arg) := by
  rw [Word.ofArgument]
  split_ifs with hfile hend hverbose
  · apply Means.file
    intro hdash
    simpa [hdash] using hfile
  · subst hend
    exact .endOfOptions
  · subst hverbose
    exact .verbose
  · rw [not_or, not_not] at hfile
    split
    · next f hfind =>
      obtain rfl : f.name = arg := by simpa using List.find?_some hfind
      exact .flag f
    · next n _ hletters =>
      obtain ⟨hn, harg⟩ := letterV?_eq_some_iff.mp hletters
      exact .letters hn harg
    · next hfind hletters =>
      refine .unknown hend ⟨hfile.2, hfile.1, ?_⟩
      rintro (hlong | ⟨n, hn, harg⟩)
      · rcases mem_longFlags_iff.mp hlong with ⟨f, rfl⟩ | rfl
        · rw [find?_name] at hfind
          cases hfind
        · exact hverbose rfl
      · rw [letterV?_eq_some_iff.mpr ⟨hn, harg⟩] at hletters
        cases hletters

lemma isFlag_name (f : Flag) : IsFlag f.name := .inl (mem_longFlags_iff.mpr (.inl ⟨f, rfl⟩))

lemma isFlag_verbose : IsFlag "--verbose" := .inl (mem_longFlags_iff.mpr (.inr rfl))

lemma toList_of_mem_longFlags (h : arg ∈ longFlags) : ∃ rest, arg.toList = '-' :: '-' :: rest := by
  rcases mem_longFlags_iff.mp h with ⟨f, rfl⟩ | rfl
  · cases f <;> exact ⟨_, rfl⟩
  · exact ⟨_, rfl⟩

lemma not_isLetters_of_mem_longFlags (h : arg ∈ longFlags) : ¬ IsLetters arg := by
  obtain ⟨rest, hdashes⟩ := toList_of_mem_longFlags h
  rintro ⟨n, _, harg⟩
  -- the second dash would be a letter v
  rw [hdashes, List.cons.injEq] at harg
  have hmem : '-' ∈ List.replicate n 'v' := harg.2 ▸ List.mem_cons_self
  simp at hmem

lemma not_isLetters_name (f : Flag) : ¬ IsLetters f.name :=
  not_isLetters_of_mem_longFlags (mem_longFlags_iff.mpr (.inl ⟨f, rfl⟩))

lemma not_isLetters_verbose : ¬ IsLetters "--verbose" :=
  not_isLetters_of_mem_longFlags (mem_longFlags_iff.mpr (.inr rfl))

lemma name_ne_verbose (f : Flag) : f.name ≠ "--verbose" := by
  cases f <;> simp [Flag.name]

lemma IsFlag.dash (h : IsFlag arg) : arg.toList.head? = some '-' ∧ arg ≠ "-" := by
  obtain ⟨c, rest, harg⟩ : ∃ c rest, arg.toList = '-' :: c :: rest := by
    rcases h with hlong | ⟨n, hn, harg⟩
    · obtain ⟨rest, harg⟩ := toList_of_mem_longFlags hlong
      exact ⟨'-', rest, harg⟩
    · obtain ⟨k, rfl⟩ := Nat.exists_eq_add_of_lt hn
      exact ⟨'v', _, harg⟩
  refine ⟨by rw [harg, List.head?_cons], ?_⟩
  rintro rfl
  cases harg

def loudness (args : List String) : Nat :=
  args.count "--verbose" + ((args.filter fun arg => IsLetters arg).flatMap String.toList).count 'v'

lemma loudness_concat : loudness (front ++ [arg]) = loudness front + loudness [arg] := by
  simp only [loudness, List.count_append, List.filter_append, List.flatMap_append]
  omega

lemma loudness_singleton (arg : String) :
    loudness [arg] = (if arg = "--verbose" then 1 else 0) + if IsLetters arg then arg.toList.count 'v' else 0 := by
  rw [loudness, List.count_singleton]
  by_cases h : IsLetters arg <;> simp [h]

lemma loudness_of_not_isFlag (h : ¬ IsFlag arg) : loudness [arg] = 0 := by
  have hverbose : arg ≠ "--verbose" := fun heq => h (heq ▸ isFlag_verbose)
  have hletters : ¬ IsLetters arg := fun hletters => h (.inr hletters)
  rw [loudness_singleton, if_neg hverbose, if_neg hletters]

lemma loudness_name (f : Flag) : loudness [f.name] = 0 := by
  rw [loudness_singleton, if_neg (name_ne_verbose f), if_neg (not_isLetters_name f)]

lemma loudness_verbose : loudness ["--verbose"] = 1 := by
  rw [loudness_singleton, if_neg not_isLetters_verbose, if_pos rfl]

lemma loudness_letters (hn : 0 < n) (h : arg.toList = '-' :: List.replicate n 'v') : loudness [arg] = n := by
  have hletters : IsLetters arg := ⟨n, hn, h⟩
  have hverbose : arg ≠ "--verbose" := by
    rintro rfl
    exact not_isLetters_verbose hletters
  rw [loudness_singleton, if_neg hverbose, if_pos hletters, h]
  simp

lemma Flag.value_set (f g : Flag) (o : Options) :
    f.value (g.set o) ≠ f.value {} ↔ f.value o ≠ f.value {} ∨ f.name = g.name := by
  cases f <;> cases g <;> simp [Flag.value, Flag.set, Flag.name]

structure Reads (front : List String) (s : Settings) : Prop where
  options : ∀ f : Flag, f.value s.options ≠ f.value {} ↔ f.name ∈ front
  verbosity : s.verbosity = min maxVerbosity (loudness front)
  files : s.files = front.filter fun arg => ¬ IsFlag arg

namespace Reads

lemma nil : Reads [] {} where
  options f := by simp
  verbosity := rfl
  files := rfl

lemma file (h : Reads front s) (hfile : ¬ IsFlag arg) :
    Reads (front ++ [arg]) { s with files := s.files ++ [arg] } where
  options f := by
    have hname : f.name ≠ arg := fun heq => hfile (heq ▸ isFlag_name f)
    simp [h.options f, hname]
  verbosity := by rw [loudness_concat, loudness_of_not_isFlag hfile, Nat.add_zero, h.verbosity]
  files := by simp [h.files, hfile]

lemma flag (h : Reads front s) (f : Flag) : Reads (front ++ [f.name]) { s with options := f.set s.options } where
  options g := by
    rw [Flag.value_set, h.options g, List.mem_append, List.mem_singleton]
  verbosity := by rw [loudness_concat, loudness_name, Nat.add_zero, h.verbosity]
  files := by simp [h.files, isFlag_name f]

lemma verbose (h : Reads front s) (hflag : IsFlag arg) (hname : ∀ f : Flag, f.name ≠ arg) :
    Reads (front ++ [arg]) { s with verbosity := min maxVerbosity (s.verbosity + loudness [arg]) } where
  options f := by simp [h.options f, hname f]
  verbosity := by
    simp only [loudness_concat, h.verbosity]
    omega
  files := by simp [h.files, hflag]

lemma step (h : Reads front s) (hne : arg ≠ "--") (hknown : ¬ Unknown arg) :
    ∃ t, Reads (front ++ [arg]) t ∧ ∀ rest, s.read (arg :: rest) = t.read rest := by
  have hmeans := means_ofArgument arg
  generalize hword : Word.ofArgument arg = word at hmeans
  cases hmeans with
  | file hdash =>
    have hfile : ¬ IsFlag arg := fun hflag => hflag.dash.2 (hdash hflag.dash.1)
    exact ⟨_, h.file hfile, fun rest => by rw [Settings.read, hword]⟩
  | endOfOptions => exact absurd rfl hne
  | flag f => exact ⟨_, h.flag f, fun rest => by rw [Settings.read, hword]⟩
  | verbose =>
    refine ⟨_, h.verbose isFlag_verbose name_ne_verbose, fun rest => ?_⟩
    rw [Settings.read, hword, loudness_verbose]
  | @letters _ n hn harg =>
    have hname : ∀ f : Flag, f.name ≠ arg := by
      rintro f rfl
      exact not_isLetters_name f ⟨n, hn, harg⟩
    refine ⟨_, h.verbose (.inr ⟨n, hn, harg⟩) hname, fun rest => ?_⟩
    rw [Settings.read, hword, loudness_letters hn harg]
  | unknown _ hunknown => exact absurd hunknown hknown

lemma append (h : Reads front s) (hrest : ∀ arg ∈ rest, arg ≠ "--" ∧ ¬ Unknown arg) :
    ∃ t, Reads (front ++ rest) t ∧ ∀ more, s.read (rest ++ more) = t.read more := by
  induction rest generalizing front s with
  | nil => exact ⟨s, by rwa [List.append_nil], fun more => rfl⟩
  | cons arg rest ih =>
    obtain ⟨⟨hne, hknown⟩, hrest⟩ := List.forall_mem_cons.mp hrest
    obtain ⟨t, ht, hread⟩ := h.step hne hknown
    obtain ⟨u, hu, hreads⟩ := ih ht hrest
    rw [List.append_assoc, List.singleton_append] at hu
    exact ⟨u, hu, fun more => (hread (rest ++ more)).trans (hreads more)⟩

end Reads

lemma ahead_cons (h : arg ≠ "--") : ahead (arg :: args) = arg :: ahead args := by simp [ahead, h]

lemma behind_cons (h : arg ≠ "--") : behind (arg :: args) = behind args := by simp [behind, h]

lemma ne_of_mem_ahead (h : arg ∈ ahead args) : arg ≠ "--" := by
  simpa using List.mem_takeWhile_imp h

lemma eq_ahead_append (args : List String) :
    args = ahead args ∧ behind args = [] ∨ args = ahead args ++ "--" :: behind args := by
  induction args with
  | nil => exact .inl ⟨rfl, rfl⟩
  | cons arg args ih =>
    by_cases harg : arg = "--"
    · subst harg
      exact .inr rfl
    · rw [ahead_cons harg, behind_cons harg, List.cons_append, List.cons.injEq, List.cons.injEq]
      exact ih.imp (fun h => ⟨⟨rfl, h.1⟩, h.2⟩) fun h => ⟨rfl, h⟩

lemma exists_reads (h : ∀ arg ∈ front, arg ≠ "--" ∧ ¬ Unknown arg) :
    ∃ t, Reads front t ∧ ∀ more, Settings.read {} (front ++ more) = t.read more := Reads.nil.append h

lemma read_of_known (hknown : ∀ arg ∈ ahead args, ¬ Unknown arg) :
    ∃ t, Reads (ahead args) t ∧ Settings.read {} (ahead args) = .ok t ∧
      Settings.read {} args = .ok { t with files := t.files ++ behind args } := by
  obtain ⟨t, ht, hread⟩ := exists_reads fun arg harg => ⟨ne_of_mem_ahead harg, hknown arg harg⟩
  have hahead := hread []
  rw [List.append_nil, Settings.read] at hahead
  refine ⟨t, ht, hahead, ?_⟩
  rcases eq_ahead_append args with ⟨hargs, hbehind⟩ | hargs
  · rw [← hargs] at hahead
    rw [hahead, hbehind, List.append_nil]
  · have hall := hread ("--" :: behind args)
    rw [← hargs] at hall
    rw [hall, Settings.read]
    rfl

lemma ofArgument_of_unknown (hne : arg ≠ "--") (h : Unknown arg) : Word.ofArgument arg = .unknown := by
  have hmeans := means_ofArgument arg
  generalize Word.ofArgument arg = word at hmeans ⊢
  cases hmeans with
  | file hdash => exact absurd (hdash h.1) h.2.1
  | endOfOptions => exact absurd rfl hne
  | flag f => exact absurd (isFlag_name f) h.2.2
  | verbose => exact absurd isFlag_verbose h.2.2
  | letters hn harg => exact absurd (.inr ⟨_, hn, harg⟩) h.2.2
  | unknown => rfl

lemma read_of_unknown (h : (ahead args).find? (fun arg => Unknown arg) = some arg) :
    Settings.read {} args = .error arg := by
  obtain ⟨hunknown, before, after, hahead, hbefore⟩ := List.find?_eq_some_iff_append.mp h
  have hne : ∀ other ∈ before ++ arg :: after, other ≠ "--" := by
    rw [← hahead]
    exact fun other => ne_of_mem_ahead
  obtain ⟨more, hargs⟩ : ∃ more, args = before ++ arg :: more := by
    rcases eq_ahead_append args with ⟨hargs, _⟩ | hargs
    · exact ⟨after, hargs.trans hahead⟩
    · rw [hahead, List.append_assoc, List.cons_append] at hargs
      exact ⟨_, hargs⟩
  obtain ⟨t, _, hread⟩ := exists_reads fun other hother =>
    ⟨hne other (List.mem_append_left _ hother), by simpa using hbefore other hother⟩
  have harg := ofArgument_of_unknown (hne arg (by simp)) (of_decide_eq_true hunknown)
  rw [hargs, hread, Settings.read, harg]

lemma known_of_read (h : Settings.read {} args = .ok s) : ∀ arg ∈ ahead args, ¬ Unknown arg := by
  cases hfind : (ahead args).find? fun arg => Unknown arg with
  | none => simpa using List.find?_eq_none.mp hfind
  | some arg =>
    rw [read_of_unknown hfind] at h
    cases h

lemma ahead_ahead : ahead (ahead args) = ahead args := List.takeWhile_idem

lemma mem_iff_ahead_or_behind (h : arg ≠ "--") : arg ∈ args ↔ arg ∈ ahead args ∨ arg ∈ behind args := by
  rcases eq_ahead_append args with ⟨hargs, hbehind⟩ | hargs
  · rw [← hargs, hbehind]
    simp
  · calc arg ∈ args ↔ arg ∈ ahead args ++ "--" :: behind args := by rw [← hargs]
      _ ↔ arg ∈ ahead args ∨ arg ∈ behind args := by rw [List.mem_append, List.mem_cons, or_iff_right h]

lemma wantsHelp_eq_false_iff : wantsHelp args = false ↔ "-h" ∉ args ∧ "--help" ∉ args := by
  simp only [wantsHelp, List.any_eq_false, Bool.or_eq_true, beq_iff_eq]
  grind

theorem read_specification (args : List String) :
    (∀ arg, Settings.read {} args = .error arg ↔ (ahead args).find? (fun arg => Unknown arg) = some arg) ∧
      ((∃ arg, Settings.read {} args = .error arg) ↔ ∃ arg ∈ ahead args, Unknown arg) ∧
      ((∀ arg ∈ ahead args, ¬ Unknown arg) → ∃ s, Settings.read {} args = .ok s ∧
        (∀ f : Flag, f.value s.options ≠ f.value {} ↔ f.name ∈ ahead args) ∧
        s.verbosity = min 255 (loudness (ahead args)) ∧
        s.files = (ahead args).filter (fun arg => ¬ IsFlag arg) ++ behind args) := by
  have herror : ∀ arg, Settings.read {} args = .error arg ↔
      (ahead args).find? (fun arg => Unknown arg) = some arg := by
    intro arg
    refine ⟨fun hread => ?_, read_of_unknown⟩
    cases hfind : (ahead args).find? fun arg => Unknown arg with
    | some first => rw [← Except.error.inj ((read_of_unknown hfind).symm.trans hread)]
    | none =>
      obtain ⟨t, _, _, hok⟩ := read_of_known (by simpa using List.find?_eq_none.mp hfind)
      rw [hok] at hread
      cases hread
  refine ⟨herror, ?_, fun hknown => ?_⟩
  · simp only [herror, ← Option.isSome_iff_exists, List.find?_isSome, decide_eq_true_eq]
  · obtain ⟨t, ht, _, hread⟩ := read_of_known hknown
    exact ⟨_, hread, ht.options, ht.verbosity, by rw [ht.files]⟩

theorem read_specification_mixed :
    let args := ["-vv", "x", "--group", "-", "--verbose", "--group", "--", "--anchored", "-q", "--"]
    (∃ s, Settings.read {} args = .ok s ∧ s.verbosity = 3 ∧ s.files = ["x", "-", "--anchored", "-q", "--"] ∧
      ∀ f : Flag, f.value s.options ≠ f.value {} ↔ f = .group) ∧
      Settings.read {} ["a", "-vx", "--fast", "--"] = .error "-vx" := by
  intro args
  have hahead : ahead args = ["-vv", "x", "--group", "-", "--verbose", "--group"] := by decide +kernel
  have hknown : ∀ arg ∈ ahead args, ¬ Unknown arg := by
    rw [hahead]
    decide +kernel
  obtain ⟨s, hread, hoptions, hverbosity, hfiles⟩ := (read_specification args).2.2 hknown
  refine ⟨⟨s, hread, ?_, ?_, fun f => ?_⟩, ?_⟩
  · rw [hverbosity, hahead]
    decide +kernel
  · rw [hfiles, hahead]
    decide +kernel
  · rw [hoptions, hahead]
    cases f <;> decide +kernel
  · apply ((read_specification ["a", "-vx", "--fast", "--"]).1 "-vx").mpr
    decide +kernel

end PatternInference.CommandLine
