import PatternInference.Proofs.Minimization.Calls

/-! A load that failed, or a choice of accepting states, is taken up by the next one as if both were one call. -/

namespace PatternInference

variable {ι : Type} {fault? : ι → Option Error} {it : Interrupt} {front : List ι} {x : ι} {e : Error}

namespace Interrupt

structure FailsBehind (fault? : ι → Option Error) (it : Interrupt) (front : List ι) (x : ι) (e : Error) : Prop where
  ne_atStart : it ≠ .atStart
  fault_none : ∀ y ∈ front, fault? y = none
  ne_onItem : ∀ k < front.length, it ≠ .onItem k
  error : it = .onItem front.length ∧ e = .cancelled ∨ it ≠ .onItem front.length ∧ fault? x = some e

lemma next_eq_onItem_iff {k : Nat} (h : it ≠ .onItem 0) : it.next = .onItem k ↔ it = .onItem (k + 1) := by
  rcases it with _ | _ | (_ | k) | _ <;> simp_all [next]

lemma next_eq_atStart_iff : it.next = .atStart ↔ it = .atStart := by
  rcases it with _ | _ | (_ | k) | _ <;> simp [next]

lemma accept_cons (hstart : it ≠ .atStart) (hitem : it ≠ .onItem 0) (hx : fault? x = none) (xs : List ι) :
    it.accept fault? (x :: xs) = (x :: (it.next.accept fault? xs).1, (it.next.accept fault? xs).2) := by
  rcases it with _ | _ | (_ | k) | _ <;> simp_all [accept]

lemma accept_never_append {xs ys : List ι} (hx : ∀ x ∈ xs, fault? x = none)
    (hy : ∀ y ∈ ys, fault? y = none) : never.accept fault? (xs ++ ys) = (xs ++ ys, none) := by
  have hnone := accept_never_none_iff.mpr (List.forall_mem_append.mpr ⟨hx, hy⟩)
  exact Prod.ext (accept_none hnone) hnone

namespace FailsBehind

lemma tail {y : ι} (h : FailsBehind fault? it (y :: front) x e) : FailsBehind fault? it.next front x e := by
  have hitem : it ≠ .onItem 0 := h.ne_onItem 0 (by simp)
  refine ⟨fun hs => h.ne_atStart (next_eq_atStart_iff.mp hs), fun z hz => h.fault_none z (by simp [hz]),
    fun k hk => ?_, ?_⟩
  · rw [Ne, next_eq_onItem_iff hitem]
    exact h.ne_onItem (k + 1) (by simpa using hk)
  · rw [Ne, next_eq_onItem_iff hitem]
    exact h.error

lemma accept_eq (h : FailsBehind fault? it front x e) (rest : List ι) :
    it.accept fault? (front ++ x :: rest) = (front, some e) := by
  induction front generalizing it with
  | nil =>
    rcases h.error with ⟨rfl, rfl⟩ | ⟨hitem, hx⟩
    · rfl
    · have hstart := h.ne_atStart
      rcases it with _ | _ | (_ | k) | _ <;> simp_all [accept]
  | cons y front ih =>
    rw [List.cons_append, accept_cons h.ne_atStart (h.ne_onItem 0 (by simp)) (h.fault_none y (by simp)), ih h.tail]

end FailsBehind

end Interrupt

namespace Minimization

variable {α : Type}

def Call.stored (m : Minimization α) : Call α → List (Transition α)
  | load edges interrupt =>
    if m.refusal? .created .loaded interrupt = none then
      (interrupt.accept (Transition.fault? m.stateCount) edges).1
    else []
  | _ => []

def Call.step? : Call α → Option (Stage × Stage × Interrupt)
  | load _ interrupt => some (.created, .loaded, interrupt)
  | setFinals _ interrupt => some (.loaded, .finalsSet, interrupt)
  | partition cancelled => some (.finalsSet, .partitioned, .ofBool cancelled)
  | refine cancelled => some (.partitioned, .refined, .ofBool cancelled)
  | finish cancelled => some (.finalsSet, .partitioned, .ofBool cancelled)
  | _ => none

section Run

variable [DecidableEq α] [OrderedSymbol α]

def stored : Minimization α → List (Call α) → List (Transition α)
  | _, [] => []
  | m, c :: calls => c.stored m ++ stored (c.run m).state calls

end Run

variable {m m' m₀ m₁ : Minimization α} {n i s : Nat} {E edges : List (Transition α)} {F finals : List Nat}
  {it : Interrupt}

lemma Frontier.Valid.reach?_of_front {f : Frontier} {live : Nat} (hf : f.Valid live) (hs : f.Front s) :
    f.reach? s = some f := by
  have hlt : f.states.placeOf s < f.reached := hs.2
  simp [reach?, hf.states.position_get hs.1, hlt]

lemma reach?_withColumns (m : Minimization α) (c : Columns α) (s : Nat) :
    reach? { m with columns := c } s = (m.reach? s).map fun m' => { m' with columns := c } := by
  simp only [reach?, Option.bind_eq_bind]
  cases Frontier.reach? ⟨m.blocks, m.reached⟩ s <;> rfl

lemma Unsplit.reach?_idem (h : m.Unsplit) (hs : m.Live s) (hm : m.reach? s = some m') : m'.reach? s = some m' := by
  obtain ⟨m'', hm'', x⟩ := h.reach?_spec hs
  obtain rfl : m'' = m' := Option.some.inj (hm''.symm.trans hm)
  have hfront : m''.frontier.reach? s = some m''.frontier :=
    x.unsplit.front.reach?_of_front ((x.front_iff s).mpr (.inr rfl))
  rw [reach?, show Frontier.reach? ⟨m''.blocks, m''.reached⟩ s = some m''.frontier from hfront]
  rfl

def Merges (m m₀ : Minimization α) (s : Nat) : Prop :=
  ∀ c : Columns α, reach? { m with columns := c } s = reach? { m₀ with columns := c } s

/-- `m` goes on as `m₀` would after one load of `E` and one call with the accepting states `F`. -/
inductive Resumes (m₀ : Minimization α) (n i : Nat) (E : List (Transition α)) (F : List Nat) (m : Minimization α) :
    Prop where
  | created (h : Created m n i E) (hF : F = []) (hm : m.Merges m₀ i)
  | loaded {m₁ : Minimization α} (hstage : m.stage = .loaded) (h : Loaded m n i E F) (hF : ∀ s ∈ F, s < n)
    (hload : m₀.load E .never = .done m₁) (hm : m₁.reachLive? F = some m)
  | finalsSet (hstage : m.stage = .finalsSet) (h : Loaded m n i E F) (hf : m.finals = m.reached)
  | later (hrank : Stage.partitioned.rank ≤ m.stage.rank)

lemma Created.fault?_eq_none (h : Created m n i E) : ∀ e ∈ E, e.fault? n = none := by
  intro e he
  have hends := h.unsplit.ends e (h.edges_eq.symm ▸ he)
  exact Transition.fault?_eq_none_iff.mpr ⟨h.live_iff.mp hends.1, h.live_iff.mp hends.2⟩

lemma Created.merges_stopPruning (h : Created m n i E) : m.stopPruning.state.Merges m i := by
  have hlive : m.Live i := h.live_iff.mpr h.initial_lt
  obtain ⟨m', hm', _⟩ := h.unsplit.reach?_spec hlive
  have hstop : m.stopPruning.state = m' := by
    obtain ⟨m'', hstop, _⟩ := h.stopPruning_spec
    rw [stopPruning, h.initial_eq, hm'] at hstop ⊢
    split at hstop
    · next hsome _ => exact (Option.some.inj hsome).symm
    · cases hstop
  intro c
  rw [hstop, reach?_withColumns m', h.unsplit.reach?_idem hlive hm', reach?_withColumns m, hm']

lemma Merges.load_append (hm : m.Merges m₀ m₀.initial) (h₀ : Created m₀ n m₀.initial []) (h : Created m n m₀.initial E)
    (he : ∀ e ∈ edges, e.fault? n = none)
    (hm' : ((m.store edges).reach? m₀.initial).bind (prune? .forward) = some m') :
    m₀.load (E ++ edges) .never = .done { m' with stage := .loaded } := by
  have hacc := Interrupt.accept_never_append h.fault?_eq_none he
  rw [← h₀.stateCount_eq] at hacc
  have hrows : m.edges ++ edges = m₀.edges ++ (E ++ edges) := by rw [h.edges_eq, h₀.edges_eq, List.nil_append]
  have hcolumns : m.columns.append edges = m₀.columns.append (E ++ edges) := Columns.ext_rows (by simpa [Minimization.edges])
  rw [store, hcolumns, hm] at hm'
  rw [load_of_accept (refusal?_eq_none_iff.mpr ⟨h₀.stage_eq, by simp⟩) hacc]
  simp only [store, reduceCtorEq, if_false]
  rw [hm', reachStage_some]

lemma Created.load_failsBehind (h : Created m n i E) {front : List (Transition α)} {x : Transition α} {e : Error}
    (hfails : it.FailsBehind (Transition.fault? n) front x e) (rest : List (Transition α)) :
    (m.load (front ++ x :: rest) it).error? = some e ∧ (m.load (front ++ x :: rest) it).state.stage = .created ∧
      (Call.load (front ++ x :: rest) it).stored m = front := by
  obtain rfl := h.stateCount_eq
  have hr : m.refusal? .created .loaded it = none := refusal?_eq_none_iff.mpr ⟨h.stage_eq, hfails.ne_atStart⟩
  have ha := hfails.accept_eq rest
  have hload : m.load (front ++ x :: rest) it = .failed (m.store front) e := load_of_accept hr ha
  rw [hload]
  exact ⟨rfl, h.stage_eq, by rw [Call.stored, if_pos hr, ha]⟩

lemma Loaded.setFinals_failsBehind (h : Loaded m n i E F) (hstage : m.stage = .loaded) {front : List Nat} {e : Error}
    (hfails : it.FailsBehind (finalFault? n) front s e) (rest : List Nat) :
    (m.setFinals (front ++ s :: rest) it).error? = some e ∧ (m.setFinals (front ++ s :: rest) it).state.stage = .loaded ∧
      (Call.setFinals (front ++ s :: rest) it : Call α).recorded m = front := by
  obtain rfl := h.stateCount_eq
  have hr : m.refusal? .loaded .finalsSet it = none := refusal?_eq_none_iff.mpr ⟨hstage, hfails.ne_atStart⟩
  have ha := hfails.accept_eq rest
  obtain ⟨m', hm', _, hstage'⟩ :=
    h.reachLive?_spec fun s hs => finalFault?_eq_none_iff.mp (hfails.fault_none s hs)
  have hset : m.setFinals (front ++ s :: rest) it = .failed m' e := setFinals_of_accept hr ha hm'
  rw [hset]
  exact ⟨rfl, hstage'.trans hstage, by rw [Call.recorded, if_pos hr, ha]⟩

lemma reachLive?_append {finals' : List Nat} :
    m.reachLive? (finals ++ finals') = (m.reachLive? finals).bind (·.reachLive? finals') := by
  rw [reachLive?, List.foldlM_append]
  rfl

lemma reachStage_state {next : Stage} (m'? : Option (Minimization α)) :
    (m.reachStage next m'?).state = m ∨ (m.reachStage next m'?).state.stage = next := by
  cases m'? with
  | none => exact .inl rfl
  | some => exact .inr rfl

lemma reads_state {κ : Type} (r : Except Error κ) : (m.reads r).state = m := by
  cases r <;> rfl

lemma refine_state (m : Minimization α) (cancelled : Bool) :
    (m.refine cancelled).state = m ∨ (m.refine cancelled).state.stage = .refined := by
  rw [refine]
  split
  · exact .inl rfl
  · exact reachStage_state _

lemma rank_le_refine_state (m : Minimization α) (cancelled : Bool) :
    (m.refine cancelled).state = m ∨ Stage.partitioned.rank ≤ (m.refine cancelled).state.stage.rank :=
  (m.refine_state cancelled).imp_right fun hstage => by simp [hstage, Stage.rank]

section Run

variable [DecidableEq α] [OrderedSymbol α]

lemma partition_state (m : Minimization α) (cancelled : Bool) :
    (m.partition cancelled).state = m ∨ Stage.partitioned.rank ≤ (m.partition cancelled).state.stage.rank := by
  rw [partition]
  split
  · exact .inl rfl
  · split
    · exact .inl rfl
    · exact (reachStage_state _).imp_right fun hstage => by simp [hstage, Stage.rank]

lemma finish_state (m : Minimization α) (cancelled : Bool) :
    (m.finish cancelled).state = m ∨ Stage.partitioned.rank ≤ (m.finish cancelled).state.stage.rank := by
  rw [finish, Outcome.andThen]
  split
  · rcases (m.partition cancelled).state.rank_le_refine_state cancelled with hsame | hrank
    · rw [hsame]
      exact m.partition_state cancelled
    · exact .inr hrank
  · exact m.partition_state cancelled

end Run

namespace Resumes

lemma of_created (h : Resumes m₀ n i E F m) (hstage : m.stage = .created) :
    Created m n i E ∧ F = [] ∧ m.Merges m₀ i := by
  cases h with
  | created h hF hm => exact ⟨h, hF, hm⟩
  | loaded hs | finalsSet hs => simp [hs] at hstage
  | later hrank => simp [hstage, Stage.rank] at hrank

lemma of_loaded (h : Resumes m₀ n i E F m) (hstage : m.stage = .loaded) :
    Loaded m n i E F ∧ (∀ s ∈ F, s < n) ∧ ∃ m₁, m₀.load E .never = .done m₁ ∧ m₁.reachLive? F = some m := by
  cases h with
  | loaded _ h hF hload hm => exact ⟨h, hF, _, hload, hm⟩
  | created h => simp [h.stage_eq] at hstage
  | finalsSet hs => simp [hs] at hstage
  | later hrank => simp [hstage, Stage.rank] at hrank

lemma of_finalsSet (h : Resumes m₀ n i E F m) (hstage : m.stage = .finalsSet) :
    Loaded m n i E F ∧ m.finals = m.reached := by
  cases h with
  | finalsSet _ h hf => exact ⟨h, hf⟩
  | created h => simp [h.stage_eq] at hstage
  | loaded hs => simp [hs] at hstage
  | later hrank => simp [hstage, Stage.rank] at hrank

lemma of_state (h : Resumes m₀ n i E F m) (hm : m' = m ∨ Stage.partitioned.rank ≤ m'.stage.rank) :
    Resumes m₀ n i E F m' := by
  rcases hm with rfl | hrank
  · exact h
  · exact .later hrank

lemma append_nil (h : Resumes m₀ n i E F m) : Resumes m₀ n i (E ++ []) (F ++ []) m := by
  rwa [List.append_nil, List.append_nil]

lemma load (h₀ : Created m₀ n i []) (h : Resumes m₀ n i E F m) (edges : List (Transition α)) (it : Interrupt) :
    Resumes m₀ n i (E ++ (Call.load edges it).stored m) F (m.load edges it).state ∧
      ((m.load edges it).error? = none → m.load edges it = m₀.load (E ++ edges) .never) := by
  obtain rfl := h₀.initial_eq
  rw [Call.stored]
  cases hr : m.refusal? .created .loaded it with
  | some e =>
    rw [Minimization.load, hr, if_neg (by simp), List.append_nil]
    exact ⟨h, fun hnone => absurd hnone (Option.some_ne_none _)⟩
  | none =>
    obtain ⟨hc, rfl, hm⟩ := h.of_created (refusal?_eq_none_iff.mp hr).1
    rw [if_pos rfl]
    rcases ha : it.accept (Transition.fault? m.stateCount) edges with ⟨front, e?⟩
    have hs : ∀ e ∈ front, e.fault? n = none := by
      have := (it.accept_sound (Transition.fault? m.stateCount) edges).2
      rwa [ha, hc.stateCount_eq] at this
    have hfront : Created (m.store front) n m₀.initial (E ++ front) :=
      hc.append (hc.stateCount_eq ▸ hs)
    rw [load_of_accept hr ha]
    cases e? with
    | some e => exact ⟨.created hfront rfl hm, fun hnone => absurd hnone (Option.some_ne_none _)⟩
    | none =>
      obtain rfl : front = edges := by simpa [ha] using Interrupt.accept_none (congrArg Prod.snd ha)
      by_cases hend : it = .atEnd
      -- the initial state is reached already and stays so; the next load reaches it in vain
      · obtain ⟨m', hstop, hc'⟩ := hfront.stopPruning_spec
        have hmerges := hfront.merges_stopPruning
        simp only [if_pos hend]
        rw [hstop] at hmerges ⊢
        exact ⟨.created hc' rfl fun c => (hmerges c).trans (hm c), fun hnone => absurd hnone (Option.some_ne_none _)⟩
      -- otherwise both loads prune the same state
      · obtain ⟨m', hm', hl⟩ := hfront.prune?_spec
        have hprune : ((m.store front).reach? m.initial).bind (prune? .forward) = some m' := hm'
        have hload : m₀.load (E ++ front) .never = .done { m' with stage := .loaded } :=
          hm.load_append h₀ hc hs (hfront.initial_eq ▸ hm')
        simp only [if_neg hend, hprune, reachStage_some]
        exact ⟨.loaded rfl hl (by simp) hload rfl, fun _ => hload.symm⟩

lemma setFinals (h₀ : Created m₀ n i []) (h : Resumes m₀ n i E F m) (finals : List Nat) (it : Interrupt) :
    Resumes m₀ n i E (F ++ (Call.setFinals finals it : Call α).recorded m) (m.setFinals finals it).state ∧
      ((m.setFinals finals it).error? = none →
        m.setFinals finals it = (m₀.load E .never).andThen (·.setFinals (F ++ finals) .never)) := by
  rw [Call.recorded]
  cases hr : m.refusal? .loaded .finalsSet it with
  | some e =>
    rw [Minimization.setFinals, hr, if_neg (by simp), List.append_nil]
    exact ⟨h, fun hnone => absurd hnone (Option.some_ne_none _)⟩
  | none =>
    have hstage := (refusal?_eq_none_iff.mp hr).1
    obtain ⟨h, hF, m₁, hload, hm⟩ := h.of_loaded hstage
    rw [if_pos rfl]
    rcases ha : it.accept (finalFault? m.stateCount) finals with ⟨front, e?⟩
    have hs : ∀ s ∈ front, finalFault? n s = none := by
      have := (it.accept_sound (finalFault? m.stateCount) finals).2
      rwa [ha, h.stateCount_eq] at this
    have hfront : ∀ s ∈ front, s < n := fun s hmem => finalFault?_eq_none_iff.mp (hs s hmem)
    obtain ⟨m', hm', hl, hstage'⟩ := h.reachLive?_spec hfront
    have hboth : m₁.reachLive? (F ++ front) = some m' := by
      rw [reachLive?_append, hm]
      exact hm'
    rw [setFinals_of_accept hr ha hm']
    cases e? with
    | some e =>
      exact ⟨.loaded (hstage'.trans hstage) hl (List.forall_mem_append.mpr ⟨hF, hfront⟩) hload hboth,
        fun hnone => absurd hnone (Option.some_ne_none _)⟩
    | none =>
      obtain rfl : front = finals := by simpa [ha] using Interrupt.accept_none (congrArg Prod.snd ha)
      obtain ⟨hstage₁, hl₁, _⟩ := h₀.load_done hload
      have hset : m₁.setFinals (F ++ front) .never = .done { m' with finals := m'.reached, stage := .finalsSet } := by
        have hacc := Interrupt.accept_never_append (fun s hmem => finalFault?_eq_none_iff.mpr (hF s hmem)) hs
        rw [← hl₁.stateCount_eq] at hacc
        exact setFinals_of_accept (refusal?_eq_none_iff.mpr ⟨hstage₁, by simp⟩) hacc hboth
      rw [hload]
      exact ⟨.finalsSet rfl { hl with unsplit := { hl.unsplit with } } rfl, fun _ => hset.symm⟩

variable [DecidableEq α] [OrderedSymbol α]

lemma run (h₀ : Created m₀ n i []) (h : Resumes m₀ n i E F m) (c : Call α) :
    Resumes m₀ n i (E ++ c.stored m) (F ++ c.recorded m) (c.run m).state := by
  cases c with
  | load edges it => simpa only [Call.run, Call.recorded, List.append_nil] using (h.load h₀ edges it).1
  | setFinals finals it => simpa only [Call.run, Call.stored, List.append_nil] using (h.setFinals h₀ finals it).1
  | partition cancelled => exact h.append_nil.of_state (m.partition_state cancelled)
  | refine cancelled => exact h.append_nil.of_state (m.rank_le_refine_state cancelled)
  | finish cancelled => exact h.append_nil.of_state (m.finish_state cancelled)
  | transitions | acceptingBlocks | shape | dump => exact h.append_nil.of_state (.inl (reads_state _))
  | blockOf s => exact h.append_nil

lemma after (h₀ : Created m₀ n i []) (h : Resumes m₀ n i E F m) (calls : List (Call α)) :
    Resumes m₀ n i (E ++ stored m calls) (F ++ recorded m calls) (after m calls) := by
  induction calls generalizing m E F with
  | nil => exact h.append_nil
  | cons c calls ih => simpa [stored, recorded, after_cons] using ih (h.run h₀ c)

end Resumes

section Run

variable [DecidableEq α] [OrderedSymbol α]

lemma run_of_step {c : Call α} {expected next : Stage} (hc : c.step? = some (expected, next, it)) {e : Error}
    (he : m.refusal? expected next it = some e) : c.run m = .failed m e := by
  cases c with
  | load =>
    cases hc
    rw [Call.run, load, he]
  | setFinals =>
    cases hc
    rw [Call.run, setFinals, he]
  | partition =>
    cases hc
    rw [Call.run, partition, he]
  | refine =>
    cases hc
    rw [Call.run, refine, he]
  | finish =>
    cases hc
    rw [Call.run, finish, partition, he]
    rfl
  | _ => cases hc

lemma Loaded.partition_of_empty (h : Loaded m n i E F) (hstage : m.stage = .finalsSet) (hf : m.finals = m.reached)
    (hempty : ∀ w, w ∉ residual E F i) :
    m.partition false = .failed m (.invalid .acceptingStates .noReachableAccepting) := by
  apply h.partition_of_unreachable hf hstage
  rintro s hs ⟨w, hw⟩
  exact hempty w ⟨s, hs, hw⟩

/--
A call that failed counts like one that was given only the items in front of the one it failed at: the call that
succeeds leads to the very state that a single call with all the items leads to.
-/
theorem failures_keep_front (hi : i < n) : ∃ m₀ : Minimization α, create n i = .ok m₀ ∧ ∀ calls : List (Call α),
    let m := m₀.after calls
    let E := m₀.stored calls
    let F := m₀.recorded calls
    (∀ edges it, (m.load edges it).error? = none → m.load edges it = m₀.load (E ++ edges) .never) ∧
      (∀ finals it, (m.setFinals finals it).error? = none →
        m.setFinals finals it = (m₀.load E .never).andThen (·.setFinals (F ++ finals) .never)) ∧
      (m.stage = .created →
        (∀ edges, (∀ e ∈ edges, e.fault? n = none) → (m.load edges .never).error? = none) ∧
          ∀ front x rest (it : Interrupt) e, it.FailsBehind (Transition.fault? n) front x e →
            (m.load (front ++ x :: rest) it).error? = some e ∧ (m.load (front ++ x :: rest) it).state.stage = .created ∧
              (Call.load (front ++ x :: rest) it).stored m = front) ∧
      (m.stage = .loaded →
        (∀ finals, (∀ s ∈ finals, finalFault? n s = none) → (m.setFinals finals .never).error? = none) ∧
          ∀ front x rest (it : Interrupt) e, it.FailsBehind (finalFault? n) front x e →
            (m.setFinals (front ++ x :: rest) it).error? = some e ∧
              (m.setFinals (front ++ x :: rest) it).state.stage = .loaded ∧
              (Call.setFinals (front ++ x :: rest) it : Call α).recorded m = front) ∧
      (∀ (c : Call α) (expected next : Stage) (it : Interrupt), c.step? = some (expected, next, it) →
        (m.stage ≠ expected → c.run m = .failed m (.logic (.outOfOrder next expected m.stage))) ∧
          (m.stage = expected → it = .atStart → c.run m = .failed m .cancelled)) ∧
      (m.stage = .finalsSet → (∀ w, w ∉ residual E F i) → ∀ c : Call α, c = .partition false ∨ c = .finish false →
        c.run m = .failed m (.invalid .acceptingStates .noReachableAccepting)) := by
  obtain ⟨m₀, hcreate, h₀⟩ : ∃ m : Minimization α, create n i = .ok m ∧ Created m n i [] := create_spec hi
  have hstart : Resumes m₀ n i [] [] m₀ := .created h₀ rfl fun _ => rfl
  refine ⟨m₀, hcreate, fun calls => ?_⟩
  intro m E F
  have h : Resumes m₀ n i E F m := hstart.after h₀ calls
  refine ⟨fun edges it => (h.load h₀ edges it).2, fun finals it => (h.setFinals h₀ finals it).2,
    fun hstage => ?_, fun hstage => ?_, fun c expected next it hc => ⟨fun hstage => ?_, fun hstage hit => ?_⟩,
    fun hstage hempty c hc => ?_⟩
  · have hcreated := (h.of_created hstage).1
    refine ⟨fun edges hedges => ?_, fun front x rest it e hfails => hcreated.load_failsBehind hfails rest⟩
    obtain ⟨m', hm'⟩ := hcreated.load_ok hedges
    rw [hm']
    rfl
  · have hloaded := (h.of_loaded hstage).1
    refine ⟨fun finals hfinals => ?_, fun front x rest it e hfails => hloaded.setFinals_failsBehind hstage hfails rest⟩
    obtain ⟨m', hm'⟩ := hloaded.setFinals_ok hstage fun s hs => finalFault?_eq_none_iff.mp (hfinals s hs)
    rw [hm']
    rfl
  · exact run_of_step hc (if_pos hstage)
  · refine run_of_step hc ?_
    rw [refusal?, if_neg (not_not.mpr hstage), if_pos hit]
  · obtain ⟨hloaded, hf⟩ := h.of_finalsSet hstage
    have hp := hloaded.partition_of_empty hstage hf hempty
    rcases hc with rfl | rfl
    · exact hp
    · rw [Call.run, finish, hp]
      rfl

theorem front_kept_over_two_failures :
    ∃ (m₀ : Minimization Char) (calls : List (Call Char)), create 3 0 = .ok m₀ ∧
      calls = [.load [⟨0, 'a', 1⟩, ⟨0, 'b', 3⟩] .never, .load [⟨1, 'b', 2⟩] .atEnd, .setFinals [0] .never,
        .load [⟨1, 'a', 0⟩] .never, .setFinals [2, 5] .never, .setFinals [1, 0] (.onItem 1), .finish false] ∧
      (m₀.after calls).setFinals [2] .never =
        (m₀.load [⟨0, 'a', 1⟩, ⟨1, 'b', 2⟩, ⟨1, 'a', 0⟩] .never).andThen (·.setFinals [2, 1, 2] .never) := by
  obtain ⟨m₀, hcreate, h⟩ := failures_keep_front (α := Char) (by decide : 0 < 3)
  refine ⟨m₀, _, hcreate, rfl, ?_⟩
  obtain rfl := Except.ok.inj hcreate
  obtain ⟨_, hfinals, _⟩ := h [.load [⟨0, 'a', 1⟩, ⟨0, 'b', 3⟩] .never, .load [⟨1, 'b', 2⟩] .atEnd,
    .setFinals [0] .never, .load [⟨1, 'a', 0⟩] .never, .setFinals [2, 5] .never, .setFinals [1, 0] (.onItem 1), .finish false]
  refine (hfinals [2] .never (by cbv)).trans ?_
  rw [show stored _ _ = [⟨0, 'a', 1⟩, ⟨1, 'b', 2⟩, ⟨1, 'a', 0⟩] by cbv, show recorded _ _ = [2, 1] by cbv]
  rfl

end Run

end Minimization
end PatternInference
