import PatternInference.Proofs.Minimization.Quotient
import PatternInference.Proofs.Partition.Audit

/-! What holds of a minimization after any calls, in any order, whether they succeed or fail. -/

namespace PatternInference

def Stage.rank : Stage → Nat
  | created => 0
  | loaded => 1
  | finalsSet => 2
  | partitioned => 3
  | refined => 4

namespace Minimization

variable {α : Type}

def reads {κ : Type} (m : Minimization α) : Except Error κ → Outcome (Minimization α)
  | .ok _ => .done m
  | .error e => .failed m e

inductive Call (α : Type) where
  | load (edges : List (Transition α)) (interrupt : Interrupt)
  | setFinals (finals : List Nat) (interrupt : Interrupt)
  | partition (cancelled : Bool)
  | refine (cancelled : Bool)
  | finish (cancelled : Bool)
  | transitions
  | acceptingBlocks
  | shape
  | dump
  | blockOf (s : Nat)

section Run

variable [DecidableEq α] [OrderedSymbol α]

def Call.run (m : Minimization α) : Call α → Outcome (Minimization α)
  | load edges interrupt => m.load edges interrupt
  | setFinals finals interrupt => m.setFinals finals interrupt
  | partition cancelled => m.partition cancelled
  | refine cancelled => m.refine cancelled
  | finish cancelled => m.finish cancelled
  | transitions => m.reads m.transitions
  | acceptingBlocks => m.reads m.acceptingBlocks
  | shape => m.reads m.shape
  | dump => m.reads m.dump
  -- no error to report; that its lookups stay in their tables is said of all states at once
  | blockOf _ => .done m

def Call.recorded (m : Minimization α) : Call α → List Nat
  | setFinals finals interrupt =>
    if m.refusal? .loaded .finalsSet interrupt = none then (interrupt.accept (finalFault? m.stateCount) finals).1 else []
  | _ => []

def Call.partitions (m : Minimization α) : Call α → Bool
  | partition cancelled => (m.partition cancelled).error?.isNone
  | finish cancelled => (m.partition cancelled).error?.isNone
  | _ => false

def after (m : Minimization α) (calls : List (Call α)) : Minimization α := calls.foldl (fun m c => (c.run m).state) m

def recorded : Minimization α → List (Call α) → List Nat
  | _, [] => []
  | m, c :: calls => c.recorded m ++ recorded (c.run m).state calls

def partitions : Minimization α → List (Call α) → Bool
  | _, [] => false
  | m, c :: calls => c.partitions m || partitions (c.run m).state calls

end Run

variable {m m' : Minimization α} {n i : Nat} {E : List (Transition α)} {F : List Nat} {s : Nat}

/-- What holds at each stage, if the accepting states in `F` were taken in; a call that fails stays at its stage. -/
inductive Consistent (n i : Nat) (F : List Nat) (m : Minimization α) : Prop where
  | created {E : List (Transition α)} (h : Created m n i E) (hF : F = [])
  | loaded {E : List (Transition α)} (hstage : m.stage = .loaded) (h : Loaded m n i E F)
  | finalsSet {E : List (Transition α)} (hstage : m.stage = .finalsSet) (h : Loaded m n i E F) (hf : m.finals = m.reached)
  | partitioned {E : List (Transition α)} (hstage : m.stage = .partitioned) (h : Partitioned m n i E F)
  | refined {E : List (Transition α)} (hstage : m.stage = .refined) (h : Arranged m n i E F)

structure Advances (n i : Nat) (F : List Nat) (m : Minimization α) (o : Outcome (Minimization α)) : Prop where
  consistent : Consistent n i F o.state
  error_ne : o.error? ≠ some (.logic .outOfTable)
  rank_le : m.stage.rank ≤ o.state.stage.rank

namespace Advances

lemma append_nil {o : Outcome (Minimization α)} (x : Advances n i F m o) : Advances n i (F ++ []) m o := by
  rwa [List.append_nil]

lemma done (h : Consistent n i F m') (hrank : m.stage.rank ≤ m'.stage.rank) : Advances n i F m (.done m') :=
  ⟨h, by simp [Outcome.done], hrank⟩

lemma failed (h : Consistent n i F m') {e : Error} (he : e ≠ .logic .outOfTable) (hrank : m.stage.rank ≤ m'.stage.rank) :
    Advances n i F m (.failed m' e) :=
  ⟨h, by simpa [Outcome.failed] using he, hrank⟩

end Advances

section Run

variable [DecidableEq α] [OrderedSymbol α]

lemma after_nil (m : Minimization α) : m.after [] = m := rfl

lemma after_cons (m : Minimization α) (c : Call α) (calls : List (Call α)) :
    m.after (c :: calls) = (c.run m).state.after calls := rfl

lemma partition_stage {cancelled : Bool} (h : (m.partition cancelled).error? = none) :
    (m.partition cancelled).state.stage = .partitioned := by
  rw [partition] at h ⊢
  split at h
  · cases h
  · split at h
    · cases h
    · cases hm : m.partition? with
      | none =>
        rw [hm] at h
        cases h
      | some m' => simp [*, reachStage_some, Outcome.done]

end Run

namespace Consistent

lemma blocks (h : Consistent n i F m) : m.blocks.Valid m.live ∧ m.blocks.size = n := by
  cases h with
  | created h => exact ⟨h.unsplit.front.states, h.unsplit.size_eq.trans h.stateCount_eq⟩
  | loaded _ h => exact ⟨h.unsplit.front.states, h.unsplit.size_eq.trans h.stateCount_eq⟩
  | finalsSet _ h => exact ⟨h.unsplit.front.states, h.unsplit.size_eq.trans h.stateCount_eq⟩
  | partitioned _ h => exact ⟨h.blocks, h.size_eq⟩
  | refined _ h => exact ⟨h.blocks, h.size_eq⟩

lemma cords (h : Consistent n i F m) : ∃ live, m.cords.Valid live := by
  cases h with
  | created h => exact ⟨0, h.cords_eq ▸ Partition.whole_valid 0⟩
  | loaded _ h => exact ⟨0, h.cords_eq ▸ Partition.whole_valid 0⟩
  | finalsSet _ h => exact ⟨0, h.cords_eq ▸ Partition.whole_valid 0⟩
  | partitioned _ h => exact ⟨_, h.cords_clean.valid⟩
  | refined _ h => exact ⟨_, h.cords_clean.valid⟩

lemma ends (h : Consistent n i F m) {e : Transition α} (he : e ∈ m.edges) : m.Live e.source ∧ m.Live e.target := by
  cases h with
  | created h => exact h.unsplit.ends e he
  | loaded _ h => exact h.unsplit.ends e he
  | finalsSet _ h => exact h.unsplit.ends e he
  | partitioned _ h => exact (h.mem_edges_iff.mp he).2
  | refined _ h => exact (h.mem_edges_iff.mp he).2

lemma trimmed (h : Consistent n i F m) (hrank : Stage.partitioned.rank ≤ m.stage.rank) : ∃ E, Trimmed m n i E F := by
  cases h with
  | created h => simp [h.stage_eq, Stage.rank] at hrank
  | loaded hstage => simp [hstage, Stage.rank] at hrank
  | finalsSet hstage => simp [hstage, Stage.rank] at hrank
  | partitioned _ h => exact ⟨_, h.toTrimmed⟩
  | refined _ h => exact ⟨_, h.toTrimmed⟩

lemma refused (h : Consistent n i F m) {expected next : Stage} {it : Interrupt} {e : Error}
    (hr : m.refusal? expected next it = some e) : Advances n i F m (.failed m e) :=
  .failed h (fun he => refusal?_ne_outOfTable (he ▸ hr)) le_rfl

lemma load (h : Consistent n i F m) (edges : List (Transition α)) (it : Interrupt) :
    Advances n i F m (m.load edges it) := by
  cases hr : m.refusal? .created .loaded it with
  | some e =>
    rw [Minimization.load, hr]
    exact h.refused hr
  | none =>
    have hstage := (refusal?_eq_none_iff.mp hr).1
    cases h with
    | created h hF =>
      rcases h.load_cases edges it with ⟨m', e, _, hd, he, h'⟩ | ⟨m', hd, hstage', h', _⟩
      · rw [hd]
        exact .failed (.created h' hF) he (by rw [hstage, h'.stage_eq])
      · rw [hd]
        exact .done (.loaded hstage' (hF ▸ h')) (by simp [hstage, Stage.rank])
    | loaded hs | finalsSet hs | partitioned hs | refined hs => simp [hs] at hstage

lemma setFinals (h : Consistent n i F m) (finals : List Nat) (it : Interrupt) :
    Advances n i (F ++ (Call.setFinals finals it : Call α).recorded m) m (m.setFinals finals it) := by
  cases hr : m.refusal? .loaded .finalsSet it with
  | some e =>
    rw [Minimization.setFinals, hr, Call.recorded, hr, if_neg (by simp), List.append_nil]
    exact h.refused hr
  | none =>
    rw [Call.recorded, if_pos hr]
    have hstage := (refusal?_eq_none_iff.mp hr).1
    cases h with
    | loaded _ h =>
      rw [h.stateCount_eq]
      rcases h.setFinals_cases hr finals with ⟨m', e, hd, he, hstage', h'⟩ | ⟨m', hd, _, hstage', hf, h'⟩
      · rw [hd]
        exact .failed (.loaded (hstage'.trans hstage) h') he (by rw [hstage'])
      · rw [hd]
        exact .done (.finalsSet hstage' h' hf) (by simp [hstage, hstage', Stage.rank])
    | created hs => simp [hs.stage_eq] at hstage
    | finalsSet hs | partitioned hs | refined hs => simp [hs] at hstage

lemma refine (h : Consistent n i F m) (cancelled : Bool) : Advances n i F m (m.refine cancelled) := by
  cases hr : m.refusal? .partitioned .refined (.ofBool cancelled) with
  | some e =>
    rw [Minimization.refine, hr]
    exact h.refused hr
  | none =>
    have hstage := (refusal?_eq_none_iff.mp hr).1
    cases h with
    | partitioned _ h =>
      rcases h.refine_cases cancelled with ⟨e, hd, he⟩ | ⟨m', hd, hstage', h'⟩
      · rw [hd]
        exact .failed (.partitioned hstage h) he le_rfl
      · rw [hd]
        exact .done (.refined hstage' h') (by simp [hstage, hstage', Stage.rank])
    | created hs => simp [hs.stage_eq] at hstage
    | loaded hs | finalsSet hs | refined hs => simp [hs] at hstage

lemma reads (h : Consistent n i F m) {κ : Type} {r : Except Error κ} (hr : r ≠ .error (.logic .outOfTable)) :
    Advances n i F m (m.reads r) := by
  cases r with
  | ok => exact .done h le_rfl
  | error e => exact .failed h (fun he => hr (he ▸ rfl)) le_rfl

lemma transitions_ne (h : Consistent n i F m) : m.transitions ≠ .error (.logic .outOfTable) := by
  by_cases hstage : m.stage = .refined
  · obtain ⟨E, ht⟩ := h.trimmed (by simp [hstage, Stage.rank])
    simp [ht.transitions_eq hstage]
  · simp [Minimization.transitions, finished, hstage, bind, Except.bind]

lemma acceptingBlocks_ne (h : Consistent n i F m) : m.acceptingBlocks ≠ .error (.logic .outOfTable) := by
  by_cases hstage : m.stage = .refined
  · obtain ⟨E, ht⟩ := h.trimmed (by simp [hstage, Stage.rank])
    simp [ht.acceptingBlocks_eq hstage]
  · simp [Minimization.acceptingBlocks, finished, hstage, bind, Except.bind]

lemma dump_ne (h : Consistent n i F m) : m.dump ≠ .error (.logic .outOfTable) := by
  by_cases hstage : m.stage = .refined
  · obtain ⟨E, ht⟩ := h.trimmed (by simp [hstage, Stage.rank])
    simp [ht.dump_eq hstage]
  · simp [Minimization.dump, Minimization.transitions, finished, hstage, bind, Except.bind]

lemma shape_ne (h : Consistent n i F m) : m.shape ≠ .error (.logic .outOfTable) := by
  have hd := h.dump_ne
  rw [Minimization.shape]
  cases hm : m.dump with
  | ok => simp [bind, Except.bind, pure, Except.pure]
  | error e => simpa [bind, Except.bind, hm] using hd

variable [DecidableEq α] [OrderedSymbol α]

lemma partition (h : Consistent n i F m) (cancelled : Bool) : Advances n i F m (m.partition cancelled) := by
  cases hr : m.refusal? .finalsSet .partitioned (.ofBool cancelled) with
  | some e =>
    rw [Minimization.partition, hr]
    exact h.refused hr
  | none =>
    have hstage := (refusal?_eq_none_iff.mp hr).1
    cases h with
    | finalsSet _ h hf =>
      rcases h.partition_cases hf cancelled with ⟨e, hd, he⟩ | ⟨m', hd, hstage', h'⟩
      · rw [hd]
        exact .failed (.finalsSet hstage h hf) he le_rfl
      · rw [hd]
        exact .done (.partitioned hstage' h') (by simp [hstage, hstage', Stage.rank])
    | created hs => simp [hs.stage_eq] at hstage
    | loaded hs | partitioned hs | refined hs => simp [hs] at hstage

lemma finish (h : Consistent n i F m) (cancelled : Bool) : Advances n i F m (m.finish cancelled) := by
  have hp := h.partition cancelled
  rw [Minimization.finish, Outcome.andThen]
  split
  · have hq := hp.consistent.refine cancelled
    exact { hq with rank_le := hp.rank_le.trans hq.rank_le }
  · exact hp

lemma run (h : Consistent n i F m) (c : Call α) : Advances n i (F ++ c.recorded m) m (c.run m) := by
  cases c with
  | setFinals finals it => exact h.setFinals finals it
  | load edges it => exact (h.load edges it).append_nil
  | partition cancelled => exact (h.partition cancelled).append_nil
  | refine cancelled => exact (h.refine cancelled).append_nil
  | finish cancelled => exact (h.finish cancelled).append_nil
  | transitions => exact (h.reads h.transitions_ne).append_nil
  | acceptingBlocks => exact (h.reads h.acceptingBlocks_ne).append_nil
  | shape => exact (h.reads h.shape_ne).append_nil
  | dump => exact (h.reads h.dump_ne).append_nil
  | blockOf s => exact (Advances.done h le_rfl).append_nil

lemma rank_of_partitions (h : Consistent n i F m) {c : Call α} (hc : c.partitions m = true) :
    Stage.partitioned.rank ≤ (c.run m).state.stage.rank := by
  cases c with
  | partition cancelled => rw [Call.run, partition_stage (Option.isNone_iff_eq_none.mp hc)]
  | finish cancelled =>
    -- the refinement that follows may fail, but does not lead back
    have hnone : (m.partition cancelled).error? = none := Option.isNone_iff_eq_none.mp hc
    have hrefine := ((h.partition cancelled).consistent.refine cancelled).rank_le
    rw [partition_stage hnone] at hrefine
    rwa [Call.run, Minimization.finish, Outcome.andThen, hnone]
  | _ => cases hc

lemma after (h : Consistent n i F m) (calls : List (Call α)) :
    Consistent n i (F ++ recorded m calls) (after m calls) := by
  induction calls generalizing m F with
  | nil => simpa [recorded, after_nil] using h
  | cons c calls ih => simpa [recorded, after_cons] using ih (h.run c).consistent

lemma rank_le_after (h : Consistent n i F m) (calls : List (Call α)) : m.stage.rank ≤ (m.after calls).stage.rank := by
  induction calls generalizing m F with
  | nil => exact le_rfl
  | cons c calls ih => exact (h.run c).rank_le.trans (ih (h.run c).consistent)

lemma rank_after_of_partitions (h : Consistent n i F m) {calls : List (Call α)} (hp : partitions m calls = true) :
    Stage.partitioned.rank ≤ (m.after calls).stage.rank := by
  induction calls generalizing m F with
  | nil => cases hp
  | cons c calls ih =>
    rcases Bool.or_eq_true_iff.mp hp with hc | hp
    · exact (h.rank_of_partitions hc).trans ((h.run c).consistent.rank_le_after calls)
    · exact ih (h.run c).consistent hp

end Consistent

variable [DecidableEq α] [OrderedSymbol α]

theorem calls_keep_invariants (hi : i < n) : ∃ m₀ : Minimization α, create n i = .ok m₀ ∧ ∀ calls : List (Call α),
    let m := m₀.after calls
    (∀ c : Call α, (c.run m).error? ≠ some (.logic .outOfTable)) ∧
      (∀ s, s < n → (m.isLive? s).isSome ∧ m.blocks.owner[s]?.isSome) ∧
      m.blocks.inOrder = true ∧ m.cords.inOrder = true ∧
      (∀ e ∈ m.edges, e.source < n ∧ e.target < n ∧ m.isLive? e.source = some true ∧ m.isLive? e.target = some true) ∧
      (m₀.partitions calls = true → m.isLive? i = some true ∧ m.finals ≤ m.live ∧
        ∀ s, s ∈ m.blocks.order.toList.take m.finals ↔ m.isLive? s = some true ∧ s ∈ m₀.recorded calls) := by
  obtain ⟨m₀, hcreate, hcreated⟩ : ∃ m : Minimization α, create n i = .ok m ∧ Created m n i [] := create_spec hi
  have h₀ : Consistent n i [] m₀ := .created hcreated rfl
  refine ⟨m₀, hcreate, fun calls => ?_⟩
  intro m
  have h : Consistent n i (m₀.recorded calls) m := h₀.after calls
  obtain ⟨hv, hsize⟩ := h.blocks
  obtain ⟨_, hcords⟩ := h.cords
  refine ⟨fun c => (h.run c).error_ne, fun s hs => ?_, hv.inOrder, hcords.inOrder, fun e he => ?_, fun hp => ?_⟩
  · rw [← hsize] at hs
    simp [isLive?_eq hv hs, hv.owner_get hs]
  · obtain ⟨hsource, htarget⟩ := h.ends he
    rw [isLive?_eq_true_iff hv, isLive?_eq_true_iff hv]
    exact ⟨hsize ▸ hsource.1, hsize ▸ htarget.1, hsource, htarget⟩
  · obtain ⟨E, ht⟩ := h.trimmed (h₀.rank_after_of_partitions hp)
    simp only [isLive?_eq_true_iff hv]
    exact ⟨ht.initial_live, ht.finals_le, fun s => ht.mem_take_finals_iff⟩

theorem invariants_after_failures :
    ∃ (m₀ : Minimization Char) (calls : List (Call Char)), create 3 0 = .ok m₀ ∧
      calls = [.load [⟨0, 'a', 1⟩, ⟨0, 'a', 2⟩, ⟨0, 'b', 3⟩] .never, .load [⟨1, 'b', 2⟩] .atEnd, .load [] .never,
        .setFinals [2, 5] .never, .setFinals [1, 0] (.onItem 1), .setFinals [] .never, .dump, .finish false] ∧
      (m₀.after calls).edges.length = 3 ∧ (m₀.after calls).blocks.inOrder = true ∧
      ∀ s, s ∈ (m₀.after calls).blocks.order.toList.take (m₀.after calls).finals ↔
        (m₀.after calls).isLive? s = some true ∧ (s = 2 ∨ s = 1) := by
  obtain ⟨m₀, hcreate, h⟩ := calls_keep_invariants (α := Char) (by decide : 0 < 3)
  refine ⟨m₀, _, hcreate, rfl, ?_⟩
  obtain rfl := Except.ok.inj hcreate
  obtain ⟨_, _, hblocks, _, _, hfinals⟩ := h [.load [⟨0, 'a', 1⟩, ⟨0, 'a', 2⟩, ⟨0, 'b', 3⟩] .never,
    .load [⟨1, 'b', 2⟩] .atEnd, .load [] .never, .setFinals [2, 5] .never, .setFinals [1, 0] (.onItem 1),
    .setFinals [] .never, .dump, .finish false]
  refine ⟨by cbv, hblocks, fun s => ?_⟩
  have hpartitions := hfinals (by
    simp only [partitions, Call.partitions, Bool.false_or, Bool.or_false, Option.isNone_iff_eq_none]
    cbv)
  rw [hpartitions.2.2 s, show recorded _ _ = [2, 1] by cbv]
  simp

end Minimization
end PatternInference
