import JobScheduler.Library.Machine
import JobScheduler.Worker.LogBuffer

/-!
# Concurrent writers of one log (`LogBuffer` of backend/worker/runner.py)

Any number of tasks call `write` and `flush` of one buffer. A call runs up to its await of
`asyncio.to_thread` without interruption; while it waits, other calls start and the threads go
on. No task is cancelled.
-/

namespace JobScheduler.Writers
open Library

inductive Kind where
  | write
  | flush
  deriving DecidableEq, Repr

inductive Progress where
  | waiting (call : ℕ)
  | returned
  | raised
  deriving DecidableEq, Repr

/- A call of write or of flush. -/
structure Task where
  kind : Kind
  progress : Progress
  deriving DecidableEq, Repr

/- passed holds the lines passed to write, in this order; no code reads it. -/
structure State where
  log : LogBuffer := {}
  tasks : List Task := []
  passed : List Entry := []
  deriving Repr

inductive Label where
  | write (e : Entry)
  | flush
  | resume (task : ℕ)
  | thread (l : ThreadStep)
  deriving DecidableEq, Repr

/- append_logs does not raise. -/
def Label.succeeds : Label → Bool
  | .thread (.raise _) => false
  | _ => true

/- What a call has done when it first gives up control. -/
def Progress.ofCall : Option ℕ → Progress
  | none => .returned
  | some call => .waiting call

namespace State

def setTask (s : State) (n : ℕ) (task : Task) : State :=
  { s with tasks := s.tasks.set n task }

def step (runId : RunId) (s : State) : Label → Option State
  | .write e =>
    let (log, call) := s.log.write e
    some ⟨log, s.tasks ++ [⟨.write, .ofCall call⟩], s.passed ++ [e]⟩
  | .flush =>
    let (log, call) := s.log.flush
    some ⟨log, s.tasks ++ [⟨.flush, .ofCall call⟩], s.passed⟩
  | .resume n =>
    match s.tasks[n]? with
    | some ⟨kind, .waiting call⟩ =>
      match s.log.stateOf call with
      | some .committed => some (s.setTask n ⟨kind, .returned⟩)
      | some .raised => some (s.setTask n ⟨kind, .raised⟩)
      | _ => none
    | _ => none
  | .thread l => (s.log.thread runId l).map fun log => { s with log := log }

def progressOf (s : State) (n : ℕ) : Option Progress := s.tasks[n]?.map Task.progress

/- Every line that was passed to write is stored, in flight or in the buffer. The batches are
segments of the lines in the order of the calls of write, and no line is in two of them. -/
structure Conserved (s : State) : Prop where
  lines : (s.log.table.map logEntry ++ s.log.inFlight ++ s.log.buf).Perm s.passed
  batches : ∃ start, Positions.Segments s.log.batches s.passed start

/- Every line that was passed to write is stored. -/
def Persisted (s : State) : Prop := (s.log.table.map logEntry).Perm s.passed

/- Task n of the run is a flush that began when all writers had returned; no line is written
after it, and it has returned. -/
def FinalFlush (runId : RunId) (ls : List Label) (n : ℕ) (t : State) : Prop :=
  ∃ ms ns s, ls = ms ++ .flush :: ns ∧ Machine.run (step runId) {} ms = some s ∧
    n = s.tasks.length ∧
    (∀ task ∈ s.tasks, task.kind = .write → task.progress = .returned) ∧
    (∀ e, .write e ∉ ns) ∧ Machine.run (step runId) s (.flush :: ns) = some t ∧
    t.progressOf n = some .returned

/-! ### What a step does -/

inductive Trans (runId : RunId) (s : State) : Label → State → Prop where
  | write (e : Entry) :
      Trans runId s (.write e)
        ⟨(s.log.write e).1, s.tasks ++ [⟨.write, .ofCall (s.log.write e).2⟩], s.passed ++ [e]⟩
  | flush :
      Trans runId s .flush ⟨s.log.flush.1, s.tasks ++ [⟨.flush, .ofCall s.log.flush.2⟩], s.passed⟩
  | returns (n : ℕ) (kind : Kind) (call : ℕ) (htask : s.tasks[n]? = some ⟨kind, .waiting call⟩)
      (hcall : s.log.stateOf call = some .committed) :
      Trans runId s (.resume n) (s.setTask n ⟨kind, .returned⟩)
  | raises (n : ℕ) (kind : Kind) (call : ℕ) (htask : s.tasks[n]? = some ⟨kind, .waiting call⟩)
      (hcall : s.log.stateOf call = some .raised) :
      Trans runId s (.resume n) (s.setTask n ⟨kind, .raised⟩)
  | thread (l : ThreadStep) (log : LogBuffer) (hlog : s.log.thread runId l = some log) :
      Trans runId s (.thread l) { s with log := log }

variable {runId : RunId} {s t : State} {l : Label}

theorem trans_of_step (h : step runId s l = some t) : Trans runId s l t := by
  cases l with
  | write e =>
    cases h
    exact .write e
  | flush =>
    cases h
    exact .flush
  | resume n =>
    simp only [step] at h
    split at h
    · rename_i kind call htask
      split at h
      · rename_i hcall
        cases h
        exact .returns n kind call htask hcall
      · rename_i hcall
        cases h
        exact .raises n kind call htask hcall
      · cases h
    · cases h
  | thread l =>
    obtain ⟨log, hlog, rfl⟩ := Option.map_eq_some_iff.mp h
    exact .thread l log hlog

/-! ### The tasks -/

theorem progressOf_setTask_of_ne {n m : ℕ} (task : Task) (h : m ≠ n) :
    (s.setTask n task).progressOf m = s.progressOf m := by
  unfold progressOf setTask
  rw [List.getElem?_set_ne (Ne.symm h)]

theorem progressOf_of_task {n : ℕ} {task : Task} (h : s.tasks[n]? = some task) :
    s.progressOf n = some task.progress := by
  unfold progressOf
  rw [h, Option.map_some]

/- A task that starts is the last one. -/
theorem progressOf_concat (log : LogBuffer) (passed : List Entry) (task : Task) (n : ℕ) :
    (State.mk log (s.tasks ++ [task]) passed).progressOf n =
      if n = s.tasks.length then some task.progress else s.progressOf n := by
  unfold progressOf
  by_cases hn : n = s.tasks.length
  · rw [if_pos hn, hn, List.getElem?_concat_length, Option.map_some]
  · rw [if_neg hn]
    rcases Nat.lt_or_gt_of_ne hn with hlt | hgt
    · rw [List.getElem?_append_left hlt]
    · have hold : s.tasks[n]? = none := List.getElem?_eq_none (by omega)
      have hnew : (s.tasks ++ [task])[n]? = none := by
        apply List.getElem?_eq_none
        rw [List.length_append, List.length_singleton]
        omega
      rw [hold, hnew]

/- A task waits for the call. -/
def Waits (s : State) (call : ℕ) : Prop := ∃ n, s.progressOf n = some (.waiting call)

theorem Waits.concat {call : ℕ} (h : s.Waits call) (log : LogBuffer) (passed : List Entry)
    (task : Task) : (State.mk log (s.tasks ++ [task]) passed).Waits call := by
  obtain ⟨n, hn⟩ := h
  have hlt : n ≠ s.tasks.length := by
    intro heq
    have hnone : s.progressOf n = none := by simp [progressOf, heq]
    rw [hnone] at hn
    cases hn
  refine ⟨n, ?_⟩
  rw [progressOf_concat, if_neg hlt]
  exact hn

/- The task that has started a call waits for it. -/
theorem awaited_concat (hs : s.log.Awaited s.Waits) {log : LogBuffer} {call : Option ℕ}
    (h : s.log.Hands log call) (kind : Kind) (passed : List Entry) :
    log.Awaited (State.mk log (s.tasks ++ [⟨kind, .ofCall call⟩]) passed).Waits := by
  have hold : s.log.Awaited (State.mk log (s.tasks ++ [⟨kind, .ofCall call⟩]) passed).Waits :=
    hs.wake fun k hk => Or.inl (hk.concat ..)
  apply hold.hands h
  intro k hk
  refine ⟨s.tasks.length, ?_⟩
  rw [progressOf_concat, if_pos rfl, hk]
  rfl

/- A task that is woken waits no more. -/
theorem awaited_setTask (hs : s.log.Awaited s.Waits) {n call : ℕ} {kind : Kind} (task : Task)
    (htask : s.tasks[n]? = some ⟨kind, .waiting call⟩)
    (hcall : s.log.stateOf call = some .committed) : s.log.Awaited (s.setTask n task).Waits := by
  apply hs.wake
  intro k hk
  obtain ⟨m, hm⟩ := hk
  by_cases hmn : m = n
  · rw [hmn, progressOf_of_task htask] at hm
    cases hm
    exact Or.inr hcall
  · left
    refine ⟨m, ?_⟩
    rw [progressOf_setTask_of_ne _ hmn]
    exact hm

/-! ### Every line is in one place -/

structure Sound (s : State) : Prop where
  written : s.log.written = s.passed
  stored : s.log.Stored
  awaited : s.log.Awaited s.Waits

theorem sound_start : Sound {} where
  written := rfl
  stored := LogBuffer.stored_empty
  awaited := LogBuffer.awaited_empty

theorem Sound.trans (hs : Sound s) (hl : l.succeeds = true) (h : Trans runId s l t) :
    Sound t := by
  have hwritten := hs.written
  cases h with
  | write e =>
    constructor
    · rw [LogBuffer.written_write, hwritten]
    · exact hs.stored.write e
    · exact awaited_concat hs.awaited (LogBuffer.hands_write s.log e) _ _
  | flush =>
    constructor
    · rw [LogBuffer.written_flush, hwritten]
    · exact hs.stored.flush
    · exact awaited_concat hs.awaited (LogBuffer.hands_flush s.log) _ _
  | returns n kind call htask hcall =>
    exact ⟨hwritten, hs.stored, awaited_setTask hs.awaited _ htask hcall⟩
  | raises n kind call htask hcall => exact absurd hcall (hs.awaited.stateOf_ne_raised call)
  | thread l log hlog =>
    constructor
    · rw [LogBuffer.written_thread hlog, hwritten]
    · exact hs.stored.thread hlog
    · apply hs.awaited.thread _ hlog
      intro k hk
      rw [hk] at hl
      cases hl

/- Every run in which no call of append_logs raises. -/
theorem sound_run {ls : List Label}
    (hl : Machine.Along (step runId) (fun _ l => l.succeeds = true) {} ls)
    (hr : Machine.run (step runId) {} ls = some t) : Sound t :=
  Machine.run_invariant (fun _ _ _ hs hl h => Sound.trans hs hl (trans_of_step h)) sound_start hl hr

theorem Sound.lines (hs : Sound s) :
    (s.log.table.map logEntry ++ s.log.inFlight ++ s.log.buf).Perm s.log.written :=
  hs.stored.conserves hs.awaited.notRaised

theorem Sound.conserved (hs : Sound s) : Conserved s where
  lines := by
    rw [← hs.written]
    exact hs.lines
  batches := by
    refine ⟨Positions.first s.log.batches, ?_⟩
    rw [← hs.written]
    unfold LogBuffer.written
    rw [List.flatMap_def]
    exact Positions.segments_flatten s.log.batches s.log.buf

/-! ### After the final flush -/

/- Task n has taken the whole buffer, and every later call has found it empty. -/
structure Drained (n : ℕ) (s : State) : Prop where
  sound : Sound s
  buf : s.log.buf = []
  later : ∀ m progress, n < m → s.progressOf m = some progress → progress = .returned

variable {n : ℕ}

theorem Drained.setTask (hs : Drained n s) {k call : ℕ} {kind : Kind}
    (htask : s.tasks[k]? = some ⟨kind, .waiting call⟩) {progress : Progress}
    (hsound : Sound (s.setTask k ⟨kind, progress⟩)) : Drained n (s.setTask k ⟨kind, progress⟩) where
  sound := hsound
  buf := hs.buf
  later := by
    intro m progress' hm hprogress
    have hmk : m ≠ k := by
      intro heq
      rw [heq] at hm
      cases hs.later k _ hm (progressOf_of_task htask)
    rw [progressOf_setTask_of_ne _ hmk] at hprogress
    exact hs.later m progress' hm hprogress

theorem Drained.trans (hs : Drained n s) (hl : l.succeeds = true) (hwrite : ∀ e, l ≠ .write e)
    (h : Trans runId s l t) : Drained n t := by
  have hsound := hs.sound.trans hl h
  cases h with
  | write e => exact absurd rfl (hwrite e)
  | flush =>
    refine ⟨hsound, LogBuffer.buf_flush s.log, ?_⟩
    intro m progress hm hprogress
    rw [progressOf_concat] at hprogress
    split at hprogress
    · -- an empty buffer is not handed over
      unfold LogBuffer.flush at hprogress
      rw [if_pos hs.buf] at hprogress
      cases hprogress
      rfl
    · exact hs.later m progress hm hprogress
  | returns k kind call htask _ | raises k kind call htask _ => exact hs.setTask htask hsound
  | thread l log hlog =>
    refine ⟨hsound, ?_, hs.later⟩
    rw [← hs.buf]
    exact LogBuffer.buf_thread hlog

theorem Sound.drained (hs : Sound s) (h : Trans runId s .flush t) :
    Drained s.tasks.length t := by
  have hsound := hs.trans rfl h
  cases h with
  | flush =>
    refine ⟨hsound, LogBuffer.buf_flush s.log, ?_⟩
    intro m progress hm hprogress
    rw [progressOf_concat, if_neg (by omega)] at hprogress
    simp [progressOf, List.getElem?_eq_none (Nat.le_of_lt hm)] at hprogress

/- When the flush and all calls before it have returned, nobody waits. -/
theorem Drained.persisted (hs : Drained n s)
    (hreturned : ∀ k ≤ n, s.progressOf k = some .returned) : Persisted s := by
  have hall : ∀ m progress, s.progressOf m = some progress → progress = .returned := by
    intro m progress hm
    rcases Nat.lt_or_ge n m with hlt | hle
    · exact hs.later m progress hlt hm
    · rw [hreturned m hle] at hm
      cases hm
      rfl
  have hnobody : ∀ call, ¬ s.Waits call := by
    intro call hwaits
    obtain ⟨m, hm⟩ := hwaits
    cases hall m _ hm
  have heq := hs.sound.stored.persisted_eq (hs.sound.awaited.committed hnobody) hs.buf
  unfold Persisted
  rw [← hs.sound.written, ← heq]
  exact hs.sound.stored.table.map logEntry

/-- In every run in which append_logs succeeds the lines are conserved. Everything is stored
when a final flush and all calls before it have returned. -/
theorem lines_conserved (runId : RunId) (ls : List Label)
    (hl : Machine.Along (step runId) (fun _ l => l.succeeds = true) {} ls) :
    Machine.Visits (step runId) Conserved {} ls ∧
      ∀ n t, FinalFlush runId ls n t → (∀ k < n, t.progressOf k = some .returned) →
        Persisted t := by
  constructor
  · exact Machine.visits_of_invariant (fun _ _ _ hs hl h => Sound.trans hs hl (trans_of_step h))
      (fun _ hs => hs.conserved) sound_start hl
  · intro n t hfinal hbefore
    obtain ⟨ms, ns, s, rfl, hms, rfl, -, hwrites, hrun, hreturned⟩ := hfinal
    obtain ⟨hlms, hlns⟩ := Machine.along_append.mp hl
    have hs : Sound s := sound_run hlms hms
    obtain ⟨u, hflush, hns⟩ := Machine.run_cons.mp hrun
    have hu : Drained s.tasks.length u := hs.drained (trans_of_step hflush)
    have hquiet : Machine.Along (step runId) (fun _ l => ∀ e, l ≠ .write e) u ns := by
      apply Machine.along_iff.mpr
      intro before l after _ hns' _ e hwrite
      apply hwrites e
      rw [hns', hwrite]
      exact List.mem_append_right _ List.mem_cons_self
    have ht : Drained s.tasks.length t :=
      Machine.run_invariant (fun _ _ _ hd hl h => hd.trans hl.1 hl.2 (trans_of_step h)) hu
        (((hlns s hms).2 u hflush).and hquiet) hns
    apply ht.persisted
    intro k hk
    rcases Nat.lt_or_eq_of_le hk with hlt | rfl
    · exact hbefore k hlt
    · exact hreturned

def system (line : String) : Entry := ("system", line)

/- The batches of two flushes commit in the other order. -/
def overtakingRun : List Label :=
  [.write (system "a"), .flush, .write (system "b"), .flush, .thread (.stamp 1 1),
    .thread (.insert 1 0), .thread (.commit 1), .thread (.stamp 0 2), .thread (.insert 0 0),
    .thread (.commit 0), .resume 3, .resume 1]

theorem lines_conserved_overtaking : ∃ t, FinalFlush 1 overtakingRun 3 t ∧ Persisted t := by
  have hreturned : ∃ t, Machine.run (step 1) {} overtakingRun = some t ∧
      ∀ k < 4, t.progressOf k = some .returned := by
    refine ⟨_, rfl, ?_⟩
    decide
  obtain ⟨t, ht, hall⟩ := hreturned
  have hfinal : FinalFlush 1 overtakingRun 3 t := by
    refine ⟨overtakingRun.take 3, overtakingRun.drop 4, _, rfl, rfl, rfl, by decide, ?_, ht,
      hall 3 (by omega)⟩
    intro e
    simp [overtakingRun]
  exact ⟨t, hfinal, (lines_conserved 1 overtakingRun (by decide)).2 3 t hfinal fun k hk =>
    hall k (by omega)⟩

/- The second flush finds the buffer empty; the batch of the first one is still in flight. -/
theorem flush_of_empty_buffer_returns : ¬ ∀ (runId : RunId) (ls : List Label),
    Machine.Along (step runId) (fun _ l => l.succeeds = true) {} ls →
    Machine.Visits (step runId) Conserved {} ls ∧
      ∀ n t, FinalFlush runId ls n t → Persisted t := by
  intro h
  have hrun : [Label.write (system "a"), .flush, .flush] = [.write (system "a"), .flush] ++
      .flush :: [] := rfl
  have hpersisted := (h 1 [.write (system "a"), .flush, .flush] (by decide)).2 2 _
    ⟨[.write (system "a"), .flush], [], _, hrun, rfl, rfl, by decide, by simp, rfl, rfl⟩
  exact absurd hpersisted.length_eq (by decide)

end State
end JobScheduler.Writers
