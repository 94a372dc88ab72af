import JobScheduler.Execution

/-!
# Acknowledgements

A run that is RUNNING when its worker dies can only be finished through a message in the
pending list: the orphan pass looks at QUEUED runs. `handle` acknowledges by message id
in a finally block, whatever the outcome of process_run and whoever else works on the run.
-/

namespace JobScheduler
open Library Database

namespace Pc

def isDeleting : Pc → Bool
  | deleting => true
  | _ => false

end Pc

namespace Sys

variable {cfg : Settings} {cronNext : Cron.CronNext} {s t : Sys} {l : Label}

/-! ### A message id names one run -/

/- Message m of run i is on the stream, in the pending list or with a handler. -/
def Carries (s : Sys) (m : ℕ) (i : RunId) : Prop :=
  ⟨m, i⟩ ∈ s.redis.stream.rows ∨ (∃ e ∈ s.redis.pending, e.messageId = m ∧ e.runId = i) ∨
    ∃ h ∈ s.handlers.rows, h.messageId = m ∧ h.runId = i

structure Messages (s : Sys) : Prop where
  lt : ∀ m i, Carries s m i → m < s.redis.stream.next
  once : ∀ m i k, Carries s m i → Carries s m k → i = k

/- What the commands of a step do to the stream. -/
theorem Trans.stream (h : Trans cfg cronNext s l t) :
    s.redis.stream.next ≤ t.redis.stream.next ∧
      ∀ m ∈ t.redis.stream.rows, m ∈ s.redis.stream.rows ∨ s.redis.stream.next ≤ m.id := by
  have hadd : ∀ i, s.redis.stream.next ≤ (s.redis.enqueueRun i).stream.next ∧
      ∀ m ∈ (s.redis.enqueueRun i).stream.rows,
        m ∈ s.redis.stream.rows ∨ s.redis.stream.next ≤ m.id := by
    intro i
    exact (Redis.foldl_enqueueRun s.redis [⟨i, 0⟩]).2
  cases h with
  | promoteDelayed now => exact Redis.stream_promoteDueDelayed s.redis now
  | publish i hi => exact hadd i
  | advance hd now db' pc out hget hadv =>
    rw [redis_resume]
    rcases out with _ | i | ⟨i, readyAt⟩
    · exact ⟨le_rfl, fun _ hm => Or.inl hm⟩
    · exact hadd i
    · exact ⟨le_rfl, fun _ hm => Or.inl hm⟩
  | fail _ _ _ | cancelTask _ _ _ _ =>
    rw [redis_leave]
    exact ⟨le_rfl, fun _ hm => Or.inl hm⟩
  | del hd hget hpc => exact ⟨le_rfl, fun _ hm => Or.inl (Table.mem_rows_deleteWhere.mp hm).1⟩
  | _ => exact ⟨le_rfl, fun _ hm => Or.inl hm⟩

theorem Trans.pending_back (h : Trans cfg cronNext s l t) {e : PendingEntry}
    (he : e ∈ t.redis.pending) : Carries s e.messageId e.runId := by
  have hsame : e ∈ s.redis.pending → Carries s e.messageId e.runId :=
    fun he => Or.inr (Or.inl ⟨e, he, rfl, rfl⟩)
  cases h with
  | reclaim w m e' p hstale =>
    exact Or.inr (Or.inl (Redis.mem_pending_xautoclaim.mp ⟨e, he, rfl, rfl⟩))
  | deliver w m p hnext =>
    rcases List.mem_append.mp he with he | he
    · exact hsame he
    · rw [List.mem_singleton.mp he]
      exact Or.inl (Redis.nextMessage_mem hnext)
  | ack hd hget hpc => exact hsame (Redis.mem_pending_xack.mp he).1
  | promoteDelayed now =>
    change e ∈ (s.redis.promoteDueDelayed now).1.pending at he
    rw [Redis.pending_promoteDueDelayed] at he
    exact hsame he
  | advance hd now db' pc out hget hadv =>
    rw [redis_resume] at he
    rcases out with _ | _ | _ <;> exact hsame he
  | fail _ _ _ | cancelTask _ _ _ _ =>
    rw [redis_leave] at he
    exact hsame he
  | _ => exact hsame he

theorem Trans.carries (h : Trans cfg cronNext s l t) {m : ℕ} {i : RunId} (hc : Carries t m i) :
    Carries s m i ∨ s.redis.stream.next ≤ m ∧ ⟨m, i⟩ ∈ t.redis.stream.rows := by
  rcases hc with hc | ⟨e, he, rfl, rfl⟩ | ⟨k, hk, rfl, rfl⟩
  · rcases h.stream.2 _ hc with hs | hs
    · exact Or.inl (Or.inl hs)
    · exact Or.inr ⟨hs, hc⟩
  · exact Or.inl (h.pending_back he)
  · rcases h.handler hk with ⟨hk, -⟩ | ⟨-, -, e, he, hm, hr⟩ | ⟨k', hk', pc, rfl, -⟩
    · exact Or.inl (Or.inr (Or.inr ⟨k, hk, rfl, rfl⟩))
    · rw [← hm, ← hr]
      exact Or.inl (h.pending_back he)
    · exact Or.inl (Or.inr (Or.inr ⟨k', hk', rfl, rfl⟩))

theorem Trans.messages (h : Trans cfg cronNext s l t) (hs : Messages s) : Messages t where
  lt := by
    intro m i hc
    rcases h.carries hc with hc | ⟨-, hm⟩
    · exact (hs.lt m i hc).trans_le h.stream.1
    · exact t.redis.stream.fresh _ hm
  once := by
    intro m i k hi hk
    rcases h.carries hi with hi | ⟨hle, hi⟩ <;> rcases h.carries hk with hk | ⟨hle', hk⟩
    · exact hs.once m i k hi hk
    · exact absurd (hs.lt m i hi) (Nat.not_lt.mpr hle')
    · exact absurd (hs.lt m k hk) (Nat.not_lt.mpr hle)
    · exact congrArg Message.runId (t.redis.stream.eq_of_key_eq hi hk rfl)

theorem messages_start (db : Database) : Messages (start db) := by
  have hno : ∀ m i, ¬ Carries (start db) m i := by
    intro m i hc
    rcases hc with hc | ⟨e, he, -⟩ | ⟨h, hh, -⟩
    · exact absurd hc List.not_mem_nil
    · exact absurd he List.not_mem_nil
    · exact absurd hh List.not_mem_nil
  exact ⟨fun m i hc => absurd hc (hno m i), fun m i _ hc => absurd hc (hno m i)⟩

/-! ### Runs that somebody must finish -/

/- Every RUNNING run that no live handler executes has an unacknowledged message. -/
def NoRunLost (s : Sys) : Prop :=
  ∀ i r, s.db.runs.get i = some r → r.status = .running →
    (∀ h ∈ s.handlers.rows, h.runId = i → h.pc.executes = false) →
    ∃ e ∈ s.redis.pending, e.runId = i

/- The acknowledgement that handler h is about to send leaves nobody behind: its run is
deleted or over, another message of the run is pending, or the run has not started and
no other handler has it. -/
def ackSafe (s : Sys) (h : Handler) : Bool :=
  match s.db.runs.get h.runId with
  | none => true
  | some r =>
    r.status.terminal ||
    s.redis.pending.any (fun e =>
      decide (e.runId = h.runId) && decide (e.messageId ≠ h.messageId)) ||
    decide (r.status ≠ .running) && !s.handlers.rows.any fun k =>
      decide (k.runId = h.runId) && decide (k.id ≠ h.id) && !k.pc.isDeleting

def AcksSafely (s : Sys) : Label → Prop
  | .ack i => (s.handlers.get i).all s.ackSafe = true
  | _ => True

theorem AcksSafely.cases {h : Handler} (hc : AcksSafely s (.ack h.id)) (hh : h ∈ s.handlers.rows)
    {r : JobRun} (hr : s.db.runs.get h.runId = some r) (hact : r.status.terminal = false) :
    (∃ e ∈ s.redis.pending, e.runId = h.runId ∧ e.messageId ≠ h.messageId) ∨
      r.status ≠ .running ∧ ∀ k ∈ s.handlers.rows, k.runId = h.runId → k.id ≠ h.id →
        k.pc.isDeleting = true := by
  have hget : s.handlers.get h.id = some h := Table.get_of_mem hh
  change (s.handlers.get h.id).all s.ackSafe = true at hc
  rw [hget, Option.all_some, ackSafe, hr] at hc
  simp only [hact, Bool.false_or, Bool.or_eq_true, List.any_eq_true, Bool.and_eq_true,
    decide_eq_true_eq, Bool.not_eq_true', List.any_eq_false, not_and, Bool.not_eq_false] at hc
  rcases hc with ⟨e, he, hi, hm⟩ | ⟨hne, hall⟩
  · exact Or.inl ⟨e, he, hi, hm⟩
  · refine Or.inr ⟨hne, fun k hk hki hid => ?_⟩
    have hk' := hall k hk ⟨hki, hid⟩
    simpa using hk'

/- A handler that has not acknowledged its message yet, or the status RUNNING, keeps a
message of the run in the pending list. -/
def Protected (s : Sys) : Prop :=
  ∀ i r, s.db.runs.get i = some r → r.status.terminal = false →
    (r.status = .running ∨ ∃ h ∈ s.handlers.rows, h.runId = i ∧ h.pc.isDeleting = false) →
    ∃ e ∈ s.redis.pending, e.runId = i

theorem Moves.not_deleting {h : Handler} {db' : Database} {pc : Pc}
    (hm : Moves cfg s h l db' pc) : h.pc.isDeleting = false := by
  cases hm with
  | acquire hpc => rw [hpc]; rfl
  | executorReturns c res hpc => rw [hpc]; rfl
  | ack hpc => rw [hpc]; rfl
  | fail hw | cancelTask hw _ => cases hpc : h.pc <;> first | rfl | (rw [hpc] at hw; cases hw)
  | advance now db' pc out hadv =>
    generalize h.pc = pc0 at hadv
    cases hadv <;> rfl

/- A run that needs a message after the step has needed one before it, unless the step
has just put a message of the run into the pending list. -/
theorem Trans.needs (h : Trans cfg cronNext s l t) (hs : Settled s)
    (hp : FlushFinds RunStatus.active s l) {i : RunId} {r' : JobRun} (hr' : t.db.runs.get i = some r') (hact : r'.status.terminal = false)
    (hneed : r'.status = .running ∨ ∃ h ∈ t.handlers.rows, h.runId = i ∧ h.pc.isDeleting = false) :
    (∃ e ∈ t.redis.pending, e.runId = i) ∨ ∃ r, s.db.runs.get i = some r ∧
      r.status.terminal = false ∧
      (r.status = .running ∨ ∃ h ∈ s.handlers.rows, h.runId = i ∧ h.pc.isDeleting = false) := by
  have hlive : ∀ k ∈ t.handlers.rows, k.runId = i → k.pc.isDeleting = false →
      (∃ e ∈ t.redis.pending, e.runId = i) ∨
        ∃ h ∈ s.handlers.rows, h.runId = i ∧ h.pc.isDeleting = false := by
    intro k hk hki hdel
    rcases h.handler hk with ⟨hk, -⟩ | ⟨-, -, e, he, -, hr⟩ | ⟨k', hk', pc, rfl, hm⟩
    · exact Or.inr ⟨k, hk, hki, hdel⟩
    · exact Or.inl ⟨e, he, hr.trans hki⟩
    · exact Or.inr ⟨k', hk', hki, hm.not_deleting⟩
  cases hg : s.db.runs.get i with
  | none =>
    obtain ⟨hle, hnew⟩ := h.evolves.new i r' hr' hg
    rcases hneed with hrun | ⟨k, hk, hki, hdel⟩
    · exfalso
      rcases hnew.status with hq | hq
      · rw [hq] at hrun
        cases hrun
      · rw [hq] at hrun
        cases hrun
    · rcases hlive k hk hki hdel with he | ⟨k', hk', hki', -⟩
      · exact Or.inl he
      · have hlt := hs.runId_lt (Or.inl hk')
        rw [hki'] at hlt
        exact absurd hlt (Nat.not_lt.mpr hle)
  | some r =>
    have hrow := h.evolves.change hg hr'
    have hact0 : r.status.terminal = false := by
      cases hterm : r.status.terminal with
      | false => rfl
      | true =>
        rcases hrow with rfl | ⟨tx, htx, hrow⟩
        · rw [hterm] at hact
          cases hact
        · have hid : r.id = i := Table.key_of_get hg
          have hne := RunTx.ne_promoteRun_of_flushFinds (hp tx htx) (hid ▸ hg)
            (by rw [RunStatus.active_eq_not_terminal, hterm]; rfl)
          rw [hrow.terminal hne hterm] at hact
          cases hact
    rcases hneed with hrun' | ⟨k, hk, hki, hdel⟩
    · by_cases hrun : r.status = .running
      · exact Or.inr ⟨r, rfl, hact0, Or.inl hrun⟩
      · obtain ⟨d, hd, hdr, hpc, -⟩ := hs.running_by_claim hg hrow hrun hrun'
        exact Or.inr ⟨r, rfl, hact0, Or.inr ⟨d, hd, hdr, by rw [hpc]; rfl⟩⟩
    · rcases hlive k hk hki hdel with he | hh
      · exact Or.inl he
      · exact Or.inr ⟨r, rfl, hact0, Or.inr hh⟩

theorem Trans.protected (h : Trans cfg cronNext s l t) (hs : Settled s)
    (hflush : FlushFinds RunStatus.active s l) (hm : Messages s) (hc : AcksSafely s l) (hp : Protected s) :
    Protected t := by
  intro i r' hr' hact hneed
  rcases h.needs hs hflush hr' hact hneed with he | ⟨r, hr, hact0, hneed0⟩
  · exact he
  · obtain ⟨e, he, hei⟩ := hp i r hr hact0 hneed0
    rcases h.pending he with ⟨e', he', -, hr⟩ | ⟨d, hd, rfl, hpc, hmsg⟩
    · exact ⟨e', he', hr.trans hei⟩
    · -- The message that protected the run is acknowledged by a handler of the same run.
      have hdi : d.runId = i := by
        refine hm.once d.messageId d.runId i (Or.inr (Or.inr ⟨d, hd, rfl, rfl⟩)) ?_
        exact Or.inr (Or.inl ⟨e, he, hmsg, hei⟩)
      subst hdi
      obtain ⟨hdb, hhand, hpend⟩ := h.ack_inv hd
      rw [hdb] at hr'
      have hrr : r = r' := Option.some.inj (hr.symm.trans hr')
      subst hrr
      rcases hc.cases hd hr hact with ⟨e', he', hi', hne⟩ | ⟨hnr, hall⟩
      · exact ⟨e', by rw [hpend]; exact Redis.mem_pending_xack.mpr ⟨he', hne⟩, hi'⟩
      · exfalso
        rcases hneed with hrun | ⟨k, hk, hki, hdel⟩
        · exact hnr hrun
        · rw [hhand] at hk
          rcases (mem_goto (Table.get_of_mem hd)).mp hk with rfl | ⟨hk, hne⟩
          · cases hdel
          · rw [hall k hk hki hne] at hdel
            cases hdel

theorem protected_start {db : Database} (hdb : db.runs.rows = []) : Protected (start db) := by
  intro i r hr
  rw [get_start hdb] at hr
  cases hr

/- Along every run, crashes and exceptions included, whose acknowledgements are safe, and in
which no flush of create_dependency_run meets a run that has ended, no RUNNING run is left without
a message. -/
theorem no_run_lost_of_acksSafely (cfg : Settings) (cronNext : Cron.CronNext) (db : Database)
    (ls : List Label) (hdb : db.runs.rows = [])
    (hack : Machine.Along (step cfg cronNext) AcksSafely (start db) ls)
    (hflush : Machine.Along (step cfg cronNext) (FlushFinds RunStatus.active) (start db) ls) :
    Machine.Visits (step cfg cronNext) NoRunLost (start db) ls := by
  refine Machine.visits_of_invariant (I := fun s => Settled s ∧ Messages s ∧ Protected s) ?_ ?_
    ⟨settled_start hdb, messages_start db, protected_start hdb⟩ (hack.and hflush)
  · intro s l t hs hc ht
    have htr := trans_of_step ht
    exact ⟨htr.settled hs.1 hc.2, htr.messages hs.2.1,
      htr.protected hs.1 hc.2 hs.2.1 hc.1 hs.2.2⟩
  · intro s hs i r hr hrun _
    exact hs.2.2 i r hr (by rw [hrun]; rfl) (Or.inl hrun)

/-! ### A crash, and an exception -/

instance (s : Sys) : ∀ l, Decidable (AcksSafely s l)
  | .ack i => inferInstanceAs (Decidable ((s.handlers.get i).all s.ackSafe = true))
  | .elapse _ | .trigger .. | .retryRun .. | .cancelRun .. | .editJobs .. | .deleteJob ..
  | .promoteDelayed _ | .tick _ | .publish _ | .drop _ | .poll _ | .reclaim .. | .reclaimed _
  | .deliver _ | .delivered _ | .acquire _ | .advance .. | .executorReturns .. | .fail _
  | .cancelTask _ | .commitThread .. | .ackError _ | .del _ | .delError _ | .crash _ =>
    isTrue trivial

/- Worker 1 dies while it executes the run; worker 2 reclaims the message, executes the run
and acknowledges it. -/
theorem no_run_lost_after_crash :
    Machine.Visits (step {} Cron.noCron) NoRunLost (start reportJob)
      (claimedByFirst ++ [.crash 1] ++ reclaimedBySecond ++
        [.advance 1 31, .executorReturns 1 { status := .succeeded }, .advance 1 32, .advance 1 33,
          .advance 1 34, .advance 1 35, .ack 1, .del 1]) :=
  no_run_lost_of_acksSafely {} Cron.noCron reportJob _ rfl (by decide) (by decide)

/- finish_run raises after the executor has succeeded: the run stays RUNNING, the message
is acknowledged, and nobody is left to finish the run. -/
theorem exception_loses_run :
    ∃ t, Machine.run (step {} Cron.noCron) (start reportJob)
        (claimedByFirst ++ [.executorReturns 0 { status := .succeeded }, .advance 0 40, .fail 0,
          .ack 0, .del 0]) = some t ∧
      t.db.statusOf 0 = some .running ∧ t.handlers.rows = [] ∧ t.redis.pending = [] := by
  have hall : (Machine.run (step {} Cron.noCron) (start reportJob)
      (claimedByFirst ++ [.executorReturns 0 { status := .succeeded }, .advance 0 40, .fail 0,
        .ack 0, .del 0])).any (fun t => decide (t.db.statusOf 0 = some .running) &&
        t.handlers.rows.isEmpty && t.redis.pending.isEmpty) = true := by
    decide
  obtain ⟨t, ht, hall⟩ := (Option.any_eq_true _ _).mp hall
  simp only [Bool.and_eq_true, decide_eq_true_eq, List.isEmpty_iff, and_assoc] at hall
  exact ⟨t, ht, hall⟩

/- Worker 3 reclaims the message of `report`, and its handler waits. The run succeeds and its message
is acknowledged; then the second fan-out takes the run back to the queue, and the handler claims it
and dies. -/
def requeuedAfterAck : List Label :=
  promotedAndClaimed ++ [.elapse 30000000, .poll 3, .reclaim 3 2,
    .executorReturns 2 { status := .succeeded }, .advance 2 40, .advance 2 41, .advance 2 42,
    .advance 2 43, .ack 2, .del 2, .advance 1 44, .acquire 3, .advance 3 45, .crash 3]

example : Machine.Along (step {} Cron.noCron) AcksSafely (start joinJobs) requeuedAfterAck ∧
    (Machine.run (step {} Cron.noCron) (start joinJobs) requeuedAfterAck).any (fun t =>
      decide (t.db.statusOf 2 = some .running) && t.handlers.rows.all (fun h => !h.pc.executes) &&
        t.redis.pending.all fun e => decide (e.runId ≠ 2)) = true := by
  decide

end Sys
end JobScheduler
