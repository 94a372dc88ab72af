import JobScheduler.Execution
import JobScheduler.Scheduler.Tick

/-!
# Retry backoff and the orphan sweep

A handler whose executor has failed creates the retry run, already queued, and registers it
in the delayed set for a later time. Meanwhile the scheduler ticks. Two paths of a tick put
runs on the stream, the delayed set and the sweep over queued runs; only the first one knows
about the registered time.
-/

namespace JobScheduler.Backoff
open Library Database Runner

/- `retry` is the run that the handler has created, `readyAt` the time it has registered the
run for, `added` the times of the ticks that put a message of the run on the stream. -/
structure State where
  db : Database
  redis : Redis
  handler : Handler
  retry : Option RunId := none
  readyAt : Option Time := none
  added : List Time := []

def start (s : Sys) (h : Handler) : State := { db := s.db, redis := s.redis, handler := h }

def State.retryRow (s : State) : Option JobRun := s.retry.bind s.db.runs.get

inductive Label where
  | advance (now : Time)
  | tick (now : Time)
  | other (db' : Database) (redis' : Redis)

def Label.time? : Label → Option Time
  | .advance now | .tick now => some now
  | .other _ _ => none

def createdRetry : Pc → Option RunId
  | .failureDelay _ _ i => some i
  | _ => none

def sendTo (redis : Redis) : Option Send → Redis
  | none => redis
  | some (.enqueue i) => redis.enqueueRun i
  | some (.delay i readyAt) => redis.scheduleDelayed i readyAt

def delayTime : Option Send → Option Time
  | some (.delay _ readyAt) => some readyAt
  | _ => none

/- Whatever else goes on: run ids are not reused, what is delayed has an id, and nobody else
delays or enqueues the retry run. Its row may change. -/
def leaves (s : State) (db' : Database) (redis' : Redis) : Bool :=
  decide (s.db.runs.next ≤ db'.runs.next) &&
    (redis'.delayed.all fun d => decide (d.runId < db'.runs.next)) &&
    s.retry.all fun i => !decide (s.redis.Added redis' i) &&
      redis'.delayed.all fun d => decide (d.runId ≠ i) || decide (d ∈ s.redis.delayed)

section
variable (cfg : Settings) (cronNext : Cron.CronNext)

def step (s : State) : Label → Option State
  | .advance now =>
    match next cfg s.db s.handler now with
    | none => none
    | some (db', pc, out) => some { s with
        db := db'
        redis := sendTo s.redis out
        handler := { s.handler with pc := pc }
        retry := (createdRetry pc).or s.retry
        readyAt := (delayTime out).or s.readyAt }
  | .tick now =>
    let out := Scheduler.tick cfg cronNext s.db s.redis now
    some { s with
      db := out.1
      redis := out.2
      added := s.added ++
        if s.retry.any fun i => decide (s.redis.Added out.2 i) then [now] else [] }
  | .other db' redis' =>
    if leaves s db' redis' then some { s with db := db', redis := redis' } else none

/- No message of the retry run before the time it is registered for. -/
def Honoured (s : State) : Prop := ∀ t, s.readyAt = some t → ∀ x ∈ s.added, t ≤ x

/- The call of schedule_delayed_async registers the run for T. -/
def Registers (T : Time) (s : State) : Label → Prop
  | .advance now =>
    match s.handler.pc with
    | .failureDelay c _ _ => now + backoffSeconds cfg c.attempt c.retryBackoffSec * 1000000 = T
    | _ => True
  | _ => True

/- A tick before T does not find the retry run queued for longer than the orphan sweep
tolerates. -/
def Spares (T : Time) (s : State) : Label → Prop
  | .tick now => ∀ r, s.retryRow = some r → r.status = .queued →
      r.createdAt + cfg.orphanRequeueAfterSec * 1000000 < now → T ≤ now
  | _ => True

end

/-! ### The invariant -/

/- Where the handler stands with the retry run. -/
def Stage (s : State) : Prop :=
  match s.handler.pc with
  | .failureCheck _ _ | .failureRetry _ _ => s.retry = none ∧ s.readyAt = none
  | .failureDelay _ _ i => s.retry = some i ∧ s.readyAt = none
  | .failureFinish _ _ _ | .acking => True
  | _ => False

structure Waits (T : Time) (s : State) : Prop where
  stage : Stage s
  ids : ∀ d ∈ s.redis.delayed, d.runId < s.db.runs.next
  known : ∀ i, s.retry = some i → i < s.db.runs.next
  delayed : ∀ i, s.retry = some i → ∀ d ∈ s.redis.delayed, d.runId = i → d.readyAt = T
  readyAt : ∀ t, s.readyAt = some t → t = T
  added : ∀ x ∈ s.added, T ≤ x

variable {cfg : Settings} {cronNext : Cron.CronNext} {T : Time} {s t : State}

theorem Waits.tick (h : Waits T s) {now : Time} (hspares : Spares cfg T s (.tick now))
    (hstep : step cfg cronNext s (.tick now) = some t) : Waits T t := by
  cases hstep
  refine ⟨h.stage, ?_, ?_, ?_, h.readyAt, ?_⟩
  · intro d hd
    exact lt_of_lt_of_le (h.ids d (Scheduler.mem_delayed_tick hd)) Scheduler.next_le_tick
  · intro i hi
    exact lt_of_lt_of_le (h.known i hi) Scheduler.next_le_tick
  · intro i hi d hd
    exact h.delayed i hi d (Scheduler.mem_delayed_tick hd)
  · intro x hx
    rcases List.mem_append.mp hx with hx | hx
    · exact h.added x hx
    · split at hx
      · rename_i hany
        rw [List.mem_singleton.mp hx]
        obtain ⟨i, hi, hadded⟩ := (Option.any_eq_true _ _).mp hany
        -- from the delayed set, as a new run of the pass, or as an orphan
        rcases Scheduler.added_tick (of_decide_eq_true hadded) with
          ⟨d, hd, hdi, hready⟩ | ⟨out, hout, hnew | horphan⟩
        · rw [h.delayed i hi d hd hdi] at hready
          exact hready
        · have hle := ((Scheduler.scheduleDueJobs_scheduled hout).ids i hnew).1
          exact absurd (h.known i hi) (Nat.not_lt.mpr hle)
        · obtain ⟨r, hr, hqueued, hold⟩ := Scheduler.mem_requeueOrphans_iff.mp horphan
          rcases (Scheduler.scheduleDueJobs_scheduled hout).ext.cases hr with hr | ⟨-, hle, -⟩
          · have hrow : s.retryRow = some r := by rw [State.retryRow, hi, Option.bind_some, hr]
            exact hspares r hrow hqueued (lt_sub_iff_add_lt.mp hold)
          · exact absurd (h.known i hi) (Nat.not_lt.mpr hle)
      · cases hx

theorem Waits.other (h : Waits T s) {db' : Database} {redis' : Redis}
    (hstep : step cfg cronNext s (.other db' redis') = some t) : Waits T t := by
  simp only [step] at hstep
  split at hstep
  · rename_i hleaves
    cases hstep
    simp only [leaves, Bool.and_eq_true, decide_eq_true_eq, List.all_eq_true] at hleaves
    obtain ⟨⟨hnext, hids⟩, hretry⟩ := hleaves
    refine ⟨h.stage, hids, fun i hi => lt_of_lt_of_le (h.known i hi) hnext, ?_, h.readyAt, h.added⟩
    intro i hi d hd hdi
    rw [hi] at hretry
    simp only [Option.all_some, Bool.and_eq_true, List.all_eq_true, Bool.or_eq_true,
      decide_eq_true_eq] at hretry
    rcases hretry.2 d hd with hne | hmem
    · exact absurd hdi hne
    · exact h.delayed i hi d hmem hdi
  · cases hstep

theorem mem_delayed_scheduleDelayed {q : Redis} {i : RunId} {readyAt : Time} {d : Delayed}
    (h : d ∈ (q.scheduleDelayed i readyAt).delayed) :
    d = ⟨i, readyAt⟩ ∨ d ∈ q.delayed ∧ d.runId ≠ i := by
  simp only [Redis.scheduleDelayed, List.mem_orderedInsert, List.mem_filter, decide_eq_true_eq] at h
  exact h

theorem Waits.advance (h : Waits T s) {now : Time} (hreg : Registers cfg T s (.advance now))
    (hstep : step cfg cronNext s (.advance now) = some t) : Waits T t := by
  simp only [step] at hstep
  split at hstep
  · cases hstep
  rename_i db' pc out hn
  cases hstep
  have hadv := advance_of_next hn
  have hstage := h.stage
  unfold Stage at hstage
  dsimp only at hadv
  generalize hpc : s.handler.pc = p at hadv hstage
  cases hadv with
  | failureSkipped c res hcanceled =>
    exact ⟨trivial, h.ids, h.known, h.delayed, h.readyAt, h.added⟩
  | retries c res hcanceled =>
    exact ⟨hstage, h.ids, h.known, h.delayed, h.readyAt, h.added⟩
  | givesUp c res hcanceled =>
    exact ⟨trivial, h.ids, h.known, h.delayed, h.readyAt, h.added⟩
  | retryRaised c res hno =>
    exact ⟨trivial, h.ids, h.known, h.delayed, h.readyAt, h.added⟩
  | retryCreated c res db' i hcreate =>
    obtain ⟨rfl, ha, rfl⟩ := insertRun_eq_some hcreate
    refine ⟨⟨rfl, hstage.2⟩, ?_, ?_, ?_, h.readyAt, h.added⟩
    · exact fun d hd => Nat.lt_succ_of_lt (h.ids d hd)
    · intro i hi
      cases hi
      exact Nat.lt_succ_self _
    · intro i hi d hd hdi
      -- the id is new, so nothing is delayed under it
      cases hi
      exact absurd hdi (Nat.ne_of_lt (h.ids d hd))
  | delayed c res i =>
    have hT : now + backoffSeconds cfg c.attempt c.retryBackoffSec * 1000000 = T := by
      simpa only [Registers, hpc] using hreg
    refine ⟨trivial, ?_, h.known, ?_, ?_, h.added⟩
    · intro d hd
      rcases mem_delayed_scheduleDelayed hd with rfl | ⟨hd, -⟩
      · exact h.known i hstage.1
      · exact h.ids d hd
    · intro k hk d hd hdk
      rcases mem_delayed_scheduleDelayed hd with rfl | ⟨hd, -⟩
      · exact hT
      · exact h.delayed k hk d hd hdk
    · intro t ht
      cases ht
      exact hT
  | failed c res error =>
    exact ⟨trivial, h.ids, h.known, h.delayed, h.readyAt, h.added⟩
  | _ => exact absurd hstage id

/-! ### Histories -/

/- A handler of a reachable state that enters _on_failure. -/
theorem waits_start {s : Sys} (hs : Sys.WellFormed s) {h : Handler} {c : Store.Claimed}
    {res : ExecResult} (hpc : h.pc = .failureCheck c res) : Waits T (start s h) where
  stage := by
    unfold Stage
    simp [start, hpc]
  ids := fun d hd => (hs.inFlight d.runId (.inr (.inl (.inr (.inr ⟨d, hd, rfl⟩))))).1
  known := nofun
  delayed := nofun
  readyAt := nofun
  added := nofun

theorem Waits.step {l : Label} (h : Waits T s) (hreg : Registers cfg T s l)
    (hspares : Spares cfg T s l) (hstep : Backoff.step cfg cronNext s l = some t) : Waits T t := by
  cases l with
  | advance now => exact h.advance hreg hstep
  | tick now => exact h.tick hspares hstep
  | other db' redis' => exact h.other hstep

/- When no tick finds the retry run queued for too long before T, the backoff is honoured. -/
theorem honoured_visits {db : Database} {pre : List JobScheduler.Label} {s : Sys}
    (hdb : db.runs.rows = [])
    (hrun : Machine.run (Sys.step cfg cronNext) (Sys.start db) pre = some s)
    {h : Handler} {c : Store.Claimed} {res : ExecResult} (hpc : h.pc = .failureCheck c res)
    {ls : List Label}
    (hreg : Machine.Along (step cfg cronNext) (Registers cfg T) (start s h) ls)
    (hspares : Machine.Along (step cfg cronNext) (Spares cfg T) (start s h) ls) :
    Machine.Visits (step cfg cronNext) Honoured (start s h) ls := by
  have hwf := Sys.run_wellFormed (Sys.wellFormed_start hdb) hrun
  refine Machine.visits_of_invariant (I := Waits T) ?_ ?_ (waits_start hwf hpc) (hreg.and hspares)
  · exact fun s l t hs hc hstep => hs.step hc.1 hc.2 hstep
  · intro s hs t ht x hx
    rw [hs.readyAt t ht]
    exact hs.added x hx

/-! ### A backoff of two minutes -/

instance (s : State) : ∀ l, Decidable (Registers cfg T s l)
  | .advance now => by
    unfold Registers
    dsimp only
    split <;> infer_instance
  | .tick _ | .other _ _ => isTrue trivial

instance (s : State) : ∀ l, Decidable (Spares cfg T s l)
  | .tick now =>
    match hr : s.retryRow with
    | none => isTrue fun r h => by rw [hr] at h; cases h
    | some r =>
      decidable_of_iff (r.status = .queued →
          r.createdAt + cfg.orphanRequeueAfterSec * 1000000 < now → T ≤ now)
        ⟨fun h q hq => by rw [hr] at hq; cases hq; exact h, fun h => h r hr⟩
  | .advance _ | .other _ _ => isTrue trivial

/- The job of user 1 with one retry after two minutes. -/
def retriedJob : Database :=
  Sys.reportJob.updateJobs (fun _ => true)
    (fun j => { j with maxRetries := 1, retryBackoffSec := 120 }) fun _ => rfl

/- The same job with a queued run of its own. -/
def queuedReport : Option Database :=
  (retriedJob.createRun 0 .manual none 1 .queued 0).map Prod.fst

/- Worker 1 with the message of that run. -/
def firstDelivery : Handler where
  id := 0
  worker := 1
  messageId := 0
  runId := 0
  allowRunning := false
  pc := .claiming

/- Worker 1 has executed the run and the executor has failed. -/
def failedByFirst : List JobScheduler.Label :=
  Sys.claimedByFirst ++ [.executorReturns 0 { status := .failed, error := some "exit 1" }]

/- The retry is created at 2 and registered at 3 µs for two minutes later; the scheduler looks
after half a minute, and after two minutes. -/
def patientTicks : List Label :=
  [.advance 1, .advance 2, .advance 3, .advance 4, .tick 30000000, .tick 120000003]

/- A tick after a minute and a bit. -/
def hastyTicks : List Label :=
  [.advance 1, .advance 2, .advance 3, .advance 4, .tick 60000003]

def checksFailure (pc : Pc) : Bool :=
  match pc with
  | .failureCheck _ _ => true
  | _ => false

theorem failureCheck_of_checks {pc : Pc} (h : checksFailure pc = true) :
    ∃ c res, pc = .failureCheck c res := by
  cases pc <;> first | exact ⟨_, _, rfl⟩ | cases h

theorem honoured_patient : ∃ s h,
    Machine.run (Sys.step {} Cron.noCron) (Sys.start retriedJob) failedByFirst = some s ∧
      s.handlers.get 0 = some h ∧
      Machine.Visits (step {} Cron.noCron) Honoured (start s h) patientTicks := by
  have hall : (Machine.run (Sys.step {} Cron.noCron) (Sys.start retriedJob) failedByFirst).any
      (fun s => (s.handlers.get 0).any fun h => checksFailure h.pc &&
        decide (Machine.Along (step {} Cron.noCron) (Registers {} 120000003) (start s h)
          patientTicks) &&
        decide (Machine.Along (step {} Cron.noCron) (Spares {} 120000003) (start s h)
          patientTicks)) = true := by
    decide
  obtain ⟨s, hs, hall⟩ := (Option.any_eq_true _ _).mp hall
  obtain ⟨h, hh, hall⟩ := (Option.any_eq_true _ _).mp hall
  simp only [Bool.and_eq_true, decide_eq_true_eq] at hall
  obtain ⟨⟨hpc, hreg⟩, hspares⟩ := hall
  obtain ⟨c, res, hpc⟩ := failureCheck_of_checks hpc
  exact ⟨s, h, hs, hh, honoured_visits rfl hs hpc hreg hspares⟩

/- The tick finds the retry run queued for more than a minute and enqueues it, a minute before
the registered time. -/
theorem not_honoured : ¬ ∀ (cfg : Settings) (cronNext : Cron.CronNext) (db : Database)
    (pre : List JobScheduler.Label) (s : Sys) (h : Handler) (c : Store.Claimed) (res : ExecResult)
    (ls : List Label), db.runs.rows = [] →
    Machine.run (Sys.step cfg cronNext) (Sys.start db) pre = some s → h ∈ s.handlers.rows →
    h.pc = .failureCheck c res → (ls.filterMap Label.time?).Pairwise (· ≤ ·) →
    Machine.Visits (step cfg cronNext) Honoured (start s h) ls := by
  intro hclaim
  have hall : (Machine.run (Sys.step {} Cron.noCron) (Sys.start retriedJob) failedByFirst).any
      (fun s => (s.handlers.get 0).any fun h => checksFailure h.pc &&
        (Machine.run (step {} Cron.noCron) (start s h) hastyTicks).any fun t =>
          decide (t.readyAt = some 120000003) && decide (t.added = [60000003])) = true := by
    decide
  obtain ⟨s, hs, hall⟩ := (Option.any_eq_true _ _).mp hall
  obtain ⟨h, hh, hall⟩ := (Option.any_eq_true _ _).mp hall
  rw [Bool.and_eq_true] at hall
  obtain ⟨hpc, hall⟩ := hall
  obtain ⟨t, ht, hall⟩ := (Option.any_eq_true _ _).mp hall
  simp only [Bool.and_eq_true, decide_eq_true_eq] at hall
  obtain ⟨c, res, hpc⟩ := failureCheck_of_checks hpc
  have hvisits := hclaim {} Cron.noCron retriedJob failedByFirst s h c res hastyTicks rfl hs
    (Table.mem_of_get hh) hpc (by decide)
  have hlate := hvisits.last ht 120000003 hall.1 60000003
    (by rw [hall.2]; exact List.mem_singleton.mpr rfl)
  exact absurd hlate (by decide)

end JobScheduler.Backoff
