import JobScheduler.Common.Queries
import JobScheduler.Scheduler.Cron

/-!
# The scheduler's database pass (backend/scheduler/main.py)

`scheduleDueJobs` and `requeueOrphans` run in one session that is committed at the
end: an error in any iteration rolls the whole pass back, so the function has no
resulting tables then.
-/

namespace JobScheduler.Scheduler
open Library Database Cron

section
variable (cronNext : CronNext)

-- select(Job).where(enabled, schedule_type in (cron, interval))
def schedulable (job : Job) : Bool :=
  job.enabled && (decide (job.scheduleType = .cron) || decide (job.scheduleType = .interval))

def jobTick (job : Job) (now : Time) : Except ScheduleError (Option Time) :=
  dueTick cronNext job.scheduleType job.scheduleExpr job.timezone
    (job.lastScheduledFor.getD job.createdAt) now

def scheduledRow (jobId : JobId) (tick now : Time) : NewRun where
  jobId := jobId
  triggerType := .scheduled
  status := .queued
  scheduledFor := some tick
  createdAt := now

-- job.last_scheduled_for = tick
def anchoredJob (tick now : Time) (j : Job) : Job :=
  { j with lastScheduledFor := some tick, updatedAt := now }

def anchor (db : Database) (jobId : JobId) (tick now : Time) : Database :=
  db.updateJobs (fun j => decide (j.id = jobId)) (anchoredJob tick now) fun _ => rfl

/- The savepoint of one job: the unique constraint decides whether the run is new,
the anchor moves in both cases. -/
def scheduleTick (acc : Database × List RunId) (jobId : JobId) (tick now : Time) :
    Database × List RunId :=
  match acc.1.insertRun (scheduledRow jobId tick now) with
  | some (db', i) => (anchor db' jobId tick now, acc.2 ++ [i])
  | none => (anchor acc.1 jobId tick now, acc.2)

def scheduleJob (now : Time) (acc : Database × List RunId) (job : Job) :
    Except ScheduleError (Database × List RunId) := do
  match ← jobTick cronNext job now with
  | none => .ok acc
  | some tick => .ok (scheduleTick acc job.id tick now)

def scheduleDueJobs (db : Database) (now : Time) :
    Except ScheduleError (Database × List RunId) :=
  (db.jobs.rows.filter schedulable).foldlM (scheduleJob cronNext now) (db, [])

end

def requeueOrphans (cfg : Settings) (db : Database) (now : Time) : List RunId :=
  let cutoff := now - cfg.orphanRequeueAfterSec * microseconds
  (db.runs.rows.filter fun r =>
    decide (r.status = .queued) && decide (r.createdAt < cutoff)).map JobRun.id

/-! ### What a pass can do to the tables -/

/- The state between two iterations of the pass, seen from the tables before it: the
runs added so far are queued runs of due jobs, and the ids collected are theirs. -/
structure Scheduled (due : JobId → Prop) (db : Database) (acc : Database × List RunId) : Prop where
  ext : db.Extends (fun r => r.status = .queued ∧ due r.jobId) acc.1
  ids : ∀ i ∈ acc.2, db.runs.next ≤ i ∧ ∃ r, acc.1.runs.get i = some r ∧ r.status = .queued

theorem Scheduled.scheduleTick {due : JobId → Prop} {db : Database}
    {acc : Database × List RunId} (h : Scheduled due db acc) {j : JobId} (hj : due j)
    (tick now : Time) : Scheduled due db (scheduleTick acc j tick now) := by
  unfold Scheduler.scheduleTick
  cases hi : acc.1.insertRun (scheduledRow j tick now) with
  | none => exact ⟨h.ext.trans (extends_updateJobs _ _ _ _ _), h.ids⟩
  | some out =>
    obtain ⟨db', i⟩ := out
    obtain ⟨rfl, ha, rfl⟩ := insertRun_eq_some hi
    have hadd : acc.1.Extends (fun r => r.status = .queued ∧ due r.jobId)
        (acc.1.addRun (scheduledRow j tick now) ha) :=
      extends_addRun acc.1 (scheduledRow j tick now) ha ⟨rfl, hj⟩
    refine ⟨(h.ext.trans hadd).trans (extends_updateJobs _ _ _ _ _), ?_⟩
    intro k hk
    rcases List.mem_append.mp hk with hk | hk
    · obtain ⟨hle, r, hr, hs⟩ := h.ids k hk
      exact ⟨hle, r, hadd.old k r hr, hs⟩
    · have hk : k = acc.1.runs.next := List.mem_singleton.mp hk
      have hrow := get_addRun acc.1 (scheduledRow j tick now) ha k
      rw [if_pos hk] at hrow
      exact ⟨hk ▸ h.ext.next, _, hrow, rfl⟩

-- A job for which the pass at `now` tries to insert a run.
def Due (cronNext : CronNext) (db : Database) (now : Time) (j : JobId) : Prop :=
  ∃ job ∈ db.jobs.rows, schedulable job = true ∧ job.id = j ∧
    ∃ tick, jobTick cronNext job now = .ok (some tick)

theorem foldlM_scheduled {cronNext : CronNext} {now : Time} {due : JobId → Prop}
    {db : Database} {jobs : List Job}
    (hdue : ∀ job ∈ jobs, ∀ tick, jobTick cronNext job now = .ok (some tick) → due job.id)
    {acc out : Database × List RunId} (h : Scheduled due db acc)
    (hout : jobs.foldlM (scheduleJob cronNext now) acc = .ok out) : Scheduled due db out := by
  induction jobs generalizing acc with
  | nil =>
    cases hout
    exact h
  | cons job jobs ih =>
    have hrest : ∀ k ∈ jobs, ∀ tick, jobTick cronNext k now = .ok (some tick) → due k.id :=
      fun k hk => hdue k (List.mem_cons_of_mem _ hk)
    rw [List.foldlM_cons] at hout
    cases htick : jobTick cronNext job now with
    | error e =>
      rw [scheduleJob, htick] at hout
      cases hout
    | ok tick =>
      cases tick with
      | none =>
        rw [scheduleJob, htick] at hout
        exact ih hrest h hout
      | some tick =>
        rw [scheduleJob, htick] at hout
        have hj : due job.id := hdue job (List.mem_cons_self ..) tick htick
        exact ih hrest (h.scheduleTick hj tick now) hout

theorem scheduleDueJobs_scheduled {cronNext : CronNext} {db : Database} {now : Time}
    {out : Database × List RunId} (h : scheduleDueJobs cronNext db now = .ok out) :
    Scheduled (Due cronNext db now) db out := by
  have h0 : Scheduled (Due cronNext db now) db (db, []) :=
    ⟨Extends.refl _ db, fun i hi => absurd hi List.not_mem_nil⟩
  refine foldlM_scheduled ?_ h0 h
  intro job hjob tick htick
  obtain ⟨hmem, hsched⟩ := List.mem_filter.mp hjob
  exact ⟨job, hmem, hsched, rfl, tick, htick⟩

theorem mem_requeueOrphans {cfg : Settings} {db : Database} {now : Time} {i : RunId}
    (h : i ∈ requeueOrphans cfg db now) :
    ∃ r, db.runs.get i = some r ∧ r.status = .queued := by
  simp only [requeueOrphans, List.mem_map, List.mem_filter, Bool.and_eq_true,
    decide_eq_true_eq] at h
  obtain ⟨r, ⟨hr, hs, -⟩, rfl⟩ := h
  exact ⟨r, Table.get_of_mem hr, hs⟩

end JobScheduler.Scheduler
