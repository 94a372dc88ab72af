import Mathlib.Data.Int.Basic
import JobScheduler.Library.Table

/-!
# The tables (backend/common/constants.py, backend/common/models.py)

`Database` is the committed state of the three tables the scheduler works on.
The foreign keys and the two unique constraints of `models.py` are fields of the
structure: a row that violates one of them cannot be stored, and an `INSERT` that
would do so has no result (the `IntegrityError` of the driver).
-/

namespace JobScheduler
open Library

abbrev UserId := ℕ
abbrev JobId := ℕ
abbrev RunId := ℕ
abbrev WorkerId := ℕ

/-- Instants, in microseconds since the epoch (UTC). -/
abbrev Time := ℤ

/-- JSON values (`JSONB` columns). A number is `mantissa * 10 ^ exponent`. -/
inductive Json where
  | null
  | bool (b : Bool)
  | number (mantissa exponent : ℤ)
  | string (s : String)
  | array (xs : List Json)
  | object (fields : List (String × Json))

inductive TaskType where
  | http
  | shell
  | httpAsync
  deriving DecidableEq, Repr

inductive ScheduleType where
  | cron
  | interval
  | manual
  deriving DecidableEq, Repr

inductive TriggerType where
  | scheduled
  | manual
  | dependency
  | retry
  deriving DecidableEq, Repr

inductive RunStatus where
  | pending
  | queued
  | running
  | succeeded
  | failed
  | timedOut
  | canceled
  deriving DecidableEq, Repr

namespace RunStatus

/-- `RunStatus.TERMINAL`. -/
def terminal : RunStatus → Bool
  | succeeded | failed | timedOut | canceled => true
  | pending | queued | running => false

/-- `_ACTIVE` of `worker/store.py`, also the statuses of `_active_run`. -/
def active : RunStatus → Bool
  | pending | queued | running => true
  | succeeded | failed | timedOut | canceled => false

/-- The statuses `_has_dispatched_run` looks for. -/
def dispatched : RunStatus → Bool
  | queued | running => true
  | _ => false

@[simp] theorem active_eq_not_terminal (s : RunStatus) : s.active = !s.terminal := by
  cases s <;> rfl

theorem active_iff (s : RunStatus) :
    s.terminal = false ↔ s = pending ∨ s.dispatched = true := by
  cases s <;> simp [terminal, dispatched]

end RunStatus

structure Job where
  id : JobId
  ownerUserId : Option UserId := none
  name : String := ""
  description : Option String := none
  category : Option String := none
  taskType : TaskType := .shell
  taskSpec : List (String × Json) := []
  scheduleType : ScheduleType := .manual
  scheduleExpr : Option String := none
  timezone : String := "UTC"
  enabled : Bool := true
  maxRetries : ℤ := 0
  retryBackoffSec : ℤ := 30
  timeoutSec : ℤ := 300
  lastScheduledFor : Option Time := none
  createdAt : Time := 0
  updatedAt : Time := 0

/-- `job_id` runs only after `depends_on_job_id` has succeeded. -/
structure JobDependency where
  id : ℕ
  jobId : JobId
  dependsOnJobId : JobId
  deriving DecidableEq, Repr

structure JobRun where
  id : RunId
  jobId : JobId
  triggerType : TriggerType
  status : RunStatus
  attempt : ℤ
  scheduledFor : Option Time
  startedAt : Option Time
  finishedAt : Option Time
  exitCode : Option ℤ
  result : Option Json
  error : Option String
  workerId : Option WorkerId
  createdAt : Time

instance : Keyed Job := ⟨Job.id⟩
instance : Keyed JobDependency := ⟨JobDependency.id⟩
instance : Keyed JobRun := ⟨JobRun.id⟩

@[simp] theorem key_job (j : Job) : Keyed.key j = j.id := rfl
@[simp] theorem key_jobDependency (d : JobDependency) : Keyed.key d = d.id := rfl
@[simp] theorem key_jobRun (r : JobRun) : Keyed.key r = r.id := rfl

structure Database where
  jobs : Table Job
  dependencies : Table JobDependency
  runs : Table JobRun
  dependency_fk : ∀ d ∈ dependencies.rows,
    (∃ j ∈ jobs.rows, j.id = d.jobId) ∧ ∃ j ∈ jobs.rows, j.id = d.dependsOnJobId
  run_fk : ∀ r ∈ runs.rows, ∃ j ∈ jobs.rows, j.id = r.jobId
  uq_job_dependency : ∀ d ∈ dependencies.rows, ∀ e ∈ dependencies.rows,
    d.jobId = e.jobId → d.dependsOnJobId = e.dependsOnJobId → d = e
  uq_job_run_tick : ∀ r ∈ runs.rows, ∀ q ∈ runs.rows,
    r.jobId = q.jobId → r.scheduledFor = q.scheduledFor → r.scheduledFor ≠ none → r = q

namespace Database

/-- A database of jobs and edges without any run. -/
def ofJobs (jobs : Table Job) (dependencies : Table JobDependency)
    (hfk : ∀ d ∈ dependencies.rows,
      (∃ j ∈ jobs.rows, j.id = d.jobId) ∧ ∃ j ∈ jobs.rows, j.id = d.dependsOnJobId)
    (huq : ∀ d ∈ dependencies.rows, ∀ e ∈ dependencies.rows,
      d.jobId = e.jobId → d.dependsOnJobId = e.dependsOnJobId → d = e) : Database where
  jobs := jobs
  dependencies := dependencies
  runs := Table.empty
  dependency_fk := hfk
  run_fk := fun _ h => absurd h List.not_mem_nil
  uq_job_dependency := huq
  uq_job_run_tick := fun _ h => absurd h List.not_mem_nil

/- The jobs of one user, numbered from 0, with edges (job, dependency) and without any run;
no jobs at all when the edges break a constraint. -/
def ofNames (owner : UserId) (names : List String) (edges : List (JobId × JobId)) : Database :=
  let jobs : Table Job := names.foldl (fun t name =>
    t.insert (fun i => { id := i, ownerUserId := some owner, name := name }) fun _ => rfl) Table.empty
  let dependencies : Table JobDependency := edges.foldl (fun t e =>
    t.insert (fun i => { id := i, jobId := e.1, dependsOnJobId := e.2 }) fun _ => rfl) Table.empty
  if h : (∀ d ∈ dependencies.rows,
      (∃ j ∈ jobs.rows, j.id = d.jobId) ∧ ∃ j ∈ jobs.rows, j.id = d.dependsOnJobId) ∧
      ∀ d ∈ dependencies.rows, ∀ e ∈ dependencies.rows,
        d.jobId = e.jobId → d.dependsOnJobId = e.dependsOnJobId → d = e then
    ofJobs jobs dependencies h.1 h.2
  else ofJobs Table.empty Table.empty (fun _ h => absurd h List.not_mem_nil)
    fun _ h => absurd h List.not_mem_nil

/-- The status of a run, `none` when there is no such row. -/
def statusOf (db : Database) (i : RunId) : Option RunStatus := (db.runs.get i).map JobRun.status

/-! ### Updating runs in place -/

/-- A `SET` clause leaves the key, the job and the tick of a run alone. -/
def KeepsRun (f : JobRun → JobRun) : Prop :=
  ∀ r, (f r).id = r.id ∧ (f r).jobId = r.jobId ∧ (f r).scheduledFor = r.scheduledFor

theorem KeepsRun.rewrite {f : JobRun → JobRun} (hf : KeepsRun f) (p : JobRun → Bool) :
    KeepsRun (Table.rewrite p f) := by
  intro r
  unfold Table.rewrite
  split
  · exact hf r
  · exact ⟨rfl, rfl, rfl⟩

/-- `update(JobRun).where(p).values(f)`. -/
def updateRuns (db : Database) (p : JobRun → Bool) (f : JobRun → JobRun) (hf : KeepsRun f) :
    Database where
  jobs := db.jobs
  dependencies := db.dependencies
  runs := db.runs.update p f fun r => (hf r).1
  dependency_fk := db.dependency_fk
  run_fk := by
    intro r hr
    obtain ⟨a, ha, rfl⟩ := Table.mem_rows_update.mp hr
    rw [(hf.rewrite p a).2.1]
    exact db.run_fk a ha
  uq_job_dependency := db.uq_job_dependency
  uq_job_run_tick := by
    intro r hr q hq hjob htick hsome
    obtain ⟨a, ha, rfl⟩ := Table.mem_rows_update.mp hr
    obtain ⟨b, hb, rfl⟩ := Table.mem_rows_update.mp hq
    rw [(hf.rewrite p a).2.1, (hf.rewrite p b).2.1] at hjob
    rw [(hf.rewrite p a).2.2, (hf.rewrite p b).2.2] at htick
    rw [(hf.rewrite p a).2.2] at hsome
    rw [db.uq_job_run_tick a ha b hb hjob htick hsome]

theorem get_updateRuns (db : Database) (p : JobRun → Bool) (f : JobRun → JobRun)
    (hf : KeepsRun f) (i : RunId) :
    (db.updateRuns p f hf).runs.get i = (db.runs.get i).map (Table.rewrite p f) :=
  Table.get_update db.runs p f (fun r => (hf r).1) i

/-! ### Inserting runs -/

/-- The columns a `JobRun(...)` constructor call sets; the others start as `NULL`. -/
structure NewRun where
  jobId : JobId
  triggerType : TriggerType
  status : RunStatus
  attempt : ℤ := 1
  scheduledFor : Option Time := none
  createdAt : Time

def NewRun.row (n : NewRun) (i : RunId) : JobRun where
  id := i
  jobId := n.jobId
  triggerType := n.triggerType
  status := n.status
  attempt := n.attempt
  scheduledFor := n.scheduledFor
  startedAt := none
  finishedAt := none
  exitCode := none
  result := none
  error := none
  workerId := none
  createdAt := n.createdAt

/-- The row passes the foreign key and `uq_job_run_tick` (`NULL` ticks are distinct). -/
def Admits (db : Database) (n : NewRun) : Prop :=
  (∃ j ∈ db.jobs.rows, j.id = n.jobId) ∧
    ∀ r ∈ db.runs.rows, r.jobId = n.jobId → r.scheduledFor = n.scheduledFor →
      n.scheduledFor = none

instance (db : Database) (n : NewRun) : Decidable (db.Admits n) := by
  unfold Admits
  infer_instance

/-- The database with the row added. -/
def addRun (db : Database) (n : NewRun) (h : db.Admits n) : Database where
  jobs := db.jobs
  dependencies := db.dependencies
  runs := db.runs.insert n.row fun _ => rfl
  dependency_fk := db.dependency_fk
  run_fk := by
    intro r hr
    rcases Table.mem_rows_insert.mp hr with hr | rfl
    · exact db.run_fk r hr
    · exact h.1
  uq_job_dependency := db.uq_job_dependency
  uq_job_run_tick := by
    intro r hr q hq hjob htick hsome
    rcases Table.mem_rows_insert.mp hr with hr | rfl <;>
      rcases Table.mem_rows_insert.mp hq with hq | rfl
    · exact db.uq_job_run_tick r hr q hq hjob htick hsome
    · exact absurd (htick.trans (h.2 r hr hjob htick)) hsome
    · exact absurd (h.2 q hq hjob.symm htick.symm) hsome
    · rfl

/-- `session.add(run); session.flush()`: the new id, or `IntegrityError`. -/
def insertRun (db : Database) (n : NewRun) : Option (Database × RunId) :=
  if h : db.Admits n then some (db.addRun n h, db.runs.next) else none

theorem get_addRun (db : Database) (n : NewRun) (h : db.Admits n) (i : RunId) :
    (db.addRun n h).runs.get i =
      if i = db.runs.next then some (n.row db.runs.next) else db.runs.get i :=
  Table.get_insert db.runs n.row (fun _ => rfl) i

/-- What a successful insert does; callers need not look inside `insertRun`. -/
theorem insertRun_eq_some {db db' : Database} {n : NewRun} {i : RunId}
    (h : db.insertRun n = some (db', i)) :
    i = db.runs.next ∧ ∃ ha : db.Admits n, db' = db.addRun n ha := by
  unfold insertRun at h
  split at h
  · rename_i ha
    injection h with h
    injection h with hdb hi
    exact ⟨hi.symm, ha, hdb.symm⟩
  · cases h

/-! ### Jobs -/

/-- An in-place update of job rows; `f` keeps the key. -/
def updateJobs (db : Database) (p : Job → Bool) (f : Job → Job) (hf : Table.KeepsKey f) :
    Database where
  jobs := db.jobs.update p f hf
  dependencies := db.dependencies
  runs := db.runs
  dependency_fk := by
    have keep : ∀ i, (∃ j ∈ db.jobs.rows, j.id = i) →
        ∃ j ∈ (db.jobs.update p f hf).rows, j.id = i := by
      rintro i ⟨j, hj, hi⟩
      exact ⟨_, Table.mem_rows_update.mpr ⟨j, hj, rfl⟩, (Table.key_rewrite hf p j).trans hi⟩
    intro d hd
    exact ⟨keep _ (db.dependency_fk d hd).1, keep _ (db.dependency_fk d hd).2⟩
  run_fk := by
    intro r hr
    obtain ⟨j, hj, hi⟩ := db.run_fk r hr
    exact ⟨_, Table.mem_rows_update.mpr ⟨j, hj, rfl⟩, (Table.key_rewrite hf p j).trans hi⟩
  uq_job_dependency := db.uq_job_dependency
  uq_job_run_tick := db.uq_job_run_tick

/- session.add(job); session.flush() -/
def addJob (db : Database) (mk : JobId → Job) (hmk : ∀ i, (mk i).id = i) : Database where
  jobs := db.jobs.insert mk hmk
  dependencies := db.dependencies
  runs := db.runs
  dependency_fk := by
    intro d hd
    obtain ⟨⟨j, hj, hji⟩, k, hk, hki⟩ := db.dependency_fk d hd
    exact ⟨⟨j, Table.mem_rows_insert.mpr (.inl hj), hji⟩,
      k, Table.mem_rows_insert.mpr (.inl hk), hki⟩
  run_fk := by
    intro r hr
    obtain ⟨j, hj, hji⟩ := db.run_fk r hr
    exact ⟨j, Table.mem_rows_insert.mpr (.inl hj), hji⟩
  uq_job_dependency := db.uq_job_dependency
  uq_job_run_tick := db.uq_job_run_tick

/-! ### Dependencies -/

/- DELETE FROM job_dependencies WHERE job_id = j -/
def deleteDependencies (db : Database) (j : JobId) : Database where
  jobs := db.jobs
  dependencies := db.dependencies.deleteWhere fun d => decide (d.jobId = j)
  runs := db.runs
  dependency_fk := fun d hd => db.dependency_fk d (Table.mem_rows_deleteWhere.mp hd).1
  run_fk := db.run_fk
  uq_job_dependency := fun d hd e he =>
    db.uq_job_dependency d (Table.mem_rows_deleteWhere.mp hd).1 e
      (Table.mem_rows_deleteWhere.mp he).1
  uq_job_run_tick := db.uq_job_run_tick

/- The edge passes both foreign keys and uq_job_dependency. -/
def AdmitsDependency (db : Database) (j k : JobId) : Prop :=
  ((∃ job ∈ db.jobs.rows, job.id = j) ∧ ∃ job ∈ db.jobs.rows, job.id = k) ∧
    ∀ d ∈ db.dependencies.rows, d.jobId = j → d.dependsOnJobId ≠ k

instance (db : Database) (j k : JobId) : Decidable (db.AdmitsDependency j k) := by
  unfold AdmitsDependency
  infer_instance

def addDependency (db : Database) (j k : JobId) (h : db.AdmitsDependency j k) : Database where
  jobs := db.jobs
  dependencies := db.dependencies.insert (fun i => ⟨i, j, k⟩) fun _ => rfl
  runs := db.runs
  dependency_fk := by
    intro d hd
    rcases Table.mem_rows_insert.mp hd with hd | rfl
    · exact db.dependency_fk d hd
    · exact h.1
  run_fk := db.run_fk
  uq_job_dependency := by
    intro d hd e he hjob hdep
    rcases Table.mem_rows_insert.mp hd with hd | rfl <;>
      rcases Table.mem_rows_insert.mp he with he | rfl
    · exact db.uq_job_dependency d hd e he hjob hdep
    · exact absurd hdep (h.2 d hd hjob)
    · exact absurd hdep.symm (h.2 e he hjob.symm)
    · rfl
  uq_job_run_tick := db.uq_job_run_tick

/- session.add(JobDependency(...)) with the flush that follows; none is the IntegrityError. -/
def insertDependency (db : Database) (j k : JobId) : Option Database :=
  if h : db.AdmitsDependency j k then some (db.addDependency j k h) else none

/-- `DELETE FROM jobs WHERE id = i`; `ondelete="CASCADE"` takes the job's runs and
every dependency edge that names it along. -/
def deleteJob (db : Database) (i : JobId) : Database where
  jobs := db.jobs.deleteWhere fun j => decide (j.id = i)
  dependencies := db.dependencies.deleteWhere fun d =>
    decide (d.jobId = i) || decide (d.dependsOnJobId = i)
  runs := db.runs.deleteWhere fun r => decide (r.jobId = i)
  dependency_fk := by
    intro d hd
    obtain ⟨hd, hne⟩ := Table.mem_rows_deleteWhere.mp hd
    simp only [Bool.or_eq_false_iff, decide_eq_false_iff_not] at hne
    obtain ⟨⟨j, hj, hji⟩, k, hk, hki⟩ := db.dependency_fk d hd
    refine ⟨⟨j, Table.mem_rows_deleteWhere.mpr ⟨hj, ?_⟩, hji⟩,
      k, Table.mem_rows_deleteWhere.mpr ⟨hk, ?_⟩, hki⟩
    · simpa [hji] using hne.1
    · simpa [hki] using hne.2
  run_fk := by
    intro r hr
    obtain ⟨hr, hne⟩ := Table.mem_rows_deleteWhere.mp hr
    obtain ⟨j, hj, hji⟩ := db.run_fk r hr
    exact ⟨j, Table.mem_rows_deleteWhere.mpr ⟨hj, by simpa [hji] using hne⟩, hji⟩
  uq_job_dependency := fun d hd e he =>
    db.uq_job_dependency d (Table.mem_rows_deleteWhere.mp hd).1 e
      (Table.mem_rows_deleteWhere.mp he).1
  uq_job_run_tick := fun r hr q hq =>
    db.uq_job_run_tick r (Table.mem_rows_deleteWhere.mp hr).1 q
      (Table.mem_rows_deleteWhere.mp hq).1

/-! ### The rows after one statement -/

theorem mem_runs_updateRuns {db : Database} {p : JobRun → Bool} {f : JobRun → JobRun}
    {hf : KeepsRun f} {r : JobRun} :
    r ∈ (db.updateRuns p f hf).runs.rows ↔ ∃ a ∈ db.runs.rows, Table.rewrite p f a = r :=
  @Table.mem_rows_update _ _ db.runs p f (fun r => (hf r).1) r

theorem mem_jobs_updateJobs {db : Database} {p : Job → Bool} {f : Job → Job}
    {hf : Table.KeepsKey f} {job : Job} :
    job ∈ (db.updateJobs p f hf).jobs.rows ↔ ∃ a ∈ db.jobs.rows, Table.rewrite p f a = job :=
  @Table.mem_rows_update _ _ db.jobs p f hf job

theorem mem_jobs_addJob {db : Database} {mk : JobId → Job} {hmk : ∀ i, (mk i).id = i} {job : Job} :
    job ∈ (db.addJob mk hmk).jobs.rows ↔ job ∈ db.jobs.rows ∨ job = mk db.jobs.next :=
  @Table.mem_rows_insert _ _ db.jobs mk hmk job

end Database

/-! ### Settings (backend/common/config.py) -/

/- The integer settings that the modelled functions read, with the defaults of the
source; the environment may override each of them with any integer. -/
structure Settings where
  orphanRequeueAfterSec : ℤ := 60
  workerConcurrency : ℤ := 10
  workerReadBatch : ℤ := 20
  claimMinIdleMs : ℤ := 30000
  retryBackoffMaxSec : ℤ := 3600

end JobScheduler
