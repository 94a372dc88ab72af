import JobScheduler.Api.Crud
import JobScheduler.System

/-!
# The routes (backend/api/routers/jobs.py and runs.py)

Every request of an authenticated user with its response, on the tables together with
job_run_logs. A request that raises leaves the tables as they were. ORDER BY created_at DESC
says nothing about rows of one instant; they stand in the order of their ids here.
-/

namespace JobScheduler.Routes
open Library Database Schemas Api Crud

/-! ### The logs -/

structure JobRunLog where
  id : ℕ
  runId : RunId
  ts : Time
  stream : String
  line : String
  deriving DecidableEq, Repr

instance : Keyed JobRunLog := ⟨JobRunLog.id⟩

structure Tables where
  db : Database
  logs : Table JobRunLog
  log_fk : ∀ l ∈ logs.rows, ∃ r ∈ db.runs.rows, r.id = l.runId

namespace Tables

/-- The tables after a commit that changed the jobs, the edges or the runs; `ondelete="CASCADE"`
takes the logs of a deleted run along. -/
def commit (t : Tables) (db' : Database) : Tables where
  db := db'
  logs := t.logs.deleteWhere fun l => (db'.runs.get l.runId).isNone
  log_fk := by
    intro l hl
    obtain ⟨-, hrun⟩ := Table.mem_rows_deleteWhere.mp hl
    rw [Option.isNone_eq_false_iff, Option.isSome_iff_exists] at hrun
    obtain ⟨r, hr⟩ := hrun
    exact ⟨r, Table.mem_of_get hr, Table.key_of_get hr⟩

def logRow (runId : RunId) (entry : Time × String × String) (i : ℕ) : JobRunLog :=
  ⟨i, runId, entry.1, entry.2.1, entry.2.2⟩

def insertLogs (logs : Table JobRunLog) (runId : RunId) (entries : List (Time × String × String)) :
    Table JobRunLog :=
  entries.foldl (fun logs entry => logs.insert (logRow runId entry) fun _ => rfl) logs

theorem mem_insertLogs {logs : Table JobRunLog} {runId : RunId}
    {entries : List (Time × String × String)} {l : JobRunLog}
    (h : l ∈ (insertLogs logs runId entries).rows) : l ∈ logs.rows ∨ l.runId = runId := by
  induction entries generalizing logs with
  | nil => exact Or.inl h
  | cons e es ih =>
    rcases ih h with hl | hl
    · rcases Table.mem_rows_insert.mp hl with hl | rfl
      · exact Or.inl hl
      · exact Or.inr rfl
    · exact Or.inr hl

/-- `append_logs` of the store; the insert raises when the run is gone. -/
def appendLogs (t : Tables) (runId : RunId) (entries : List (Time × String × String)) : Tables :=
  if h : ∃ r ∈ t.db.runs.rows, r.id = runId then
    { t with
      logs := insertLogs t.logs runId entries
      log_fk := by
        intro l hl
        rcases mem_insertLogs hl with hl | hl
        · exact t.log_fk l hl
        · rw [hl]
          exact h }
  else t

end Tables

/-! ### Responses -/

structure JobOut where
  id : JobId
  ownerUserId : Option UserId
  name : String
  description : Option String
  category : Option String
  taskType : TaskType
  taskSpec : List (String × Json)
  scheduleType : ScheduleType
  scheduleExpr : Option String
  timezone : String
  enabled : Bool
  maxRetries : ℤ
  retryBackoffSec : ℤ
  timeoutSec : ℤ
  dependsOn : List JobId
  createdAt : Time
  updatedAt : Time

def jobOut (job : Job) (dependsOn : List JobId) : JobOut where
  id := job.id
  ownerUserId := job.ownerUserId
  name := job.name
  description := job.description
  category := job.category
  taskType := job.taskType
  taskSpec := job.taskSpec
  scheduleType := job.scheduleType
  scheduleExpr := job.scheduleExpr
  timezone := job.timezone
  enabled := job.enabled
  maxRetries := job.maxRetries
  retryBackoffSec := job.retryBackoffSec
  timeoutSec := job.timeoutSec
  dependsOn := dependsOn
  createdAt := job.createdAt
  updatedAt := job.updatedAt

def jobToDict (db : Database) (job : Job) : JobOut := jobOut job (db.dependencyIds job.id)

/- JobRunOut and JobRunLogOut have all columns of their rows. -/
inductive Response where
  | job (out : JobOut)
  | jobs (outs : List JobOut)
  | recent (outs : List (JobOut × Option JobRun))
  | noContent
  | run (out : JobRun)
  | latestRun (out : Option JobRun)
  | runs (outs : List JobRun)
  | logs (outs : List JobRunLog)
  | refused (statusCode : ℕ) (reason : Refusal)
  | httpException (statusCode : ℕ) (detail : String)
  | internalServerError

def notFound (what : String) : Response := .httpException 404 (what ++ " not found")

/- The two exceptions of SQLAlchemy are not caught by the routes. -/
def refuse (crudStatus : ℕ) : Refusal → Response
  | .unprocessable errors => .refused 422 (.unprocessable errors)
  | .notFound => notFound "job"
  | .crud .multipleResultsFound | .crud .integrityError => .internalServerError
  | .crud error => .refused crudStatus (.crud error)

def statusValue : RunStatus → String
  | .pending => "pending"
  | .queued => "queued"
  | .running => "running"
  | .succeeded => "succeeded"
  | .failed => "failed"
  | .timedOut => "timed_out"
  | .canceled => "canceled"

/-! ### Queries -/

-- limit(limit).offset(offset)
def page {α : Type} (limit offset : ℕ) (rows : List α) : List α := (rows.drop offset).take limit

-- order_by(created_at.desc())
def latestFirst {α : Type} (createdAt : α → Time) (rows : List α) : List α :=
  rows.mergeSort fun a b => decide (createdAt b ≤ createdAt a)

def hasStatus (statusFilter : Option String) (r : JobRun) : Bool :=
  statusFilter.all fun s => decide (statusValue r.status = s)

def jobRuns (db : Database) (jobId : JobId) : List JobRun :=
  db.runs.rows.filter fun r => decide (r.jobId = jobId)

def latestRun (db : Database) (jobId : JobId) : Option JobRun :=
  (latestFirst JobRun.createdAt (jobRuns db jobId)).head?

def ownedJobs (db : Database) (ownerUserId : UserId) : List Job :=
  db.jobs.rows.filter fun j => decide (j.ownerUserId = some ownerUserId)

-- select(JobRun).join(Job).where(Job.owner_user_id == owner)
def ownedRuns (db : Database) (ownerUserId : UserId) : List JobRun :=
  db.runs.rows.filter fun r => (Api.getJob db r.jobId ownerUserId).isSome

-- order_by(ts, id)
def logsOfRun (t : Tables) (runId : RunId) : List JobRunLog :=
  (t.logs.rows.filter fun l => decide (l.runId = runId)).mergeSort fun a b =>
    decide (a.ts < b.ts) || (decide (a.ts = b.ts) && decide (a.id ≤ b.id))

/-! ### Requests -/

inductive Request where
  | createJob (payload : JobRecord) (now : Time)
  | listJobs (enabled : Option Bool) (limit offset : ℕ)
  | listRecentJobs (limit : ℕ)
  | getJob (jobId : JobId)
  | updateJob (jobId : JobId) (payload : JobUpdate) (now : Time)
  | deleteJob (jobId : JobId)
  | triggerJob (jobId : JobId) (now : Time)
  | getLatestJobRun (jobId : JobId)
  | getLatestJobRunLogs (jobId : JobId) (limit offset : ℕ)
  | listJobRuns (jobId : JobId) (statusFilter : Option String) (limit offset : ℕ)
  | listRuns (statusFilter : Option String) (limit offset : ℕ)
  | getRun (runId : RunId)
  | getRunLogs (runId : RunId) (limit offset : ℕ)
  | retryRun (runId : RunId) (now : Time)
  | cancelRun (runId : RunId) (now : Time)

/- What a request leaves behind: the tables, the runs that are published after the commit and
the run whose cancellation is announced. -/
structure Reply where
  tables : Tables
  published : List RunId := []
  canceled : Option RunId := none
  response : Response

def answer (t : Tables) (response : Response) : Reply := { tables := t, response := response }

def jobResponse (db : Database) (jobId : JobId) : Response :=
  match db.jobs.get jobId with
  | some job => .job (jobToDict db job)
  | none => .internalServerError

def runResponse (db : Database) (runId : RunId) : Response :=
  match db.runs.get runId with
  | some run => .run run
  | none => .internalServerError

/- The routes of crud.py. -/
def edit (isValid : String → Bool) (t : Tables) (crudStatus : ℕ) (req : Crud.Request)
    (respond : Database → Response) : Reply :=
  match Crud.handle isValid t.db req with
  | .ok db' => answer (t.commit db') (respond db')
  | .error reason => answer t (refuse crudStatus reason)

/- The routes that read one job first. -/
def withJob (t : Tables) (jobId : JobId) (ownerUserId : UserId) (respond : Job → Response) :
    Reply :=
  match Api.getJob t.db jobId ownerUserId with
  | none => answer t (notFound "job")
  | some job => answer t (respond job)

def withRun (t : Tables) (runId : RunId) (ownerUserId : UserId) (respond : JobRun → Response) :
    Reply :=
  match t.db.ownedRun runId ownerUserId with
  | none => answer t (notFound "run")
  | some run => answer t (respond run)

def triggerJob (t : Tables) (ownerUserId : UserId) (jobId : JobId) (now : Time) : Reply :=
  match Api.triggerJob t.db ownerUserId jobId now with
  | .ok (st, i) =>
    { tables := t.commit st.1, published := st.2, response := runResponse st.1 i }
  | .error (.httpException statusCode detail) => answer t (.httpException statusCode detail)
  | .error _ => answer t .internalServerError

def retryRun (t : Tables) (ownerUserId : UserId) (runId : RunId) (now : Time) : Reply :=
  match t.db.ownedRun runId ownerUserId with
  | none => answer t (notFound "run")
  | some run =>
    if run.status.terminal then
      match t.db.createRun run.jobId .retry none (run.attempt + 1) .queued now with
      | none => answer t .internalServerError
      | some (db', i) =>
        { tables := t.commit db', published := [i], response := runResponse db' i }
    else answer t (.httpException 409
      ("run is not in a terminal state (current: " ++ statusValue run.status ++ ")"))

def cancelRun (t : Tables) (ownerUserId : UserId) (runId : RunId) (now : Time) : Reply :=
  match t.db.ownedRun runId ownerUserId with
  | none => answer t (notFound "run")
  | some run =>
    if run.status.terminal then answer t (.httpException 409
      ("run is already terminal (current: " ++ statusValue run.status ++ ")"))
    else
      match Store.cancelRun t.db runId now with
      | (_, false) => answer t (.httpException 409 "run could not be canceled")
      | (db', true) =>
        { tables := t.commit db'
          canceled := some runId
          response :=
            match db'.ownedRun runId ownerUserId with
            | none => notFound "run"
            | some run => .run run }

def handle (isValid : String → Bool) (t : Tables) (ownerUserId : UserId) : Request → Reply
  | .createJob payload now =>
    edit isValid t 409 (.create ownerUserId payload now) fun db' => jobResponse db' t.db.jobs.next
  | .listJobs enabled limit offset =>
    answer t (.jobs ((page limit offset ((ownedJobs t.db ownerUserId).filter fun j =>
      enabled.all fun e => decide (j.enabled = e))).map (jobToDict t.db)))
  | .listRecentJobs limit =>
    answer t (.recent (((latestFirst Job.createdAt (ownedJobs t.db ownerUserId)).take limit).map
      fun job => (jobToDict t.db job, latestRun t.db job.id)))
  | .getJob jobId => withJob t jobId ownerUserId fun job => .job (jobToDict t.db job)
  | .updateJob jobId payload now =>
    edit isValid t 400 (.update ownerUserId jobId payload now) fun db' => jobResponse db' jobId
  | .deleteJob jobId => edit isValid t 400 (.delete ownerUserId jobId) fun _ => .noContent
  | .triggerJob jobId now => triggerJob t ownerUserId jobId now
  | .getLatestJobRun jobId =>
    withJob t jobId ownerUserId fun _ => .latestRun (latestRun t.db jobId)
  | .getLatestJobRunLogs jobId limit offset =>
    withJob t jobId ownerUserId fun _ =>
      match latestRun t.db jobId with
      | none => .logs []
      | some latest => .logs (page limit offset (logsOfRun t latest.id))
  | .listJobRuns jobId statusFilter limit offset =>
    withJob t jobId ownerUserId fun _ => .runs (page limit offset
      (latestFirst JobRun.createdAt ((jobRuns t.db jobId).filter (hasStatus statusFilter))))
  | .listRuns statusFilter limit offset =>
    answer t (.runs (page limit offset
      (latestFirst JobRun.createdAt ((ownedRuns t.db ownerUserId).filter (hasStatus statusFilter)))))
  | .getRun runId => withRun t runId ownerUserId .run
  | .getRunLogs runId limit offset =>
    withRun t runId ownerUserId fun _ => .logs (page limit offset (logsOfRun t runId))
  | .retryRun runId now => retryRun t ownerUserId runId now
  | .cancelRun runId now => cancelRun t ownerUserId runId now

end JobScheduler.Routes
