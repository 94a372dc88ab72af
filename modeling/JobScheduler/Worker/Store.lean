import JobScheduler.Common.Queries
import JobScheduler.Library.Positions

/-!
# Database operations of the worker (backend/worker/store.py)

Every function is one committed transaction: it maps the committed tables before
to the committed tables after, together with the value it returns. `_now()` is the
argument `now`. A function that inserts a row has no result when the insert raises
`IntegrityError`; `session_scope` then rolls back, so the tables stay as they were.
-/

namespace JobScheduler.Store
open Library Database

/-! ### Conditional updates of one run -/

-- update(JobRun).where(JobRun.id == i, JobRun.status.in_(g)): the rows it selects.
def selects (i : RunId) (g : RunStatus → Bool) (r : JobRun) : Bool :=
  decide (r.id = i) && g r.status

-- result.rowcount > 0
def matchesRun (db : Database) (i : RunId) (g : RunStatus → Bool) : Bool :=
  db.runs.rows.any (selects i g)

def updateRun (db : Database) (i : RunId) (g : RunStatus → Bool) (f : JobRun → JobRun)
    (hf : KeepsRun f) : Database :=
  db.updateRuns (selects i g) f hf

theorem matchesRun_iff {db : Database} {i : RunId} {g : RunStatus → Bool} :
    matchesRun db i g = true ↔ ∃ r, db.runs.get i = some r ∧ g r.status = true := by
  simp only [matchesRun, List.any_eq_true, selects, Bool.and_eq_true, decide_eq_true_eq,
    Table.get_eq_some, key_jobRun, and_assoc]

theorem get_updateRun (db : Database) (i : RunId) (g : RunStatus → Bool)
    (f : JobRun → JobRun) (hf : KeepsRun f) (k : RunId) :
    (updateRun db i g f hf).runs.get k =
      if k = i then (db.runs.get k).map (fun r => if g r.status then f r else r)
      else db.runs.get k := by
  rw [updateRun, get_updateRuns]
  cases hg : db.runs.get k with
  | none => simp
  | some r =>
    have hk : r.id = k := Table.key_of_get hg
    by_cases hki : k = i
    · simp [Table.rewrite, selects, hk, hki]
    · simp [Table.rewrite, selects, hk, hki]

@[simp] theorem jobs_updateRun (db : Database) (i : RunId) (g : RunStatus → Bool)
    (f : JobRun → JobRun) (hf : KeepsRun f) : (updateRun db i g f hf).jobs = db.jobs := rfl

/-! ### claim_run -/

-- `allowed`: list(_ACTIVE) if allow_running else [PENDING, QUEUED]
def claimable (allowRunning : Bool) (s : RunStatus) : Bool :=
  if allowRunning then s.active else decide (s = .pending) || decide (s = .queued)

def claimedRow (workerId : WorkerId) (now : Time) (r : JobRun) : JobRun :=
  { r with status := .running, startedAt := some now, workerId := some workerId }

theorem claimedRow_keeps (workerId : WorkerId) (now : Time) :
    KeepsRun (claimedRow workerId now) :=
  fun _ => ⟨rfl, rfl, rfl⟩

/- The dictionary claim_run returns. -/
structure Claimed where
  runId : RunId
  jobId : JobId
  attempt : ℤ
  taskType : TaskType
  taskSpec : List (String × Json)
  timeoutSec : ℤ
  maxRetries : ℤ
  retryBackoffSec : ℤ
  jobName : String

def claimedOf (run : JobRun) (job : Job) : Claimed where
  runId := run.id
  jobId := run.jobId
  attempt := run.attempt
  taskType := job.taskType
  taskSpec := job.taskSpec
  timeoutSec := job.timeoutSec
  maxRetries := job.maxRetries
  retryBackoffSec := job.retryBackoffSec
  jobName := job.name

def claimRun (db : Database) (runId : RunId) (workerId : WorkerId) (allowRunning : Bool)
    (now : Time) : Database × Option Claimed :=
  if matchesRun db runId (claimable allowRunning) then
    let db' := updateRun db runId (claimable allowRunning) (claimedRow workerId now)
      (claimedRow_keeps workerId now)
    match db'.runs.get runId with
    | none => (db', none)
    | some run =>
      match db'.jobs.get run.jobId with
      | none => (db', none)
      | some job => (db', some (claimedOf run job))
  else (db, none)

theorem claimRun_refused {db : Database} {i : RunId} {allow : Bool} (w : WorkerId) (now : Time)
    (h : ∀ r, db.runs.get i = some r → claimable allow r.status = false) :
    claimRun db i w allow now = (db, none) := by
  have hm : matchesRun db i (claimable allow) = false := by
    rw [← Bool.not_eq_true, matchesRun_iff]
    intro hex
    obtain ⟨r, hr, hg⟩ := hex
    rw [h r hr] at hg
    cases hg
  simp [claimRun, hm]

/- The foreign key of job_runs makes the `job is None` branch unreachable: a claim
whose UPDATE hits the row returns the record. -/
theorem claimRun_granted {db : Database} {i : RunId} {allow : Bool} {r : JobRun}
    (w : WorkerId) (now : Time) (hr : db.runs.get i = some r)
    (hg : claimable allow r.status = true) :
    ∃ job, db.jobs.get r.jobId = some job ∧
      claimRun db i w allow now =
        (updateRun db i (claimable allow) (claimedRow w now) (claimedRow_keeps w now),
          some (claimedOf (claimedRow w now r) job)) := by
  have hm : matchesRun db i (claimable allow) = true := matchesRun_iff.mpr ⟨r, hr, hg⟩
  obtain ⟨job, hjob, hid⟩ := db.run_fk r (Table.mem_of_get hr)
  have hget : db.jobs.get r.jobId = some job := Table.get_eq_some.mpr ⟨hjob, hid⟩
  refine ⟨job, hget, ?_⟩
  have hrow : (updateRun db i (claimable allow) (claimedRow w now)
      (claimedRow_keeps w now)).runs.get i = some (claimedRow w now r) := by
    rw [get_updateRun, if_pos rfl, hr, Option.map_some, if_pos hg]
  simp [claimRun, hm, hrow, claimedRow, hget]

theorem claimRun_cases (db : Database) (i : RunId) (w : WorkerId) (allow : Bool) (now : Time) :
    (claimRun db i w allow now = (db, none) ∧
      ∀ r, db.runs.get i = some r → claimable allow r.status = false) ∨
    ∃ r job, db.runs.get i = some r ∧ claimable allow r.status = true ∧
      db.jobs.get r.jobId = some job ∧
      claimRun db i w allow now =
        (updateRun db i (claimable allow) (claimedRow w now) (claimedRow_keeps w now),
          some (claimedOf (claimedRow w now r) job)) := by
  by_cases h : ∃ r, db.runs.get i = some r ∧ claimable allow r.status = true
  · obtain ⟨r, hr, hg⟩ := h
    obtain ⟨job, hjob, heq⟩ := claimRun_granted w now hr hg
    exact Or.inr ⟨r, job, hr, hg, hjob, heq⟩
  · have hno : ∀ r, db.runs.get i = some r → claimable allow r.status = false := by
      intro r hr
      cases hc : claimable allow r.status with
      | false => rfl
      | true => exact absurd ⟨r, hr, hc⟩ h
    exact Or.inl ⟨claimRun_refused w now hno, hno⟩

/-! ### cancel_run, is_run_canceled, finish_run -/

def canceledRow (now : Time) (r : JobRun) : JobRun :=
  { r with status := .canceled, finishedAt := some now, error := some "canceled by user" }

theorem canceledRow_keeps (now : Time) : KeepsRun (canceledRow now) := fun _ => ⟨rfl, rfl, rfl⟩

def cancelRun (db : Database) (runId : RunId) (now : Time) : Database × Bool :=
  (updateRun db runId RunStatus.active (canceledRow now) (canceledRow_keeps now),
    matchesRun db runId RunStatus.active)

def isRunCanceled (db : Database) (runId : RunId) : Bool :=
  matchesRun db runId fun s => decide (s = .canceled)

-- The WHERE clause of finish_run only excludes CANCELED rows.
def finishable (s : RunStatus) : Bool := decide (s ≠ .canceled)

def finishedRow (status : RunStatus) (exitCode : Option ℤ) (result : Option Json)
    (error : Option String) (now : Time) (r : JobRun) : JobRun :=
  { r with
    status := status
    finishedAt := some now
    exitCode := exitCode
    result := result
    error := error }

theorem finishedRow_keeps (status : RunStatus) (exitCode : Option ℤ) (result : Option Json)
    (error : Option String) (now : Time) :
    KeepsRun (finishedRow status exitCode result error now) :=
  fun _ => ⟨rfl, rfl, rfl⟩

def finishRun (db : Database) (runId : RunId) (status : RunStatus) (exitCode : Option ℤ)
    (result : Option Json) (error : Option String) (now : Time) : Database :=
  updateRun db runId finishable (finishedRow status exitCode result error now)
    (finishedRow_keeps status exitCode result error now)

theorem isRunCanceled_iff {db : Database} {i : RunId} :
    isRunCanceled db i = true ↔ ∃ r, db.runs.get i = some r ∧ r.status = .canceled := by
  rw [isRunCanceled, matchesRun_iff]
  simp

theorem get_finishRun {db : Database} {i : RunId} {r : JobRun} (status : RunStatus)
    (exitCode : Option ℤ) (result : Option Json) (error : Option String) (now : Time)
    (hr : db.runs.get i = some r) (hne : r.status ≠ .canceled) :
    (finishRun db i status exitCode result error now).runs.get i =
      some (finishedRow status exitCode result error now r) := by
  rw [finishRun, get_updateRun, if_pos rfl, hr, Option.map_some, if_pos]
  simpa [finishable] using hne

/-! ### New runs and promotions -/

def retryRow (jobId : JobId) (attempt : ℤ) (now : Time) : NewRun where
  jobId := jobId
  triggerType := .retry
  status := .queued
  attempt := attempt
  createdAt := now

def createRetryRun (db : Database) (jobId : JobId) (attempt : ℤ) (now : Time) :
    Option (Database × RunId) :=
  db.insertRun (retryRow jobId attempt now)

def dependencyRow (jobId : JobId) (now : Time) : NewRun where
  jobId := jobId
  triggerType := .dependency
  status := .queued
  createdAt := now

def promotedRow (r : JobRun) : JobRun := { r with status := .queued }

theorem promotedRow_keeps : KeepsRun promotedRow := fun _ => ⟨rfl, rfl, rfl⟩

-- pending.status = QUEUED; session.flush(): an UPDATE by primary key only.
def promoteRun (db : Database) (runId : RunId) : Database :=
  updateRun db runId (fun _ => true) promotedRow promotedRow_keeps

def createDependencyRun (db : Database) (jobId : JobId) (now : Time) :
    Option (Database × Option RunId) :=
  if db.hasDispatchedRun jobId then some (db, none)
  else match db.pendingRun jobId with
    | some pending => some (promoteRun db pending.id, some pending.id)
    | none => (db.insertRun (dependencyRow jobId now)).map fun (db', i) => (db', some i)

/- Where a transaction of create_dependency_run stands after one of its SELECTs: it has found
no dispatched run, the oldest pending run, or neither. -/
inductive Promotion where
  | checked (jobId : JobId)
  | read (jobId : JobId) (pending : RunId)
  | absent (jobId : JobId)
  deriving DecidableEq, Repr

def Promotion.jobId : Promotion → JobId
  | checked j | read j _ | absent j => j

/- What a statement of create_dependency_run leads to. -/
inductive Reply where
  | goesOn (x : Promotion)
  | returned (result : Option RunId)
  | raised

-- if _has_dispatched_run(session, job_id): return None
def firstStatement (db : Database) (jobId : JobId) : Reply :=
  if db.hasDispatchedRun jobId then .returned none else .goesOn (.checked jobId)

/- The statements after it, each on the tables that are committed when it begins. The UPDATE
and the INSERT are taken at their commit: until then nobody sees the row, and whoever writes it
waits. An UPDATE that hits no row makes the flush raise. -/
def nextStatement (db : Database) (now : Time) : Promotion → Database × Reply
  | .checked jobId =>
    match db.pendingRun jobId with
    | some pending => (db, .goesOn (.read jobId pending.id))
    | none => (db, .goesOn (.absent jobId))
  | .read _ pending =>
    if (db.runs.get pending).isSome then (promoteRun db pending, .returned (some pending))
    else (db, .raised)
  | .absent jobId =>
    match db.insertRun (dependencyRow jobId now) with
    | none => (db, .raised)
    | some (db', i) => (db', .returned (some i))

-- One iteration of the loop of dependents_ready.
def readyNow (db : Database) (depJobId : JobId) : Bool :=
  match db.jobs.get depJobId with
  | none => false
  | some job =>
    if !job.enabled && (db.pendingRun depJobId).isNone then false
    else if db.hasDispatchedRun depJobId then false
    else db.allDependenciesSucceeded depJobId

def dependentsReady (db : Database) (jobId : JobId) : List JobId :=
  (db.dependentIds jobId).eraseDups.filter (readyNow db)

theorem createDependencyRun_cases {db db' : Database} {j : JobId} {now : Time}
    {res : Option RunId} (h : createDependencyRun db j now = some (db', res)) :
    (db.HasRun j RunStatus.dispatched ∧ db' = db ∧ res = none) ∨
    (¬ db.HasRun j RunStatus.dispatched ∧ ∃ p, db.pendingRun j = some p ∧
      db' = promoteRun db p.id ∧ res = some p.id) ∨
    (¬ db.HasRun j RunStatus.active ∧
      ∃ ha : db.Admits (dependencyRow j now),
        db' = db.addRun (dependencyRow j now) ha ∧ res = some db.runs.next) := by
  unfold createDependencyRun at h
  split at h
  · rename_i hd
    cases h
    exact Or.inl ⟨hasDispatchedRun_iff.mp hd, rfl, rfl⟩
  · rename_i hd
    have hnd : ¬ db.HasRun j RunStatus.dispatched := fun hr => hd (hasDispatchedRun_iff.mpr hr)
    split at h
    · rename_i p hp
      cases h
      exact Or.inr (Or.inl ⟨hnd, p, hp, rfl, rfl⟩)
    · rename_i hp
      obtain ⟨⟨db1, i⟩, hi, heq⟩ := Option.map_eq_some_iff.mp h
      cases heq
      obtain ⟨rfl, ha, rfl⟩ := insertRun_eq_some hi
      refine Or.inr (Or.inr ⟨?_, ha, rfl, rfl⟩)
      have hnp : ¬ db.HasRun j fun s => decide (s = .pending) := oldestRun_eq_none.mp hp
      intro hact
      obtain ⟨r, hr, hj, hs⟩ := hact
      have hcases : r.status = .pending ∨ r.status.dispatched = true :=
        (RunStatus.active_iff r.status).mp (by simpa using hs)
      rcases hcases with hs | hs
      · exact hnp ⟨r, hr, hj, by simp [hs]⟩
      · exact hnd ⟨r, hr, hj, hs⟩

/- The insert of create_dependency_run meets an existing job. -/
theorem insertRun_dependencyRow_ne_none {db : Database} {j : JobId}
    (hj : (db.jobs.get j).isSome = true) (now : Time) :
    db.insertRun (dependencyRow j now) ≠ none := by
  have ha : db.Admits (dependencyRow j now) :=
    ⟨isSome_get_jobs.mp hj, fun _ _ _ _ => rfl⟩
  rw [insertRun, dif_pos ha]
  exact fun h => by cases h

theorem createDependencyRun_ne_none {db : Database} {j : JobId}
    (hj : (db.jobs.get j).isSome = true) (now : Time) :
    createDependencyRun db j now ≠ none := by
  unfold createDependencyRun
  split
  · exact fun h => by cases h
  · split
    · exact fun h => by cases h
    · rw [Option.map_eq_none_iff.ne]
      exact insertRun_dependencyRow_ne_none hj now

theorem readyNow_iff {db : Database} {k : JobId} :
    readyNow db k = true ↔ ∃ job, db.jobs.get k = some job ∧
      (job.enabled = true ∨ db.HasRun k fun s => decide (s = .pending)) ∧
      ¬ db.HasRun k RunStatus.dispatched ∧ db.DependenciesSucceeded k := by
  unfold readyNow
  cases hjob : db.jobs.get k with
  | none => simp
  | some job =>
    have hpend : (db.pendingRun k).isNone = true ↔ ¬ db.HasRun k fun s => decide (s = .pending) := by
      rw [Option.isNone_iff_eq_none]
      exact oldestRun_eq_none
    simp only [Option.some.injEq, exists_eq_left', ← allDependenciesSucceeded_iff,
      ← hasDispatchedRun_iff]
    by_cases hp : db.HasRun k fun s => decide (s = .pending)
    · have hf : (db.pendingRun k).isNone = false := by
        rw [← Bool.not_eq_true, hpend, not_not]
        exact hp
      simp [hf, hp]
    · simp only [hpend.mpr hp, hp, Bool.and_true, or_false]
      cases job.enabled <;> simp

theorem mem_dependentsReady {db : Database} {j k : JobId} :
    k ∈ dependentsReady db j ↔
      db.DependsOn k j ∧ ∃ job, db.jobs.get k = some job ∧
        (job.enabled = true ∨ db.HasRun k fun s => decide (s = .pending)) ∧
        ¬ db.HasRun k RunStatus.dispatched ∧ db.DependenciesSucceeded k := by
  unfold dependentsReady
  rw [List.mem_filter, List.mem_eraseDups, mem_dependentIds, readyNow_iff]

/- dict.fromkeys: no dependent is listed twice. -/
theorem nodup_dependentsReady (db : Database) (j : JobId) : (dependentsReady db j).Nodup :=
  (Positions.nodup_eraseDups _).filter _

end JobScheduler.Store
