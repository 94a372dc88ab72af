import JobScheduler.Api.Dag
import JobScheduler.Library.Positions

/-!
# create_job and update_job statement by statement

Both functions are cut at their SQL statements, which run at READ COMMITTED. update_job
validates the row it has read with the patch over it; the UPDATE that follows names only the
columns whose value the patch changes and has no version check, so the other columns are
those of whichever transaction wrote them last. A job that was only inserted is invisible to
the others, so its INSERT and the statements after it are taken together with the commit.
-/

namespace JobScheduler.Edits
open Library Positions Database Schemas Api Crud

/-! ### One update -/

/-- An update_job whose merged record has been accepted: the row as it was read, the patch,
and what JobBase made of the two. -/
structure Edit (isValid : String → Bool) where
  job : Job
  payload : JobUpdate
  record : JobBase
  validated : (payload.merge job).validate isValid = .ok record

structure NewJob (isValid : String → Bool) where
  ownerUserId : UserId
  payload : JobRecord
  record : JobBase
  validated : payload.validate isValid = .ok record

variable {isValid : String → Bool}

namespace Edit

/- A column of the UPDATE: an attribute that was set to the value it had is not in it. -/
def column {α : Type} [DecidableEq α] (read new stored : α) : α :=
  if new = read then stored else new

/- task_spec is compared as Python compares the two dictionaries. -/
def setsTaskSpec (e : Edit isValid) : Bool :=
  e.payload.taskSpec.isSome && !(Json.object e.record.taskSpec).same (.object e.job.taskSpec)

/-- The row that the UPDATE leaves in place of the stored one. -/
def writtenRow (e : Edit isValid) (now : Time) (row : Job) : Job :=
  { row with
    description := column e.job.description e.record.description row.description
    category := column e.job.category e.record.category row.category
    taskType := column e.job.taskType e.record.taskType row.taskType
    taskSpec := if e.setsTaskSpec then e.record.taskSpec else row.taskSpec
    scheduleType := column e.job.scheduleType e.record.scheduleType row.scheduleType
    scheduleExpr := column e.job.scheduleExpr e.record.scheduleExpr row.scheduleExpr
    timezone := column e.job.timezone e.record.timezone row.timezone
    enabled := column e.job.enabled e.record.enabled row.enabled
    maxRetries := column e.job.maxRetries e.record.maxRetries row.maxRetries
    retryBackoffSec := column e.job.retryBackoffSec e.record.retryBackoffSec row.retryBackoffSec
    timeoutSec := column e.job.timeoutSec e.record.timeoutSec row.timeoutSec
    updatedAt := now }

/- Without a changed column there is no UPDATE. -/
def changes (e : Edit isValid) : Bool :=
  e.setsTaskSpec || !(decide (e.record.description = e.job.description) &&
    decide (e.record.category = e.job.category) &&
    decide (e.record.taskType = e.job.taskType) &&
    decide (e.record.scheduleType = e.job.scheduleType) &&
    decide (e.record.scheduleExpr = e.job.scheduleExpr) &&
    decide (e.record.timezone = e.job.timezone) &&
    decide (e.record.enabled = e.job.enabled) &&
    decide (e.record.maxRetries = e.job.maxRetries) &&
    decide (e.record.retryBackoffSec = e.job.retryBackoffSec) &&
    decide (e.record.timeoutSec = e.job.timeoutSec))

def write (e : Edit isValid) (now : Time) (db : Database) : Database :=
  if e.changes then
    db.updateJobs (fun j => decide (j.id = e.job.id)) (e.writtenRow now) fun _ => rfl
  else db

def dependsOn (e : Edit isValid) : Option (List ℤ) := e.payload.dependsOn.getD none

end Edit

/- DELETE FROM job_dependencies WHERE id IN ids -/
def deleteEdges (db : Database) (ids : List ℕ) : Database where
  jobs := db.jobs
  dependencies := db.dependencies.deleteWhere fun d => ids.contains d.id
  runs := db.runs
  dependency_fk := fun d hd => db.dependency_fk d (Table.mem_rows_deleteWhere.mp hd).1
  run_fk := db.run_fk
  uq_job_dependency := fun d hd e he =>
    db.uq_job_dependency d (Table.mem_rows_deleteWhere.mp hd).1 e
      (Table.mem_rows_deleteWhere.mp he).1
  uq_job_run_tick := db.uq_job_run_tick

def edgesOf (db : Database) (j : JobId) : List ℕ :=
  (db.dependencies.rows.filter fun d => decide (d.jobId = j)).map JobDependency.id

/-! ### Sessions -/

/- Each state is named for the statement that has been executed last. A session in `flushed`
or `cleared` has written the row of its job, and in `cleared` it has deleted the edges that
the DELETE found; both stay locked until it ends. -/
inductive Session (isValid : String → Bool) where
  | creating (new : NewJob isValid)
  | named (new : NewJob isValid)
  | checked (new : NewJob isValid)
  | updating (ownerUserId : UserId) (jobId : JobId) (payload : JobUpdate)
  | read (job : Job) (payload : JobUpdate)
  | merged (edit : Edit isValid)
  | flushed (edit : Edit isValid) (now : Time)
  | cleared (edit : Edit isValid) (dependsOn : List ℤ) (now : Time) (edges : List ℕ)
  | done
  | refused (reason : Refusal)

structure State (isValid : String → Bool) where
  db : Database
  sessions : List (Session isValid) := []

def start (isValid : String → Bool) (db : Database) : State isValid := { db := db }

inductive Label where
  | createJob (ownerUserId : UserId) (payload : JobRecord)
  | updateJob (ownerUserId : UserId) (jobId : JobId) (payload : JobUpdate)
  | statement (session : ℕ) (now : Time)

/- The edit a session has written to the row and not committed. -/
def Session.edit? : Session isValid → Option (Edit isValid × Time)
  | .flushed e now | .cleared e _ now _ => some (e, now)
  | _ => none

def Session.locks (x : Session isValid) (j : JobId) : Bool :=
  x.edit?.any fun (e, _) => e.changes && decide (e.job.id = j)

def Session.locksEdge (d : ℕ) : Session isValid → Bool
  | .cleared _ _ _ edges => edges.contains d
  | _ => false

namespace State

def locked (s : State isValid) (j : JobId) : Bool := s.sessions.any fun x => x.locks j

def lockedEdge (s : State isValid) (d : ℕ) : Bool := s.sessions.any fun x => x.locksEdge d

def set (s : State isValid) (i : ℕ) (x : Session isValid) : State isValid :=
  { s with sessions := s.sessions.set i x }

def opened (s : State isValid) (x : Session isValid) : State isValid :=
  { s with sessions := s.sessions ++ [x] }

end State

/- FastAPI validates the body before the route runs. -/
def begin (isValid : String → Bool) (ownerUserId : UserId) (payload : JobRecord) :
    Session isValid :=
  match h : payload.validate isValid with
  | .ok record => .creating ⟨ownerUserId, payload, record, h⟩
  | .error errors => .refused (.unprocessable errors)

/- The check of the merged record, in memory. -/
def merge (job : Job) (payload : JobUpdate) : Session isValid :=
  match h : (payload.merge job).validate isValid with
  | .ok record => .merged ⟨job, payload, record, h⟩
  | .error errors => .refused (.crud (.validationError errors))

def checkDependencies (db : Database) (job : Job) (payload : JobUpdate) : Except CrudError Unit :=
  match payload.dependsOn.getD none with
  | some ds => validateDependencies db (some job.id) job.ownerUserId ds
  | none => .ok ()

/- The next statement of a session, with the work in memory up to the one after it. -/
def next (s : State isValid) (now : Time) : Session isValid → Option (Database × Session isValid)
  | .creating new =>
    match checkName s.db new.record.name new.ownerUserId with
    | .ok _ => some (s.db, .named new)
    | .error e => some (s.db, .refused (.crud e))
  | .named new =>
    match validateDependencies s.db none (some new.ownerUserId) new.record.dependsOn with
    | .ok _ => some (s.db, .checked new)
    | .error e => some (s.db, .refused (.crud e))
  | .checked new =>
    match setDependencies (s.db.addJob (jobRow new.record new.ownerUserId now) fun _ => rfl)
        s.db.jobs.next new.record.dependsOn with
    | .ok db' => some (db', .done)
    | .error e => some (s.db, .refused (.crud e))
  | .updating ownerUserId jobId payload =>
    match getJob s.db jobId ownerUserId with
    | none => some (s.db, .refused .notFound)
    | some job => some (s.db, .read job payload)
  | .read job payload =>
    match checkDependencies s.db job payload with
    | .ok _ => some (s.db, merge job payload)
    | .error e => some (s.db, .refused (.crud e))
  | .merged e =>
    if e.changes && s.locked e.job.id then none else some (s.db, .flushed e now)
  | .flushed e written =>
    match e.dependsOn with
    | none => some (e.write written s.db, .done)
    | some ds =>
      if (edgesOf s.db e.job.id).any s.lockedEdge then none
      else some (s.db, .cleared e ds written (edgesOf s.db e.job.id))
  | .cleared e ds written edges =>
    match ds.eraseDups.foldlM (insertEdge e.job.id) (deleteEdges (e.write written s.db) edges) with
    | .ok db' => some (db', .done)
    | .error err => some (s.db, .refused (.crud err))
  | .done | .refused _ => none

def step (s : State isValid) : Label → Option (State isValid)
  | .createJob ownerUserId payload => some (s.opened (begin isValid ownerUserId payload))
  | .updateJob ownerUserId jobId payload => some (s.opened (.updating ownerUserId jobId payload))
  | .statement i now =>
    (s.sessions[i]?).bind fun x => (next s now x).map fun (db', y) => { s with db := db' }.set i y

/-! ### The cross-field validators -/

/- The fields of a stored job as the validators of JobBase see them. -/
def baseOf (job : Job) : JobBase where
  name := job.name
  description := job.description
  category := job.category
  taskType := job.taskType
  taskSpec := job.taskSpec
  scheduleType := job.scheduleType
  scheduleExpr := job.scheduleExpr
  timezone := job.timezone
  enabled := job.enabled
  maxRetries := job.maxRetries
  retryBackoffSec := job.retryBackoffSec
  timeoutSec := job.timeoutSec
  dependsOn := []

/-- schedule_expr is valid for schedule_type, and task_spec has the field that task_type
requires. -/
def CrossValid (isValid : String → Bool) (job : Job) : Prop :=
  (baseOf job).validateScheduleExpr isValid = .ok () ∧ (baseOf job).validateTaskSpec = .ok ()

def AllCrossValid (isValid : String → Bool) (db : Database) : Prop :=
  ∀ job ∈ db.jobs.rows, CrossValid isValid job

theorem crossValid_jobRow (new : NewJob isValid) (now : Time) (i : JobId) :
    CrossValid isValid (jobRow new.record new.ownerUserId now i) := by
  obtain ⟨-, hschedule, hspec⟩ := JobRecord.validate_eq_ok new.validated
  constructor
  · rw [← hschedule]
    exact JobBase.validateScheduleExpr_congr rfl rfl
  · rw [← hspec]
    exact JobBase.validateTaskSpec_congr rfl fun _ => rfl

namespace Edit

def setsTaskType (e : Edit isValid) : Bool := decide (e.record.taskType ≠ e.job.taskType)

def setsScheduleType (e : Edit isValid) : Bool :=
  decide (e.record.scheduleType ≠ e.job.scheduleType)

def setsScheduleExpr (e : Edit isValid) : Bool :=
  decide (e.record.scheduleExpr ≠ e.job.scheduleExpr)

/-- Where the UPDATE writes one column of a pair that is validated together, the other one
is still as it was read. -/
structure Fits (e : Edit isValid) (row : Job) : Prop where
  scheduleExpr : e.setsScheduleType = true → e.setsScheduleExpr = false →
    row.scheduleExpr = e.job.scheduleExpr
  scheduleType : e.setsScheduleExpr = true → e.setsScheduleType = false →
    row.scheduleType = e.job.scheduleType
  taskSpec : e.setsTaskType = true → e.setsTaskSpec = false →
    (Json.object row.taskSpec).same (.object e.job.taskSpec) = true
  taskType : e.setsTaskSpec = true → e.setsTaskType = false → row.taskType = e.job.taskType

instance (e : Edit isValid) (row : Job) : Decidable (e.Fits row) :=
  decidable_of_iff
    ((e.setsScheduleType = true → e.setsScheduleExpr = false →
        row.scheduleExpr = e.job.scheduleExpr) ∧
      (e.setsScheduleExpr = true → e.setsScheduleType = false →
        row.scheduleType = e.job.scheduleType) ∧
      (e.setsTaskType = true → e.setsTaskSpec = false →
        (Json.object row.taskSpec).same (.object e.job.taskSpec) = true) ∧
      (e.setsTaskSpec = true → e.setsTaskType = false → row.taskType = e.job.taskType))
    ⟨fun ⟨hexpr, htype, hspec, htask⟩ => ⟨hexpr, htype, hspec, htask⟩,
      fun h => ⟨h.scheduleExpr, h.scheduleType, h.taskSpec, h.taskType⟩⟩

theorem column_eq {α : Type} [DecidableEq α] {read new stored : α}
    (h : new = read → stored = read) : column read new stored = new := by
  unfold column
  split
  · rename_i heq
    rw [h heq, heq]
  · rfl

theorem column_of_eq {α : Type} [DecidableEq α] {read new stored : α} (h : new = read) :
    column read new stored = stored := if_pos h

/- A specification that is not written holds what the validated one holds. -/
theorem specGet_of_not_setsTaskSpec {e : Edit isValid} (h : e.setsTaskSpec = false)
    (key : String) : (specGet e.record.taskSpec key).any Json.truthy =
      (specGet e.job.taskSpec key).any Json.truthy := by
  obtain ⟨hchecks, -, -⟩ := JobRecord.validate_eq_ok e.validated
  have hspec : e.payload.taskSpec.getD (some e.job.taskSpec) = some e.record.taskSpec :=
    hchecks.taskSpec
  unfold setsTaskSpec at h
  cases hset : e.payload.taskSpec with
  | none =>
    rw [hset] at hspec
    rw [Option.some.inj hspec]
  | some v =>
    rw [hset] at h
    exact specGet_of_same key (by simpa using h)

theorem schedule_writtenRow {e : Edit isValid} {row : Job} (now : Time)
    (hrow : (baseOf row).validateScheduleExpr isValid = .ok ()) (hfits : e.Fits row) :
    (baseOf (e.writtenRow now row)).validateScheduleExpr isValid = .ok () := by
  obtain ⟨-, hschedule, -⟩ := JobRecord.validate_eq_ok e.validated
  by_cases hnone : e.setsScheduleType = false ∧ e.setsScheduleExpr = false
  · have htype : e.record.scheduleType = e.job.scheduleType := by
      simpa [setsScheduleType] using hnone.1
    have hexpr : e.record.scheduleExpr = e.job.scheduleExpr := by
      simpa [setsScheduleExpr] using hnone.2
    rw [← hrow]
    exact JobBase.validateScheduleExpr_congr (column_of_eq htype) (column_of_eq hexpr)
  · rw [← hschedule]
    refine JobBase.validateScheduleExpr_congr (column_eq fun heq => ?_) (column_eq fun heq => ?_)
    · have htype : e.setsScheduleType = false := by simp [setsScheduleType, heq]
      refine hfits.scheduleType ?_ htype
      cases hexpr : e.setsScheduleExpr with
      | false => exact absurd ⟨htype, hexpr⟩ hnone
      | true => rfl
    · have hexpr : e.setsScheduleExpr = false := by simp [setsScheduleExpr, heq]
      refine hfits.scheduleExpr ?_ hexpr
      cases htype : e.setsScheduleType with
      | false => exact absurd ⟨htype, hexpr⟩ hnone
      | true => rfl

theorem taskSpec_writtenRow {e : Edit isValid} {row : Job} (now : Time)
    (hrow : (baseOf row).validateTaskSpec = .ok ()) (hfits : e.Fits row) :
    (baseOf (e.writtenRow now row)).validateTaskSpec = .ok () := by
  obtain ⟨-, -, hspec⟩ := JobRecord.validate_eq_ok e.validated
  cases hs : e.setsTaskSpec with
  | true =>
    have hwritten : (e.writtenRow now row).taskSpec = e.record.taskSpec := if_pos hs
    rw [← hspec]
    refine JobBase.validateTaskSpec_congr (column_eq fun heq => ?_) fun key => ?_
    · exact hfits.taskType hs (by simp [setsTaskType, heq])
    · rw [show (baseOf (e.writtenRow now row)).taskSpec = _ from hwritten]
  | false =>
    have hstored : (e.writtenRow now row).taskSpec = row.taskSpec :=
      if_neg (by rw [hs]; exact Bool.false_ne_true)
    cases ht : e.setsTaskType with
    | false =>
      have htype : e.record.taskType = e.job.taskType := by simpa [setsTaskType] using ht
      rw [← hrow]
      refine JobBase.validateTaskSpec_congr (column_of_eq htype) fun key => ?_
      rw [show (baseOf (e.writtenRow now row)).taskSpec = _ from hstored]
      rfl
    | true =>
      rw [← hspec]
      refine JobBase.validateTaskSpec_congr (column_eq fun heq => ?_) fun key => ?_
      · simp [setsTaskType, heq] at ht
      · rw [show (baseOf (e.writtenRow now row)).taskSpec = _ from hstored,
          specGet_of_not_setsTaskSpec hs, specGet_of_same key (hfits.taskSpec ht hs)]

theorem crossValid_writtenRow {e : Edit isValid} {row : Job} (now : Time)
    (hrow : CrossValid isValid row) (hfits : e.Fits row) :
    CrossValid isValid (e.writtenRow now row) :=
  ⟨schedule_writtenRow now hrow.1 hfits, taskSpec_writtenRow now hrow.2 hfits⟩

/- Without a changed column no pair is written in part. -/
theorem fits_of_not_changes {e : Edit isValid} (h : e.changes = false) (row : Job) :
    e.Fits row := by
  simp only [changes, Bool.or_eq_false_iff, Bool.not_eq_false', Bool.and_eq_true,
    decide_eq_true_eq] at h
  obtain ⟨hspec, hrest⟩ := h
  have htaskType : e.setsTaskType = false := by simp [setsTaskType, hrest]
  have hscheduleType : e.setsScheduleType = false := by simp [setsScheduleType, hrest]
  have hscheduleExpr : e.setsScheduleExpr = false := by simp [setsScheduleExpr, hrest]
  constructor
  · intro hset
    rw [hscheduleType] at hset
    cases hset
  · intro hset
    rw [hscheduleExpr] at hset
    cases hset
  · intro hset
    rw [htaskType] at hset
    cases hset
  · intro hset
    rw [hspec] at hset
    cases hset

end Edit

/-! ### What a step does to the jobs -/

theorem Edit.mem_rows_write {e : Edit isValid} {now : Time} {db : Database} {row : Job}
    (h : row ∈ (e.write now db).jobs.rows) : row ∈ db.jobs.rows ∨ (e.changes = true ∧
      ∃ old ∈ db.jobs.rows, old.id = e.job.id ∧ row = e.writtenRow now old) := by
  unfold Edit.write at h
  split at h
  · rename_i hchanges
    obtain ⟨old, hold, heq⟩ := mem_jobs_updateJobs.mp h
    unfold Table.rewrite at heq
    split at heq
    · rename_i hid
      exact Or.inr ⟨hchanges, old, hold, of_decide_eq_true hid, heq.symm⟩
    · rw [← heq]
      exact Or.inl hold
  · exact Or.inl h

/- The job whose row a session has read. -/
def Session.row? : Session isValid → Option JobId
  | .read job _ => some job.id
  | .merged e | .flushed e _ | .cleared e _ _ _ => some e.job.id
  | _ => none

theorem Session.row?_of_edit? {x : Session isValid} {e : Edit isValid} {now : Time}
    (h : x.edit? = some (e, now)) : x.row? = some e.job.id := by
  cases x <;> cases h <;> rfl

theorem Session.locks_iff {x : Session isValid} {j : JobId} : x.locks j = true ↔
    ∃ e now, x.edit? = some (e, now) ∧ e.changes = true ∧ e.job.id = j := by
  unfold Session.locks
  rw [Option.any_eq_true]
  simp

/-- The steps as the jobs see them: a session that goes on without a commit keeps the row it
has read and what it has written, or lets go of both. -/
inductive Trans (s : State isValid) : Label → State isValid → Prop where
  | opened (l : Label) (x : Session isValid) : x.row? = none → Trans s l (s.opened x)
  | moved (i : ℕ) (now : Time) (x y : Session isValid) : s.sessions[i]? = some x →
      y.row? = none ∨ y.row? = x.row? → y.edit? = none ∨ y.edit? = x.edit? →
      Trans s (.statement i now) (s.set i y)
  | read (i : ℕ) (now : Time) (x : Session isValid) (job : Job) (payload : JobUpdate) :
      s.sessions[i]? = some x → job ∈ s.db.jobs.rows →
      Trans s (.statement i now) (s.set i (.read job payload))
  | flushed (i : ℕ) (now : Time) (e : Edit isValid) : s.sessions[i]? = some (.merged e) →
      (e.changes = true → s.locked e.job.id = false) →
      Trans s (.statement i now) (s.set i (.flushed e now))
  | created (i : ℕ) (now : Time) (x : Session isValid) (new : NewJob isValid) (db' : Database) :
      s.sessions[i]? = some x →
      db'.jobs = s.db.jobs.insert (jobRow new.record new.ownerUserId now) (fun _ => rfl) →
      Trans s (.statement i now) ({ s with db := db' }.set i .done)
  | committed (i : ℕ) (now : Time) (x : Session isValid) (e : Edit isValid) (written : Time)
      (db' : Database) : s.sessions[i]? = some x → x.edit? = some (e, written) →
      db'.jobs = (e.write written s.db).jobs →
      Trans s (.statement i now) ({ s with db := db' }.set i .done)

theorem begin_row? (ownerUserId : UserId) (payload : JobRecord) :
    (begin isValid ownerUserId payload).row? = none := by
  unfold begin
  split <;> rfl

theorem merge_cases (job : Job) (payload : JobUpdate) :
    ((merge job payload : Session isValid).row? = none ∨
      (merge job payload : Session isValid).row? = some job.id) ∧
    (merge job payload : Session isValid).edit? = none := by
  unfold merge
  split
  · exact ⟨Or.inr rfl, rfl⟩
  · exact ⟨Or.inl rfl, rfl⟩

theorem trans_of_step {s t : State isValid} {l : Label} (h : step s l = some t) : Trans s l t := by
  cases l with
  | createJob ownerUserId payload =>
    cases h
    exact .opened _ _ (begin_row? ownerUserId payload)
  | updateJob ownerUserId jobId payload =>
    cases h
    exact .opened _ _ rfl
  | statement i now =>
    obtain ⟨x, hx, h⟩ := Option.bind_eq_some_iff.mp h
    obtain ⟨⟨db', y⟩, hn, rfl⟩ := Option.map_eq_some_iff.mp h
    -- a session without a row, in particular one that was refused
    have hfree : ∀ y : Session isValid, y.row? = none → y.edit? = none →
        Trans s (.statement i now) (s.set i y) :=
      fun y hrow hedit => .moved i now x y hx (Or.inl hrow) (Or.inl hedit)
    cases x with
    | creating new =>
      simp only [next] at hn
      split at hn <;> cases hn
      · exact hfree _ rfl rfl
      · exact hfree _ rfl rfl
    | named new =>
      simp only [next] at hn
      split at hn <;> cases hn
      · exact hfree _ rfl rfl
      · exact hfree _ rfl rfl
    | checked new =>
      simp only [next] at hn
      split at hn
      · rename_i hset
        cases hn
        exact .created i now _ new _ hx (foldlM_insertEdge_frame hset).1
      · cases hn
        exact hfree _ rfl rfl
    | updating ownerUserId jobId payload =>
      simp only [next] at hn
      split at hn
      · cases hn
        exact hfree _ rfl rfl
      · rename_i job hget
        cases hn
        have hmem : job ∈ s.db.jobs.rows :=
          Table.mem_of_get (Option.eq_some_of_filter_eq_some hget)
        exact .read i now _ job payload hx hmem
    | read job payload =>
      simp only [next] at hn
      split at hn <;> cases hn
      · obtain ⟨hrow, hedit⟩ := @merge_cases isValid job payload
        exact .moved i now _ _ hx hrow (Or.inl hedit)
      · exact hfree _ rfl rfl
    | merged e =>
      simp only [next] at hn
      split at hn
      · cases hn
      · rename_i hlock
        cases hn
        refine .flushed i now e hx fun hchanges => ?_
        rw [hchanges, Bool.true_and, Bool.not_eq_true] at hlock
        exact hlock
    | flushed e written =>
      simp only [next] at hn
      split at hn
      · cases hn
        exact .committed i now _ e written _ hx rfl rfl
      · split at hn
        · cases hn
        · cases hn
          exact .moved i now _ _ hx (Or.inr rfl) (Or.inr rfl)
    | cleared e ds written edges =>
      simp only [next] at hn
      split at hn
      · rename_i hfold
        cases hn
        have hjobs := (foldlM_insertEdge_frame hfold).1
        exact .committed i now _ e written _ hx rfl hjobs
      · cases hn
        exact hfree _ rfl rfl
    | done => cases hn
    | refused reason => cases hn

/-! ### What holds between the statements -/

structure Inv (s : State isValid) : Prop where
  stored : AllCrossValid isValid s.db
  known : ∀ (i : ℕ) x j, s.sessions[i]? = some x → x.row? = some j → j < s.db.jobs.next
  fits : ∀ (i : ℕ) x e now, s.sessions[i]? = some x → x.edit? = some (e, now) →
    ∀ row ∈ s.db.jobs.rows, row.id = e.job.id → e.Fits row
  alone : ∀ (i k : ℕ) x y j, s.sessions[i]? = some x → s.sessions[k]? = some y →
    x.locks j = true → y.locks j = true → i = k

/-- The statement is not an UPDATE, or the row it finds fits what its session has read. -/
def Current (s : State isValid) : Label → Prop
  | .statement i _ =>
    match s.sessions[i]? with
    | some (.merged e) => ∀ row ∈ s.db.jobs.rows, row.id = e.job.id → e.Fits row
    | _ => True
  | _ => True

instance (s : State isValid) (l : Label) : Decidable (Current s l) := by
  unfold Current
  split
  · split <;> infer_instance
  · exact isTrue trivial

section
variable {s t : State isValid} {l : Label}

/- Where the row of a session comes from. -/
theorem Trans.row_inv (h : Trans s l t) {i : ℕ} {y : Session isValid} {j : JobId}
    (hy : t.sessions[i]? = some y) (hj : y.row? = some j) :
    (∃ x, s.sessions[i]? = some x ∧ x.row? = some j) ∨ ∃ job ∈ s.db.jobs.rows, job.id = j := by
  cases h with
  | opened l x hx =>
    rcases concat_cases hy with hy | ⟨-, rfl⟩
    · exact Or.inl ⟨y, hy, hj⟩
    · rw [hx] at hj
      cases hj
  | moved k now x z hx hrow hedit =>
    rcases set_cases hy with ⟨rfl, rfl⟩ | ⟨-, hy⟩
    · rcases hrow with hnone | hsame
      · rw [hnone] at hj
        cases hj
      · exact Or.inl ⟨x, hx, hsame.symm.trans hj⟩
    · exact Or.inl ⟨y, hy, hj⟩
  | read k now x job payload hx hjob =>
    rcases set_cases hy with ⟨-, rfl⟩ | ⟨-, hy⟩
    · exact Or.inr ⟨job, hjob, Option.some.inj hj⟩
    · exact Or.inl ⟨y, hy, hj⟩
  | flushed k now e hx hlock =>
    rcases set_cases hy with ⟨rfl, rfl⟩ | ⟨-, hy⟩
    · exact Or.inl ⟨_, hx, hj⟩
    · exact Or.inl ⟨y, hy, hj⟩
  | created k now x new db' hx hdb | committed k now x e w db' hx he hdb =>
    rcases set_cases hy with ⟨-, rfl⟩ | ⟨-, hy⟩
    · cases hj
    · exact Or.inl ⟨y, hy, hj⟩

/- Where the written row of a session comes from. -/
theorem Trans.edit_inv (h : Trans s l t) {i : ℕ} {y : Session isValid} {e : Edit isValid}
    {now : Time} (hy : t.sessions[i]? = some y) (he : y.edit? = some (e, now)) :
    (∃ x, s.sessions[i]? = some x ∧ x.edit? = some (e, now)) ∨
    (l = .statement i now ∧ s.sessions[i]? = some (.merged e) ∧ t.db = s.db ∧
      (e.changes = true → s.locked e.job.id = false)) := by
  cases h with
  | opened l x hx =>
    rcases concat_cases hy with hy | ⟨-, rfl⟩
    · exact Or.inl ⟨y, hy, he⟩
    · rw [Session.row?_of_edit? he] at hx
      cases hx
  | moved k now x z hx hrow hedit =>
    rcases set_cases hy with ⟨rfl, rfl⟩ | ⟨-, hy⟩
    · rcases hedit with hnone | hsame
      · rw [hnone] at he
        cases he
      · exact Or.inl ⟨x, hx, hsame.symm.trans he⟩
    · exact Or.inl ⟨y, hy, he⟩
  | flushed k now e' hx hlock =>
    rcases set_cases hy with ⟨rfl, rfl⟩ | ⟨-, hy⟩
    · cases he
      exact Or.inr ⟨rfl, hx, rfl, hlock⟩
    · exact Or.inl ⟨y, hy, he⟩
  | read k now x job payload hx hjob | created k now x new db' hx hdb
  | committed k now x e w db' hx he' hdb =>
    rcases set_cases hy with ⟨-, rfl⟩ | ⟨-, hy⟩
    · cases he
    · exact Or.inl ⟨y, hy, he⟩

/- Where a stored row comes from. -/
theorem Trans.stored_inv (h : Trans s l t) {row : Job} (hrow : row ∈ t.db.jobs.rows) :
    row ∈ s.db.jobs.rows ∨
    (∃ (new : NewJob isValid) (now : Time), row = jobRow new.record new.ownerUserId now
      s.db.jobs.next) ∨
    ∃ (k : ℕ) (x : Session isValid) (e : Edit isValid) (now : Time) (old : Job),
      s.sessions[k]? = some x ∧ x.edit? = some (e, now) ∧ e.changes = true ∧
      t.sessions[k]? = some .done ∧ old ∈ s.db.jobs.rows ∧ old.id = e.job.id ∧
      row = e.writtenRow now old := by
  cases h with
  | created i now x new db' hx hdb =>
    have hrow' : row ∈ db'.jobs.rows := hrow
    rw [hdb] at hrow'
    rcases Table.mem_rows_insert.mp hrow' with hold | hnew
    · exact Or.inl hold
    · exact Or.inr (Or.inl ⟨new, now, hnew⟩)
  | committed i now x e w db' hx he hdb =>
    have hrow' : row ∈ db'.jobs.rows := hrow
    rw [hdb] at hrow'
    rcases Edit.mem_rows_write hrow' with hold | ⟨hchanges, old, hold, hid, heq⟩
    · exact Or.inl hold
    · exact Or.inr (Or.inr ⟨i, x, e, w, old, hx, he, hchanges, getElem?_set_of_some hx, hold, hid,
        heq⟩)
  | opened l x hx | moved i now x y hx hrow hedit | read i now x job payload hx hjob
  | flushed i now e hx hlock => exact Or.inl hrow

theorem Trans.next_le (h : Trans s l t) : s.db.jobs.next ≤ t.db.jobs.next := by
  cases h with
  | created i now x new db' hx hdb =>
    show s.db.jobs.next ≤ db'.jobs.next
    rw [hdb]
    exact Nat.le_succ _
  | committed i now x e w db' hx he hdb =>
    show s.db.jobs.next ≤ db'.jobs.next
    rw [hdb]
    unfold Edit.write
    split <;> exact Nat.le_refl _
  | opened l x hx | moved i now x y hx hrow hedit | read i now x job payload hx hjob
  | flushed i now e hx hlock => exact Nat.le_refl _

theorem Inv.known_step (hinv : Inv s) (h : Trans s l t) (i : ℕ) (y : Session isValid) (j : JobId)
    (hy : t.sessions[i]? = some y) (hj : y.row? = some j) : j < t.db.jobs.next := by
  refine Nat.lt_of_lt_of_le ?_ h.next_le
  rcases h.row_inv hy hj with ⟨x, hx, hxj⟩ | ⟨job, hjob, rfl⟩
  · exact hinv.known i x j hx hxj
  · exact s.db.jobs.fresh job hjob

theorem Inv.stored_step (hinv : Inv s) (h : Trans s l t) : AllCrossValid isValid t.db := by
  intro row hrow
  rcases h.stored_inv hrow with hold | ⟨new, now, rfl⟩ |
    ⟨k, x, e, now, old, hx, he, -, -, hold, hid, rfl⟩
  · exact hinv.stored row hold
  · exact crossValid_jobRow new now _
  · have hfits : e.Fits old := hinv.fits k x e now hx he old hold hid
    exact Edit.crossValid_writtenRow now (hinv.stored old hold) hfits

/- No other session writes a row that is locked, so a row that fits goes on to fit. -/
theorem Inv.fits_step (hinv : Inv s) (h : Trans s l t) (hcur : Current s l) (i : ℕ)
    (y : Session isValid) (e : Edit isValid) (now : Time) (hy : t.sessions[i]? = some y)
    (he : y.edit? = some (e, now)) (row : Job) (hrow : row ∈ t.db.jobs.rows)
    (hid : row.id = e.job.id) : e.Fits row := by
  rcases h.edit_inv hy he with ⟨x, hx, hxe⟩ | ⟨rfl, hx, hdb, -⟩
  · rcases h.stored_inv hrow with hold | ⟨new, at', rfl⟩ |
      ⟨k, z, e', w, old, hz, hze, hchanges, hdone, hold, hold_id, rfl⟩
    · exact hinv.fits i x e now hx hxe row hold hid
    · have hlt := hinv.known i x e.job.id hx (Session.row?_of_edit? hxe)
      rw [← hid] at hlt
      exact absurd hlt (Nat.lt_irrefl _)
    · cases hc : e.changes with
      | false => exact Edit.fits_of_not_changes hc _
      | true =>
        have hxlocks : x.locks e.job.id = true := Session.locks_iff.mpr ⟨e, now, hxe, hc, rfl⟩
        have hzlocks : z.locks e.job.id = true :=
          Session.locks_iff.mpr ⟨e', w, hze, hchanges, hold_id.symm.trans hid⟩
        have hik := hinv.alone i k x z e.job.id hx hz hxlocks hzlocks
        rw [hik, hdone] at hy
        cases hy
        cases he
  · rw [hdb] at hrow
    simp only [Current, hx] at hcur
    exact hcur row hrow hid

theorem Inv.alone_step (hinv : Inv s) (h : Trans s l t) (i k : ℕ) (x y : Session isValid)
    (j : JobId) (hx : t.sessions[i]? = some x) (hy : t.sessions[k]? = some y)
    (hxj : x.locks j = true) (hyj : y.locks j = true) : i = k := by
  obtain ⟨e, now, he, hchanges, hid⟩ := Session.locks_iff.mp hxj
  obtain ⟨e', now', he', hchanges', hid'⟩ := Session.locks_iff.mp hyj
  -- a session that takes the lock finds nobody who holds it
  have hnew : ∀ {m : ℕ} {z : Session isValid} {d : Edit isValid} {w : Time},
      s.sessions[m]? = some z → z.edit? = some (d, w) → d.changes = true → d.job.id = j →
      s.locked j = false → False := by
    intro m z d w hz hd hdc hdj hfree
    have hany : s.locked j = true := List.any_eq_true.mpr
      ⟨z, List.mem_of_getElem? hz, Session.locks_iff.mpr ⟨d, w, hd, hdc, hdj⟩⟩
    rw [hfree] at hany
    cases hany
  rcases h.edit_inv hx he with ⟨x', hx', hxe⟩ | ⟨hl, -, -, hfree⟩ <;>
    rcases h.edit_inv hy he' with ⟨y', hy', hye⟩ | ⟨hl', -, -, hfree'⟩
  · exact hinv.alone i k x' y' j hx' hy' (Session.locks_iff.mpr ⟨e, now, hxe, hchanges, hid⟩)
      (Session.locks_iff.mpr ⟨e', now', hye, hchanges', hid'⟩)
  · exact (hnew hx' hxe hchanges hid (hid' ▸ hfree' hchanges')).elim
  · exact (hnew hy' hye hchanges' hid' (hid ▸ hfree hchanges)).elim
  · rw [hl] at hl'
    cases hl'
    rfl

theorem Inv.step (hinv : Inv s) (hcur : Current s l) (h : Edits.step s l = some t) : Inv t where
  stored := hinv.stored_step (trans_of_step h)
  known := hinv.known_step (trans_of_step h)
  fits := hinv.fits_step (trans_of_step h) hcur
  alone := hinv.alone_step (trans_of_step h)

end

theorem inv_start {db : Database} (h : AllCrossValid isValid db) : Inv (start isValid db) where
  stored := h
  known := fun _ _ _ hx => by cases hx
  fits := fun _ _ _ _ hx => by cases hx
  alone := fun _ _ _ _ _ hx => by cases hx

/-! ### Every interleaving -/

/-- In every interleaving of create_job and update_job in which no UPDATE finds the other
column of a pair changed since its session read the row, all stored jobs pass the cross-field
validators after every statement. -/
theorem jobs_stay_valid (isValid : String → Bool) (db : Database) (ls : List Label)
    (hdb : AllCrossValid isValid db) (hcur : Machine.Along step Current (start isValid db) ls) :
    Machine.Visits step (fun s => AllCrossValid isValid s.db) (start isValid db) ls :=
  Machine.visits_of_invariant (fun _ _ _ hinv hc h => hinv.step hc h) (fun _ hinv => hinv.stored)
    (inv_start hdb) hcur

/-! ### Two overlapping requests -/

def everyMinute (e : String) : Bool := decide (e = "* * * * *")

def backupRecord : JobRecord where
  name := some "backup"
  taskType := some "shell"
  taskSpec := some [("command", .string "true")]
  scheduleType := some "interval"
  scheduleExpr := some "60"

def toCron : JobUpdate where
  scheduleType := some (some "cron")
  scheduleExpr := some (some "* * * * *")

def toThirtySeconds : JobUpdate where
  scheduleExpr := some (some "30")

def toFalse : JobUpdate where
  taskSpec := some (some [("command", .string "false")])

/- A job is created, two updates of it read the row before either of them writes. -/
def overlap (first second : JobUpdate) : List Label :=
  [.createJob 0 backupRecord, .statement 0 0, .statement 0 0, .statement 0 0,
    .updateJob 0 0 first, .updateJob 0 0 second, .statement 1 1, .statement 2 1,
    .statement 1 2, .statement 2 2, .statement 1 3, .statement 1 3, .statement 2 4,
    .statement 2 4]

/- The two write different pairs. -/
theorem jobs_stay_valid_overlap :
    AllCrossValid everyMinute emptyDatabase ∧
    (Machine.run step (start everyMinute emptyDatabase) (overlap toCron toFalse)).isSome = true ∧
    Machine.Along step Current (start everyMinute emptyDatabase) (overlap toCron toFalse) ∧
    Machine.Visits step (fun s => AllCrossValid everyMinute s.db)
      (start everyMinute emptyDatabase) (overlap toCron toFalse) := by
  have hempty : AllCrossValid everyMinute emptyDatabase := fun _ h => absurd h List.not_mem_nil
  have hcur : Machine.Along step Current (start everyMinute emptyDatabase)
      (overlap toCron toFalse) := by decide
  exact ⟨hempty, by decide, hcur, jobs_stay_valid everyMinute emptyDatabase _ hempty hcur⟩

/- Both requests are accepted. The second has validated its expression for the interval
schedule that it read. -/
theorem overlap_breaks_schedule : AllCrossValid everyMinute emptyDatabase ∧ ∃ s,
    Machine.run step (start everyMinute emptyDatabase) (overlap toCron toThirtySeconds) = some s ∧
    ∃ job ∈ s.db.jobs.rows, job.scheduleType = .cron ∧ job.scheduleExpr = some "30" ∧
      ¬ CrossValid everyMinute job := by
  have hend : (Machine.run step (start everyMinute emptyDatabase)
      (overlap toCron toThirtySeconds)).any (fun s => s.db.jobs.rows.any fun job =>
        decide (job.scheduleType = .cron) && decide (job.scheduleExpr = some "30")) = true := by
    decide
  obtain ⟨s, hrun, hany⟩ := (Option.any_eq_true _ _).mp hend
  obtain ⟨job, hjob, hcols⟩ := List.any_eq_true.mp hany
  simp only [Bool.and_eq_true, decide_eq_true_eq] at hcols
  refine ⟨fun _ h => absurd h List.not_mem_nil, s, hrun, job, hjob, hcols.1, hcols.2, ?_⟩
  intro hvalid
  obtain ⟨e, he, -, hcron⟩ := JobBase.expr_of_cron hvalid.1 hcols.1
  cases hcols.2.symm.trans he
  exact absurd hcron (by decide)

end JobScheduler.Edits
