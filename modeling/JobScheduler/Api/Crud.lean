import JobScheduler.Api.Trigger
import JobScheduler.Common.Schemas

/-!
# Creating, editing and deleting jobs (backend/api/crud.py and its routes)

Every function runs in one session that is committed at its end, so a function that raises
has no resulting tables. Requests come one after another here.
-/

namespace JobScheduler.Crud
open Library Database Schemas Api

/- What the functions of crud.py raise: CrudError with its text, CrudError with the text of a
ValidationError (given by its errors), and two exceptions of SQLAlchemy. -/
inductive CrudError where
  | crudError (detail : String)
  | validationError (errors : List FieldError)
  | multipleResultsFound
  | integrityError
  deriving DecidableEq, Repr

/- A request body of PUT: each field is unset, null or a value. The bounds of JobUpdate are
those of JobBase, which checks the merged record. -/
structure JobUpdate where
  description : Option (Option String) := none
  category : Option (Option String) := none
  taskType : Option (Option String) := none
  taskSpec : Option (Option (List (String × Json))) := none
  scheduleType : Option (Option String) := none
  scheduleExpr : Option (Option String) := none
  timezone : Option (Option String) := none
  enabled : Option (Option Bool) := none
  maxRetries : Option (Option ℤ) := none
  retryBackoffSec : Option (Option ℤ) := none
  timeoutSec : Option (Option ℤ) := none
  dependsOn : Option (Option (List ℤ)) := none

-- sorted(ids) as Python prints it
def listRepr (ids : List ℤ) : String :=
  "[" ++ String.intercalate ", " ((ids.mergeSort fun a b => decide (a ≤ b)).map toString) ++ "]"

/- The jobs of the owner among the given ids. -/
def found (db : Database) (ownerUserId : Option UserId) (dependsOn : List ℤ) : List ℤ :=
  (db.jobs.rows.filter fun j => decide ((j.id : ℤ) ∈ dependsOn) &&
    decide (j.ownerUserId = ownerUserId)).map fun j => (j.id : ℤ)

def validateDependencies (db : Database) (jobId : Option JobId) (ownerUserId : Option UserId)
    (dependsOn : List ℤ) : Except CrudError Unit :=
  if jobId.any fun i => decide ((i : ℤ) ∈ dependsOn) then
    .error (.crudError "a job cannot depend on itself")
  else
    let missing := (dependsOn.filter fun d =>
      !decide (d ∈ found db ownerUserId dependsOn)).eraseDups
    if missing.isEmpty then .ok ()
    else .error (.crudError ("unknown dependency job ids: " ++ listRepr missing))

def insertEdge (j : JobId) (db : Database) (d : ℤ) : Except CrudError Database :=
  match db.insertDependency j d.toNat with
  | some db' => .ok db'
  | none => .error .integrityError

def setDependencies (db : Database) (j : JobId) (dependsOn : List ℤ) :
    Except CrudError Database :=
  dependsOn.eraseDups.foldlM (insertEdge j) (db.deleteDependencies j)

def jobRow (payload : JobBase) (ownerUserId : UserId) (now : Time) (i : JobId) : Job where
  id := i
  ownerUserId := some ownerUserId
  name := payload.name
  description := payload.description
  category := payload.category
  taskType := payload.taskType
  taskSpec := payload.taskSpec
  scheduleType := payload.scheduleType
  scheduleExpr := payload.scheduleExpr
  timezone := payload.timezone
  enabled := payload.enabled
  maxRetries := payload.maxRetries
  retryBackoffSec := payload.retryBackoffSec
  timeoutSec := payload.timeoutSec
  createdAt := now
  updatedAt := now

/- The jobs of the owner with this name; scalar_one_or_none raises for more than one. -/
def checkName (db : Database) (name : String) (ownerUserId : UserId) : Except CrudError Unit :=
  match db.jobs.rows.filter fun j =>
    decide (j.ownerUserId = some ownerUserId) && decide (j.name = name) with
  | [] => .ok ()
  | [_] => .error (.crudError s!"job name '{name}' already exists")
  | _ => .error .multipleResultsFound

def createJob (db : Database) (payload : JobBase) (ownerUserId : UserId) (now : Time) :
    Except CrudError (Database × JobId) := do
  checkName db payload.name ownerUserId
  validateDependencies db none (some ownerUserId) payload.dependsOn
  let db' := db.addJob (jobRow payload ownerUserId now) fun _ => rfl
  let db'' ← setDependencies db' db.jobs.next payload.dependsOn
  return (db'', db.jobs.next)

/- The stored fields with the set fields of the patch over them. -/
def JobUpdate.merge (patch : JobUpdate) (job : Job) : JobRecord where
  name := some job.name
  description := patch.description.getD job.description
  category := patch.category.getD job.category
  taskType := patch.taskType.getD (some job.taskType.value)
  taskSpec := patch.taskSpec.getD (some job.taskSpec)
  scheduleType := patch.scheduleType.getD (some job.scheduleType.value)
  scheduleExpr := patch.scheduleExpr.getD job.scheduleExpr
  timezone := patch.timezone.getD (some job.timezone)
  enabled := patch.enabled.getD (some job.enabled)
  maxRetries := patch.maxRetries.getD (some job.maxRetries)
  retryBackoffSec := patch.retryBackoffSec.getD (some job.retryBackoffSec)
  timeoutSec := patch.timeoutSec.getD (some job.timeoutSec)
  dependsOn := some ((patch.dependsOn.getD none).getD [])

/- The setattr loop. A field that is not in the patch is set to its stored value, which is
what the merged record holds for it. -/
def patchedJob (merged : JobBase) (now : Time) (j : Job) : Job :=
  { j with
    description := merged.description
    category := merged.category
    taskType := merged.taskType
    taskSpec := merged.taskSpec
    scheduleType := merged.scheduleType
    scheduleExpr := merged.scheduleExpr
    timezone := merged.timezone
    enabled := merged.enabled
    maxRetries := merged.maxRetries
    retryBackoffSec := merged.retryBackoffSec
    timeoutSec := merged.timeoutSec
    updatedAt := now }

def updateJob (isValid : String → Bool) (db : Database) (job : Job) (payload : JobUpdate)
    (now : Time) : Except CrudError Database := do
  let dependsOn := payload.dependsOn.getD none
  match dependsOn with
  | some ds => validateDependencies db (some job.id) job.ownerUserId ds
  | none => .ok ()
  let merged ← ((payload.merge job).validate isValid).mapError .validationError
  let db' := db.updateJobs (fun j => decide (j.id = job.id)) (patchedJob merged now) fun _ => rfl
  match dependsOn with
  | some ds => setDependencies db' job.id ds
  | none => return db'

/-! ### The routes -/

inductive Request where
  | create (ownerUserId : UserId) (payload : JobRecord) (now : Time)
  | update (ownerUserId : UserId) (jobId : JobId) (payload : JobUpdate) (now : Time)
  | delete (ownerUserId : UserId) (jobId : JobId)

/- Why a request leaves the tables as they are. -/
inductive Refusal where
  | unprocessable (errors : List FieldError)
  | notFound
  | crud (error : CrudError)
  deriving DecidableEq, Repr

def handle (isValid : String → Bool) (db : Database) : Request → Except Refusal Database
  | .create ownerUserId payload now => do
    let payload ← (payload.validate isValid).mapError .unprocessable
    let (db', _) ← (createJob db payload ownerUserId now).mapError .crud
    return db'
  | .update ownerUserId jobId payload now =>
    match getJob db jobId ownerUserId with
    | none => .error .notFound
    | some job => (updateJob isValid db job payload now).mapError .crud
  | .delete ownerUserId jobId =>
    match getJob db jobId ownerUserId with
    | none => .error .notFound
    | some job => .ok (db.deleteJob job.id)

/- A request that is refused is rolled back. -/
def step (isValid : String → Bool) (db : Database) (req : Request) : Option Database :=
  match handle isValid db req with
  | .ok db' => some db'
  | .error _ => some db

end JobScheduler.Crud
