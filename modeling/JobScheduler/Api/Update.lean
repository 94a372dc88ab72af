import Mathlib.Logic.Function.Basic
import JobScheduler.Api.Noninterference
import JobScheduler.Common.Columns
import JobScheduler.Common.Session

/-!
# update_job with its dictionaries (backend/api/crud.py)

The record that JobBase checks and the attributes that are written are built one after the
other from the same patch. SQLAlchemy names in the UPDATE only the columns whose value has
changed, as Python compares it. `updateJob` of Crud.lean takes the two as one record; here
they are the two loops of the source, in a session that commits at its end.
-/

namespace JobScheduler.Crud.Update
open Library Database Schemas Tenants

/-! ### Dictionaries -/

section Dictionaries
variable {κ : Type} [DecidableEq κ] {β : κ → Type}

/- for key, value in entries: d[key] = value -/
def assign (d : ∀ k, β k) (entries : List (Σ k, β k)) : ∀ k, β k :=
  entries.foldl (fun d e => Function.update d e.1 e.2) d

def entries (keys : List κ) (value : ∀ k, Option (β k)) : List (Σ k, β k) :=
  keys.filterMap fun k => (value k).map fun v => ⟨k, v⟩

theorem assign_entries (keys : List κ) (value : ∀ k, Option (β k)) (d : ∀ k, β k) (k : κ) :
    assign d (entries keys value) k = if k ∈ keys then (value k).getD (d k) else d k := by
  induction keys generalizing d with
  | nil => rfl
  | cons key keys ih =>
    have hcons : assign d (entries (key :: keys) value) =
        assign (match value key with
          | some v => Function.update d key v
          | none => d) (entries keys value) := by
      unfold assign entries
      cases hv : value key with
      | none => simp [hv]
      | some v => simp [hv]
    rw [hcons, ih]
    by_cases hk : k = key
    · subst hk
      cases hv : value k with
      | none => simp
      | some v => simp
    · have hold : (match value key with
          | some v => Function.update d key v
          | none => d) k = d k := by
        cases value key with
        | none => rfl
        | some v => exact Function.update_of_ne hk v d
      simp only [hold, List.mem_cons, hk, false_or]

end Dictionaries

/-! ### The fields of a patch -/

inductive Key where
  | description
  | category
  | taskType
  | taskSpec
  | scheduleType
  | scheduleExpr
  | timezone
  | enabled
  | maxRetries
  | retryBackoffSec
  | timeoutSec
  deriving DecidableEq, Repr

namespace Key

-- the fields of JobUpdate, depends_on aside
def all : List Key :=
  [description, category, taskType, taskSpec, scheduleType, scheduleExpr, timezone, enabled,
    maxRetries, retryBackoffSec, timeoutSec]

theorem mem_all (k : Key) : k ∈ all := by
  cases k <;> decide

/- None is a value of every attribute. -/
abbrev Value : Key → Type
  | taskSpec => Option (List (String × Json))
  | enabled => Option Bool
  | maxRetries | retryBackoffSec | timeoutSec => Option ℤ
  | _ => Option String

/- The value compares equal to the one that was loaded. -/
def same : (k : Key) → k.Value → k.Value → Bool
  | taskSpec, some new, some old => (Json.object new).same (.object old)
  | taskSpec, none, none => true
  | taskSpec, _, _ => false
  | enabled, new, old => decide (new = old)
  | maxRetries, new, old | retryBackoffSec, new, old | timeoutSec, new, old => decide (new = old)
  | description, new, old | category, new, old | taskType, new, old => decide (new = old)
  | scheduleType, new, old | scheduleExpr, new, old | timezone, new, old => decide (new = old)

/- The column takes the value; the numbers are bounded by JobBase. -/
def fits : (k : Key) → k.Value → Bool
  | description, v => v.all Columns.text
  | category, v => v.all (Columns.varchar 64)
  | taskType, v => v.all (Columns.varchar 32)
  | taskSpec, v => v.all fun spec => !Columns.hasNulFields spec
  | scheduleType, v => v.all (Columns.varchar 16)
  | scheduleExpr, v => v.all (Columns.varchar 255)
  | timezone, v => v.all (Columns.varchar 64)
  | _, _ => true

end Key

abbrev Attributes : Type := ∀ k : Key, k.Value

/- The value of a field that is set. -/
def given (payload : JobUpdate) : (k : Key) → Option k.Value
  | .description => payload.description
  | .category => payload.category
  | .taskType => payload.taskType
  | .taskSpec => payload.taskSpec
  | .scheduleType => payload.scheduleType
  | .scheduleExpr => payload.scheduleExpr
  | .timezone => payload.timezone
  | .enabled => payload.enabled
  | .maxRetries => payload.maxRetries
  | .retryBackoffSec => payload.retryBackoffSec
  | .timeoutSec => payload.timeoutSec

-- payload.model_dump(exclude_unset=True) without depends_on
def data (payload : JobUpdate) : List (Σ k : Key, k.Value) := entries Key.all (given payload)

/- The attributes of a job as it was loaded. -/
def loaded (job : Job) : Attributes
  | .description => job.description
  | .category => job.category
  | .taskType => some job.taskType.value
  | .taskSpec => some job.taskSpec
  | .scheduleType => some job.scheduleType.value
  | .scheduleExpr => job.scheduleExpr
  | .timezone => some job.timezone
  | .enabled => some job.enabled
  | .maxRetries => some job.maxRetries
  | .retryBackoffSec => some job.retryBackoffSec
  | .timeoutSec => some job.timeoutSec

-- JobBase(**merged, depends_on=depends_on or [])
def recordFrom (name : String) (merged : Attributes) (dependsOn : Option (List ℤ)) :
    JobRecord where
  name := some name
  description := merged .description
  category := merged .category
  taskType := merged .taskType
  taskSpec := merged .taskSpec
  scheduleType := merged .scheduleType
  scheduleExpr := merged .scheduleExpr
  timezone := merged .timezone
  enabled := merged .enabled
  maxRetries := merged .maxRetries
  retryBackoffSec := merged .retryBackoffSec
  timeoutSec := merged .timeoutSec
  dependsOn := some (dependsOn.getD [])

/- The columns of a row; none is a null in a column that takes none (or a type that is none
of the enumeration, which JobBase has excluded). -/
def row (attrs : Attributes) (base : Job) : Option Job := do
  let taskType ← (attrs .taskType).bind fun v => taskTypes.find? fun t => decide (t.value = v)
  let taskSpec ← attrs .taskSpec
  let scheduleType ←
    (attrs .scheduleType).bind fun v => scheduleTypes.find? fun t => decide (t.value = v)
  let timezone ← attrs .timezone
  let enabled ← attrs .enabled
  let maxRetries ← attrs .maxRetries
  let retryBackoffSec ← attrs .retryBackoffSec
  let timeoutSec ← attrs .timeoutSec
  return { base with
    description := attrs .description
    category := attrs .category
    taskType, taskSpec, scheduleType
    scheduleExpr := attrs .scheduleExpr
    timezone, enabled, maxRetries, retryBackoffSec, timeoutSec }

/-! ### The session -/

inductive UpdateError where
  | crud (error : CrudError)
  | dataError

/- An exception of a function that does not write. -/
def raising {ε σ α : Type} : Except ε α → EStateM ε σ α
  | .ok a => pure a
  | .error e => throw e

/- The attributes that were set to another value. -/
def changed (payload : JobUpdate) (attrs : Attributes) (job : Job) : List Key :=
  Key.all.filter fun k => (given payload k).isSome && !k.same (attrs k) (loaded job k)

/- A row of the job after the UPDATE. -/
def updatedRow (written : Job) (now : Time) (stored : Job) : Job :=
  { written with id := stored.id, updatedAt := now }

/- session.flush(): an UPDATE of the changed columns, if there are any. -/
def flush (payload : JobUpdate) (attrs : Attributes) (job : Job) (now : Time) :
    EStateM UpdateError Env Unit := do
  let keys := changed payload attrs job
  if keys.isEmpty then return ()
  if !keys.all fun k => k.fits (attrs k) then throw .dataError
  match row (assign (loaded job) (entries keys fun k => some (attrs k))) job with
  | none => throw (.crud .integrityError)
  | some written =>
    modify fun env => { env with
      working := env.working.updateJobs (fun j => decide (j.id = job.id))
        (updatedRow written now) fun _ => rfl }

/- What follows the checks. -/
def replace (attrs : Attributes) (job : Job) (payload : JobUpdate) (now : Time) :
    EStateM UpdateError Env Unit := do
  flush payload attrs job now
  match payload.dependsOn.getD none with
  | some ds =>
    let env ← get
    let db ← raising ((setDependencies env.working job.id ds).mapError .crud)
    set { env with working := db }
  | none => pure ()
  modify Env.commit

def updateJob (isValid : String → Bool) (job : Job) (payload : JobUpdate) (now : Time) :
    EStateM UpdateError Env Unit := do
  let dependsOn := payload.dependsOn.getD none
  match dependsOn with
  | some ds =>
    let env ← get
    raising ((validateDependencies env.working (some job.id) job.ownerUserId ds).mapError .crud)
  | none => pure ()
  let merged := assign (loaded job) (data payload)
  let _ ← raising (((recordFrom job.name merged dependsOn).validate isValid).mapError
    fun errors => .crud (.validationError errors))
  -- setattr(job, key, value)
  let attrs := assign (loaded job) (data payload)
  replace attrs job payload now

/- The request in a session of its own. -/
def request (isValid : String → Bool) (db : Database) (redis : Redis) (job : Job)
    (payload : JobUpdate) (now : Time) : EStateM.Result UpdateError Env Unit :=
  withRollback (updateJob isValid job payload now) (Env.start db redis)

/-! ### What an update is to do -/

/- The stored fields with the patch's set fields over them. -/
def overwritten (job : Job) (payload : JobUpdate) : Attributes :=
  fun k => (given payload k).getD (loaded job k)

def Storable (payload : JobUpdate) : Prop := ∀ k v, given payload k = some v → k.fits v = true

/- A list of dependencies has jobs of the same owner only, and not the job itself. -/
def DependenciesAllowed (db : Database) (job : Job) (payload : JobUpdate) : Prop :=
  ∀ ds, payload.dependsOn = some (some ds) →
    (job.id : ℤ) ∉ ds ∧
      ∀ d ∈ ds, ∃ dep ∈ db.jobs.rows, (dep.id : ℤ) = d ∧ dep.ownerUserId = job.ownerUserId

/- The edges of the job are those of the list, each once. -/
def DependenciesReplaced (db db' : Database) (job : Job) : Option (List ℤ) → Prop
  | some ds => (db'.dependencyIds job.id).Nodup ∧
      ∀ i, i ∈ db'.dependencyIds job.id ↔ (i : ℤ) ∈ ds
  | none => db'.dependencies = db.dependencies

/- What is in a column after it was set to a value, given the value that it had. -/
abbrev Column : Type := (k : Key) → (old new : k.Value) → k.Value

structure Replaced (column : Column) (db db' : Database) (job : Job) (payload : JobUpdate) :
    Prop where
  fields : ∃ row, db'.jobs.get job.id = some row ∧
    (∀ k, loaded row k = column k (loaded job k) (overwritten job payload k)) ∧
    row.name = job.name ∧ row.ownerUserId = job.ownerUserId ∧
    row.lastScheduledFor = job.lastScheduledFor ∧ row.createdAt = job.createdAt
  otherJobs : ∀ i ≠ job.id, db'.jobs.get i = db.jobs.get i
  dependencies : DependenciesReplaced db db' job (payload.dependsOn.getD none)
  otherDependencies : (db'.dependencies.rows.filter fun d => decide (d.jobId ≠ job.id)) =
    db.dependencies.rows.filter fun d => decide (d.jobId ≠ job.id)
  runs : db'.runs = db.runs

/-- Validate, then replace; an update that raises changes nothing. -/
structure UpdateLaw (column : Column) (isValid : String → Bool) (db : Database) (redis : Redis)
    (job : Job) (payload : JobUpdate) (now : Time) : Prop where
  succeeds : (∃ env', request isValid db redis job payload now = .ok () env') ↔
    ((recordFrom job.name (overwritten job payload) (payload.dependsOn.getD none)).validate
      isValid).isOk = true ∧ DependenciesAllowed db job payload
  replaces : ∀ env', request isValid db redis job payload now = .ok () env' →
    Replaced column db env'.committed job payload
  raises : ∀ e env', request isValid db redis job payload now = .error e env' →
    env'.committed = db

/- A value that compares equal to the stored one is not written. -/
def unlessSame : Column := fun k old new => if k.same new old then old else new

/-! ### The two dictionaries agree -/

theorem assign_data (job : Job) (payload : JobUpdate) :
    assign (loaded job) (data payload) = overwritten job payload := by
  funext k
  rw [data, assign_entries, if_pos (Key.mem_all k)]
  rfl

theorem recordFrom_overwritten (job : Job) (payload : JobUpdate) :
    recordFrom job.name (overwritten job payload) (payload.dependsOn.getD none) =
      payload.merge job := rfl

/- The attributes of a validated record. -/
def validated (b : JobBase) : Attributes
  | .description => b.description
  | .category => b.category
  | .taskType => some b.taskType.value
  | .taskSpec => some b.taskSpec
  | .scheduleType => some b.scheduleType.value
  | .scheduleExpr => b.scheduleExpr
  | .timezone => some b.timezone
  | .enabled => some b.enabled
  | .maxRetries => some b.maxRetries
  | .retryBackoffSec => some b.retryBackoffSec
  | .timeoutSec => some b.timeoutSec

theorem validateCategory_eq_ok {v w : Option String} (h : validateCategory v = .ok w) : v = w := by
  cases v with
  | none => exact Except.ok.inj h
  | some s =>
    simp only [validateCategory, atMost] at h
    split at h
    · cases h
    · exact Except.ok.inj h

/- A field that takes the values of an enumeration. -/
theorem eq_value_of_find {α : Type} {values : List α} {value : α → String} {loc s : String}
    {v : Option String} {a : α} (hs : str loc v = .ok s)
    (ha : values.find? (fun a => decide (value a = s)) = some a) : v = some (value a) := by
  have hvalue := List.find?_some ha
  rw [decide_eq_true_eq] at hvalue
  rw [required_eq_ok hs, hvalue]

theorem validateTaskType_eq_ok {v : Option String} {t : TaskType}
    (h : validateTaskType v = .ok t) : v = some t.value := by
  unfold validateTaskType at h
  obtain ⟨s, hs, h⟩ := bind_eq_ok.mp h
  split at h
  · rename_i t' ht
    cases h
    exact eq_value_of_find hs ht
  · cases h

theorem validateScheduleType_eq_ok {v : Option String} {t : ScheduleType}
    (h : validateScheduleType v = .ok t) : v = some t.value := by
  unfold validateScheduleType at h
  obtain ⟨s, hs, h⟩ := bind_eq_ok.mp h
  split at h
  · rename_i t' ht
    cases h
    exact eq_value_of_find hs ht
  · cases h

theorem int_eq_ok {loc : String} {least most : ℤ} {v : Option ℤ} {n : ℤ}
    (h : Schemas.int loc least most v = .ok n) : v = some n := by
  unfold Schemas.int at h
  obtain ⟨m, hm, h⟩ := bind_eq_ok.mp h
  unfold between at h
  split at h
  · cases h
  · split at h
    · cases h
    · cases h
      exact required_eq_ok hm

/-- What JobBase has accepted is what the attributes are set to. -/
theorem overwritten_eq {isValid : String → Bool} {job : Job} {payload : JobUpdate} {b : JobBase}
    (h : (payload.merge job).validate isValid = .ok b) :
    overwritten job payload = validated b := by
  obtain ⟨hc, -, -⟩ := JobRecord.validate_eq_ok h
  funext k
  cases k with
  | description => exact hc.description
  | category => exact validateCategory_eq_ok hc.category
  | taskType => exact validateTaskType_eq_ok hc.taskType
  | taskSpec => exact hc.taskSpec
  | scheduleType => exact validateScheduleType_eq_ok hc.scheduleType
  | scheduleExpr => exact hc.scheduleExpr
  | timezone => exact hc.timezone
  | enabled => exact hc.enabled
  | maxRetries => exact int_eq_ok hc.maxRetries
  | retryBackoffSec => exact int_eq_ok hc.retryBackoffSec
  | timeoutSec => exact int_eq_ok hc.timeoutSec

/-! ### The statements -/

theorem same_eq {k : Key} (hk : k ≠ .taskSpec) {new old : k.Value} (h : k.same new old = true) :
    new = old := by
  cases k with
  | taskSpec => exact absurd rfl hk
  | _ => simpa [Key.same] using h

theorem unlessSame_eq {k : Key} (hk : k ≠ .taskSpec) (old new : k.Value) :
    unlessSame k old new = new := by
  unfold unlessSame
  split
  · rename_i h
    exact (same_eq hk h).symm
  · rfl

/- The record that ends up in the columns. -/
def storedRecord (job : Job) (b : JobBase) : JobBase :=
  { b with
    taskSpec := if (Json.object b.taskSpec).same (.object job.taskSpec) then job.taskSpec
      else b.taskSpec }

theorem validated_storedRecord (job : Job) (b : JobBase) (k : Key) :
    unlessSame k (loaded job k) (validated b k) = validated (storedRecord job b) k := by
  cases k with
  | taskSpec =>
    unfold unlessSame
    show (if (Json.object b.taskSpec).same (.object job.taskSpec) = true then
      some job.taskSpec else some b.taskSpec) = some _
    unfold storedRecord
    split
    · rfl
    · rfl
  | _ => exact unlessSame_eq (by decide) _ _

/- A validated record makes a row, with the columns of no attribute as they were. -/
theorem row_validated (b : JobBase) (base : Job) :
    ∃ written, row (validated b) base = some written ∧ loaded written = validated b ∧
      written.name = base.name ∧ written.ownerUserId = base.ownerUserId ∧
      written.lastScheduledFor = base.lastScheduledFor ∧ written.createdAt = base.createdAt := by
  have htask : taskTypes.find? (fun t => decide (t.value = b.taskType.value)) =
      some b.taskType := by
    cases b.taskType <;> rfl
  have hschedule : scheduleTypes.find? (fun t => decide (t.value = b.scheduleType.value)) =
      some b.scheduleType := by
    cases b.scheduleType <;> rfl
  unfold row
  simp only [validated, Option.bind_eq_bind, Option.bind_some, htask, hschedule]
  refine ⟨_, rfl, ?_, rfl, rfl, rfl, rfl⟩
  funext k
  cases k <;> rfl

theorem mem_changed {payload : JobUpdate} {attrs : Attributes} {job : Job} {k : Key} :
    k ∈ changed payload attrs job ↔
      (given payload k).isSome = true ∧ k.same (attrs k) (loaded job k) = false := by
  rw [changed, List.mem_filter, Bool.and_eq_true, Bool.not_eq_true']
  exact and_iff_right (Key.mem_all k)

/- A column that is not in the UPDATE has what it is to have. -/
theorem unlessSame_of_not_changed {payload : JobUpdate} {job : Job} {k : Key}
    (h : k ∉ changed payload (overwritten job payload) job) :
    unlessSame k (loaded job k) (overwritten job payload k) = loaded job k := by
  unfold unlessSame
  cases hsame : k.same (overwritten job payload k) (loaded job k) with
  | true => rfl
  | false =>
    rw [mem_changed, hsame] at h
    have hnone : given payload k = none := by
      cases hgiven : given payload k with
      | none => rfl
      | some v =>
        rw [hgiven] at h
        exact absurd ⟨rfl, rfl⟩ h
    simp [overwritten, hnone]

theorem assign_changed (job : Job) (payload : JobUpdate) (k : Key) :
    assign (loaded job) (entries (changed payload (overwritten job payload) job)
      fun k => some (overwritten job payload k)) k =
      unlessSame k (loaded job k) (overwritten job payload k) := by
  rw [assign_entries]
  split
  · rename_i hk
    unfold unlessSame
    rw [(mem_changed.mp hk).2]
    rfl
  · rename_i hk
    exact (unlessSame_of_not_changed hk).symm

/- What the flush leaves of the tables. -/
structure Flushed (job : Job) (payload : JobUpdate) (db db' : Database) : Prop where
  fields : ∃ row, db'.jobs.get job.id = some row ∧
    (∀ k, loaded row k = unlessSame k (loaded job k) (overwritten job payload k)) ∧
    row.name = job.name ∧ row.ownerUserId = job.ownerUserId ∧
    row.lastScheduledFor = job.lastScheduledFor ∧ row.createdAt = job.createdAt
  otherJobs : ∀ i ≠ job.id, db'.jobs.get i = db.jobs.get i
  dependencies : db'.dependencies = db.dependencies
  runs : db'.runs = db.runs

theorem flush_run {isValid : String → Bool} {job : Job} {payload : JobUpdate} {b : JobBase}
    {env : Env} (now : Time) (hb : (payload.merge job).validate isValid = .ok b)
    (hfit : Storable payload) (hjob : env.working.jobs.get job.id = some job) :
    ∃ db', flush payload (overwritten job payload) job now env =
        .ok () { env with working := db' } ∧
      Flushed job payload env.working db' := by
  unfold flush
  by_cases hnil : changed payload (overwritten job payload) job = []
  · simp only [hnil, List.isEmpty_nil, if_true]
    refine ⟨env.working, rfl, ⟨job, hjob, ?_, rfl, rfl, rfl, rfl⟩, fun _ _ => rfl, rfl, rfl⟩
    intro k
    exact (unlessSame_of_not_changed (by rw [hnil]; exact List.not_mem_nil)).symm
  · have hempty : (changed payload (overwritten job payload) job).isEmpty = false := by
      rw [List.isEmpty_eq_false_iff]
      exact hnil
    have hall : ((changed payload (overwritten job payload) job).all
        fun k => k.fits (overwritten job payload k)) = true := by
      rw [List.all_eq_true]
      intro k hk
      obtain ⟨v, hv⟩ := Option.isSome_iff_exists.mp (mem_changed.mp hk).1
      rw [overwritten, hv]
      exact hfit k v hv
    have hattrs : assign (loaded job) (entries (changed payload (overwritten job payload) job)
        fun k => some (overwritten job payload k)) = validated (storedRecord job b) := by
      funext k
      rw [assign_changed, overwritten_eq hb, validated_storedRecord]
    obtain ⟨written, hrow, hloaded, hname, howner, hlast, hcreated⟩ :=
      row_validated (storedRecord job b) job
    simp only [hempty, hall, hattrs, hrow]
    have hget := Table.get_update env.working.jobs (fun j => decide (j.id = job.id))
      (updatedRow written now) fun _ => rfl
    refine ⟨_, rfl, ⟨updatedRow written now job, ?_, ?_, hname, howner, hlast, hcreated⟩, ?_,
      rfl, rfl⟩
    · refine (hget job.id).trans ?_
      rw [hjob]
      simp [Table.rewrite]
    · intro k
      have hk : loaded (updatedRow written now job) k = loaded written k := by
        cases k <;> rfl
      rw [hk, hloaded, overwritten_eq hb, validated_storedRecord]
    · intro i hi
      refine (hget i).trans ?_
      cases hother : env.working.jobs.get i with
      | none => rfl
      | some j =>
        have hid : j.id = i := Table.key_of_get hother
        simp [Table.rewrite, hid, hi]

/-! ### The dependencies -/

theorem validateDependencies_eq_ok {db : Database} {job : Job} {ds : List ℤ} :
    validateDependencies db (some job.id) job.ownerUserId ds = .ok () ↔
      (job.id : ℤ) ∉ ds ∧
        ∀ d ∈ ds, ∃ dep ∈ db.jobs.rows, (dep.id : ℤ) = d ∧ dep.ownerUserId = job.ownerUserId := by
  constructor
  · intro h
    refine ⟨?_, fun d hd => job_of_validate h hd⟩
    intro hself
    simp [validateDependencies, hself] at h
  · intro h
    have hfound : ∀ d ∈ ds, d ∈ found db job.ownerUserId ds := by
      intro d hd
      obtain ⟨dep, hdep, hid, howner⟩ := h.2 d hd
      rw [found, List.mem_map]
      refine ⟨dep, List.mem_filter.mpr ⟨hdep, ?_⟩, hid⟩
      simp [hid, hd, howner]
    have hmissing : (ds.filter fun d => !decide (d ∈ found db job.ownerUserId ds)) = [] := by
      rw [List.filter_eq_nil_iff]
      intro d hd
      simp [hfound d hd]
    unfold validateDependencies
    rw [if_neg (by simp [h.1])]
    dsimp only
    rw [hmissing]
    rfl

/- Inserting edges of a job adds no edge of another one. -/
theorem foldlM_insertEdge_others {j : JobId} {ds : List ℤ} {db db' : Database}
    (h : ds.foldlM (insertEdge j) db = .ok db') :
    (db'.dependencies.rows.filter fun d => decide (d.jobId ≠ j)) =
      db.dependencies.rows.filter fun d => decide (d.jobId ≠ j) := by
  induction ds generalizing db with
  | nil =>
    cases h
    rfl
  | cons d ds ih =>
    rw [List.foldlM_cons] at h
    obtain ⟨mid, hmid, h⟩ := bind_eq_ok.mp h
    rw [ih h]
    unfold insertEdge insertDependency at hmid
    split at hmid
    · rename_i hins
      cases hmid
      split at hins
      · cases hins
        simp [addDependency, Table.insert]
      · cases hins
    · cases hmid

theorem setDependencies_others {j : JobId} {ds : List ℤ} {db db' : Database}
    (h : setDependencies db j ds = .ok db') :
    (db'.dependencies.rows.filter fun d => decide (d.jobId ≠ j)) =
      db.dependencies.rows.filter fun d => decide (d.jobId ≠ j) := by
  rw [foldlM_insertEdge_others h]
  simp only [deleteDependencies, Table.deleteWhere, List.filter_filter]
  apply List.filter_congr
  intro d _
  simp

/- Without its duplicates the list names each dependency once. -/
theorem dependenciesReplaced_of_ids {db db' : Database} {job : Job} {ds : List ℤ}
    (hnat : ∀ d ∈ ds, ∃ i : ℕ, (i : ℤ) = d)
    (hids : db'.dependencyIds job.id = ds.eraseDups.map Int.toNat) :
    DependenciesReplaced db db' job (some ds) := by
  show (db'.dependencyIds job.id).Nodup ∧ _
  rw [hids]
  constructor
  · apply List.Nodup.map_on
    · intro d hd e he heq
      obtain ⟨m, rfl⟩ := hnat d (List.mem_eraseDups.mp hd)
      obtain ⟨n, rfl⟩ := hnat e (List.mem_eraseDups.mp he)
      simpa using heq
    · exact Positions.nodup_eraseDups ds
  · intro i
    rw [List.mem_map]
    constructor
    · intro h
      obtain ⟨d, hd, hi⟩ := h
      rw [List.mem_eraseDups] at hd
      obtain ⟨m, rfl⟩ := hnat d hd
      rw [← hi]
      exact hd
    · intro h
      exact ⟨i, List.mem_eraseDups.mpr h, rfl⟩

theorem dependsOn_eq {payload : JobUpdate} {ds : List ℤ}
    (h : payload.dependsOn.getD none = some ds) : payload.dependsOn = some (some ds) := by
  cases hd : payload.dependsOn with
  | none =>
    rw [hd] at h
    cases h
  | some o =>
    rw [hd] at h
    exact congrArg some h

theorem Flushed.exists_id {job : Job} {payload : JobUpdate} {db db' : Database}
    (h : Flushed job payload db db') {i : JobId} (hi : ∃ dep ∈ db.jobs.rows, dep.id = i) :
    ∃ dep ∈ db'.jobs.rows, dep.id = i := by
  rw [← isSome_get_jobs] at hi ⊢
  by_cases heq : i = job.id
  · obtain ⟨row, hrow, -⟩ := h.fields
    rw [heq, hrow]
    rfl
  · rw [h.otherJobs i heq]
    exact hi

/- After the checks nothing fails, and the session is committed. -/
theorem replace_run {isValid : String → Bool} {job : Job} {payload : JobUpdate} {b : JobBase}
    (env : Env) (now : Time) (hb : (payload.merge job).validate isValid = .ok b)
    (hfit : Storable payload) (hjob : env.working.jobs.get job.id = some job)
    (hdeps : DependenciesAllowed env.working job payload) :
    ∃ db', replace (overwritten job payload) job payload now env =
        .ok () { env with committed := db', working := db' } ∧
      Replaced unlessSame env.working db' job payload := by
  obtain ⟨db₁, hflush, hflushed⟩ := flush_run now hb hfit hjob
  unfold replace
  rw [bind_run_of_ok hflush]
  cases hlist : payload.dependsOn.getD none with
  | none =>
    refine ⟨db₁, rfl, hflushed.fields, hflushed.otherJobs, ?_, ?_, hflushed.runs⟩
    · rw [hlist]
      exact hflushed.dependencies
    · rw [hflushed.dependencies]
  | some ds =>
    have hds : payload.dependsOn = some (some ds) := dependsOn_eq hlist
    have hnat : ∀ d ∈ ds, ∃ i : ℕ, (i : ℤ) = d := by
      intro d hd
      obtain ⟨dep, -, hid, -⟩ := (hdeps ds hds).2 d hd
      exact ⟨dep.id, hid⟩
    obtain ⟨db₂, hset, hids, hjobs⟩ := setDependencies_ok db₁ job.id ds
      (hflushed.exists_id ⟨job, Table.mem_of_get hjob, rfl⟩) (by
        intro d hd
        obtain ⟨dep, hdep, hid, -⟩ := (hdeps ds hds).2 d hd
        obtain ⟨dep', hdep', hid'⟩ := hflushed.exists_id ⟨dep, hdep, rfl⟩
        exact ⟨dep', hdep', by rw [hid', hid]⟩)
    have hothers := setDependencies_others hset
    rw [hflushed.dependencies] at hothers
    refine ⟨db₂, ?_, ?_, ?_, ?_, hothers, ?_⟩
    · dsimp only
      rw [get_bind_run]
      dsimp only
      rw [hset]
      rfl
    · rw [hjobs]
      exact hflushed.fields
    · rw [hjobs]
      exact hflushed.otherJobs
    · rw [hlist]
      exact dependenciesReplaced_of_ids hnat hids
    · rw [(foldlM_insertEdge_frame hset).2]
      exact hflushed.runs

/-! ### The law -/

/- The checks raise before anything is written. -/
theorem updateJob_run (isValid : String → Bool) (job : Job) (payload : JobUpdate) (now : Time)
    (env : Env) :
    updateJob isValid job payload now env =
      match updateChecks isValid env.working job payload with
      | .error e => .error (.crud e) env
      | .ok _ => replace (overwritten job payload) job payload now env := by
  unfold updateJob updateChecks
  rw [assign_data]
  dsimp only
  rw [recordFrom_overwritten]
  cases payload.dependsOn.getD none with
  | none =>
    cases (payload.merge job).validate isValid with
    | error es => rfl
    | ok b => rfl
  | some ds =>
    dsimp only
    rw [get_bind_run]
    cases validateDependencies env.working (some job.id) job.ownerUserId ds with
    | error e => rfl
    | ok _ =>
      cases (payload.merge job).validate isValid with
      | error es => rfl
      | ok b => rfl

theorem updateChecks_eq_ok {isValid : String → Bool} {db : Database} {job : Job}
    {payload : JobUpdate} :
    (∃ b, updateChecks isValid db job payload = .ok b) ↔
      ((payload.merge job).validate isValid).isOk = true ∧ DependenciesAllowed db job payload := by
  have hvalid : (∃ b, ((payload.merge job).validate isValid).mapError
      CrudError.validationError = .ok b) ↔
      ((payload.merge job).validate isValid).isOk = true := by
    cases (payload.merge job).validate isValid with
    | error es => simp [Except.mapError, Except.isOk, Except.toBool]
    | ok b => simp [Except.mapError, Except.isOk, Except.toBool]
  rw [← hvalid]
  unfold updateChecks DependenciesAllowed
  cases hlist : payload.dependsOn.getD none with
  | none =>
    have hnone : ∀ ds, payload.dependsOn ≠ some (some ds) := by
      intro ds hds
      rw [hds] at hlist
      cases hlist
    constructor
    · intro h
      exact ⟨h, fun ds hds => absurd hds (hnone ds)⟩
    · intro h
      exact h.1
  | some ds =>
    have hds : payload.dependsOn = some (some ds) := dependsOn_eq hlist
    simp only [bind_eq_ok, hds, Option.some.injEq, forall_eq']
    rw [← validateDependencies_eq_ok]
    constructor
    · intro h
      obtain ⟨b, _, hdeps, hb⟩ := h
      exact ⟨⟨b, hb⟩, hdeps⟩
    · intro h
      obtain ⟨⟨b, hb⟩, hdeps⟩ := h
      exact ⟨b, (), hdeps, hb⟩

section Law
variable {isValid : String → Bool} {db : Database} {job : Job} {payload : JobUpdate}

theorem request_of_checks {b : JobBase} (redis : Redis) (now : Time)
    (hjob : job ∈ db.jobs.rows) (hfit : Storable payload)
    (hchecks : updateChecks isValid db job payload = .ok b) :
    ∃ env', request isValid db redis job payload now = .ok () env' ∧
      Replaced unlessSame db env'.committed job payload := by
  obtain ⟨hvalid, hdeps⟩ := updateChecks_eq_ok.mp ⟨b, hchecks⟩
  cases hb : (payload.merge job).validate isValid with
  | error es =>
    rw [hb] at hvalid
    cases hvalid
  | ok b' =>
    obtain ⟨db', hrun, hreplaced⟩ := replace_run (Env.start db redis) now hb hfit
      (Table.get_of_mem hjob) hdeps
    refine ⟨{ Env.start db redis with committed := db', working := db' },
      withRollback_ok.mpr ?_, hreplaced⟩
    rw [updateJob_run]
    show (match updateChecks isValid db job payload with
      | .error e => _
      | .ok _ => _) = _
    rw [hchecks]
    exact hrun

theorem request_of_refused {e : CrudError} {redis : Redis} {now : Time}
    (hchecks : updateChecks isValid db job payload = .error e) :
    request isValid db redis job payload now = .error (.crud e) (Env.start db redis) := by
  refine withRollback_error.mpr ⟨Env.start db redis, ?_, rfl⟩
  rw [updateJob_run]
  show (match updateChecks isValid db job payload with
    | .error e => _
    | .ok _ => _) = _
  rw [hchecks]

/-- update_job validates, then replaces: it succeeds exactly on a valid record with allowed
dependencies, and then every column has the value of that record, but for a value that
compares equal to the stored one, which stays. -/
theorem updateJob_law {redis : Redis} {now : Time} (hjob : job ∈ db.jobs.rows)
    (hfit : Storable payload) :
    UpdateLaw unlessSame isValid db redis job payload now := by
  have hsucceeds : (∃ env', request isValid db redis job payload now = .ok () env') ↔
      ∃ b, updateChecks isValid db job payload = .ok b := by
    cases hchecks : updateChecks isValid db job payload with
    | error e =>
      rw [request_of_refused hchecks]
      simp
    | ok b =>
      obtain ⟨env', hrun, -⟩ := request_of_checks redis now hjob hfit hchecks
      exact iff_of_true ⟨env', hrun⟩ ⟨b, rfl⟩
  constructor
  · rw [hsucceeds, updateChecks_eq_ok, recordFrom_overwritten]
  · intro env' hrun
    obtain ⟨b, hchecks⟩ := hsucceeds.mp ⟨env', hrun⟩
    obtain ⟨env'', hrun', hreplaced⟩ := request_of_checks redis now hjob hfit
      hchecks
    rw [hrun] at hrun'
    cases hrun'
    exact hreplaced
  · intro e env' hrun
    cases hchecks : updateChecks isValid db job payload with
    | error e' =>
      rw [request_of_refused hchecks] at hrun
      cases hrun
      rfl
    | ok b =>
      obtain ⟨env'', hrun', -⟩ := request_of_checks redis now hjob hfit hchecks
      rw [hrun] at hrun'
      cases hrun'

end Law

/- A shell job with a number among its arguments. -/
def sleepJob : Job where
  id := 0
  name := "sleep"
  taskSpec := [("command", .string "sleep"), ("args", .array [.number 1 0])]

def sleepDatabase : Database := emptyDatabase.addJob (fun i => { sleepJob with id := i }) fun _ => rfl

def withTrue : JobUpdate where
  taskSpec := some (some [("command", .string "sleep"), ("args", .array [.bool true])])

theorem sleepJob_mem : sleepJob ∈ sleepDatabase.jobs.rows := mem_jobs_addJob.mpr (Or.inr rfl)

theorem storable_withTrue : Storable withTrue := by
  intro k v hv
  cases k with
  | taskSpec =>
    cases hv
    decide
  | _ => cases hv

theorem updateJob_law_withTrue :
    UpdateLaw unlessSame (fun _ => true) sleepDatabase {} sleepJob withTrue 1 :=
  updateJob_law sleepJob_mem storable_withTrue

/-- The argument true compares equal to 1, so the update succeeds and 1 stays. -/
theorem not_updateJob_law :
    ¬ UpdateLaw (fun _ _ new => new) (fun _ => true) sleepDatabase {} sleepJob withTrue 1 := by
  intro law
  obtain ⟨b, hchecks⟩ := updateChecks_eq_ok.mpr
    (show ((withTrue.merge sleepJob).validate fun _ => true).isOk = true ∧
      DependenciesAllowed sleepDatabase sleepJob withTrue from
      ⟨by decide, fun ds hds => by cases hds⟩)
  obtain ⟨env', hrun, hreplaced⟩ := request_of_checks {} 1 sleepJob_mem
    storable_withTrue hchecks
  obtain ⟨row, hrow, hfields, -⟩ := hreplaced.fields
  obtain ⟨row', hrow', hfields', -⟩ := (law.replaces env' hrun).fields
  rw [hrow] at hrow'
  cases hrow'
  have heq := (hfields .taskSpec).symm.trans (hfields' .taskSpec)
  have hsame : Key.same .taskSpec (overwritten sleepJob withTrue .taskSpec)
      (loaded sleepJob .taskSpec) = true := by decide
  rw [unlessSame, if_pos hsame] at heq
  cases heq

end JobScheduler.Crud.Update
