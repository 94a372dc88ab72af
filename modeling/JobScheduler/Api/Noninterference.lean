import JobScheduler.Api.Tenants

/-!
# What a user can see

Two sets of tables in which u has the same rows answer every request of u in the same way. A
new row has the id that its own sequence hands out; nothing else differs. Each query of the
routes is read off the rows of u first; the recursion of a trigger is then run on both tables
side by side.
-/

namespace JobScheduler.Tenants
open Library Database Schemas Api Crud Routes

/-! ### The queries -/

section
variable {db : Database} {u : UserId} {j : JobId}

theorem getJob_eq_find? : getJob db j u =
    (ownedJobs db u).find? fun job => decide (job.id = j) :=
  Table.filter_get db.jobs _ j

theorem ownedRun_eq_find? {i : RunId} : db.ownedRun i u =
    (ownedRuns db u).find? fun r => decide (r.id = i) :=
  Table.filter_get db.runs _ i

theorem filter_ownedJobs (p : Job → Bool) : (ownedJobs db u).filter p =
    db.jobs.rows.filter fun job => p job && decide (job.ownerUserId = some u) :=
  List.filter_filter

/- The edges and the runs of a job of u are among those of u. -/
theorem dependencyIds_eq (hj : ownerOf db j = some u) : db.dependencyIds j =
    ((ownedEdges db u).filter fun d => decide (d.jobId = j)).map JobDependency.dependsOnJobId := by
  unfold dependencyIds ownedEdges
  rw [List.filter_filter]
  congr 1
  refine List.filter_congr fun d _ => ?_
  by_cases hd : d.jobId = j
  · simp [hd, hj]
  · simp [hd]

theorem jobRuns_eq (hj : ownerOf db j = some u) :
    jobRuns db j = (ownedRuns db u).filter fun r => decide (r.jobId = j) := by
  unfold jobRuns ownedRuns
  rw [List.filter_filter]
  refine List.filter_congr fun r _ => ?_
  by_cases hr : r.jobId = j
  · rw [hr, getJob_isSome.mpr hj, Bool.and_true]
  · simp [hr]

end

theorem filter_logs_eq {t : Tables} {u : UserId} {i : RunId} {r : JobRun}
    (hr : t.db.runs.get i = some r) (howner : ownerOf t.db r.jobId = some u) :
    t.logs.rows.filter (fun l => decide (l.runId = i)) =
      (ownedLogs t u).filter fun l => decide (l.runId = i) := by
  unfold ownedLogs
  rw [List.filter_filter]
  refine List.filter_congr fun l _ => ?_
  by_cases hl : l.runId = i
  · rw [hl, hr]
    simp [howner]
  · simp [hl]

/-! ### Tables in which u has the same rows -/

section
variable {t₁ t₂ : Tables} {u : UserId}

theorem ownedJobs_congr (h : rowsOf t₁ u = rowsOf t₂ u) :
    ownedJobs t₁.db u = ownedJobs t₂.db u :=
  congrArg Rows.jobs h

theorem getJob_congr (h : ownedJobs t₁.db u = ownedJobs t₂.db u) (j : JobId) :
    getJob t₁.db j u = getJob t₂.db j u := by
  rw [getJob_eq_find?, getJob_eq_find?, h]

theorem ownerOf_iff (h : ownedJobs t₁.db u = ownedJobs t₂.db u) (j : JobId) :
    ownerOf t₁.db j = some u ↔ ownerOf t₂.db j = some u := by
  rw [← getJob_isSome, ← getJob_isSome, getJob_congr h]

theorem ownedRun_congr (h : rowsOf t₁ u = rowsOf t₂ u) (i : RunId) :
    t₁.db.ownedRun i u = t₂.db.ownedRun i u := by
  have hruns : ownedRuns t₁.db u = ownedRuns t₂.db u := congrArg Rows.runs h
  rw [ownedRun_eq_find?, ownedRun_eq_find?, hruns]

theorem dependencyIds_congr (h : rowsOf t₁ u = rowsOf t₂ u) {j : JobId}
    (hj : ownerOf t₁.db j = some u) : t₁.db.dependencyIds j = t₂.db.dependencyIds j := by
  have hedges : ownedEdges t₁.db u = ownedEdges t₂.db u := congrArg Rows.dependencies h
  rw [dependencyIds_eq hj, dependencyIds_eq ((ownerOf_iff (ownedJobs_congr h) j).mp hj), hedges]

theorem jobRuns_congr (h : rowsOf t₁ u = rowsOf t₂ u) {j : JobId}
    (hj : ownerOf t₁.db j = some u) : jobRuns t₁.db j = jobRuns t₂.db j := by
  have hruns : ownedRuns t₁.db u = ownedRuns t₂.db u := congrArg Rows.runs h
  rw [jobRuns_eq hj, jobRuns_eq ((ownerOf_iff (ownedJobs_congr h) j).mp hj), hruns]

theorem jobToDict_congr (h : rowsOf t₁ u = rowsOf t₂ u) {job : Job}
    (hjob : job ∈ ownedJobs t₁.db u) : jobToDict t₁.db job = jobToDict t₂.db job := by
  obtain ⟨hmem, howner⟩ := mem_ownedJobs.mp hjob
  unfold jobToDict
  rw [dependencyIds_congr h ((ownerOf_of_mem hmem).trans howner)]

theorem latestRun_congr (h : rowsOf t₁ u = rowsOf t₂ u) {j : JobId}
    (hj : ownerOf t₁.db j = some u) : latestRun t₁.db j = latestRun t₂.db j := by
  unfold latestRun
  rw [jobRuns_congr h hj]

theorem logsOfRun_congr (h : rowsOf t₁ u = rowsOf t₂ u) {i : RunId} {r : JobRun}
    (hr : t₁.db.ownedRun i u = some r) : logsOfRun t₁ i = logsOfRun t₂ i := by
  have hlogs : ownedLogs t₁ u = ownedLogs t₂ u := congrArg Rows.logs h
  obtain ⟨hget₁, howner₁⟩ := ownedRun_eq_some hr
  obtain ⟨hget₂, howner₂⟩ := ownedRun_eq_some ((ownedRun_congr h i).symm.trans hr)
  unfold logsOfRun
  rw [filter_logs_eq hget₁ howner₁, filter_logs_eq hget₂ howner₂, hlogs]

end

/-! ### Edges that are written -/

theorem dependencyIds_addDependency {db : Database} {j k : JobId} (h : db.AdmitsDependency j k) :
    (db.addDependency j k h).dependencyIds j = db.dependencyIds j ++ [k] := by
  unfold dependencyIds addDependency Table.insert
  rw [List.filter_append, List.map_append]
  simp

theorem foldlM_insertEdge_ok {j : JobId} (ds : List ℤ) (db : Database)
    (hj : ∃ job ∈ db.jobs.rows, job.id = j)
    (hds : ∀ d ∈ ds, ∃ job ∈ db.jobs.rows, (job.id : ℤ) = d) (hnodup : ds.Nodup)
    (hnew : ∀ d ∈ ds, d.toNat ∉ db.dependencyIds j) :
    ∃ db', ds.foldlM (insertEdge j) db = .ok db' ∧
      db'.dependencyIds j = db.dependencyIds j ++ ds.map Int.toNat := by
  induction ds generalizing db with
  | nil => exact ⟨db, rfl, by simp⟩
  | cons d ds ih =>
    have hd : ∃ job ∈ db.jobs.rows, job.id = d.toNat := by
      obtain ⟨job, hjob, rfl⟩ := hds d (List.mem_cons_self ..)
      exact ⟨job, hjob, (Int.toNat_natCast _).symm⟩
    have hadm : db.AdmitsDependency j d.toNat := by
      refine ⟨⟨hj, hd⟩, fun e he hej hek => ?_⟩
      exact hnew d (List.mem_cons_self ..) (mem_dependencyIds.mpr ⟨e, he, hej, hek⟩)
    have hinsert : insertEdge j db d = .ok (db.addDependency j d.toNat hadm) := by
      unfold insertEdge insertDependency
      rw [dif_pos hadm]
    obtain ⟨hdnot, hnodup'⟩ := List.nodup_cons.mp hnodup
    obtain ⟨db', hfold, hids⟩ := ih (db.addDependency j d.toNat hadm) hj
      (fun e he => hds e (List.mem_cons_of_mem _ he)) hnodup' (by
        intro e he hmem
        rw [dependencyIds_addDependency, List.mem_append, List.mem_singleton] at hmem
        rcases hmem with hmem | heq
        · exact hnew e (List.mem_cons_of_mem _ he) hmem
        · obtain ⟨a, -, rfl⟩ := hds d (List.mem_cons_self ..)
          obtain ⟨b, -, rfl⟩ := hds e (List.mem_cons_of_mem _ he)
          rw [Int.toNat_natCast, Int.toNat_natCast] at heq
          rw [heq] at he
          exact hdnot he)
    refine ⟨db', ?_, ?_⟩
    · rw [List.foldlM_cons, hinsert]
      exact hfold
    · rw [hids, dependencyIds_addDependency, List.map_cons, List.append_assoc,
        List.singleton_append]

/- After the check of the ids the edges are written, in the order of the request. -/
theorem setDependencies_ok (db : Database) (j : JobId) (ds : List ℤ)
    (hj : ∃ job ∈ db.jobs.rows, job.id = j)
    (hds : ∀ d ∈ ds, ∃ job ∈ db.jobs.rows, (job.id : ℤ) = d) :
    ∃ db', setDependencies db j ds = .ok db' ∧
      db'.dependencyIds j = ds.eraseDups.map Int.toNat ∧ db'.jobs = db.jobs := by
  have hnil : (db.deleteDependencies j).dependencyIds j = [] := by
    refine dependencyIds_eq_nil.mpr fun k hk => ?_
    exact (dependsOn_deleteDependencies.mp hk).2 rfl
  obtain ⟨db', hfold, hids⟩ := foldlM_insertEdge_ok ds.eraseDups (db.deleteDependencies j) hj
    (fun d hd => hds d (List.mem_eraseDups.mp hd))
    (Positions.nodup_eraseDups ds) (fun d _ hmem => by rw [hnil] at hmem; cases hmem)
  refine ⟨db', hfold, ?_, (foldlM_insertEdge_frame hfold).1⟩
  rw [hids, hnil, List.nil_append]

/-! ### create_job and update_job -/

section
variable {t₁ t₂ : Tables} {u : UserId}

theorem checkName_congr (h : ownedJobs t₁.db u = ownedJobs t₂.db u) (name : String) :
    checkName t₁.db name u = checkName t₂.db name u := by
  have hrows : ∀ db : Database, (db.jobs.rows.filter fun j =>
      decide (j.ownerUserId = some u) && decide (j.name = name)) =
      (ownedJobs db u).filter fun j => decide (j.name = name) := by
    intro db
    rw [filter_ownedJobs]
    exact List.filter_congr fun j _ => Bool.and_comm _ _
  unfold checkName
  rw [hrows, hrows, h]

theorem found_congr (h : ownedJobs t₁.db u = ownedJobs t₂.db u) (ds : List ℤ) :
    found t₁.db (some u) ds = found t₂.db (some u) ds := by
  have hrows : ∀ db : Database, found db (some u) ds =
      ((ownedJobs db u).filter fun j => decide ((j.id : ℤ) ∈ ds)).map fun j => (j.id : ℤ) := by
    intro db
    rw [filter_ownedJobs]
    rfl
  rw [hrows, hrows, h]

theorem validateDependencies_congr (h : ownedJobs t₁.db u = ownedJobs t₂.db u)
    (jobId : Option JobId) (ds : List ℤ) :
    validateDependencies t₁.db jobId (some u) ds =
      validateDependencies t₂.db jobId (some u) ds := by
  unfold validateDependencies
  rw [found_congr h]

end

theorem jobResponse_eq {db : Database} {j : JobId} {job : Job} {ds : List JobId}
    (hget : db.jobs.get j = some job) (hids : db.dependencyIds j = ds) :
    jobResponse db j = .job (jobOut job ds) := by
  have hid : job.id = j := Table.key_of_get hget
  unfold jobResponse
  rw [hget]
  show Response.job (jobOut job (db.dependencyIds job.id)) = _
  rw [hid, hids]

/- The checks of create_job; nothing after them can fail. -/
def createChecks (db : Database) (payload : JobBase) (u : UserId) : Except CrudError Unit := do
  checkName db payload.name u
  validateDependencies db none (some u) payload.dependsOn

theorem createJob_eq (db : Database) (payload : JobBase) (u : UserId) (now : Time) :
    createJob db payload u now = createChecks db payload u >>= fun _ =>
      setDependencies (db.addJob (jobRow payload u now) fun _ => rfl) db.jobs.next
        payload.dependsOn >>= fun db' => pure (db', db.jobs.next) := by
  unfold createJob createChecks
  cases checkName db payload.name u with
  | error e => rfl
  | ok _ => rfl

theorem createJob_error {db : Database} {payload : JobBase} {u : UserId} {e : CrudError}
    (now : Time) (h : createChecks db payload u = .error e) :
    createJob db payload u now = .error e := by
  rw [createJob_eq, h]
  rfl

theorem createJob_ok {db : Database} {payload : JobBase} {u : UserId} (now : Time)
    (h : createChecks db payload u = .ok ()) :
    ∃ db', createJob db payload u now = .ok (db', db.jobs.next) ∧
      jobResponse db' db.jobs.next = .job (jobOut (jobRow payload u now db.jobs.next)
        (payload.dependsOn.eraseDups.map Int.toNat)) := by
  obtain ⟨_, -, hvalid⟩ := bind_eq_ok.mp h
  have hmk : ∀ i, (jobRow payload u now i).id = i := fun _ => rfl
  have hget : (db.addJob (jobRow payload u now) hmk).jobs.get db.jobs.next =
      some (jobRow payload u now db.jobs.next) :=
    (Table.get_insert db.jobs _ hmk _).trans (if_pos rfl)
  obtain ⟨db', hset, hids, hjobs⟩ := setDependencies_ok (db.addJob (jobRow payload u now) hmk)
    db.jobs.next payload.dependsOn ⟨_, mem_jobs_addJob.mpr (Or.inr rfl), rfl⟩ (by
      intro d hd
      obtain ⟨job, hjob, hid, -⟩ := job_of_validate hvalid hd
      exact ⟨job, mem_jobs_addJob.mpr (Or.inl hjob), hid⟩)
  refine ⟨db', ?_, jobResponse_eq (by rw [hjobs]; exact hget) hids⟩
  rw [createJob_eq, h]
  show (setDependencies _ _ _ >>= _) = _
  rw [hset]
  rfl

def updateChecks (isValid : String → Bool) (db : Database) (job : Job) (payload : JobUpdate) :
    Except CrudError JobBase := do
  match payload.dependsOn.getD none with
  | some ds => validateDependencies db (some job.id) job.ownerUserId ds
  | none => .ok ()
  ((payload.merge job).validate isValid).mapError .validationError

theorem updateJob_eq (isValid : String → Bool) (db : Database) (job : Job) (payload : JobUpdate)
    (now : Time) :
    updateJob isValid db job payload now = updateChecks isValid db job payload >>= fun merged =>
      match payload.dependsOn.getD none with
      | some ds => setDependencies (db.updateJobs (fun j => decide (j.id = job.id))
          (patchedJob merged now) fun _ => rfl) job.id ds
      | none => pure (db.updateJobs (fun j => decide (j.id = job.id))
          (patchedJob merged now) fun _ => rfl) := by
  unfold updateJob updateChecks
  cases payload.dependsOn.getD none with
  | none => rfl
  | some ds =>
    dsimp only
    cases validateDependencies db (some job.id) job.ownerUserId ds with
    | error e => rfl
    | ok _ => rfl

theorem updateJob_error {isValid : String → Bool} {db : Database} {job : Job}
    {payload : JobUpdate} {e : CrudError} (now : Time)
    (h : updateChecks isValid db job payload = .error e) :
    updateJob isValid db job payload now = .error e := by
  rw [updateJob_eq, h]
  rfl

/- The edges that the response lists. -/
def updatedIds (db : Database) (job : Job) (payload : JobUpdate) : List JobId :=
  match payload.dependsOn.getD none with
  | some ds => ds.eraseDups.map Int.toNat
  | none => db.dependencyIds job.id

theorem updateJob_ok {isValid : String → Bool} {db : Database} {job : Job}
    {payload : JobUpdate} {merged : JobBase} (now : Time) (hjob : job ∈ db.jobs.rows)
    (h : updateChecks isValid db job payload = .ok merged) :
    ∃ db', updateJob isValid db job payload now = .ok db' ∧ jobResponse db' job.id =
      .job (jobOut (patchedJob merged now job) (updatedIds db job payload)) := by
  have hf : Table.KeepsKey (patchedJob merged now) := fun _ => rfl
  have hget : (db.updateJobs (fun j => decide (j.id = job.id)) (patchedJob merged now)
      hf).jobs.get job.id = some (patchedJob merged now job) := by
    refine (Table.get_update db.jobs _ _ hf _).trans ?_
    have hold : db.jobs.get job.id = some job := Table.get_of_mem hjob
    rw [hold, Option.map_some]
    simp [Table.rewrite]
  rw [updateJob_eq, h]
  unfold updateChecks at h
  unfold updatedIds
  cases hdeps : payload.dependsOn.getD none with
  | none => exact ⟨_, rfl, jobResponse_eq hget rfl⟩
  | some ds =>
    simp only [hdeps] at h
    obtain ⟨_, hvalid, -⟩ := bind_eq_ok.mp h
    obtain ⟨db', hset, hids, hjobs⟩ := setDependencies_ok
      (db.updateJobs (fun j => decide (j.id = job.id)) (patchedJob merged now) hf) job.id ds
      ⟨_, Table.mem_of_get hget, rfl⟩ (by
        intro d hd
        obtain ⟨dep, hdep, hid, -⟩ := job_of_validate hvalid hd
        exact ⟨_, mem_jobs_updateJobs.mpr ⟨dep, hdep, rfl⟩, by
          rw [show (Table.rewrite _ _ dep).id = dep.id from Table.key_rewrite hf _ dep, hid]⟩)
    exact ⟨db', hset, jobResponse_eq (by rw [hjobs]; exact hget) hids⟩

/-! ### Responses up to the ids of new rows -/

/-- The responses are the same, but for the id of a row that the request has created: the two
sequences differ. The k-th run that a trigger creates is the k-th on both sides. -/
inductive SameResponse (t₁ t₂ : Tables) : Response → Response → Prop where
  | same (response : Response) : SameResponse t₁ t₂ response response
  | newJob (out : JobOut) : SameResponse t₁ t₂ (.job { out with id := t₁.db.jobs.next })
      (.job { out with id := t₂.db.jobs.next })
  | newRun (out : JobRun) (k : ℕ) : SameResponse t₁ t₂
      (.run { out with id := t₁.db.runs.next + k }) (.run { out with id := t₂.db.runs.next + k })

section
variable {isValid : String → Bool} {t₁ t₂ : Tables} {u : UserId}

theorem same_of_eq {x y : Response} (h : x = y) : SameResponse t₁ t₂ x y := by
  rw [h]
  exact .same y

theorem createChecks_congr (h : ownedJobs t₁.db u = ownedJobs t₂.db u) (payload : JobBase) :
    createChecks t₁.db payload u = createChecks t₂.db payload u := by
  unfold createChecks
  rw [checkName_congr h, validateDependencies_congr h]

theorem updateChecks_congr (h : ownedJobs t₁.db u = ownedJobs t₂.db u) {job : Job}
    (howner : job.ownerUserId = some u) (payload : JobUpdate) :
    updateChecks isValid t₁.db job payload = updateChecks isValid t₂.db job payload := by
  unfold updateChecks
  rw [howner]
  cases payload.dependsOn.getD none with
  | none => rfl
  | some ds =>
    dsimp only
    rw [validateDependencies_congr h]

theorem edit_of_ok {t : Tables} {code : ℕ} {req : Crud.Request} {respond : Database → Response}
    {db' : Database} (h : Crud.handle isValid t.db req = .ok db') :
    (edit isValid t code req respond).response = respond db' := by
  unfold edit
  rw [h]
  rfl

theorem edit_of_error {t : Tables} {code : ℕ} {req : Crud.Request}
    {respond : Database → Response} {reason : Refusal}
    (h : Crud.handle isValid t.db req = .error reason) :
    (edit isValid t code req respond).response = refuse code reason := by
  unfold edit
  rw [h]
  rfl

theorem handle_create_ok {db db' : Database} {payload : JobRecord} {b : JobBase} {now : Time}
    {i : JobId} (hb : payload.validate isValid = .ok b)
    (h : createJob db b u now = .ok (db', i)) :
    Crud.handle isValid db (.create u payload now) = .ok db' := by
  simp only [Crud.handle]
  rw [hb]
  show ((createJob db b u now).mapError Refusal.crud >>= _) = _
  rw [h]
  rfl

theorem handle_create_error {db : Database} {payload : JobRecord} {b : JobBase} {now : Time}
    {e : CrudError} (hb : payload.validate isValid = .ok b)
    (h : createJob db b u now = .error e) :
    Crud.handle isValid db (.create u payload now) = .error (.crud e) := by
  simp only [Crud.handle]
  rw [hb]
  show ((createJob db b u now).mapError Refusal.crud >>= _) = _
  rw [h]
  rfl

theorem createJob_same (h : rowsOf t₁ u = rowsOf t₂ u) (payload : JobRecord) (now : Time) :
    SameResponse t₁ t₂ (Routes.handle isValid t₁ u (.createJob payload now)).response
      (Routes.handle isValid t₂ u (.createJob payload now)).response := by
  simp only [Routes.handle]
  cases hb : payload.validate isValid with
  | error es =>
    have hrefuse : ∀ db : Database,
        Crud.handle isValid db (.create u payload now) = .error (.unprocessable es) := by
      intro db
      simp only [Crud.handle]
      rw [hb]
      rfl
    rw [edit_of_error (hrefuse t₁.db), edit_of_error (hrefuse t₂.db)]
    exact .same _
  | ok b =>
    have hchecks := createChecks_congr (ownedJobs_congr h) b
    cases hc : createChecks t₁.db b u with
    | error e =>
      rw [edit_of_error (handle_create_error hb (createJob_error now hc)),
        edit_of_error (handle_create_error hb (createJob_error now (hchecks.symm.trans hc)))]
      exact .same _
    | ok _ =>
      obtain ⟨db₁, hcreate₁, hresponse₁⟩ := createJob_ok now hc
      obtain ⟨db₂, hcreate₂, hresponse₂⟩ := createJob_ok now (hchecks.symm.trans hc)
      rw [edit_of_ok (handle_create_ok hb hcreate₁), edit_of_ok (handle_create_ok hb hcreate₂),
        hresponse₁, hresponse₂]
      exact .newJob (jobOut (jobRow b u now 0) (b.dependsOn.eraseDups.map Int.toNat))

theorem handle_update {db : Database} {jobId : JobId} {payload : JobUpdate} {now : Time}
    {job : Job} (hjob : getJob db jobId u = some job) :
    Crud.handle isValid db (.update u jobId payload now) =
      (updateJob isValid db job payload now).mapError .crud := by
  simp only [Crud.handle]
  rw [hjob]

theorem updateJob_same (h : rowsOf t₁ u = rowsOf t₂ u) (jobId : JobId) (payload : JobUpdate)
    (now : Time) :
    SameResponse t₁ t₂ (Routes.handle isValid t₁ u (.updateJob jobId payload now)).response
      (Routes.handle isValid t₂ u (.updateJob jobId payload now)).response := by
  simp only [Routes.handle]
  have hget := getJob_congr (ownedJobs_congr h) jobId
  cases hjob : getJob t₁.db jobId u with
  | none =>
    have hmissing : ∀ t : Tables, getJob t.db jobId u = none →
        Crud.handle isValid t.db (.update u jobId payload now) = .error .notFound := by
      intro t ht
      simp only [Crud.handle]
      rw [ht]
    rw [edit_of_error (hmissing t₁ hjob), edit_of_error (hmissing t₂ (hget.symm.trans hjob))]
    exact .same _
  | some job =>
    have hjob₂ : getJob t₂.db jobId u = some job := hget.symm.trans hjob
    obtain ⟨hmem₁, hid, howner⟩ := getJob_eq_some hjob
    obtain ⟨hmem₂, -, -⟩ := getJob_eq_some hjob₂
    have hchecks : updateChecks isValid t₁.db job payload =
        updateChecks isValid t₂.db job payload :=
      updateChecks_congr (ownedJobs_congr h) howner payload
    have hids : updatedIds t₁.db job payload = updatedIds t₂.db job payload := by
      unfold updatedIds
      rw [dependencyIds_congr h ((ownerOf_of_mem hmem₁).trans howner)]
    subst hid
    cases hc : updateChecks isValid t₁.db job payload with
    | error e =>
      have hc₂ := hchecks.symm.trans hc
      rw [edit_of_error (by rw [handle_update hjob, updateJob_error now hc]; rfl),
        edit_of_error (by rw [handle_update hjob₂, updateJob_error now hc₂]; rfl)]
      exact .same _
    | ok merged =>
      obtain ⟨db₁, hupdate₁, hresponse₁⟩ := updateJob_ok now hmem₁ hc
      obtain ⟨db₂, hupdate₂, hresponse₂⟩ := updateJob_ok now hmem₂ (hchecks.symm.trans hc)
      rw [edit_of_ok (by rw [handle_update hjob, hupdate₁]; rfl),
        edit_of_ok (by rw [handle_update hjob₂, hupdate₂]; rfl), hresponse₁, hresponse₂, hids]
      exact .same _

theorem deleteJob_same (h : rowsOf t₁ u = rowsOf t₂ u) (jobId : JobId) :
    (Routes.handle isValid t₁ u (.deleteJob jobId)).response =
      (Routes.handle isValid t₂ u (.deleteJob jobId)).response := by
  simp only [Routes.handle, edit, Crud.handle]
  rw [← getJob_congr (ownedJobs_congr h)]
  cases getJob t₁.db jobId u with
  | none => rfl
  | some job => rfl

/-! ### The routes that read -/

theorem withJob_same (h : rowsOf t₁ u = rowsOf t₂ u) (jobId : JobId)
    {respond₁ respond₂ : Job → Response}
    (hrespond : ∀ job ∈ ownedJobs t₁.db u, job.id = jobId → respond₁ job = respond₂ job) :
    (withJob t₁ jobId u respond₁).response = (withJob t₂ jobId u respond₂).response := by
  unfold withJob
  rw [← getJob_congr (ownedJobs_congr h)]
  cases hjob : getJob t₁.db jobId u with
  | none => rfl
  | some job =>
    obtain ⟨hmem, hid, howner⟩ := getJob_eq_some hjob
    exact hrespond job (mem_ownedJobs.mpr ⟨hmem, howner⟩) hid

theorem withRun_same (h : rowsOf t₁ u = rowsOf t₂ u) (runId : RunId)
    {respond₁ respond₂ : JobRun → Response}
    (hrespond : ∀ r, t₁.db.ownedRun runId u = some r → respond₁ r = respond₂ r) :
    (withRun t₁ runId u respond₁).response = (withRun t₂ runId u respond₂).response := by
  unfold withRun
  rw [← ownedRun_congr h]
  cases hrun : t₁.db.ownedRun runId u with
  | none => rfl
  | some r => exact hrespond r hrun

theorem ownerOf_of_owned {db : Database} {job : Job} {jobId : JobId}
    (hjob : job ∈ ownedJobs db u) (hid : job.id = jobId) : ownerOf db jobId = some u := by
  obtain ⟨hmem, howner⟩ := mem_ownedJobs.mp hjob
  rw [← hid, ownerOf_of_mem hmem, howner]

theorem mem_latestRun {db : Database} {jobId : JobId} {r : JobRun}
    (h : latestRun db jobId = some r) : r ∈ db.runs.rows ∧ r.jobId = jobId := by
  have hmem := List.mem_mergeSort.mp (List.mem_of_mem_head? h)
  unfold jobRuns at hmem
  rw [List.mem_filter, decide_eq_true_eq] at hmem
  exact hmem

theorem ownedRun_of_mem {db : Database} {r : JobRun} (hr : r ∈ db.runs.rows)
    (howner : ownerOf db r.jobId = some u) : db.ownedRun r.id u = some r := by
  have hget : db.runs.get r.id = some r := Table.get_of_mem hr
  exact Option.filter_eq_some_iff.mpr ⟨hget, getJob_isSome.mpr howner⟩

theorem listJobs_same (h : rowsOf t₁ u = rowsOf t₂ u) (enabled : Option Bool)
    (limit offset : ℕ) :
    (Routes.handle isValid t₁ u (.listJobs enabled limit offset)).response =
      (Routes.handle isValid t₂ u (.listJobs enabled limit offset)).response := by
  simp only [Routes.handle, answer]
  rw [← ownedJobs_congr h]
  congr 1
  refine List.map_congr_left fun job hjob => jobToDict_congr h ?_
  exact (List.mem_filter.mp (List.mem_of_mem_drop (List.mem_of_mem_take hjob))).1

theorem listRecentJobs_same (h : rowsOf t₁ u = rowsOf t₂ u) (limit : ℕ) :
    (Routes.handle isValid t₁ u (.listRecentJobs limit)).response =
      (Routes.handle isValid t₂ u (.listRecentJobs limit)).response := by
  simp only [Routes.handle, answer]
  rw [← ownedJobs_congr h]
  congr 1
  refine List.map_congr_left fun job hjob => ?_
  have hmem : job ∈ ownedJobs t₁.db u := List.mem_mergeSort.mp (List.mem_of_mem_take hjob)
  rw [jobToDict_congr h hmem, latestRun_congr h (ownerOf_of_owned hmem rfl)]

theorem listRuns_same (h : rowsOf t₁ u = rowsOf t₂ u) (statusFilter : Option String)
    (limit offset : ℕ) :
    (Routes.handle isValid t₁ u (.listRuns statusFilter limit offset)).response =
      (Routes.handle isValid t₂ u (.listRuns statusFilter limit offset)).response := by
  have hruns : ownedRuns t₁.db u = ownedRuns t₂.db u := congrArg Rows.runs h
  simp only [Routes.handle, answer]
  rw [hruns]

theorem getLatestJobRunLogs_same (h : rowsOf t₁ u = rowsOf t₂ u) (jobId : JobId)
    (limit offset : ℕ) :
    (Routes.handle isValid t₁ u (.getLatestJobRunLogs jobId limit offset)).response =
      (Routes.handle isValid t₂ u (.getLatestJobRunLogs jobId limit offset)).response := by
  refine withJob_same h jobId fun job hjob hid => ?_
  have howner := ownerOf_of_owned hjob hid
  rw [← latestRun_congr h howner]
  cases hlatest : latestRun t₁.db jobId with
  | none => rfl
  | some r =>
    obtain ⟨hr, hrj⟩ := mem_latestRun hlatest
    dsimp only
    rw [logsOfRun_congr h (ownedRun_of_mem hr (by rw [hrj]; exact howner))]

/-! ### retry_run and cancel_run -/

theorem retryRun_same (h : rowsOf t₁ u = rowsOf t₂ u) (runId : RunId) (now : Time) :
    SameResponse t₁ t₂ (Routes.retryRun t₁ u runId now).response
      (Routes.retryRun t₂ u runId now).response := by
  unfold Routes.retryRun
  have hrun₂ := ownedRun_congr h runId
  cases hrun : t₁.db.ownedRun runId u with
  | none =>
    rw [← hrun₂, hrun]
    exact .same _
  | some run =>
    rw [← hrun₂, hrun]
    have hcreate : ∀ t : Tables, t.db.ownedRun runId u = some run → ∃ db',
        t.db.createRun run.jobId .retry none (run.attempt + 1) .queued now =
          some (db', t.db.runs.next) ∧
        runResponse db' t.db.runs.next = .run (NewRun.row
          ⟨run.jobId, .retry, .queued, run.attempt + 1, none, now⟩ t.db.runs.next) := by
      intro t ht
      have ha : t.db.Admits ⟨run.jobId, .retry, .queued, run.attempt + 1, none, now⟩ :=
        ⟨t.db.run_fk run (Table.mem_of_get (ownedRun_eq_some ht).1), fun _ _ _ _ => rfl⟩
      refine ⟨t.db.addRun _ ha, ?_, ?_⟩
      · unfold createRun insertRun
        rw [dif_pos ha]
      · unfold runResponse
        rw [get_addRun, if_pos rfl]
    obtain ⟨db₁, hdb₁, hresponse₁⟩ := hcreate t₁ hrun
    obtain ⟨db₂, hdb₂, hresponse₂⟩ := hcreate t₂ (hrun₂.symm.trans hrun)
    dsimp only
    split
    · rw [hdb₁, hdb₂]
      dsimp only
      rw [hresponse₁, hresponse₂]
      exact .newRun (NewRun.row ⟨run.jobId, .retry, .queued, run.attempt + 1, none, now⟩ 0) 0
    · exact .same _

theorem cancelRun_same (h : rowsOf t₁ u = rowsOf t₂ u) (runId : RunId) (now : Time) :
    (Routes.cancelRun t₁ u runId now).response = (Routes.cancelRun t₂ u runId now).response := by
  unfold Routes.cancelRun
  have hrun₂ := ownedRun_congr h runId
  cases hrun : t₁.db.ownedRun runId u with
  | none =>
    rw [← hrun₂, hrun]
    rfl
  | some run =>
    rw [← hrun₂, hrun]
    -- The run is not terminal: it is the row that the UPDATE matches.
    have hcancel : ∀ t : Tables, t.db.ownedRun runId u = some run → run.status.active = true →
        (Store.cancelRun t.db runId now).2 = true ∧
        (Store.cancelRun t.db runId now).1.ownedRun runId u = some (Store.canceledRow now run) := by
      intro t ht hactive
      obtain ⟨hget, howner⟩ := ownedRun_eq_some ht
      refine ⟨Store.matchesRun_iff.mpr ⟨run, hget, hactive⟩, ?_⟩
      have hnew : (Store.cancelRun t.db runId now).1.runs.get runId =
          some (Store.canceledRow now run) := by
        refine (get_updateRuns _ _ _ (Store.canceledRow_keeps now) _).trans ?_
        have hsel : Store.selects runId RunStatus.active run = true := by
          unfold Store.selects
          rw [hactive, Bool.and_true]
          exact decide_eq_true (Table.key_of_get hget)
        rw [hget, Option.map_some, Table.rewrite, if_pos hsel]
      exact Option.filter_eq_some_iff.mpr ⟨hnew, getJob_isSome.mpr howner⟩
    dsimp only
    split
    · rfl
    · rename_i hterminal
      have hactive : run.status.active = true := by
        cases hs : run.status <;> simp_all [RunStatus.active, RunStatus.terminal]
      obtain ⟨hmatch₁, howned₁⟩ := hcancel t₁ hrun hactive
      obtain ⟨hmatch₂, howned₂⟩ := hcancel t₂ (hrun₂.symm.trans hrun) hactive
      have hpair : ∀ x : Database × Bool, x.2 = true → x = (x.1, true) := by
        rintro ⟨db', _⟩ rfl
        rfl
      rw [hpair _ hmatch₁, hpair _ hmatch₂]
      dsimp only
      rw [howned₁, howned₂]

end

/-! ### The recursion of a trigger on both tables -/

/- Runs inserted one after the other, the first with id i. -/
def numbered : RunId → List NewRun → List JobRun
  | _, [] => []
  | i, n :: new => n.row i :: numbered (i + 1) new

theorem numbered_concat (i : RunId) (new : List NewRun) (n : NewRun) :
    numbered i (new ++ [n]) = numbered i new ++ [n.row (i + new.length)] := by
  induction new generalizing i with
  | nil => rfl
  | cons m new ih =>
    rw [List.cons_append, numbered, numbered, ih, List.length_cons, List.cons_append,
      Nat.add_right_comm, Nat.add_assoc]

theorem le_of_mem_numbered {i : RunId} {new : List NewRun} {r : JobRun}
    (h : r ∈ numbered i new) : i ≤ r.id := by
  induction new generalizing i with
  | nil => cases h
  | cons n new ih =>
    rcases List.mem_cons.mp h with rfl | h
    · exact Nat.le_refl i
    · exact Nat.le_of_succ_le (ih h)

structure Added (base : Database) (new : List NewRun) (db : Database) : Prop where
  jobs : db.jobs = base.jobs
  dependencies : db.dependencies = base.dependencies
  rows : db.runs.rows = base.runs.rows ++ numbered base.runs.next new
  next : db.runs.next = base.runs.next + new.length

theorem Added.refl (base : Database) : Added base [] base :=
  ⟨rfl, rfl, (List.append_nil _).symm, rfl⟩

theorem Added.dependencyIds {base db : Database} {new : List NewRun} (h : Added base new db)
    (j : JobId) : db.dependencyIds j = base.dependencyIds j := by
  unfold Database.dependencyIds
  rw [h.dependencies]

theorem Added.addRun {base db : Database} {new : List NewRun} (h : Added base new db)
    {n : NewRun} (ha : db.Admits n) : Added base (new ++ [n]) (db.addRun n ha) where
  jobs := h.jobs
  dependencies := h.dependencies
  rows := by
    show db.runs.rows ++ [n.row db.runs.next] = _
    rw [h.rows, h.next, numbered_concat, List.append_assoc]
  next := by
    show db.runs.next + 1 = _
    rw [h.next, List.length_append, List.length_singleton, Nat.add_assoc]

/- The row as the other table has it: the sequence of the new rows starts at n₂, not at n₁. -/
def renumber (n₁ n₂ : RunId) (r : JobRun) : JobRun :=
  if r.id < n₁ then r else { r with id := n₂ + (r.id - n₁) }

theorem renumber_of_lt {n₁ n₂ : RunId} {r : JobRun} (h : r.id < n₁) : renumber n₁ n₂ r = r :=
  if_pos h

theorem renumber_row (n₁ n₂ : RunId) (n : NewRun) (k : ℕ) :
    renumber n₁ n₂ (n.row (n₁ + k)) = n.row (n₂ + k) := by
  have hnot : ¬ (n.row (n₁ + k)).id < n₁ := Nat.not_lt.mpr (Nat.le_add_right n₁ k)
  unfold renumber
  rw [if_neg hnot]
  show n.row (n₂ + (n₁ + k - n₁)) = _
  rw [Nat.add_sub_cancel_left]

theorem map_renumber_numbered (n₁ n₂ : RunId) (new : List NewRun) (k : ℕ) :
    (numbered (n₁ + k) new).map (renumber n₁ n₂) = numbered (n₂ + k) new := by
  induction new generalizing k with
  | nil => rfl
  | cons n new ih =>
    rw [numbered, numbered, List.map_cons, renumber_row]
    exact congrArg _ (ih (k + 1))

theorem renumber_fields (n₁ n₂ : RunId) (r : JobRun) :
    (renumber n₁ n₂ r).jobId = r.jobId ∧ (renumber n₁ n₂ r).status = r.status ∧
      (renumber n₁ n₂ r).createdAt = r.createdAt := by
  unfold renumber
  split <;> exact ⟨rfl, rfl, rfl⟩

theorem Age.lt_iff {a b : Age} :
    a < b ↔ a.createdAt < b.createdAt ∨ a.createdAt = b.createdAt ∧ a.id < b.id := by
  show ((_ ∨ _ ∧ _) ∧ ¬ (_ ∨ _ ∧ _)) ↔ _
  omega

theorem age_renumber_lt {n₁ n₂ : RunId} {a b : JobRun} (ha : a.id < n₁ → a.id < n₂)
    (hb : b.id < n₁ → b.id < n₂) :
    (renumber n₁ n₂ a).age < (renumber n₁ n₂ b).age ↔ a.age < b.age := by
  have hid : (renumber n₁ n₂ a).id < (renumber n₁ n₂ b).id ↔ a.id < b.id := by
    unfold renumber
    by_cases hlt₁ : a.id < n₁ <;> by_cases hlt₂ : b.id < n₁ <;>
      simp only [hlt₁, hlt₂, if_true, if_false] <;> grind
  rw [Age.lt_iff, Age.lt_iff]
  show (renumber n₁ n₂ a).createdAt < (renumber n₁ n₂ b).createdAt ∨
    (renumber n₁ n₂ a).createdAt = (renumber n₁ n₂ b).createdAt ∧
      (renumber n₁ n₂ a).id < (renumber n₁ n₂ b).id ↔ _
  rw [(renumber_fields n₁ n₂ a).2.2, (renumber_fields n₁ n₂ b).2.2, hid]
  rfl

section
variable {t₁ t₂ : Tables} {u : UserId}

/- The oldest run of a job of u: a row of u from before, or the row inserted at the same place
in both. -/
theorem oldestRun_renumber (h : rowsOf t₁ u = rowsOf t₂ u) {new : List NewRun}
    {db₁ db₂ : Database} (h₁ : Added t₁.db new db₁) (h₂ : Added t₂.db new db₂) {j : JobId}
    (hj : ownerOf t₁.db j = some u) (p : RunStatus → Bool) :
    db₂.oldestRun j p =
      (db₁.oldestRun j p).map (renumber t₁.db.runs.next t₂.db.runs.next) := by
  have hruns := jobRuns_congr h hj
  have hrows : ∀ {t : Tables} {db : Database}, Added t.db new db →
      (db.runs.rows.filter fun r => decide (r.jobId = j) && p r.status) =
        ((jobRuns t.db j).filter fun r => p r.status) ++ (numbered t.db.runs.next new).filter
          fun r => decide (r.jobId = j) && p r.status := by
    intro t db hadd
    rw [hadd.rows, List.filter_append, jobRuns, List.filter_filter]
    congr 1
    exact List.filter_congr fun r _ => Bool.and_comm _ _
  have hold : ∀ {r : JobRun}, r ∈ jobRuns t₁.db j →
      r.id < t₁.db.runs.next ∧ r.id < t₂.db.runs.next := by
    intro r hr
    refine ⟨t₁.db.runs.fresh r (List.mem_filter.mp hr).1, ?_⟩
    exact t₂.db.runs.fresh r (List.mem_filter.mp (hruns ▸ hr)).1
  have hmap : (db₂.runs.rows.filter fun r => decide (r.jobId = j) && p r.status) =
      (db₁.runs.rows.filter fun r => decide (r.jobId = j) && p r.status).map
        (renumber t₁.db.runs.next t₂.db.runs.next) := by
    rw [hrows h₁, hrows h₂, List.map_append, ← hruns]
    congr 1
    · symm
      refine (List.map_congr_left fun r hr => ?_).trans (List.map_id _)
      exact renumber_of_lt (hold (List.mem_filter.mp hr).1).1
    · have hnew : (numbered t₁.db.runs.next new).map
          (renumber t₁.db.runs.next t₂.db.runs.next) = numbered t₂.db.runs.next new :=
        map_renumber_numbered _ _ new 0
      rw [← hnew, List.filter_map]
      congr 1
      refine List.filter_congr fun r _ => ?_
      obtain ⟨hjob, hstatus, -⟩ := renumber_fields t₁.db.runs.next t₂.db.runs.next r
      rw [Function.comp_apply, hjob, hstatus]
  unfold oldestRun
  rw [hmap]
  refine Positions.argmin_map fun a ha b hb => ?_
  rw [hrows h₁] at ha hb
  have hlt : ∀ {r : JobRun}, r ∈ ((jobRuns t₁.db j).filter fun r => p r.status) ++
      ((numbered t₁.db.runs.next new).filter fun r => decide (r.jobId = j) && p r.status) →
      r.id < t₁.db.runs.next → r.id < t₂.db.runs.next := by
    intro r hr hid
    rcases List.mem_append.mp hr with hr | hr
    · exact (hold (List.mem_filter.mp hr).1).2
    · exact absurd hid (Nat.not_lt.mpr (le_of_mem_numbered (List.mem_filter.mp hr).1))
  exact age_renumber_lt (hlt ha) (hlt hb)

/- One insertion of the recursion. -/
theorem createRun_added {base db : Database} {new : List NewRun} (h : Added base new db)
    {j : JobId} (hj : ownerOf base j = some u) (tt : TriggerType) (status : RunStatus)
    (now : Time) : ∃ db', db.createRun j tt none 1 status now =
        some (db', base.runs.next + new.length) ∧
      Added base (new ++ [triggeredRow now j tt status]) db' ∧
      db'.runs.get (base.runs.next + new.length) =
        some ((triggeredRow now j tt status).row (base.runs.next + new.length)) := by
  have ha : db.Admits (triggeredRow now j tt status) := by
    obtain ⟨job, hjob, hid, -⟩ := ownerOf_eq_some.mp hj
    exact ⟨⟨job, by rw [h.jobs]; exact hjob, hid⟩, fun _ _ _ _ => rfl⟩
  refine ⟨db.addRun _ ha, ?_, h.addRun ha, ?_⟩
  · rw [← h.next]
    exact dif_pos ha
  · rw [← h.next, get_addRun, if_pos rfl]

/- The two tables in the middle of a trigger. -/
def SameAdded (t₁ t₂ : Tables) (st₁ st₂ : Prepared) : Prop :=
  ∃ new, Added t₁.db new st₁.1 ∧ Added t₂.db new st₂.1

def SameRun (t₁ t₂ : Tables) (x₁ x₂ : Prepared × RunId) : Prop :=
  SameAdded t₁ t₂ x₁.1 x₂.1 ∧ ∃ r, x₁.1.1.runs.get x₁.2 = some r ∧
    x₂.1.1.runs.get x₂.2 = some (renumber t₁.db.runs.next t₂.db.runs.next r)

theorem SameRun.created {new : List NewRun} {db₁ db₂ : Database} {n : NewRun}
    (h₁ : Added t₁.db (new ++ [n]) db₁) (h₂ : Added t₂.db (new ++ [n]) db₂)
    (hget₁ : db₁.runs.get (t₁.db.runs.next + new.length) =
      some (n.row (t₁.db.runs.next + new.length)))
    (hget₂ : db₂.runs.get (t₂.db.runs.next + new.length) =
      some (n.row (t₂.db.runs.next + new.length))) (ids₁ ids₂ : List RunId) :
    SameRun t₁ t₂ ((db₁, ids₁), t₁.db.runs.next + new.length)
      ((db₂, ids₂), t₂.db.runs.next + new.length) :=
  ⟨⟨new ++ [n], h₁, h₂⟩, _, hget₁, by rw [renumber_row]; exact hget₂⟩

/- The loop over the dependencies of a job of u. -/
theorem foldlM_visit_agree (h : rowsOf t₁ u = rowsOf t₂ u)
    {prepare₁ prepare₂ : Prepared → JobId → Except ApiError (Prepared × RunId)}
    {deps : List JobId} (hcall : ∀ d ∈ deps, ∀ st₁ st₂, SameAdded t₁ t₂ st₁ st₂ →
      Agree .recursionError (SameRun t₁ t₂) (prepare₁ st₁ d) (prepare₂ st₂ d))
    (howner : ∀ d ∈ deps, ownerOf t₁.db d = some u) {st₁ st₂ : Prepared}
    (hsame : SameAdded t₁ t₂ st₁ st₂) :
    Agree .recursionError (SameAdded t₁ t₂) (deps.foldlM (visit prepare₁) st₁)
      (deps.foldlM (visit prepare₂) st₂) := by
  refine Agree.foldlM (fun d hd acc₁ acc₂ hacc => ?_) hsame
  obtain ⟨new, ha₁, ha₂⟩ := hacc
  have hactive : acc₂.1.activeRun d = (acc₁.1.activeRun d).map _ :=
    oldestRun_renumber h ha₁ ha₂ (howner d hd) RunStatus.active
  unfold visit
  rw [hactive]
  cases acc₁.1.activeRun d with
  | some r => exact .ok ⟨new, ha₁, ha₂⟩
  | none => exact (hcall d hd acc₁ acc₂ ⟨new, ha₁, ha₂⟩).map fun _ _ hrun => hrun.1

/- The two recursions walk along the same edges. The bounds on their depth differ, because the
edges of other accounts count as well. -/
theorem prepareTriggerRun_agree (h : rowsOf t₁ u = rowsOf t₂ u) (hwithin : WithinOwner t₁.db)
    (now : Time) :
    ∀ (fuel₁ fuel₂ : ℕ) (st₁ st₂ : Prepared) (job : JobId) (tt : TriggerType)
      (stack : List JobId), ownerOf t₁.db job = some u → SameAdded t₁ t₂ st₁ st₂ →
      Agree .recursionError (SameRun t₁ t₂) (prepareTriggerRun now fuel₁ st₁ job tt stack)
        (prepareTriggerRun now fuel₂ st₂ job tt stack) := by
  intro fuel₁
  induction fuel₁ with
  | zero =>
    intro fuel₂ st₁ st₂ job tt stack _ _
    exact .left _
  | succ fuel₁ ih =>
    intro fuel₂ st₁ st₂ job tt stack howner hsame
    cases fuel₂ with
    | zero => exact .right _
    | succ fuel₂ =>
      have howner₂ : ownerOf t₂.db job = some u := (ownerOf_iff (ownedJobs_congr h) job).mp howner
      obtain ⟨new, h₁, h₂⟩ := hsame
      have hdeps : st₁.1.dependencyIds job = st₂.1.dependencyIds job := by
        rw [h₁.dependencyIds, h₂.dependencyIds]
        exact dependencyIds_congr h howner
      have hdepOwner : ∀ d ∈ st₁.1.dependencyIds job, ownerOf t₁.db d = some u := by
        intro d hd
        rw [h₁.dependencyIds] at hd
        rw [← hwithin job d (mem_dependencyIds.mp hd)]
        exact howner
      rw [prepareTriggerRun, prepareTriggerRun, ← hdeps]
      split
      · exact .error _
      · split
        · obtain ⟨db₁, hcreate₁, hadd₁, hget₁⟩ := createRun_added h₁ howner tt .queued now
          obtain ⟨db₂, hcreate₂, hadd₂, hget₂⟩ := createRun_added h₂ howner₂ tt .queued now
          rw [hcreate₁, hcreate₂]
          exact .ok (.created hadd₁ hadd₂ hget₁ hget₂ _ _)
        · have hfold := foldlM_visit_agree h (fun d hd acc₁ acc₂ hacc =>
            ih fuel₂ acc₁ acc₂ d .dependency (stack ++ [job]) (hdepOwner d hd) hacc) hdepOwner
            ⟨new, h₁, h₂⟩
          generalize (st₁.1.dependencyIds job).foldlM (visit fun acc depId =>
            prepareTriggerRun now fuel₁ acc depId .dependency (stack ++ [job])) st₁ = x₁ at hfold ⊢
          generalize (st₁.1.dependencyIds job).foldlM (visit fun acc depId =>
            prepareTriggerRun now fuel₂ acc depId .dependency (stack ++ [job])) st₂ = x₂ at hfold ⊢
          cases hfold with
          | left => exact .left _
          | right => exact .right _
          | error e => exact .error e
          | @ok acc₁ acc₂ hacc => ?_
          obtain ⟨added, ha₁, ha₂⟩ := hacc
          have hactive : acc₂.1.activeRun job = (acc₁.1.activeRun job).map _ :=
            oldestRun_renumber h ha₁ ha₂ howner RunStatus.active
          dsimp only
          rw [hactive]
          cases hexisting : acc₁.1.activeRun job with
          | some r =>
            refine .ok ⟨⟨added, ha₁, ha₂⟩, r, ?_, ?_⟩
            · exact Table.get_of_mem (oldestRun_eq_some hexisting).1
            · rw [hexisting, Option.map_some] at hactive
              exact Table.get_of_mem (oldestRun_eq_some hactive).1
          | none =>
            obtain ⟨db₁, hcreate₁, hadd₁, hget₁⟩ := createRun_added ha₁ howner tt .pending now
            obtain ⟨db₂, hcreate₂, hadd₂, hget₂⟩ := createRun_added ha₂ howner₂ tt .pending now
            dsimp only [Option.map_none]
            rw [hcreate₁, hcreate₂]
            exact .ok (.created hadd₁ hadd₂ hget₁ hget₂ _ _)

theorem sameResponse_renumber (r : JobRun) : SameResponse t₁ t₂ (.run r)
    (.run (renumber t₁.db.runs.next t₂.db.runs.next r)) := by
  by_cases hid : r.id < t₁.db.runs.next
  · rw [renumber_of_lt hid]
    exact .same _
  · have hr : r = { r with id := t₁.db.runs.next + (r.id - t₁.db.runs.next) } := by
      rw [Nat.add_sub_cancel' (Nat.not_lt.mp hid)]
    unfold renumber
    rw [if_neg hid]
    nth_rewrite 1 [hr]
    exact .newRun r _

theorem triggerJob_same (h : rowsOf t₁ u = rowsOf t₂ u) (hwithin : WithinOwner t₁.db)
    (jobId : JobId) (now : Time) :
    SameResponse t₁ t₂ (Routes.triggerJob t₁ u jobId now).response
      (Routes.triggerJob t₂ u jobId now).response := by
  have hagree : Agree .recursionError (SameRun t₁ t₂) (Api.triggerJob t₁.db u jobId now)
      (Api.triggerJob t₂.db u jobId now) := by
    unfold Api.triggerJob
    rw [← getJob_congr (ownedJobs_congr h)]
    cases hjob : getJob t₁.db jobId u with
    | none => exact .error _
    | some job =>
      have howner : ownerOf t₁.db jobId = some u := getJob_isSome.mp (by rw [hjob]; rfl)
      exact prepareTriggerRun_agree h hwithin now _ _ _ _ _ _ _ howner
        ⟨[], Added.refl _, Added.refl _⟩
  have hne₁ := triggerJob_ne_recursionError t₁.db u jobId now
  have hne₂ := triggerJob_ne_recursionError t₂.db u jobId now
  unfold Routes.triggerJob
  generalize Api.triggerJob t₁.db u jobId now = x₁ at hagree hne₁ ⊢
  generalize Api.triggerJob t₂.db u jobId now = x₂ at hagree hne₂ ⊢
  cases hagree with
  | left => exact absurd rfl hne₁
  | right => exact absurd rfl hne₂
  | error e => cases e <;> exact .same _
  | @ok x y hrun =>
    obtain ⟨-, r, hget₁, hget₂⟩ := hrun
    show SameResponse t₁ t₂ (runResponse x.1.1 x.2) (runResponse y.1.1 y.2)
    unfold runResponse
    rw [hget₁, hget₂]
    exact sameResponse_renumber r

/-- Two sets of tables in which u has the same rows answer a request of u alike. -/
theorem handle_same (isValid : String → Bool) (h : rowsOf t₁ u = rowsOf t₂ u)
    (hwithin : WithinOwner t₁.db) (req : Routes.Request) :
    SameResponse t₁ t₂ (Routes.handle isValid t₁ u req).response
      (Routes.handle isValid t₂ u req).response := by
  cases req with
  | createJob payload now => exact createJob_same h payload now
  | updateJob jobId payload now => exact updateJob_same h jobId payload now
  | deleteJob jobId => exact same_of_eq (deleteJob_same h jobId)
  | triggerJob jobId now => exact triggerJob_same h hwithin jobId now
  | retryRun runId now => exact retryRun_same h runId now
  | cancelRun runId now => exact same_of_eq (cancelRun_same h runId now)
  | listJobs enabled limit offset => exact same_of_eq (listJobs_same h enabled limit offset)
  | listRecentJobs limit => exact same_of_eq (listRecentJobs_same h limit)
  | listRuns statusFilter limit offset =>
    exact same_of_eq (listRuns_same h statusFilter limit offset)
  | getJob jobId =>
    refine same_of_eq (withJob_same h jobId fun job hjob _ => ?_)
    rw [jobToDict_congr h hjob]
  | getLatestJobRun jobId =>
    refine same_of_eq (withJob_same h jobId fun job hjob hid => ?_)
    rw [latestRun_congr h (ownerOf_of_owned hjob hid)]
  | getLatestJobRunLogs jobId limit offset =>
    exact same_of_eq (getLatestJobRunLogs_same h jobId limit offset)
  | listJobRuns jobId statusFilter limit offset =>
    refine same_of_eq (withJob_same h jobId fun job hjob hid => ?_)
    rw [jobRuns_congr h (ownerOf_of_owned hjob hid)]
  | getRun runId => exact same_of_eq (withRun_same h runId fun _ _ => rfl)
  | getRunLogs runId limit offset =>
    refine same_of_eq (withRun_same h runId fun r hr => ?_)
    rw [logsOfRun_congr h hr]

end

end JobScheduler.Tenants
