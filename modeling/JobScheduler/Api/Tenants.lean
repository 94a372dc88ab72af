import JobScheduler.Api.Dag
import JobScheduler.Api.Routes

/-!
# Whose rows they are

A job has an owner, an edge and a run belong to the owner of their job, a log to the owner of
its run. The triggers, the fan-out of the worker and the cascades of a deletion follow edges
without looking at owners again; `WithinOwner` is what keeps them inside one account.
-/

namespace JobScheduler.Tenants
open Library Database Schemas Api Crud Routes

def ownerOf (db : Database) (j : JobId) : Option UserId := (db.jobs.get j).bind Job.ownerUserId

/-- Every edge joins two jobs of one owner. -/
def WithinOwner (db : Database) : Prop :=
  ∀ j k, db.DependsOn j k → ownerOf db j = ownerOf db k

theorem ownerOf_eq_some {db : Database} {j : JobId} {u : UserId} :
    ownerOf db j = some u ↔ ∃ job ∈ db.jobs.rows, job.id = j ∧ job.ownerUserId = some u := by
  unfold ownerOf
  rw [Option.bind_eq_some_iff]
  simp only [Table.get_eq_some, key_job, and_assoc]

theorem ownerOf_of_mem {db : Database} {job : Job} (h : job ∈ db.jobs.rows) :
    ownerOf db job.id = job.ownerUserId := by
  have hget : db.jobs.get job.id = some job := Table.get_of_mem h
  unfold ownerOf
  rw [hget, Option.bind_some]

theorem getJob_isSome {db : Database} {j : JobId} {u : UserId} :
    (getJob db j u).isSome = true ↔ ownerOf db j = some u := by
  unfold getJob ownerOf
  cases db.jobs.get j with
  | none => simp
  | some job => simp [Option.filter_some]

theorem getJob_eq_some {db : Database} {j : JobId} {u : UserId} {job : Job}
    (h : getJob db j u = some job) :
    job ∈ db.jobs.rows ∧ job.id = j ∧ job.ownerUserId = some u := by
  obtain ⟨hget, howner⟩ := Option.filter_eq_some_iff.mp h
  exact ⟨Table.mem_of_get hget, Table.key_of_get hget, of_decide_eq_true howner⟩

theorem ownerOf_congr {db db' : Database} (h : db'.jobs = db.jobs) (j : JobId) :
    ownerOf db' j = ownerOf db j := by
  unfold ownerOf
  rw [h]

/-! ### The rows of one user -/

def ownedEdges (db : Database) (u : UserId) : List JobDependency :=
  db.dependencies.rows.filter fun d => decide (ownerOf db d.jobId = some u)

def ownedLogs (t : Tables) (u : UserId) : List JobRunLog :=
  t.logs.rows.filter fun l =>
    (t.db.runs.get l.runId).any fun r => decide (ownerOf t.db r.jobId = some u)

structure Rows where
  jobs : List Job
  dependencies : List JobDependency
  runs : List JobRun
  logs : List JobRunLog

def rowsOf (t : Tables) (u : UserId) : Rows where
  jobs := ownedJobs t.db u
  dependencies := ownedEdges t.db u
  runs := ownedRuns t.db u
  logs := ownedLogs t u

theorem mem_ownedJobs {db : Database} {u : UserId} {job : Job} :
    job ∈ ownedJobs db u ↔ job ∈ db.jobs.rows ∧ job.ownerUserId = some u := by
  unfold ownedJobs
  rw [List.mem_filter, decide_eq_true_eq]

/-! ### Commits that spare a user -/

/-- The commit from db to db' leaves the rows of v alone. -/
structure Spares (v : UserId) (db db' : Database) : Prop where
  jobs : ∀ job : Job, job.ownerUserId = some v → (job ∈ db'.jobs.rows ↔ job ∈ db.jobs.rows)
  edges : ∀ d : JobDependency, ownerOf db d.jobId = some v →
    (d ∈ db'.dependencies.rows ↔ d ∈ db.dependencies.rows)
  runs : ∀ r : JobRun, ownerOf db r.jobId = some v → (r ∈ db'.runs.rows ↔ r ∈ db.runs.rows)

namespace Spares
variable {v : UserId} {db db' db'' : Database}

theorem refl (v : UserId) (db : Database) : Spares v db db :=
  ⟨fun _ _ => Iff.rfl, fun _ _ => Iff.rfl, fun _ _ => Iff.rfl⟩

theorem ownerOf_iff (h : Spares v db db') (j : JobId) :
    ownerOf db' j = some v ↔ ownerOf db j = some v := by
  rw [ownerOf_eq_some, ownerOf_eq_some]
  constructor
  · rintro ⟨job, hjob, hid, howner⟩
    exact ⟨job, (h.jobs job howner).mp hjob, hid, howner⟩
  · rintro ⟨job, hjob, hid, howner⟩
    exact ⟨job, (h.jobs job howner).mpr hjob, hid, howner⟩

theorem trans (h : Spares v db db') (k : Spares v db' db'') : Spares v db db'' where
  jobs := fun job howner => (k.jobs job howner).trans (h.jobs job howner)
  edges := fun d howner =>
    (k.edges d ((h.ownerOf_iff _).mpr howner)).trans (h.edges d howner)
  runs := fun r howner => (k.runs r ((h.ownerOf_iff _).mpr howner)).trans (h.runs r howner)

theorem rowsOf_commit {t : Tables} (h : Spares v t.db db') :
    rowsOf (t.commit db') v = rowsOf t v := by
  have hruns : ∀ r : JobRun, r ∈ db'.runs.rows ∧ ownerOf db' r.jobId = some v ↔
      r ∈ t.db.runs.rows ∧ ownerOf t.db r.jobId = some v := by
    intro r
    rw [h.ownerOf_iff]
    exact and_congr_left fun howner => h.runs r howner
  unfold rowsOf
  congr 1
  · refine Table.filter_rows_congr fun job => ?_
    rw [decide_eq_true_eq]
    exact and_congr_left fun howner => h.jobs job howner
  · refine Table.filter_rows_congr fun d => ?_
    rw [decide_eq_true_eq, decide_eq_true_eq]
    show d ∈ db'.dependencies.rows ∧ ownerOf db' d.jobId = some v ↔ _
    rw [h.ownerOf_iff]
    exact and_congr_left fun howner => h.edges d howner
  · refine Table.filter_rows_congr fun r => ?_
    rw [getJob_isSome, getJob_isSome]
    exact hruns r
  · refine Table.filter_rows_congr fun l => ?_
    rw [Option.any_eq_true, Option.any_eq_true]
    simp only [decide_eq_true_eq]
    show l ∈ (t.commit db').logs.rows ∧ (∃ r, db'.runs.get l.runId = some r ∧
      ownerOf db' r.jobId = some v) ↔ _
    constructor
    · rintro ⟨hl, r, hr, howner⟩
      obtain ⟨hmem, howner'⟩ := (hruns r).mp ⟨Table.mem_of_get hr, howner⟩
      have hget : t.db.runs.get l.runId = some r :=
        Table.get_eq_some.mpr ⟨hmem, Table.key_of_get hr⟩
      exact ⟨(Table.mem_rows_deleteWhere.mp hl).1, r, hget, howner'⟩
    · rintro ⟨hl, r, hr, howner⟩
      obtain ⟨hmem, howner'⟩ := (hruns r).mpr ⟨Table.mem_of_get hr, howner⟩
      have hget : db'.runs.get l.runId = some r :=
        Table.get_eq_some.mpr ⟨hmem, Table.key_of_get hr⟩
      refine ⟨Table.mem_rows_deleteWhere.mpr ⟨hl, ?_⟩, r, hget, howner'⟩
      rw [hget]
      rfl

/-! ### One statement -/

/- An update in place of rows that are not v's. -/
theorem updateRuns (p : JobRun → Bool) (f : JobRun → JobRun) (hf : KeepsRun f)
    (h : ∀ r ∈ db.runs.rows, p r = true → ownerOf db r.jobId ≠ some v) :
    Spares v db (db.updateRuns p f hf) where
  jobs := fun _ _ => Iff.rfl
  edges := fun _ _ => Iff.rfl
  runs := by
    intro r howner
    refine mem_runs_updateRuns.trans ?_
    constructor
    · rintro ⟨a, ha, rfl⟩
      rw [(hf.rewrite p a).2.1] at howner
      cases hp : p a with
      | true => exact absurd howner (h a ha hp)
      | false =>
        rw [Table.rewrite, hp]
        exact ha
    · intro hr
      refine ⟨r, hr, if_neg fun hp => ?_⟩
      exact h r hr hp howner

theorem updateJobs (p : Job → Bool) (f : Job → Job) (hf : Table.KeepsKey f)
    (howner : ∀ j, (f j).ownerUserId = j.ownerUserId)
    (h : ∀ j ∈ db.jobs.rows, p j = true → j.ownerUserId ≠ some v) :
    Spares v db (db.updateJobs p f hf) where
  jobs := by
    intro job hv
    refine mem_jobs_updateJobs.trans ?_
    constructor
    · rintro ⟨a, ha, rfl⟩
      cases hp : p a with
      | true =>
        rw [Table.rewrite, hp, if_pos rfl, howner] at hv
        exact absurd hv (h a ha hp)
      | false =>
        rw [Table.rewrite, hp]
        exact ha
    · intro hjob
      refine ⟨job, hjob, if_neg fun hp => ?_⟩
      exact h job hjob hp hv
  edges := fun _ _ => Iff.rfl
  runs := fun _ _ => Iff.rfl

theorem addJob (mk : JobId → Job) (hmk : ∀ i, (mk i).id = i)
    (h : (mk db.jobs.next).ownerUserId ≠ some v) : Spares v db (db.addJob mk hmk) where
  jobs := by
    intro job hv
    refine mem_jobs_addJob.trans (or_iff_left ?_)
    rintro rfl
    exact h hv
  edges := fun _ _ => Iff.rfl
  runs := fun _ _ => Iff.rfl

theorem deleteDependencies {j : JobId} (h : ownerOf db j ≠ some v) :
    Spares v db (db.deleteDependencies j) where
  jobs := fun _ _ => Iff.rfl
  edges := by
    intro d howner
    refine Table.mem_rows_deleteWhere.trans (and_iff_left ?_)
    rw [decide_eq_false_iff_not]
    rintro rfl
    exact h howner
  runs := fun _ _ => Iff.rfl

theorem addDependency {j k : JobId} (hadm : db.AdmitsDependency j k) (h : ownerOf db j ≠ some v) :
    Spares v db (db.addDependency j k hadm) where
  jobs := fun _ _ => Iff.rfl
  edges := by
    intro d howner
    refine Table.mem_rows_insert.trans (or_iff_left ?_)
    rintro rfl
    exact h howner
  runs := fun _ _ => Iff.rfl

/- The cascade takes edges in both directions along, none of which leads to v. -/
theorem deleteJob {j : JobId} (hwithin : WithinOwner db) (h : ownerOf db j ≠ some v) :
    Spares v db (db.deleteJob j) where
  jobs := by
    intro job hv
    refine ⟨fun hjob => (Table.mem_rows_deleteWhere.mp hjob).1, fun hjob => ?_⟩
    refine Table.mem_rows_deleteWhere.mpr ⟨hjob, ?_⟩
    rw [decide_eq_false_iff_not]
    rintro rfl
    exact h ((ownerOf_of_mem hjob).trans hv)
  edges := by
    intro d howner
    refine ⟨fun hd => (Table.mem_rows_deleteWhere.mp hd).1, fun hd => ?_⟩
    refine Table.mem_rows_deleteWhere.mpr ⟨hd, ?_⟩
    have hedge : ownerOf db d.jobId = ownerOf db d.dependsOnJobId := hwithin _ _ ⟨d, hd, rfl, rfl⟩
    rw [Bool.or_eq_false_iff, decide_eq_false_iff_not, decide_eq_false_iff_not]
    constructor
    · rintro rfl
      exact h howner
    · rintro rfl
      exact h (hedge.symm.trans howner)
  runs := by
    intro r howner
    refine ⟨fun hr => (Table.mem_rows_deleteWhere.mp hr).1, fun hr => ?_⟩
    refine Table.mem_rows_deleteWhere.mpr ⟨hr, ?_⟩
    rw [decide_eq_false_iff_not]
    rintro rfl
    exact h howner

end Spares

/-! ### Owners after one statement -/

theorem ownerOf_updateJobs {db : Database} {p : Job → Bool} {f : Job → Job}
    {hf : Table.KeepsKey f} (howner : ∀ j, (f j).ownerUserId = j.ownerUserId) (j : JobId) :
    ownerOf (db.updateJobs p f hf) j = ownerOf db j := by
  have hget : (db.updateJobs p f hf).jobs.get j = (db.jobs.get j).map (Table.rewrite p f) :=
    Table.get_update db.jobs p f hf j
  unfold ownerOf
  rw [hget]
  cases db.jobs.get j with
  | none => rfl
  | some job =>
    rw [Option.map_some, Option.bind_some, Option.bind_some]
    unfold Table.rewrite
    split
    · exact howner job
    · rfl

theorem ownerOf_addJob {db : Database} {mk : JobId → Job} {hmk : ∀ i, (mk i).id = i} (j : JobId) :
    ownerOf (db.addJob mk hmk) j =
      if j = db.jobs.next then (mk db.jobs.next).ownerUserId else ownerOf db j := by
  have hget : (db.addJob mk hmk).jobs.get j =
      if j = db.jobs.next then some (mk db.jobs.next) else db.jobs.get j :=
    Table.get_insert db.jobs mk hmk j
  unfold ownerOf
  rw [hget]
  split
  · rw [Option.bind_some]
  · rfl

theorem ownerOf_deleteJob {db : Database} {i j : JobId} (h : j ≠ i) :
    ownerOf (db.deleteJob i) j = ownerOf db j := by
  have hget : (db.deleteJob i).jobs.get j =
      (db.jobs.get j).filter fun job => !decide (job.id = i) :=
    Table.get_deleteWhere db.jobs _ j
  unfold ownerOf
  rw [hget]
  cases hj : db.jobs.get j with
  | none => rfl
  | some job =>
    have hid : job.id = j := Table.key_of_get hj
    rw [Option.filter_some_pos (by simpa [hid] using h)]

/- The jobs at both ends of an edge exist. -/
theorem lt_next_of_dependsOn {db : Database} {j k : JobId} (h : db.DependsOn j k) :
    j < db.jobs.next ∧ k < db.jobs.next := by
  obtain ⟨d, hd, rfl, rfl⟩ := h
  obtain ⟨⟨a, ha, hai⟩, b, hb, hbi⟩ := db.dependency_fk d hd
  rw [← hai, ← hbi]
  exact ⟨db.jobs.fresh a ha, db.jobs.fresh b hb⟩

theorem WithinOwner.deleteJob {db : Database} (h : WithinOwner db) (i : JobId) :
    WithinOwner (db.deleteJob i) := by
  intro j k hjk
  obtain ⟨d, hd, rfl, rfl⟩ := hjk
  obtain ⟨hmem, hne⟩ := Table.mem_rows_deleteWhere.mp hd
  rw [Bool.or_eq_false_iff, decide_eq_false_iff_not, decide_eq_false_iff_not] at hne
  rw [ownerOf_deleteJob hne.1, ownerOf_deleteJob hne.2]
  exact h _ _ ⟨d, hmem, rfl, rfl⟩

/- The edges of a job are replaced by edges to jobs of the same owner. -/
theorem WithinOwner.setDependencies {db db' : Database} {j : JobId} {ds : List ℤ}
    (h : WithinOwner db) (hset : Crud.setDependencies db j ds = .ok db')
    (hds : ∀ d ∈ ds, ownerOf db d.toNat = ownerOf db j) : WithinOwner db' := by
  intro a b hab
  have hjobs : db'.jobs = db.jobs := (foldlM_insertEdge_frame hset).1
  rw [ownerOf_congr hjobs, ownerOf_congr hjobs]
  rcases (dependsOn_setDependencies hset).mp hab with ⟨-, hold⟩ | ⟨rfl, d, hd, rfl⟩
  · exact h a b hold
  · exact (hds d hd).symm

theorem setDependencies_spares {v : UserId} {db db' : Database} {j : JobId} {ds : List ℤ}
    (hset : setDependencies db j ds = .ok db') (h : ownerOf db j ≠ some v) : Spares v db db' := by
  have hfold : ∀ (ds : List ℤ) (db₁ : Database), ownerOf db₁ j ≠ some v →
      ds.foldlM (insertEdge j) db₁ = .ok db' → Spares v db₁ db' := by
    intro ds
    induction ds with
    | nil =>
      intro db₁ _ hfold
      cases hfold
      exact Spares.refl v _
    | cons d ds ih =>
      intro db₁ hj hfold
      rw [List.foldlM_cons] at hfold
      obtain ⟨mid, hmid, hfold⟩ := bind_eq_ok.mp hfold
      unfold insertEdge insertDependency at hmid
      split at hmid
      · rename_i hins
        cases hmid
        split at hins
        · rename_i hadm
          cases hins
          exact (Spares.addDependency hadm hj).trans (ih _ hj hfold)
        · cases hins
      · cases hmid
  exact (Spares.deleteDependencies h).trans (hfold ds.eraseDups _ h hset)

/-! ### Ids keep their owners -/

/-- An id that was in use before is used for the same thing, or no more. -/
structure Persists (db db' : Database) : Prop where
  jobsNext : db.jobs.next ≤ db'.jobs.next
  job : ∀ j job', j < db.jobs.next → db'.jobs.get j = some job' →
    ∃ job, db.jobs.get j = some job ∧ job.ownerUserId = job'.ownerUserId
  runsNext : db.runs.next ≤ db'.runs.next
  runJob : ∀ i r', i < db.runs.next → db'.runs.get i = some r' →
    ∃ r, db.runs.get i = some r ∧ r.jobId = r'.jobId

namespace Persists
variable {db db' db'' : Database}

theorem trans (h : Persists db db') (k : Persists db' db'') : Persists db db'' where
  jobsNext := h.jobsNext.trans k.jobsNext
  job := by
    intro j job'' hj hjob''
    obtain ⟨job', hjob', howner'⟩ := k.job j job'' (Nat.lt_of_lt_of_le hj h.jobsNext) hjob''
    obtain ⟨job, hjob, howner⟩ := h.job j job' hj hjob'
    exact ⟨job, hjob, howner.trans howner'⟩
  runsNext := h.runsNext.trans k.runsNext
  runJob := by
    intro i r'' hi hr''
    obtain ⟨r', hr', hjob'⟩ := k.runJob i r'' (Nat.lt_of_lt_of_le hi h.runsNext) hr''
    obtain ⟨r, hr, hjob⟩ := h.runJob i r' hi hr'
    exact ⟨r, hr, hjob.trans hjob'⟩

theorem of_runs (hruns : db'.runs = db.runs) (hnext : db.jobs.next ≤ db'.jobs.next)
    (hjob : ∀ j job', j < db.jobs.next → db'.jobs.get j = some job' →
      ∃ job, db.jobs.get j = some job ∧ job.ownerUserId = job'.ownerUserId) :
    Persists db db' where
  jobsNext := hnext
  job := hjob
  runsNext := by rw [hruns]
  runJob := by
    intro i r' _ hr'
    rw [hruns] at hr'
    exact ⟨r', hr', rfl⟩

theorem refl (db : Database) : Persists db db := of_runs rfl le_rfl fun _ job' _ h => ⟨job', h, rfl⟩

theorem of_extends {new : JobRun → Prop} (h : db.Extends new db')
    (hjob : ∀ j job', db'.jobs.get j = some job' →
      ∃ job, db.jobs.get j = some job ∧ job.ownerUserId = job'.ownerUserId) :
    Persists db db' where
  jobsNext := h.jobsNext.ge
  job := fun j job' _ hj => hjob j job' hj
  runsNext := h.next
  runJob := by
    intro i r' hi hr'
    rcases h.cases hr' with hr | ⟨-, hle, -⟩
    · exact ⟨r', hr, rfl⟩
    · exact absurd hi (Nat.not_lt.mpr hle)

theorem updateRuns (p : JobRun → Bool) (f : JobRun → JobRun) (hf : KeepsRun f) :
    Persists db (db.updateRuns p f hf) where
  jobsNext := le_rfl
  job := fun _ job' _ h => ⟨job', h, rfl⟩
  runsNext := le_rfl
  runJob := by
    intro i r' _ hr'
    rw [get_updateRuns] at hr'
    obtain ⟨r, hr, rfl⟩ := Option.map_eq_some_iff.mp hr'
    exact ⟨r, hr, (hf.rewrite p r).2.1.symm⟩

theorem setDependencies {j : JobId} {ds : List ℤ} (h : Crud.setDependencies db j ds = .ok db') :
    Persists db db' := by
  obtain ⟨hjobs, hruns⟩ := foldlM_insertEdge_frame h
  refine of_runs hruns ?_ fun k job' _ hk => ?_
  · rw [hjobs]
    exact le_rfl
  · rw [hjobs] at hk
    exact ⟨job', hk, rfl⟩

theorem deleteJob (db : Database) (i : JobId) : Persists db (db.deleteJob i) where
  jobsNext := le_rfl
  job := by
    intro j job' _ hj
    obtain ⟨hjob, hid⟩ := Table.get_eq_some.mp hj
    exact ⟨job', Table.get_eq_some.mpr ⟨(Table.mem_rows_deleteWhere.mp hjob).1, hid⟩, rfl⟩
  runsNext := le_rfl
  runJob := by
    intro k r' _ hr'
    obtain ⟨hr, hk⟩ := Table.get_eq_some.mp hr'
    exact ⟨r', Table.get_eq_some.mpr ⟨(Table.mem_rows_deleteWhere.mp hr).1, hk⟩, rfl⟩

end Persists

/-! ### Requests that write -/

/-- A commit that changes rows of u only and keeps the edges within accounts. -/
structure OwnChange (u : UserId) (db db' : Database) : Prop where
  spares : ∀ v, v ≠ u → Spares v db db'
  within : WithinOwner db'
  persists : Persists db db'

theorem ne_some_of_ne {o : Option UserId} {u v : UserId} (h : o = some u) (hne : v ≠ u) :
    o ≠ some v := by
  rw [h]
  exact fun heq => hne (Option.some.inj heq).symm

theorem createJob_eq_ok {db db' : Database} {payload : JobBase} {u : UserId} {now : Time}
    {i : JobId} (h : createJob db payload u now = .ok (db', i)) :
    i = db.jobs.next ∧ checkName db payload.name u = .ok () ∧
      validateDependencies db none (some u) payload.dependsOn = .ok () ∧
      setDependencies (db.addJob (jobRow payload u now) fun _ => rfl) db.jobs.next
        payload.dependsOn = .ok db' := by
  unfold createJob at h
  obtain ⟨_, hname, h⟩ := bind_eq_ok.mp h
  obtain ⟨_, hvalid, h⟩ := bind_eq_ok.mp h
  obtain ⟨db'', hset, h⟩ := bind_eq_ok.mp h
  cases h
  exact ⟨rfl, hname, hvalid, hset⟩

theorem createJob_ownChange {db db' : Database} {payload : JobBase} {u : UserId} {now : Time}
    {i : JobId} (hwithin : WithinOwner db) (h : createJob db payload u now = .ok (db', i)) :
    OwnChange u db db' := by
  obtain ⟨-, -, hvalid, hset⟩ := createJob_eq_ok h
  have hmk : ∀ i, (jobRow payload u now i).id = i := fun _ => rfl
  have hnew : ownerOf (db.addJob (jobRow payload u now) hmk) db.jobs.next = some u := by
    rw [ownerOf_addJob, if_pos rfl]
    rfl
  have hold : ∀ {j}, j < db.jobs.next →
      ownerOf (db.addJob (jobRow payload u now) hmk) j = ownerOf db j := by
    intro j hj
    rw [ownerOf_addJob, if_neg (Nat.ne_of_lt hj)]
  refine ⟨fun v hv => ?_, ?_, ?_⟩
  · refine Spares.trans (Spares.addJob _ hmk (ne_some_of_ne rfl hv)) ?_
    exact setDependencies_spares hset (ne_some_of_ne hnew hv)
  · refine WithinOwner.setDependencies ?_ hset ?_
    · intro j k hjk
      have hjk' : db.DependsOn j k := hjk
      obtain ⟨hj, hk⟩ := lt_next_of_dependsOn hjk'
      rw [hold hj, hold hk]
      exact hwithin j k hjk'
    · intro d hd
      obtain ⟨job, hjob, rfl, howner⟩ := job_of_validate hvalid hd
      have hlt : job.id < db.jobs.next := db.jobs.fresh job hjob
      rw [Int.toNat_natCast]
      exact ((hold hlt).trans ((ownerOf_of_mem hjob).trans howner)).trans hnew.symm
  · have hadd : Persists db (db.addJob (jobRow payload u now) hmk) :=
      Persists.of_runs rfl (Nat.le_succ _) fun j job' hj hjob' => by
        rw [show (db.addJob (jobRow payload u now) hmk).jobs.get j = _ from
          Table.get_insert db.jobs _ hmk j, if_neg (Nat.ne_of_lt hj)] at hjob'
        exact ⟨job', hjob', rfl⟩
    exact hadd.trans (Persists.setDependencies hset)

theorem updateJob_eq_ok {isValid : String → Bool} {db db' : Database} {job : Job}
    {payload : JobUpdate} {now : Time} (h : updateJob isValid db job payload now = .ok db') :
    ∃ merged, (payload.merge job).validate isValid = .ok merged ∧
      ((payload.dependsOn.getD none = none ∧ db' = db.updateJobs (fun j => decide (j.id = job.id))
          (patchedJob merged now) fun _ => rfl) ∨
        ∃ ds, payload.dependsOn.getD none = some ds ∧
          validateDependencies db (some job.id) job.ownerUserId ds = .ok () ∧
          setDependencies (db.updateJobs (fun j => decide (j.id = job.id)) (patchedJob merged now)
            fun _ => rfl) job.id ds = .ok db') := by
  unfold updateJob at h
  cases hp : payload.dependsOn.getD none with
  | none =>
    simp only [hp] at h
    obtain ⟨-, -, h⟩ := bind_eq_ok.mp h
    obtain ⟨merged, hmerged, h⟩ := bind_eq_ok.mp h
    cases h
    exact ⟨merged, mapError_eq_ok.mp hmerged, Or.inl ⟨rfl, rfl⟩⟩
  | some ds =>
    simp only [hp] at h
    obtain ⟨_, hvalid, h⟩ := bind_eq_ok.mp h
    obtain ⟨merged, hmerged, h⟩ := bind_eq_ok.mp h
    exact ⟨merged, mapError_eq_ok.mp hmerged, Or.inr ⟨ds, rfl, hvalid, h⟩⟩

theorem updateJob_ownChange {isValid : String → Bool} {db db' : Database} {job : Job}
    {u : UserId} {payload : JobUpdate} {now : Time} (hwithin : WithinOwner db)
    (hjob : job ∈ db.jobs.rows) (howner : job.ownerUserId = some u)
    (h : updateJob isValid db job payload now = .ok db') : OwnChange u db db' := by
  obtain ⟨merged, -, h⟩ := updateJob_eq_ok h
  have hf : Table.KeepsKey (patchedJob merged now) := fun _ => rfl
  have howners : ∀ j, ownerOf (db.updateJobs (fun j => decide (j.id = job.id))
      (patchedJob merged now) hf) j = ownerOf db j := ownerOf_updateJobs fun _ => rfl
  have hwithin' : WithinOwner (db.updateJobs (fun j => decide (j.id = job.id))
      (patchedJob merged now) hf) := by
    intro j k hjk
    rw [howners, howners]
    exact hwithin j k hjk
  have hspares : ∀ v, v ≠ u → Spares v db (db.updateJobs (fun j => decide (j.id = job.id))
      (patchedJob merged now) hf) := by
    intro v hv
    refine Spares.updateJobs _ _ hf (fun _ => rfl) fun j hj hid => ?_
    have hj' : j = job := db.jobs.eq_of_key_eq hj hjob (of_decide_eq_true hid)
    rw [hj']
    exact ne_some_of_ne howner hv
  have hown : ownerOf db job.id = some u := (ownerOf_of_mem hjob).trans howner
  have hpersists : Persists db (db.updateJobs (fun j => decide (j.id = job.id))
      (patchedJob merged now) hf) :=
    Persists.of_runs rfl le_rfl fun j job' _ hj => by
      obtain ⟨old, hold, rfl⟩ := Option.map_eq_some_iff.mp
        ((Table.get_update db.jobs _ _ hf j).symm.trans hj)
      refine ⟨old, hold, ?_⟩
      unfold Table.rewrite
      split <;> rfl
  rcases h with ⟨-, rfl⟩ | ⟨ds, -, hvalid, hset⟩
  · exact ⟨hspares, hwithin', hpersists⟩
  · refine ⟨fun v hv => ?_, ?_, hpersists.trans (Persists.setDependencies hset)⟩
    · refine (hspares v hv).trans (setDependencies_spares hset ?_)
      rw [howners]
      exact ne_some_of_ne hown hv
    · refine hwithin'.setDependencies hset fun d hd => ?_
      obtain ⟨dep, hdep, rfl, hdepOwner⟩ := job_of_validate hvalid hd
      rw [howners, howners, Int.toNat_natCast, ownerOf_of_mem hdep, hdepOwner, ownerOf_of_mem hjob]

theorem deleteJob_ownChange {db : Database} {j : JobId} {u : UserId} (hwithin : WithinOwner db)
    (h : ownerOf db j = some u) : OwnChange u db (db.deleteJob j) where
  spares := fun _ hv => Spares.deleteJob hwithin (ne_some_of_ne h hv)
  within := hwithin.deleteJob j
  persists := Persists.deleteJob db j

/- Runs added to jobs of u. -/
theorem ownChange_of_extends {new : JobRun → Prop} {db db' : Database} {u : UserId}
    (hwithin : WithinOwner db) (h : db.Extends new db') (hjobs : db'.jobs = db.jobs)
    (hnew : ∀ r, new r → ownerOf db r.jobId = some u) : OwnChange u db db' where
  spares := by
    intro v hv
    refine ⟨fun _ _ => by rw [hjobs], fun _ _ => by rw [h.dependencies], fun r howner => ?_⟩
    constructor
    · intro hr
      rcases h.cases (Table.get_of_mem hr) with hold | ⟨-, -, hr'⟩
      · exact Table.mem_of_get hold
      · exact absurd howner (ne_some_of_ne (hnew r hr') hv)
    · exact fun hr => Table.mem_of_get (h.old r.id r (Table.get_of_mem hr))
  within := by
    intro j k hjk
    rw [ownerOf_congr hjobs, ownerOf_congr hjobs]
    exact hwithin j k (h.dependsOn.mp hjk)
  persists := Persists.of_extends h fun j job' hj => ⟨job', by rw [← hjobs]; exact hj, rfl⟩

/- An update in place of a run of u. -/
theorem ownChange_updateRun {db : Database} {i : RunId} {u : UserId} (g : RunStatus → Bool)
    (f : JobRun → JobRun) (hf : KeepsRun f) (hwithin : WithinOwner db)
    (h : ∀ r, db.runs.get i = some r → ownerOf db r.jobId = some u) :
    OwnChange u db (Store.updateRun db i g f hf) where
  spares := by
    intro v hv
    refine Spares.updateRuns _ _ hf fun r hr hsel => ?_
    simp only [Store.selects, Bool.and_eq_true, decide_eq_true_eq] at hsel
    exact ne_some_of_ne (h r (Table.get_eq_some.mpr ⟨hr, hsel.1⟩)) hv
  within := hwithin
  persists := Persists.updateRuns _ _ hf

/- A trigger walks along edges and stays with the owner of its job. -/
theorem ownerOf_opened {db : Database} (hwithin : WithinOwner db) {j k : JobId}
    (h : Opened db j k) : ownerOf db k = ownerOf db j := by
  induction h with
  | refl => rfl
  | step _ hedge _ ih => exact (hwithin _ _ hedge).symm.trans ih

theorem triggerJob_jobs {db : Database} {u : UserId} {j : JobId} {now : Time} {st : Prepared}
    {i : RunId} (h : Api.triggerJob db u j now = .ok (st, i)) : st.1.jobs = db.jobs := by
  unfold Api.triggerJob at h
  split at h
  · cases h
  · exact prepareTriggerRun_rel (R := fun a b => b.1.jobs = a.1.jobs) (fun _ => rfl)
      (fun _ _ _ hab hbc => hbc.trans hab) (fun _ _ _ _ _ => rfl) (fun _ _ _ _ _ _ => rfl) _ _ _
      _ _ _ _ h

theorem triggerJob_ownChange {db : Database} {u : UserId} {j : JobId} {now : Time}
    {st : Prepared} {i : RunId} (hwithin : WithinOwner db)
    (h : Api.triggerJob db u j now = .ok (st, i)) : OwnChange u db st.1 := by
  have howner : ownerOf db j = some u := by
    unfold Api.triggerJob at h
    split at h
    · cases h
    · rename_i job hjob
      exact getJob_isSome.mp (by rw [hjob]; rfl)
  have hprep := triggerJob_prepares h
  have hext : db.Extends (fun r => ownerOf db r.jobId = some u) st.1 := by
    by_cases hnil : db.dependencyIds j = []
    · obtain ⟨-, n, ha, hn, -, heq⟩ := hprep.leaf hnil
      rw [heq]
      refine extends_addRun db n ha ?_
      show ownerOf db n.jobId = some u
      rw [hn]
      exact howner
    · refine (hprep.walk hnil).ext.mono ?_
      rintro r ⟨-, -, -, k, rfl, hopened⟩
      exact (ownerOf_opened hwithin hopened).trans howner
  exact ownChange_of_extends hwithin hext (triggerJob_jobs h) fun _ hr => hr

theorem ownedRun_eq_some {db : Database} {i : RunId} {u : UserId} {r : JobRun}
    (h : db.ownedRun i u = some r) : db.runs.get i = some r ∧ ownerOf db r.jobId = some u := by
  obtain ⟨hget, howner⟩ := Option.filter_eq_some_iff.mp h
  exact ⟨hget, getJob_isSome.mp howner⟩

/- The requests of crud.py with the user they are authenticated as. -/
def requestUser : Crud.Request → UserId
  | .create u _ _ | .update u _ _ _ | .delete u _ => u

theorem crud_ownChange {isValid : String → Bool} {db db' : Database} {req : Crud.Request}
    (hwithin : WithinOwner db) (h : Crud.handle isValid db req = .ok db') :
    OwnChange (requestUser req) db db' := by
  cases req with
  | create u payload now =>
    obtain ⟨b, -, h⟩ := bind_eq_ok.mp h
    obtain ⟨⟨db'', i⟩, hcreate, h⟩ := bind_eq_ok.mp h
    cases h
    exact createJob_ownChange hwithin (mapError_eq_ok.mp hcreate)
  | update u jobId payload now =>
    simp only [Crud.handle] at h
    split at h
    · cases h
    · rename_i job hjob
      obtain ⟨hmem, -, howner⟩ := getJob_eq_some hjob
      exact updateJob_ownChange hwithin hmem howner (mapError_eq_ok.mp h)
  | delete u jobId =>
    simp only [Crud.handle] at h
    split at h
    · cases h
    · rename_i job hjob
      cases h
      obtain ⟨hmem, -, howner⟩ := getJob_eq_some hjob
      exact deleteJob_ownChange hwithin ((ownerOf_of_mem hmem).trans howner)

/- A request leaves the tables alone or commits a change of rows of u. -/
def Confined (u : UserId) (t : Tables) (out : Reply) : Prop :=
  out.tables = t ∨ ∃ db', out.tables = t.commit db' ∧ OwnChange u t.db db'

section
variable {t : Tables} {u : UserId}

theorem confined_edit {isValid : String → Bool} (code : ℕ) (req : Crud.Request)
    (respond : Database → Response) (hwithin : WithinOwner t.db) (hu : requestUser req = u) :
    Confined u t (edit isValid t code req respond) := by
  subst hu
  unfold edit
  split
  · rename_i db' hdb'
    exact Or.inr ⟨db', rfl, crud_ownChange hwithin hdb'⟩
  · exact Or.inl rfl

theorem confined_withJob (jobId : JobId) (respond : Job → Response) :
    Confined u t (withJob t jobId u respond) := by
  unfold withJob
  split <;> exact Or.inl rfl

theorem confined_withRun (runId : RunId) (respond : JobRun → Response) :
    Confined u t (withRun t runId u respond) := by
  unfold withRun
  split <;> exact Or.inl rfl

theorem confined_triggerJob (jobId : JobId) (now : Time) (hwithin : WithinOwner t.db) :
    Confined u t (Routes.triggerJob t u jobId now) := by
  unfold Routes.triggerJob
  split
  · rename_i st i htrigger
    exact Or.inr ⟨st.1, rfl, triggerJob_ownChange hwithin htrigger⟩
  · exact Or.inl rfl
  · exact Or.inl rfl

theorem confined_retryRun (runId : RunId) (now : Time) (hwithin : WithinOwner t.db) :
    Confined u t (Routes.retryRun t u runId now) := by
  unfold Routes.retryRun
  split
  · exact Or.inl rfl
  · rename_i run hrun
    obtain ⟨-, howner⟩ := ownedRun_eq_some hrun
    split
    · split
      · exact Or.inl rfl
      · rename_i db' i hcreate
        obtain ⟨-, ha, rfl⟩ := insertRun_eq_some hcreate
        refine Or.inr ⟨_, rfl, ?_⟩
        exact ownChange_of_extends hwithin (extends_addRun t.db _ ha howner) rfl fun _ hr => hr
    · exact Or.inl rfl

theorem confined_cancelRun (runId : RunId) (now : Time) (hwithin : WithinOwner t.db) :
    Confined u t (Routes.cancelRun t u runId now) := by
  unfold Routes.cancelRun
  split
  · exact Or.inl rfl
  · rename_i run hrun
    obtain ⟨hget, howner⟩ := ownedRun_eq_some hrun
    split
    · exact Or.inl rfl
    · split
      · exact Or.inl rfl
      · rename_i db' hcancel
        have hdb' : db' = (Store.cancelRun t.db runId now).1 := by rw [hcancel]
        rw [hdb']
        refine Or.inr ⟨_, rfl, ownChange_updateRun _ _ (Store.canceledRow_keeps now) hwithin ?_⟩
        intro r hr
        cases hget.symm.trans hr
        exact howner

/-- What a request of u does to the tables. -/
theorem handle_confined (isValid : String → Bool) (req : Routes.Request)
    (hwithin : WithinOwner t.db) : Confined u t (Routes.handle isValid t u req) := by
  cases req with
  | createJob payload now => exact confined_edit _ _ _ hwithin rfl
  | updateJob jobId payload now => exact confined_edit _ _ _ hwithin rfl
  | deleteJob jobId => exact confined_edit _ _ _ hwithin rfl
  | triggerJob jobId now => exact confined_triggerJob jobId now hwithin
  | retryRun runId now => exact confined_retryRun runId now hwithin
  | cancelRun runId now => exact confined_cancelRun runId now hwithin
  | getJob jobId | getLatestJobRun jobId | getLatestJobRunLogs jobId limit offset
  | listJobRuns jobId statusFilter limit offset => exact confined_withJob jobId _
  | getRun runId | getRunLogs runId limit offset => exact confined_withRun runId _
  | listJobs enabled limit offset | listRecentJobs limit | listRuns statusFilter limit offset =>
    exact Or.inl rfl

theorem Confined.rowsOf {out : Reply} (h : Confined u t out) {v : UserId} (hv : v ≠ u) :
    Tenants.rowsOf out.tables v = Tenants.rowsOf t v := by
  rcases h with heq | ⟨db', heq, hchange⟩
  · rw [heq]
  · rw [heq]
    exact (hchange.spares v hv).rowsOf_commit

end

end JobScheduler.Tenants
