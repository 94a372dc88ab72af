import JobScheduler.Api.Crud
import JobScheduler.Library.Acyclic
import JobScheduler.Library.Except
import JobScheduler.Library.Machine
import JobScheduler.Worker.Store

/-!
# The dependency relation under edits

A new job has no dependents, so its edges close no cycle; deleting only removes edges. An
update replaces the edges of a job that may have dependents, and `_validate_dependencies`
looks only for the job itself in the new list.
-/

namespace JobScheduler.Crud
open Library Database Schemas Api Relation

/-! ### The edges after each operation -/

theorem dependsOn_deleteDependencies {db : Database} {j a b : JobId} :
    (db.deleteDependencies j).DependsOn a b ↔ db.DependsOn a b ∧ a ≠ j := by
  unfold Database.DependsOn
  simp only [deleteDependencies, Table.mem_rows_deleteWhere, decide_eq_false_iff_not]
  constructor
  · rintro ⟨d, ⟨hd, hne⟩, rfl, rfl⟩
    exact ⟨⟨d, hd, rfl, rfl⟩, hne⟩
  · rintro ⟨⟨d, hd, rfl, rfl⟩, hne⟩
    exact ⟨d, ⟨hd, hne⟩, rfl, rfl⟩

theorem dependsOn_addDependency {db : Database} {j k : JobId} (h : db.AdmitsDependency j k)
    {a b : JobId} :
    (db.addDependency j k h).DependsOn a b ↔ db.DependsOn a b ∨ a = j ∧ b = k := by
  unfold Database.DependsOn
  simp only [addDependency, Table.mem_rows_insert]
  constructor
  · rintro ⟨d, hd | rfl, rfl, rfl⟩
    · exact .inl ⟨d, hd, rfl, rfl⟩
    · exact .inr ⟨rfl, rfl⟩
  · rintro (⟨d, hd, rfl, rfl⟩ | ⟨rfl, rfl⟩)
    · exact ⟨d, .inl hd, rfl, rfl⟩
    · exact ⟨_, .inr rfl, rfl, rfl⟩

theorem dependsOn_deleteJob {db : Database} {j a b : JobId}
    (h : (db.deleteJob j).DependsOn a b) : db.DependsOn a b := by
  obtain ⟨d, hd, hab⟩ := h
  exact ⟨d, (Table.mem_rows_deleteWhere.mp hd).1, hab⟩

theorem foldlM_insertEdge {j : JobId} {ds : List ℤ} {db db' : Database}
    (h : ds.foldlM (insertEdge j) db = .ok db') {a b : JobId} :
    db'.DependsOn a b ↔ db.DependsOn a b ∨ a = j ∧ ∃ d ∈ ds, d.toNat = b := by
  induction ds generalizing db with
  | nil =>
    cases h
    simp
  | cons d ds ih =>
    rw [List.foldlM_cons] at h
    cases hi : db.insertDependency j d.toNat with
    | none =>
      simp only [insertEdge, hi, bind, Except.bind] at h
      cases h
    | some mid =>
      simp only [insertEdge, hi, bind, Except.bind] at h
      unfold insertDependency at hi
      split at hi
      · rename_i hadm
        cases hi
        rw [ih h, dependsOn_addDependency]
        have hcons : (∃ x ∈ d :: ds, x.toNat = b) ↔ b = d.toNat ∨ ∃ x ∈ ds, x.toNat = b := by
          simp [eq_comm]
        rw [or_assoc, ← and_or_left, hcons]
      · cases hi

/- Inserting edges writes no other table. -/
theorem foldlM_insertEdge_frame {j : JobId} {ds : List ℤ} {db db' : Database}
    (h : ds.foldlM (insertEdge j) db = .ok db') : db'.jobs = db.jobs ∧ db'.runs = db.runs := by
  induction ds generalizing db with
  | nil =>
    cases h
    exact ⟨rfl, rfl⟩
  | cons d ds ih =>
    rw [List.foldlM_cons] at h
    obtain ⟨mid, hmid, h⟩ := bind_eq_ok.mp h
    obtain ⟨hjobs, hruns⟩ := ih h
    unfold insertEdge insertDependency at hmid
    split at hmid
    · rename_i hins
      cases hmid
      split at hins
      · cases hins
        exact ⟨hjobs, hruns⟩
      · cases hins
    · cases hmid

/- The edges of job j are those of the list, the others stay. -/
theorem dependsOn_setDependencies {db db' : Database} {j : JobId} {ds : List ℤ}
    (h : setDependencies db j ds = .ok db') {a b : JobId} :
    db'.DependsOn a b ↔
      withSuccessors db.DependsOn j (fun b => ∃ d ∈ ds, d.toNat = b) a b := by
  rw [foldlM_insertEdge h, dependsOn_deleteDependencies]
  simp only [withSuccessors, List.mem_eraseDups]
  rw [and_comm]

/-! ### Acyclicity -/

/- Run states aside, a success of a's run can give b a run. -/
def FansOut (db : Database) (a b : JobId) : Prop :=
  ∃ db' : Database, db'.dependencies = db.dependencies ∧ b ∈ Store.dependentsReady db' a

/- No cycle, and finitely many chains of fan-outs from any job. -/
structure Dag (db : Database) : Prop where
  acyclic : Acyclic db.DependsOn
  finite : ∀ j, {l : List JobId | (j :: l).IsChain (FansOut db)}.Finite

theorem FansOut.dependsOn {db : Database} {a b : JobId} (h : FansOut db a b) :
    db.DependsOn b a := by
  obtain ⟨db', hdep, hready⟩ := h
  obtain ⟨d, hd, hab⟩ := (Store.mem_dependentsReady.mp hready).1
  rw [hdep] at hd
  exact ⟨d, hd, hab⟩

theorem dag_of_acyclic {db : Database} (h : Acyclic db.DependsOn) : Dag db where
  acyclic := h
  finite := by
    have hfans : Acyclic (FansOut db) := h.swap.mono fun a b hab => hab.dependsOn
    have hfin : {i | i ∈ db.jobs.rows.map Job.id}.Finite := List.finite_toSet _
    refine hfans.finite_chains hfin fun a b hab => ?_
    obtain ⟨d, hd, hb, -⟩ := hab.dependsOn
    obtain ⟨⟨job, hjob, hid⟩, -⟩ := db.dependency_fk d hd
    exact List.mem_map.mpr ⟨job, hjob, hid.trans hb⟩

/- A job that does not exist yet is nobody's dependency. -/
theorem not_reaches_next {db : Database} {k : JobId} (hk : k < db.jobs.next) :
    ¬ ReflTransGen db.DependsOn k db.jobs.next := by
  intro h
  rcases ReflTransGen.cases_tail h with heq | ⟨a, -, d, hd, -, hb⟩
  · exact absurd heq.symm (Nat.ne_of_lt hk)
  · obtain ⟨-, job, hjob, hid⟩ := db.dependency_fk d hd
    have hlt : job.id < db.jobs.next := db.jobs.fresh job hjob
    rw [hid, hb] at hlt
    exact Nat.lt_irrefl _ hlt

/- The ids that pass the check are ids of jobs of the owner. -/
theorem job_of_validate {db : Database} {jobId : Option JobId} {owner : Option UserId}
    {ds : List ℤ} (h : validateDependencies db jobId owner ds = .ok ()) {d : ℤ} (hd : d ∈ ds) :
    ∃ job ∈ db.jobs.rows, (job.id : ℤ) = d ∧ job.ownerUserId = owner := by
  unfold validateDependencies at h
  split at h
  · cases h
  · dsimp only at h
    split at h
    · rename_i hmissing
      have hfound : d ∈ found db owner ds := by
        by_contra hno
        have hmem : d ∈ (ds.filter fun d => !decide (d ∈ found db owner ds)).eraseDups := by
          rw [List.mem_eraseDups, List.mem_filter]
          exact ⟨hd, by simpa using hno⟩
        rw [List.isEmpty_iff.mp hmissing] at hmem
        cases hmem
      obtain ⟨job, hjob, hid⟩ := List.mem_map.mp hfound
      obtain ⟨hmem, hcond⟩ := List.mem_filter.mp hjob
      simp only [Bool.and_eq_true, decide_eq_true_eq] at hcond
      exact ⟨job, hmem, hid, hcond.2⟩
    · cases h

theorem lt_next_of_validate {db : Database} {jobId : Option JobId} {owner : Option UserId}
    {ds : List ℤ} (h : validateDependencies db jobId owner ds = .ok ()) {d : ℤ} (hd : d ∈ ds) :
    d.toNat < db.jobs.next := by
  obtain ⟨job, hjob, rfl, -⟩ := job_of_validate h hd
  rw [Int.toNat_natCast]
  exact db.jobs.fresh job hjob

theorem createJob_acyclic {db db' : Database} {payload : JobBase} {owner : UserId} {now : Time}
    {i : JobId} (hdb : Acyclic db.DependsOn) (h : createJob db payload owner now = .ok (db', i)) :
    Acyclic db'.DependsOn := by
  unfold createJob at h
  obtain ⟨-, -, h⟩ := bind_eq_ok.mp h
  obtain ⟨u, hvalid, h⟩ := bind_eq_ok.mp h
  obtain ⟨db'', hset, h⟩ := bind_eq_ok.mp h
  cases h
  refine Acyclic.mono (r := withSuccessors db.DependsOn db.jobs.next _) (hdb.withSuccessors ?_)
    fun a b hab => (dependsOn_setDependencies hset).mp hab
  rintro c ⟨d, hd, rfl⟩
  exact not_reaches_next (lt_next_of_validate hvalid hd)

/- Apart from the edges of the job, an update leaves the relation alone. -/
theorem updateJob_dependsOn {isValid : String → Bool} {db db' : Database} {job : Job}
    {patch : JobUpdate} {now : Time} (h : updateJob isValid db job patch now = .ok db') :
    (patch.dependsOn.getD none = none ∧ ∀ a b, db'.DependsOn a b ↔ db.DependsOn a b) ∨
    ∃ ds, patch.dependsOn = some (some ds) ∧ ∀ a b, db'.DependsOn a b ↔
      withSuccessors db.DependsOn job.id (fun b => ∃ d ∈ ds, d.toNat = b) a b := by
  unfold updateJob at h
  cases hp : patch.dependsOn.getD none with
  | none =>
    simp only [hp] at h
    obtain ⟨-, -, h⟩ := bind_eq_ok.mp h
    obtain ⟨merged, -, h⟩ := bind_eq_ok.mp h
    cases h
    exact .inl ⟨rfl, fun a b => Iff.rfl⟩
  | some ds =>
    simp only [hp] at h
    obtain ⟨-, -, h⟩ := bind_eq_ok.mp h
    obtain ⟨merged, -, h⟩ := bind_eq_ok.mp h
    refine .inr ⟨ds, ?_, fun a b => dependsOn_setDependencies h⟩
    cases hd : patch.dependsOn with
    | none =>
      rw [hd] at hp
      cases hp
    | some o =>
      rw [hd] at hp
      exact congrArg some hp

/-! ### Histories of requests -/

/- An update gives the job no dependency that already depends on it. -/
def ClosesNoCycle (db : Database) : Request → Prop
  | .update _ jobId payload _ => ∀ ds, payload.dependsOn = some (some ds) →
      ∀ d ∈ ds, ¬ ReflTransGen db.DependsOn d.toNat jobId
  | _ => True

theorem handle_acyclic {isValid : String → Bool} {db db' : Database} {req : Request}
    (hdb : Acyclic db.DependsOn) (hreq : ClosesNoCycle db req)
    (h : handle isValid db req = .ok db') : Acyclic db'.DependsOn := by
  cases req with
  | create owner payload now =>
    obtain ⟨b, -, h⟩ := bind_eq_ok.mp h
    obtain ⟨⟨db'', i⟩, hcreate, h⟩ := bind_eq_ok.mp h
    cases h
    exact createJob_acyclic hdb (mapError_eq_ok.mp hcreate)
  | update owner jobId payload now =>
    simp only [handle] at h
    split at h
    · cases h
    · rename_i job hjob
      have hid : job.id = jobId := Table.key_of_get (Option.filter_eq_some_iff.mp hjob).1
      rcases updateJob_dependsOn (mapError_eq_ok.mp h) with ⟨-, hsame⟩ | ⟨ds, hds, hset⟩
      · exact hdb.mono fun a b hab => (hsame a b).mp hab
      · rw [hid] at hset
        refine (hdb.withSuccessors ?_).mono fun a b hab => (hset a b).mp hab
        rintro c ⟨d, hd, rfl⟩
        exact hreq ds hds d hd
  | delete owner jobId =>
    simp only [handle] at h
    split at h
    · cases h
    · cases h
      exact hdb.mono fun a b hab => dependsOn_deleteJob hab

def emptyDatabase : Database := Database.ofNames 0 [] []

/- Without an update that closes a cycle the dependency relation stays a DAG. -/
theorem dag_visits {isValid : String → Bool} {reqs : List Request}
    (h : Machine.Along (step isValid) ClosesNoCycle emptyDatabase reqs) :
    Machine.Visits (step isValid) Dag emptyDatabase reqs := by
  refine Machine.visits_of_invariant (I := fun db => Acyclic db.DependsOn) ?_
    (fun _ hdb => dag_of_acyclic hdb) ?_ h
  · intro db req db' hdb hreq hstep
    unfold step at hstep
    split at hstep
    · rename_i hok
      cases hstep
      exact handle_acyclic hdb hreq hok
    · cases hstep
      exact hdb
  · intro a ha
    obtain ⟨b, ⟨d, hd, -⟩, -⟩ := TransGen.head'_iff.mp ha
    cases hd

def shellRecord (name : String) (dependsOn : List ℤ) : JobRecord where
  name := some name
  taskType := some "shell"
  taskSpec := some [("command", .string "true")]
  dependsOn := some dependsOn

/- report and load, load after report by an update; then report is deleted. -/
def pipelineRequests : List Request :=
  [.create 1 (shellRecord "report" []) 0, .create 1 (shellRecord "load" []) 1,
    .update 1 1 { dependsOn := some (some [0]) } 2, .delete 1 0]

theorem dag_visits_pipeline :
    Machine.Visits (step fun _ => true) Dag emptyDatabase pipelineRequests := by
  refine dag_visits ⟨trivial, fun db₁ h₁ => ⟨trivial, fun db₂ h₂ =>
    ⟨?_, fun _ _ => ⟨trivial, fun _ _ => trivial⟩⟩⟩⟩
  -- there is no edge yet when load is given its dependency
  have hedges : (Machine.run (step fun _ => true) emptyDatabase
      (pipelineRequests.take 2)).any (fun db => db.dependencies.rows.isEmpty) = true := by
    decide
  obtain ⟨db, hrun, hempty⟩ := (Option.any_eq_true _ _).mp hedges
  have hrun₂ : Machine.run (step fun _ => true) emptyDatabase (pipelineRequests.take 2) =
      some db₂ :=
    Machine.run_cons.mpr ⟨db₁, h₁, Machine.run_cons.mpr ⟨db₂, h₂, rfl⟩⟩
  rw [hrun] at hrun₂
  cases hrun₂
  rintro ds hds d hd hreach
  cases hds
  cases List.mem_singleton.mp hd
  rcases ReflTransGen.cases_tail hreach with heq | ⟨a, -, e, he, -⟩
  · cases heq
  · rw [List.isEmpty_iff.mp hempty] at he
    cases he

/- report is given the dependency load, which depends on report. -/
def loopRequests : List Request :=
  [.create 1 (shellRecord "report" []) 0, .create 1 (shellRecord "load" [0]) 1,
    .update 1 0 { dependsOn := some (some [1]) } 2]

theorem not_dag_visits : ¬ ∀ (isValid : String → Bool) (reqs : List Request),
    Machine.Visits (step isValid) Dag emptyDatabase reqs := by
  intro h
  have hall : (Machine.run (step fun _ => true) emptyDatabase loopRequests).any (fun db =>
      decide (0 ∈ db.dependencyIds 1) && decide (1 ∈ db.dependencyIds 0)) = true := by
    decide
  obtain ⟨db, hrun, hall⟩ := (Option.any_eq_true _ _).mp hall
  simp only [Bool.and_eq_true, decide_eq_true_eq] at hall
  have hload : db.DependsOn 1 0 := mem_dependencyIds.mp hall.1
  have hreport : db.DependsOn 0 1 := mem_dependencyIds.mp hall.2
  exact ((h (fun _ => true) loopRequests).last hrun).acyclic 0 (.tail (.single hreport) hload)

end JobScheduler.Crud
