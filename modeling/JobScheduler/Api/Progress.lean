import JobScheduler.Api.Trigger
import JobScheduler.Worker.Store

/-!
# What a trigger leaves behind

A trigger that returns a pending run is only useful when some run it waits for, directly
or through other pending runs, is dispatched. The recursion stops at every dependency
with an active run, and a pending run counts as active, so a leftover pending run whose
own upstream has failed is taken for work in progress. `trigger_progress_iff` says, on the
tables before the call, exactly when the call leaves something that can make progress.
-/

namespace JobScheduler.Api
open Library Database

/- A chain of pending runs along dependency edges that ends in a queued or running one. -/
inductive Leads (db : Database) : JobId → Prop where
  | dispatched {j : JobId} : db.HasRun j RunStatus.dispatched → Leads db j
  | pending {j k : JobId} : db.HasRun j (fun s => decide (s = .pending)) → db.DependsOn j k →
      Leads db k → Leads db j

/- The run p of job j is dispatched, or a dependency of j leads to a dispatched run. -/
def CanProgress (db : Database) (j : JobId) (p : RunId) : Prop :=
  (∃ r, db.runs.get p = some r ∧ r.status.dispatched = true) ∨
    ∃ k, db.DependsOn j k ∧ Leads db k

/- Jobs without an active run from which the recursion reaches, along such jobs, a job
without dependencies or a dependency that leads to a dispatched run. -/
inductive Startable (db : Database) : JobId → Prop where
  | leaf {j : JobId} : ¬ db.HasRun j RunStatus.active → db.dependencyIds j = [] → Startable db j
  | inner {j k : JobId} : ¬ db.HasRun j RunStatus.active → db.DependsOn j k →
      Startable db k → Startable db j
  | joins {j k : JobId} : ¬ db.HasRun j RunStatus.active → db.DependsOn j k →
      Leads db k → Startable db j

/- The condition on the tables before the call. -/
def Useful (db : Database) (j : JobId) : Prop :=
  db.dependencyIds j = [] ∨ (∃ r, db.activeRun j = some r ∧ r.status.dispatched = true) ∨
    ∃ k, db.DependsOn j k ∧ (Startable db k ∨ Leads db k)

theorem Leads.mono {new : JobRun → Prop} {db db' : Database} (h : db.Extends new db')
    {j : JobId} (hl : Leads db j) : Leads db' j := by
  induction hl with
  | dispatched hr => exact .dispatched (h.hasRun hr)
  | pending hr hd _ ih => exact .pending (h.hasRun hr) (h.dependsOn.mpr hd) ih

theorem not_leads_of_idle {db : Database}
    (h : ∀ r ∈ db.runs.rows, r.status.dispatched = false) (j : JobId) : ¬ Leads db j := by
  intro hl
  induction hl with
  | dispatched hr =>
    obtain ⟨r, hr, -, hs⟩ := hr
    rw [h r hr] at hs
    cases hs
  | pending _ _ _ ih => exact ih

section
variable {db db' : Database} {job : JobId}

/- An active run that a job without one has after the walk was added by it. -/
theorem Walk.added {stack : List JobId} (hw : Walk (fun j => j = job) stack db db')
    {v : JobId} (hidle : ¬ db.HasRun v RunStatus.active) (hact : db'.HasRun v RunStatus.active) :
    ∃ i r, db'.runs.get i = some r ∧ db.runs.get i = none ∧ r.jobId = v ∧
      r.status = openedStatus db v := by
  obtain ⟨i, r, hr, hj, hs⟩ := hasRun_iff_get.mp hact
  rcases hw.ext.cases hr with hold | ⟨hn, -, hst, -⟩
  · exact absurd (hasRun_iff_get.mpr ⟨i, r, hold, hj, hs⟩) hidle
  · exact ⟨i, r, hr, hn, hj, hj ▸ hst⟩

/- A job with dependencies that the walk opened has a pending run after it, and each of
its dependencies an active one. -/
theorem Walk.opened {stack : List JobId} (hw : Walk (fun j => j = job) stack db db')
    {v k : JobId} (hidle : ¬ db.HasRun v RunStatus.active) (hd : db.DependsOn v k)
    (hact : db'.HasRun v RunStatus.active) :
    db'.HasRun v (fun s => decide (s = .pending)) ∧ db'.HasRun k RunStatus.active := by
  obtain ⟨i, r, hr, hn, hj, hst⟩ := hw.added hidle hact
  have hne : ¬ (db.dependencyIds v).isEmpty = true := by
    intro he
    exact dependencyIds_eq_nil.mp (List.isEmpty_iff.mp he) k hd
  rw [openedStatus, if_neg hne] at hst
  exact ⟨hasRun_iff_get.mpr ⟨i, r, hr, hj, by simp [hst]⟩, hw.closed i r hr hn k (hj ▸ hd)⟩

/- After the walk a startable job that got a run leads to a dispatched one. -/
theorem Startable.leads {stack : List JobId} (hw : Walk (fun j => j = job) stack db db')
    {v : JobId} (hs : Startable db v) (hact : db'.HasRun v RunStatus.active) : Leads db' v := by
  induction hs with
  | leaf hidle hnil =>
    obtain ⟨i, r, hr, -, hj, hst⟩ := hw.added hidle hact
    refine .dispatched (hasRun_iff_get.mpr ⟨i, r, hr, hj, ?_⟩)
    rw [hst, openedStatus, hnil]
    rfl
  | inner hidle hd _ ih =>
    obtain ⟨hpend, hkact⟩ := hw.opened hidle hd hact
    exact .pending hpend (hw.ext.dependsOn.mpr hd) (ih hkact)
  | joins hidle hd hk =>
    obtain ⟨hpend, -⟩ := hw.opened hidle hd hact
    exact .pending hpend (hw.ext.dependsOn.mpr hd) (hk.mono hw.ext)

/- Conversely, a chain in the tables after the walk is a chain in the tables before it,
or it meets a startable job that the walk opened. -/
theorem Leads.before {stack : List JobId} (hw : Walk (fun j => j = job) stack db db')
    {v : JobId} (hl : Leads db' v) :
    Leads db v ∨ ∃ u, Opened db job u ∧ Startable db u := by
  induction hl with
  | dispatched hrun =>
    obtain ⟨i, r, hr, rfl, hs⟩ := hasRun_iff_get.mp hrun
    rcases hw.ext.cases hr with hold | ⟨-, -, hst, -, hidle, j, rfl, ho⟩
    · exact Or.inl (.dispatched (hasRun_iff_get.mpr ⟨i, r, hold, rfl, hs⟩))
    · refine Or.inr ⟨r.jobId, ho, .leaf hidle ?_⟩
      by_contra hne
      rw [hst, openedStatus, if_neg (by rwa [List.isEmpty_iff])] at hs
      cases hs
  | pending hrun hdep _ ih =>
    rcases ih with hk | hopen
    · obtain ⟨i, r, hr, rfl, hs⟩ := hasRun_iff_get.mp hrun
      have hd := hw.ext.dependsOn.mp hdep
      rcases hw.ext.cases hr with hold | ⟨-, -, -, -, hidle, j, rfl, ho⟩
      · exact Or.inl (.pending (hasRun_iff_get.mpr ⟨i, r, hold, rfl, hs⟩) hd hk)
      · exact Or.inr ⟨r.jobId, ho, .joins hidle hd hk⟩
    · exact Or.inr hopen

/- A startable job that the walk opened gives a startable dependency of its root. -/
theorem Opened.startable {u : JobId} (ho : Opened db job u) (hs : Startable db u) :
    u = job ∨ ∃ k, db.DependsOn job k ∧ Startable db k := by
  induction ho with
  | refl => exact Or.inl rfl
  | @step u v ho hd _ ih =>
    cases ho with
    | refl => exact Or.inr ⟨v, hd, hs⟩
    | step _ _ hidle =>
      have hu : Startable db u := .inner hidle hd hs
      rcases ih hu with rfl | hex
      · exact Or.inr ⟨v, hd, hs⟩
      · exact Or.inr hex

end

/- What the call returns is dispatched when the job has no dependencies, or when its
oldest active run was dispatched before the call. -/
theorem Returned.dispatched_iff {job : JobId} {db db' : Database} {i : RunId}
    (h : Returned job db db' i) :
    (∃ r, db'.runs.get i = some r ∧ r.status.dispatched = true) ↔
      db.dependencyIds job = [] ∨ ∃ r, db.activeRun job = some r ∧ r.status.dispatched = true := by
  obtain ⟨r, hr, hj, hq, hp⟩ := h.row
  by_cases hd : db.dependencyIds job = []
  · refine ⟨fun _ => Or.inl hd, fun _ => ⟨r, hr, ?_⟩⟩
    rw [hq hd]
    rfl
  · refine ⟨fun hex => Or.inr ?_, fun hex => ?_⟩
    · obtain ⟨q, hq', hs⟩ := hex
      have hrq : r = q := Option.some.inj (hr.symm.trans hq')
      subst hrq
      rcases hp hd with ha | ⟨-, hst⟩
      · exact ⟨r, ha, hs⟩
      · rw [hst] at hs
        cases hs
    · rcases hex with hnil | ⟨q, hq', hs⟩
      · exact absurd hnil hd
      · rcases hp hd with ha | ⟨hidle, -⟩
        · have hrq : r = q := Option.some.inj (ha.symm.trans hq')
          exact ⟨r, hr, hrq ▸ hs⟩
        · obtain ⟨hm, hqj, hqs⟩ := oldestRun_eq_some hq'
          exact absurd ⟨q, hm, hqj, hqs⟩ hidle

theorem Prepares.canProgress_iff {job : JobId} {stack : List JobId} {db db' : Database}
    {i : RunId} (h : Prepares job stack db db' i) :
    CanProgress db' job i ↔ Useful db job := by
  unfold CanProgress Useful
  rw [h.returned.dispatched_iff, or_assoc]
  by_cases hd : db.dependencyIds job = []
  · exact ⟨fun _ => Or.inl hd, fun _ => Or.inl hd⟩
  · have hw := h.walk hd
    refine or_congr_right (or_congr_right ⟨fun hex => ?_, fun hex => ?_⟩)
    · obtain ⟨k, hk, hl⟩ := hex
      have hk : db.DependsOn job k := hw.ext.dependsOn.mp hk
      rcases hl.before hw with hl | ⟨u, ho, hs⟩
      · exact ⟨k, hk, Or.inr hl⟩
      · rcases ho.startable hs with rfl | ⟨v, hv, hsv⟩
        · cases hs with
          | leaf _ hnil => exact absurd hnil hd
          | inner _ hv hsv => exact ⟨_, hv, Or.inl hsv⟩
          | joins _ hv hlv => exact ⟨_, hv, Or.inr hlv⟩
        · exact ⟨v, hv, Or.inl hsv⟩
    · obtain ⟨k, hk, hs⟩ := hex
      refine ⟨k, hw.ext.dependsOn.mpr hk, ?_⟩
      rcases hs with hs | hl
      · exact hs.leads hw (h.returned.closed k hk)
      · exact hl.mono hw.ext

theorem trigger_progress_iff (db : Database) (owner : UserId) (job : JobId) (now : Time)
    (st : Prepared) (p : RunId) (h : triggerJob db owner job now = .ok (st, p)) :
    CanProgress st.1 job p ↔ Useful db job :=
  (triggerJob_prepares h).canProgress_iff

/-! ### A chain of three jobs -/

/- load (2) depends on transform (1), which depends on extract (0); user 1 owns them. -/
def etl : Database := Database.ofNames 1 ["extract", "transform", "load"] [(1, 0), (2, 1)]

/- The tables after a trigger of `load` whose `extract` run (id 0) has failed for good. -/
def etlFailed : Option Database :=
  match triggerJob etl 1 2 0 with
  | .error _ => none
  | .ok (st, _) =>
    some (Store.finishRun (Store.claimRun st.1 0 7 false 1).1 0 .failed (some 1) none
      (some "command exited with code 1") 2)

theorem trigger_progress_etl :
    ∃ st p, triggerJob etl 1 2 0 = .ok (st, p) ∧ (CanProgress st.1 2 p ↔ Useful etl 2) := by
  have h : (triggerJob etl 1 2 0).isOk = true := by decide
  cases hr : triggerJob etl 1 2 0 with
  | error e =>
    rw [hr] at h
    cases h
  | ok out => exact ⟨out.1, out.2, rfl, trigger_progress_iff etl 1 2 0 out.1 out.2 hr⟩

/- Triggering `load` once more is accepted, although no run of the chain is dispatched:
the pending run of `transform` stops the recursion above the failed `extract`. -/
theorem retrigger_after_failure_stuck :
    ∃ db, etlFailed = some db ∧ ∃ st p, triggerJob db 1 2 3 = .ok (st, p) ∧
      ¬ CanProgress st.1 2 p := by
  have hdb : etlFailed.isSome = true := by decide
  obtain ⟨db, hdb⟩ := Option.isSome_iff_exists.mp hdb
  have hall : etlFailed.all (fun db => match triggerJob db 1 2 3 with
      | .error _ => false
      | .ok (st, _) => st.1.runs.rows.all fun r => !r.status.dispatched) = true := by decide
  rw [hdb, Option.all_some] at hall
  refine ⟨db, hdb, ?_⟩
  cases hr : triggerJob db 1 2 3 with
  | error e =>
    rw [hr] at hall
    cases hall
  | ok out =>
    rw [hr] at hall
    have hidle : ∀ r ∈ out.1.1.runs.rows, r.status.dispatched = false := by
      simpa using hall
    refine ⟨out.1, out.2, rfl, ?_⟩
    intro hprog
    rcases hprog with ⟨r, hg, hs⟩ | ⟨k, -, hl⟩
    · rw [hidle r (Table.mem_of_get hg)] at hs
      cases hs
    · exact not_leads_of_idle hidle k hl

end JobScheduler.Api
