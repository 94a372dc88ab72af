import Mathlib.Data.List.MinMax
import JobScheduler.Common.Models

/-!
# The queries shared by the worker and the API

Each `SELECT` of the source is a computable function of the committed tables. The
lemmas of this file turn them into statements about the existence of rows, which is
all that the proofs about the transactions use.
-/

namespace JobScheduler
open Library

/- The key of ORDER BY created_at, id. -/
structure Age where
  createdAt : ℤ
  id : ℕ

def JobRun.age (r : JobRun) : Age := ⟨r.createdAt, r.id⟩

instance : LinearOrder Age where
  le a b := a.createdAt < b.createdAt ∨ a.createdAt = b.createdAt ∧ a.id ≤ b.id
  le_refl a := Or.inr ⟨rfl, Nat.le_refl a.id⟩
  le_trans a b c hab hbc := by
    rcases hab with hab | ⟨hab, hid⟩ <;> rcases hbc with hbc | ⟨hbc, hid'⟩
    · left; omega
    · left; omega
    · left; omega
    · right; omega
  le_antisymm a b hab hba := by
    have hcreated : a.createdAt = b.createdAt := by
      rcases hab with hab | hab <;> rcases hba with hba | hba <;> omega
    have hid : a.id = b.id := by
      rcases hab with hab | hab <;> rcases hba with hba | hba <;> omega
    cases a
    cases b
    cases hcreated
    cases hid
    rfl
  le_total a b := by
    show (_ ∨ _ ∧ _) ∨ _ ∨ _ ∧ _
    omega
  toDecidableLE a b := inferInstanceAs (Decidable (_ ∨ _ ∧ _))

namespace Database

/-- Some run of job `j` has a status in `p`. -/
def HasRun (db : Database) (j : JobId) (p : RunStatus → Bool) : Prop :=
  ∃ r ∈ db.runs.rows, r.jobId = j ∧ p r.status = true

/-- The edge `j -> k` of `job_dependencies`. -/
def DependsOn (db : Database) (j k : JobId) : Prop :=
  ∃ d ∈ db.dependencies.rows, d.jobId = j ∧ d.dependsOnJobId = k

/-- Every job that `j` depends on has a succeeded run. -/
def DependenciesSucceeded (db : Database) (j : JobId) : Prop :=
  ∀ k, db.DependsOn j k → db.HasRun k (fun s => decide (s = .succeeded))

/-- `select(JobRun).where(job_id, status).order_by(created_at, id).limit(1)`. -/
def oldestRun (db : Database) (j : JobId) (p : RunStatus → Bool) : Option JobRun :=
  (db.runs.rows.filter fun r => decide (r.jobId = j) && p r.status).argmin
    JobRun.age

/-- `_has_dispatched_run`. -/
def hasDispatchedRun (db : Database) (j : JobId) : Bool :=
  db.runs.rows.any fun r => decide (r.jobId = j) && r.status.dispatched

/-- `_pending_run`. -/
def pendingRun (db : Database) (j : JobId) : Option JobRun :=
  db.oldestRun j fun s => decide (s = .pending)

/-- `_active_run`. -/
def activeRun (db : Database) (j : JobId) : Option JobRun := db.oldestRun j RunStatus.active

/-- `_dependency_ids`: the jobs that `j` depends on, one per edge. -/
def dependencyIds (db : Database) (j : JobId) : List JobId :=
  (db.dependencies.rows.filter fun d => decide (d.jobId = j)).map JobDependency.dependsOnJobId

/-- The jobs with an edge to `j`, one per edge. -/
def dependentIds (db : Database) (j : JobId) : List JobId :=
  (db.dependencies.rows.filter fun d => decide (d.dependsOnJobId = j)).map JobDependency.jobId

/-- `_all_dependencies_succeeded`: `set(dep_ids) == set(succeeded)`. -/
def allDependenciesSucceeded (db : Database) (j : JobId) : Bool :=
  let depIds := (db.dependencyIds j).eraseDups
  let succeeded := ((db.runs.rows.filter fun r =>
    depIds.contains r.jobId && decide (r.status = .succeeded)).map JobRun.jobId).eraseDups
  depIds.isEmpty || (depIds.all succeeded.contains && succeeded.all depIds.contains)

/-! ### What the queries say -/

theorem hasDispatchedRun_iff {db : Database} {j : JobId} :
    db.hasDispatchedRun j = true ↔ db.HasRun j RunStatus.dispatched := by
  simp [hasDispatchedRun, HasRun]

theorem hasDispatchedRun_eq_false {db : Database} {j : JobId} :
    db.hasDispatchedRun j = false ↔ ¬ db.HasRun j RunStatus.dispatched := by
  rw [← hasDispatchedRun_iff, Bool.not_eq_true]

theorem oldestRun_eq_some {db : Database} {j : JobId} {p : RunStatus → Bool} {r : JobRun}
    (h : db.oldestRun j p = some r) :
    r ∈ db.runs.rows ∧ r.jobId = j ∧ p r.status = true := by
  have hm := List.argmin_mem h
  simpa using hm

/-- The order in which `oldestRun` looks for the first row. -/
theorem oldestRun_le {db : Database} {j : JobId} {p : RunStatus → Bool} {r q : JobRun}
    (h : db.oldestRun j p = some r) (hq : q ∈ db.runs.rows) (hj : q.jobId = j)
    (hp : p q.status = true) : r.age ≤ q.age :=
  List.le_of_mem_argmin (f := JobRun.age) (by simpa using ⟨hq, hj, hp⟩) h

theorem oldestRun_eq_none {db : Database} {j : JobId} {p : RunStatus → Bool} :
    db.oldestRun j p = none ↔ ¬ db.HasRun j p := by
  unfold oldestRun HasRun
  rw [List.argmin_eq_none, List.filter_eq_nil_iff]
  simp

theorem oldestRun_isSome {db : Database} {j : JobId} {p : RunStatus → Bool} :
    (db.oldestRun j p).isSome = true ↔ db.HasRun j p := by
  rw [Option.isSome_iff_ne_none, Ne, oldestRun_eq_none, not_not]

/- The oldest run depends only on the rows it is chosen from. -/
theorem oldestRun_congr {db db' : Database} {j : JobId} {p : RunStatus → Bool}
    (h : ∀ r : JobRun, r.jobId = j → p r.status = true → (r ∈ db.runs.rows ↔ r ∈ db'.runs.rows)) :
    db.oldestRun j p = db'.oldestRun j p := by
  cases ha : db.oldestRun j p with
  | none =>
    symm
    rw [oldestRun_eq_none]
    intro hr
    obtain ⟨r, hr, hj, hp⟩ := hr
    exact oldestRun_eq_none.mp ha ⟨r, (h r hj hp).mpr hr, hj, hp⟩
  | some a =>
    obtain ⟨ham, haj, hap⟩ := oldestRun_eq_some ha
    have ham' := (h a haj hap).mp ham
    cases hb : db'.oldestRun j p with
    | none => exact absurd ⟨a, ham', haj, hap⟩ (oldestRun_eq_none.mp hb)
    | some b =>
      obtain ⟨hbm, hbj, hbp⟩ := oldestRun_eq_some hb
      have hbm' := (h b hbj hbp).mpr hbm
      have hab := le_antisymm (oldestRun_le ha hbm' hbj hbp) (oldestRun_le hb ham' haj hap)
      have hid : a.id = b.id := congrArg Age.id hab
      rw [db.runs.eq_of_key_eq ham hbm' hid]

theorem isSome_get_jobs {db : Database} {k : JobId} :
    (db.jobs.get k).isSome = true ↔ ∃ j ∈ db.jobs.rows, j.id = k := by
  rw [Option.isSome_iff_exists]
  simp only [Table.get_eq_some, key_job]

theorem mem_dependencyIds {db : Database} {j k : JobId} :
    k ∈ db.dependencyIds j ↔ db.DependsOn j k := by
  simp [dependencyIds, DependsOn, and_assoc]

theorem mem_dependentIds {db : Database} {j k : JobId} :
    k ∈ db.dependentIds j ↔ db.DependsOn k j := by
  simp only [dependentIds, DependsOn, List.mem_map, List.mem_filter, decide_eq_true_eq]
  constructor
  · rintro ⟨d, ⟨hd, hk⟩, hj⟩
    exact ⟨d, hd, hj, hk⟩
  · rintro ⟨d, hd, hj, hk⟩
    exact ⟨d, ⟨hd, hk⟩, hj⟩

theorem dependencyIds_eq_nil {db : Database} {j : JobId} :
    db.dependencyIds j = [] ↔ ∀ k, ¬ db.DependsOn j k := by
  rw [List.eq_nil_iff_forall_not_mem]
  simp only [mem_dependencyIds]

theorem allDependenciesSucceeded_iff {db : Database} {j : JobId} :
    db.allDependenciesSucceeded j = true ↔ db.DependenciesSucceeded j := by
  have hsub : ∀ k, k ∈ (((db.runs.rows.filter fun r =>
        (db.dependencyIds j).eraseDups.contains r.jobId && decide (r.status = .succeeded)).map
          JobRun.jobId).eraseDups) ↔
      db.DependsOn j k ∧ db.HasRun k (fun s => decide (s = .succeeded)) := by
    intro k
    simp only [List.mem_eraseDups, List.mem_map, List.mem_filter, Bool.and_eq_true,
      List.contains_iff_mem, decide_eq_true_eq, mem_dependencyIds, HasRun]
    constructor
    · rintro ⟨r, ⟨hr, hd, hs⟩, rfl⟩
      exact ⟨hd, r, hr, rfl, hs⟩
    · rintro ⟨hd, r, hr, rfl, hs⟩
      exact ⟨r, ⟨hr, hd, hs⟩, rfl⟩
  unfold allDependenciesSucceeded DependenciesSucceeded
  simp only [Bool.or_eq_true, Bool.and_eq_true, List.all_eq_true, List.contains_iff_mem, hsub,
    List.mem_eraseDups, mem_dependencyIds, List.isEmpty_iff]
  constructor
  · rintro (hnil | ⟨hall, -⟩) k hk
    · have hmem : k ∈ (db.dependencyIds j).eraseDups := by
        rw [List.mem_eraseDups, mem_dependencyIds]
        exact hk
      rw [hnil] at hmem
      exact absurd hmem List.not_mem_nil
    · exact (hall k hk).2
  · intro h
    exact Or.inr ⟨fun k hk => ⟨hk, h k hk⟩, fun k hk => hk.1⟩

theorem hasRun_iff_get {db : Database} {j : JobId} {p : RunStatus → Bool} :
    db.HasRun j p ↔ ∃ i r, db.runs.get i = some r ∧ r.jobId = j ∧ p r.status = true := by
  constructor
  · rintro ⟨r, hr, hj, hp⟩
    exact ⟨r.id, r, Table.get_of_mem hr, hj, hp⟩
  · rintro ⟨i, r, hg, hj, hp⟩
    exact ⟨r, Table.mem_of_get hg, hj, hp⟩

/-! ### New runs (backend/common/dispatch.py) -/

def createRun (db : Database) (jobId : JobId) (triggerType : TriggerType)
    (scheduledFor : Option Time) (attempt : ℤ) (status : RunStatus) (now : Time) :
    Option (Database × RunId) :=
  db.insertRun
    { jobId := jobId
      triggerType := triggerType
      status := status
      attempt := attempt
      scheduledFor := scheduledFor
      createdAt := now }

/-! ### Transactions that only add runs -/

/- The tables db' have the edges, the job ids and the runs of db, each run as it was;
every further run has a fresh id and satisfies `new`. -/
structure Extends (new : JobRun → Prop) (db db' : Database) : Prop where
  dependencies : db'.dependencies = db.dependencies
  jobIds : ∀ i, (db'.jobs.get i).isSome = (db.jobs.get i).isSome
  jobsNext : db'.jobs.next = db.jobs.next
  next : db.runs.next ≤ db'.runs.next
  old : ∀ i r, db.runs.get i = some r → db'.runs.get i = some r
  new : ∀ i r, db'.runs.get i = some r → db.runs.get i = none → db.runs.next ≤ i ∧ new r

theorem Extends.refl (new : JobRun → Prop) (db : Database) : db.Extends new db where
  dependencies := rfl
  jobIds := fun _ => rfl
  jobsNext := rfl
  next := le_rfl
  old := fun _ _ h => h
  new := by
    intro i r hr hn
    rw [hn] at hr
    cases hr

theorem Extends.trans {new : JobRun → Prop} {db db' db'' : Database}
    (h : db.Extends new db') (k : db'.Extends new db'') : db.Extends new db'' where
  dependencies := k.dependencies.trans h.dependencies
  jobIds := fun i => (k.jobIds i).trans (h.jobIds i)
  jobsNext := k.jobsNext.trans h.jobsNext
  next := h.next.trans k.next
  old := fun i r hr => k.old i r (h.old i r hr)
  new := by
    intro i r hr hn
    cases hm : db'.runs.get i with
    | none =>
      obtain ⟨hle, hnew⟩ := k.new i r hr hm
      exact ⟨h.next.trans hle, hnew⟩
    | some q =>
      have hq : q = r := Option.some.inj ((k.old i q hm).symm.trans hr)
      subst hq
      exact h.new i q hm hn

theorem Extends.mono {new new' : JobRun → Prop} {db db' : Database} (h : db.Extends new db')
    (hn : ∀ r, new r → new' r) : db.Extends new' db' where
  dependencies := h.dependencies
  jobIds := h.jobIds
  jobsNext := h.jobsNext
  next := h.next
  old := h.old
  new := fun i r hr hi => ⟨(h.new i r hr hi).1, hn r (h.new i r hr hi).2⟩

theorem Extends.hasRun {new : JobRun → Prop} {db db' : Database} (h : db.Extends new db')
    {j : JobId} {p : RunStatus → Bool} (hr : db.HasRun j p) : db'.HasRun j p := by
  obtain ⟨i, r, hg, hj, hp⟩ := hasRun_iff_get.mp hr
  exact hasRun_iff_get.mpr ⟨i, r, h.old i r hg, hj, hp⟩

theorem Extends.dependsOn {new : JobRun → Prop} {db db' : Database} (h : db.Extends new db')
    {j k : JobId} : db'.DependsOn j k ↔ db.DependsOn j k := by
  unfold DependsOn
  rw [h.dependencies]

/- A run of db' is a run of db or one of the added ones. -/
theorem Extends.cases {new : JobRun → Prop} {db db' : Database} (h : db.Extends new db')
    {i : RunId} {r : JobRun} (hr : db'.runs.get i = some r) :
    db.runs.get i = some r ∨ (db.runs.get i = none ∧ db.runs.next ≤ i ∧ new r) := by
  cases hg : db.runs.get i with
  | none => exact Or.inr ⟨rfl, h.new i r hr hg⟩
  | some q =>
    have hq : q = r := Option.some.inj ((h.old i q hg).symm.trans hr)
    exact Or.inl (by rw [hq])

theorem extends_addRun {new : JobRun → Prop} (db : Database) (n : NewRun) (ha : db.Admits n)
    (hn : new (n.row db.runs.next)) : db.Extends new (db.addRun n ha) where
  dependencies := rfl
  jobIds := fun _ => rfl
  jobsNext := rfl
  next := Nat.le_succ _
  old := by
    intro i r hr
    have hne : i ≠ db.runs.next := Nat.ne_of_lt (Table.lt_next_of_get hr)
    rw [get_addRun, if_neg hne]
    exact hr
  new := by
    intro i r hr hi
    rw [get_addRun] at hr
    by_cases heq : i = db.runs.next
    · rw [if_pos heq] at hr
      cases hr
      exact ⟨heq ▸ le_rfl, hn⟩
    · rw [if_neg heq, hi] at hr
      cases hr

theorem extends_updateJobs (new : JobRun → Prop) (db : Database) (p : Job → Bool)
    (f : Job → Job) (hf : Table.KeepsKey f) : db.Extends new (db.updateJobs p f hf) where
  dependencies := rfl
  jobIds := by
    intro i
    have h : (db.updateJobs p f hf).jobs.get i = (db.jobs.get i).map (Table.rewrite p f) :=
      Table.get_update db.jobs p f hf i
    rw [h, Option.isSome_map]
  jobsNext := rfl
  next := le_rfl
  old := fun _ _ h => h
  new := (Extends.refl new db).new

end Database
end JobScheduler
