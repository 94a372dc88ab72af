import JobScheduler.Library.Except
import JobScheduler.Scheduler.Main

/-!
# A scheduling pass seen from one job

The pass of `schedule_due_jobs` is a loop over all jobs that changes one database. What it
does to a job depends on that job and on the job's own runs only.
-/

namespace JobScheduler.Scheduler
open Library Database Cron

def runsOf (db : Database) (j : JobId) : List JobRun :=
  db.runs.rows.filter fun r => decide (r.jobId = j)

/- The run that a due tick adds next to the runs rs of its job. -/
def tickRuns (rs : List JobRun) (jobId : JobId) (tick now : Time) (i : RunId) : List JobRun :=
  if rs.any fun r => decide (r.scheduledFor = some tick) then []
  else [(scheduledRow jobId tick now).row i]

/- The job, its runs and the sequence between two points of the pass. -/
structure Untouched (j : JobId) (db db' : Database) : Prop where
  row : db'.jobs.get j = db.jobs.get j
  runs : runsOf db' j = runsOf db j
  next : db.runs.next ≤ db'.runs.next

theorem Untouched.refl (j : JobId) (db : Database) : Untouched j db db := ⟨rfl, rfl, le_rfl⟩

theorem Untouched.trans {j : JobId} {db db' db'' : Database} (h : Untouched j db db')
    (h' : Untouched j db' db'') : Untouched j db db'' :=
  ⟨h'.row.trans h.row, h'.runs.trans h.runs, h.next.trans h'.next⟩

/- What the pass does to a job whose due_tick returned `tick`. -/
structure PassedOn (now : Time) (job : Job) (tick : Option Time) (db db' : Database) : Prop where
  row : db'.jobs.get job.id = some (tick.elim job fun t => anchoredJob t now job)
  runs : ∃ i, db.runs.next ≤ i ∧ runsOf db' job.id =
    runsOf db job.id ++ tick.elim [] fun t => tickRuns (runsOf db job.id) job.id t now i

/-! ### One job of the loop -/

theorem get_anchor (db : Database) (jobId : JobId) (tick now : Time) (j : JobId) :
    (anchor db jobId tick now).jobs.get j = (db.jobs.get j).map
      (Table.rewrite (fun k => decide (k.id = jobId)) (anchoredJob tick now)) :=
  Table.get_update db.jobs _ (anchoredJob tick now) (fun _ => rfl) j

theorem get_anchor_ne (db : Database) {jobId j : JobId} (tick now : Time) (hne : j ≠ jobId) :
    (anchor db jobId tick now).jobs.get j = db.jobs.get j := by
  rw [get_anchor]
  cases hj : db.jobs.get j with
  | none => rfl
  | some k =>
    have hk : k.id = j := Table.key_of_get hj
    simp [Table.rewrite, hk, hne]

theorem get_anchor_self (db : Database) {j : JobId} {job : Job} (tick now : Time)
    (hj : db.jobs.get j = some job) :
    (anchor db j tick now).jobs.get j = some (anchoredJob tick now job) := by
  have hid : job.id = j := Table.key_of_get hj
  rw [get_anchor, hj]
  simp [Table.rewrite, hid]

theorem runsOf_addRun (db : Database) (n : NewRun) (h : db.Admits n) (j : JobId) :
    runsOf (db.addRun n h) j =
      runsOf db j ++ if n.jobId = j then [n.row db.runs.next] else [] := by
  have hrows : (db.addRun n h).runs.rows = db.runs.rows ++ [n.row db.runs.next] := rfl
  unfold runsOf
  rw [hrows, List.filter_append]
  by_cases hj : n.jobId = j
  · simp [NewRun.row, hj]
  · simp [NewRun.row, hj]

/- The foreign key holds for a job of the table; the unique constraint is about its runs. -/
theorem admits_scheduledRow {db : Database} {j : JobId} {job : Job} {tick now : Time}
    (hj : db.jobs.get j = some job) :
    db.Admits (scheduledRow j tick now) ↔
      ((runsOf db j).any fun r => decide (r.scheduledFor = some tick)) = false := by
  have hid : job.id = j := Table.key_of_get hj
  constructor
  · intro h
    rw [List.any_eq_false]
    intro r hr htick
    obtain ⟨hr, hrj⟩ := List.mem_filter.mp hr
    have hnone := h.2 r hr (of_decide_eq_true hrj) (of_decide_eq_true htick)
    cases hnone
  · intro h
    refine ⟨⟨job, Table.mem_of_get hj, hid⟩, fun r hr hrj htick => ?_⟩
    have hmem : r ∈ runsOf db j := List.mem_filter.mpr ⟨hr, decide_eq_true hrj⟩
    have hno := List.any_eq_false.mp h r hmem
    exact absurd (decide_eq_true htick) hno

theorem scheduleTick_ne (acc : Database × List RunId) {j k : JobId} (tick now : Time)
    (hne : j ≠ k) : Untouched j acc.1 (scheduleTick acc k tick now).1 := by
  unfold scheduleTick
  cases hi : acc.1.insertRun (scheduledRow k tick now) with
  | none => exact ⟨get_anchor_ne _ tick now hne, rfl, le_rfl⟩
  | some out =>
    obtain ⟨db', i⟩ := out
    obtain ⟨-, ha, rfl⟩ := insertRun_eq_some hi
    refine ⟨(get_anchor_ne _ tick now hne).trans rfl, ?_, Nat.le_succ _⟩
    have hruns := runsOf_addRun acc.1 (scheduledRow k tick now) ha j
    rw [if_neg (fun h : (scheduledRow k tick now).jobId = j => hne h.symm),
      List.append_nil] at hruns
    exact hruns

theorem scheduleTick_self {acc : Database × List RunId} {j : JobId} {job : Job}
    (tick now : Time) (hj : acc.1.jobs.get j = some job) :
    PassedOn now job (some tick) acc.1 (scheduleTick acc j tick now).1 := by
  have hid : job.id = j := Table.key_of_get hj
  subst hid
  unfold scheduleTick
  cases hi : acc.1.insertRun (scheduledRow job.id tick now) with
  | none =>
    have hno : ¬ acc.1.Admits (scheduledRow job.id tick now) := by
      intro ha
      rw [insertRun, dif_pos ha] at hi
      cases hi
    rw [admits_scheduledRow hj, Bool.not_eq_false] at hno
    refine ⟨get_anchor_self _ tick now hj, acc.1.runs.next, le_rfl, ?_⟩
    simp only [Option.elim_some, tickRuns, hno, if_true, List.append_nil]
    rfl
  | some out =>
    obtain ⟨db', i⟩ := out
    obtain ⟨-, ha, rfl⟩ := insertRun_eq_some hi
    refine ⟨get_anchor_self _ tick now hj, acc.1.runs.next, le_rfl, ?_⟩
    have hany := (admits_scheduledRow hj).mp ha
    have hruns := runsOf_addRun acc.1 (scheduledRow job.id tick now) ha job.id
    rw [if_pos (show (scheduledRow job.id tick now).jobId = job.id from rfl)] at hruns
    simp only [Option.elim_some, tickRuns, hany, Bool.false_eq_true, if_false]
    exact hruns

/-! ### The loop -/

section
variable {cronNext : CronNext} {now : Time}

theorem scheduleJob_eq_ok {acc out : Database × List RunId} {job : Job}
    (h : scheduleJob cronNext now acc job = .ok out) :
    ∃ tick, jobTick cronNext job now = .ok tick ∧
      out = tick.elim acc fun t => scheduleTick acc job.id t now := by
  cases ht : jobTick cronNext job now with
  | error e =>
    rw [scheduleJob, ht] at h
    cases h
  | ok tick =>
    rw [scheduleJob, ht] at h
    cases tick <;> exact ⟨_, rfl, (Except.ok.inj h).symm⟩

/- Jobs other than those of the list keep their row and their runs. -/
theorem foldlM_untouched {jobs : List Job} {j : JobId} (hj : ∀ job ∈ jobs, job.id ≠ j)
    {acc out : Database × List RunId}
    (h : jobs.foldlM (scheduleJob cronNext now) acc = .ok out) : Untouched j acc.1 out.1 := by
  induction jobs generalizing acc with
  | nil =>
    cases h
    exact .refl j _
  | cons job jobs ih =>
    obtain ⟨mid, hmid, h⟩ := bind_eq_ok.mp h
    obtain ⟨tick, -, rfl⟩ := scheduleJob_eq_ok hmid
    have hrest := ih (fun k hk => hj k (List.mem_cons_of_mem _ hk)) h
    cases tick with
    | none => exact hrest
    | some t => exact (scheduleTick_ne acc t now (hj job (List.mem_cons_self ..)).symm).trans hrest

/- The loop has a result when no due_tick raises. -/
theorem exists_foldlM {jobs : List Job}
    (h : ∀ job ∈ jobs, ∃ tick, jobTick cronNext job now = .ok tick)
    (acc : Database × List RunId) :
    ∃ out, jobs.foldlM (scheduleJob cronNext now) acc = .ok out := by
  induction jobs generalizing acc with
  | nil => exact ⟨acc, rfl⟩
  | cons job jobs ih =>
    obtain ⟨tick, ht⟩ := h job (List.mem_cons_self ..)
    have hmid : ∃ mid, scheduleJob cronNext now acc job = .ok mid := by
      rw [scheduleJob, ht]
      cases tick <;> exact ⟨_, rfl⟩
    obtain ⟨mid, hmid⟩ := hmid
    obtain ⟨out, hout⟩ := ih (fun k hk => h k (List.mem_cons_of_mem _ hk)) mid
    exact ⟨out, bind_eq_ok.mpr ⟨mid, hmid, hout⟩⟩

theorem PassedOn.trans {job : Job} {tick : Option Time} {db db₁ db₂ db' : Database}
    (h : Untouched job.id db db₁) (h₁ : PassedOn now job tick db₁ db₂)
    (h₂ : Untouched job.id db₂ db') : PassedOn now job tick db db' := by
  obtain ⟨i, hi, hruns⟩ := h₁.runs
  rw [h.runs] at hruns
  exact ⟨h₂.row.trans h₁.row, i, h.next.trans hi, h₂.runs.trans hruns⟩

/- The tick of a job in a pass; jobs that are disabled or manual are not looked at. -/
def passTick (cronNext : CronNext) (job : Job) (now : Time) : Except ScheduleError (Option Time) :=
  if schedulable job then jobTick cronNext job now else .ok none

theorem scheduleDueJobs_passedOn {db : Database} {out : Database × List RunId}
    (h : scheduleDueJobs cronNext db now = .ok out) {job : Job} (hj : job ∈ db.jobs.rows) :
    ∃ tick, passTick cronNext job now = .ok tick ∧ PassedOn now job tick db out.1 := by
  have hget : db.jobs.get job.id = some job := Table.get_of_mem hj
  unfold scheduleDueJobs at h
  unfold passTick
  cases hs : schedulable job with
  | false =>
    have hother : ∀ k ∈ db.jobs.rows.filter schedulable, k.id ≠ job.id := by
      intro k hk heq
      obtain ⟨hk, hks⟩ := List.mem_filter.mp hk
      rw [db.jobs.eq_of_key_eq hk hj heq, hs] at hks
      cases hks
    have hun := foldlM_untouched hother h
    refine ⟨none, rfl, hun.row.trans hget, db.runs.next, le_rfl, ?_⟩
    rw [Option.elim_none, List.append_nil]
    exact hun.runs
  | true =>
    -- the loop up to the job, the job, and the rest of the loop
    obtain ⟨before, after, hsplit⟩ := List.append_of_mem (List.mem_filter.mpr ⟨hj, hs⟩)
    have hsorted : (db.jobs.rows.filter schedulable).Pairwise fun a b => a.id < b.id :=
      db.jobs.sorted.filter _
    rw [hsplit] at h hsorted
    obtain ⟨-, hafter, hbefore⟩ := List.pairwise_append.mp hsorted
    rw [List.foldlM_append] at h
    obtain ⟨mid, hb, h⟩ := bind_eq_ok.mp h
    obtain ⟨next, hnext, hrest⟩ := bind_eq_ok.mp h
    obtain ⟨tick, htick, rfl⟩ := scheduleJob_eq_ok hnext
    have h₁ : Untouched job.id db mid.1 :=
      foldlM_untouched (fun k hk => Nat.ne_of_lt (hbefore k hk job (List.mem_cons_self ..))) hb
    have h₂ : Untouched job.id _ out.1 := foldlM_untouched
      (fun k hk => Nat.ne_of_gt ((List.pairwise_cons.mp hafter).1 k hk)) hrest
    refine ⟨tick, htick, ?_⟩
    have hmid : mid.1.jobs.get job.id = some job := h₁.row.trans hget
    cases tick with
    | none =>
      refine ⟨h₂.row.trans hmid, db.runs.next, le_rfl, ?_⟩
      rw [Option.elim_none, List.append_nil]
      exact (h₁.trans h₂).runs
    | some t => exact (scheduleTick_self t now hmid).trans h₁ h₂

theorem exists_scheduleDueJobs {db : Database}
    (h : ∀ job ∈ db.jobs.rows, schedulable job = true →
      ∃ tick, jobTick cronNext job now = .ok tick) :
    ∃ out, scheduleDueJobs cronNext db now = .ok out :=
  exists_foldlM (fun job hj => h job (List.mem_filter.mp hj).1 (List.mem_filter.mp hj).2) _

end

end JobScheduler.Scheduler
