import Mathlib.Algebra.Order.Ring.Int
import JobScheduler.Common.Schemas
import JobScheduler.Scheduler.Pass

/-!
# One job and the others

`due_tick` raises when a fire time it has to look at cannot be computed. The validators do
not exclude that, and `schedule_due_jobs` has no handler around it: one such job takes the
pass of every job with it. Without such a job each job is treated as if it were alone.
-/

namespace JobScheduler.Scheduler
open Library Database Cron Schemas

/- The anchor of the next due_tick call. -/
def anchorOf (job : Job) : Time := job.lastScheduledFor.getD job.createdAt

/- The first fire time of an interval after both base and now. -/
def firstAfter (base now d : ℤ) : ℤ := base + (max 0 ((now - base) / d) + 1) * d

/- Every fire time from the anchor to the first one after `now` can be computed: for an
interval they are instants up to datetime.max, for a cron expression get_next raises for
none of them. -/
def Computable (cronNext : CronNext) (job : Job) (now : Time) : Prop :=
  match job.scheduleType with
  | .interval => ∀ e n, job.scheduleExpr = some e → Text.int e = some n →
      firstAfter (anchorOf job) now (n * microseconds) ≤ maxTime
  | .cron => ∀ e, job.scheduleExpr = some e →
      ∃ r, Walk (fun t => (cronNext e job.timezone t).map some) now (anchorOf job) r
  | .manual => True

/-! ### Intervals -/

section
variable {base now d : ℤ}

theorem firstAfter_of_lt (hd : 0 < d) (h : now < base + d) : firstAfter base now d = base + d := by
  have hdiv : (now - base) / d < 1 := Int.ediv_lt_of_lt_mul hd (by omega)
  have hmax : max 0 ((now - base) / d) = 0 := by omega
  unfold firstAfter
  rw [hmax]
  omega

theorem firstAfter_of_le (hd : 0 < d) (h : base + d ≤ now) :
    firstAfter base now d = firstAfter (base + d) now d := by
  have hstep : (now - (base + d)) / d = (now - base) / d - 1 := by
    have hsplit : now - (base + d) = now - base + -1 * d := by omega
    rw [hsplit, Int.add_mul_ediv_right _ _ hd.ne']
    omega
  have hpos : 1 ≤ (now - base) / d := Int.le_ediv_of_mul_le hd (by omega)
  unfold firstAfter
  rw [hstep, max_eq_right (by omega), max_eq_right (by omega)]
  rw [Int.add_assoc]
  congr 1
  rw [show (now - base) / d - 1 + 1 = (now - base) / d by omega, Int.add_mul]
  omega

theorem add_le_firstAfter (hd : 0 < d) : base + d ≤ firstAfter base now d := by
  have hnonneg : 0 ≤ max 0 ((now - base) / d) * d := Int.mul_nonneg (le_max_left _ _) hd.le
  unfold firstAfter
  rw [Int.add_mul]
  omega

/- The walk along base + d, base + 2 * d, ... needs exactly the first one after now. -/
theorem exists_walk_interval {n : ℕ} (hn : n ≠ 0) {base now : Time} :
    (∃ r, Walk (fun t => (addSeconds t n).map some) now base r) ↔
      firstAfter base now (n * microseconds) ≤ maxTime := by
  have hd : 0 < (n : ℤ) * microseconds := by
    have h := lt_add_seconds 0 hn
    rwa [zero_add] at h
  constructor
  · rintro ⟨r, hw⟩
    induction hw with
    | ended h =>
      obtain ⟨h, -⟩ := addSeconds_map_eq_ok.mp h
      cases h
    | passed h hlt =>
      obtain ⟨h, hle⟩ := addSeconds_map_eq_ok.mp h
      cases h
      rw [firstAfter_of_lt hd hlt]
      exact hle
    | step h hb _ ih =>
      obtain ⟨h, -⟩ := addSeconds_map_eq_ok.mp h
      cases h
      rw [firstAfter_of_le hd hb]
      exact ih
  · intro h
    -- the first fire time after now is the same from every fire time before it
    refine Walk.exists_walk (P := fun t => firstAfter t now (n * microseconds) ≤ maxTime) ?_ ?_ ?_ h
    · intro t t' ht
      obtain ⟨ht, -⟩ := addSeconds_map_eq_ok.mp ht
      cases ht
      exact lt_add_seconds t hn
    · intro t ht
      exact ⟨_, addSeconds_map_eq_ok.mpr ⟨rfl, (add_le_firstAfter hd).trans ht⟩⟩
    · intro t t' hfirst ht hle
      obtain ⟨ht, -⟩ := addSeconds_map_eq_ok.mp ht
      cases ht
      rwa [firstAfter_of_le hd hle] at hfirst

end

/- For an accepted job due_tick returns exactly when the fire times can be computed. -/
theorem jobTick_ok_iff {isValid : String → Bool} {cronNext : CronNext} {job : Job}
    (hcron : Forward cronNext job.scheduleType job.scheduleExpr job.timezone)
    (hjob : Accepted isValid job) (hs : schedulable job = true) {now : Time} :
    (∃ tick, jobTick cronNext job now = .ok tick) ↔ Computable cronNext job now := by
  have hwalk : (∃ tick, jobTick cronNext job now = .ok tick) ↔ ∃ r, Walk
      (nextRunTime cronNext job.scheduleType job.scheduleExpr job.timezone) now (anchorOf job) r := by
    constructor
    · rintro ⟨tick, h⟩
      obtain ⟨r, hw, -⟩ := (dueTick_eq_ok hcron).mp h
      exact ⟨r, hw⟩
    · rintro ⟨r, hw⟩
      exact ⟨_, (dueTick_eq_ok hcron).mpr ⟨r, hw, rfl⟩⟩
  rw [hwalk]
  unfold Computable
  cases htype : job.scheduleType with
  | cron =>
    obtain ⟨e, he, hne, -⟩ := hjob.cron htype
    have hnext : nextRunTime cronNext .cron (some e) job.timezone =
        fun t => (cronNext e job.timezone t).map some := by
      funext t
      simp [nextRunTime, hne]
    rw [he, hnext]
    exact ⟨fun h e' he' => Option.some.inj he' ▸ h, fun h => h e rfl⟩
  | interval =>
    obtain ⟨e, n, he, hdigit, hint, hn⟩ := hjob.interval htype
    have hnext : nextRunTime cronNext .interval (some e) job.timezone =
        fun t => (addSeconds t n).map some := by
      funext t
      simp [nextRunTime, hdigit, hint, hn]
    rw [he, hnext, exists_walk_interval hn]
    constructor
    · intro h e' n' he' hn'
      cases he'
      rw [hint] at hn'
      cases hn'
      exact h
    · exact fun h => h e n rfl hint
  | manual => simp [schedulable, htype] at hs

/-! ### A table with one job -/

/- Every other job is deleted, with its runs and edges. -/
def alone (db : Database) (j : JobId) : Database :=
  (db.jobs.rows.filter fun k => decide (k.id ≠ j)).foldl (fun db k => db.deleteJob k.id) db

/- The runs of job j that are new in db', without their ids. -/
def created (db db' : Database) (j : JobId) : List JobRun :=
  ((runsOf db' j).filter fun r => decide (db.runs.next ≤ r.id)).map fun r => { r with id := 0 }

/- The pass returns, and each job gets the row and the runs it gets when it is alone. -/
def Independent (cronNext : CronNext) (db : Database) (now : Time) : Prop :=
  ∃ out, scheduleDueJobs cronNext db now = .ok out ∧
    ∀ job ∈ db.jobs.rows, ∃ out', scheduleDueJobs cronNext (alone db job.id) now = .ok out' ∧
      created db out.1 job.id = created (alone db job.id) out'.1 job.id ∧
      out.1.jobs.get job.id = out'.1.jobs.get job.id

theorem runsOf_deleteJob (db : Database) {j k : JobId} (hne : j ≠ k) :
    runsOf (db.deleteJob k) j = runsOf db j := by
  have hrows : (db.deleteJob k).runs.rows = db.runs.rows.filter fun r => !decide (r.jobId = k) := rfl
  unfold runsOf
  rw [hrows, List.filter_filter]
  refine List.filter_congr fun r _ => ?_
  by_cases hj : r.jobId = j
  · simp [hj, hne]
  · simp [hj]

structure DeletedOnly (ks : List Job) (db db' : Database) : Prop where
  jobs : ∀ job, job ∈ db'.jobs.rows ↔ job ∈ db.jobs.rows ∧ ∀ k ∈ ks, job.id ≠ k.id
  runs : ∀ j, (∀ k ∈ ks, j ≠ k.id) → runsOf db' j = runsOf db j
  next : db'.runs.next = db.runs.next

theorem foldl_deleteJob (ks : List Job) (db : Database) :
    DeletedOnly ks db (ks.foldl (fun db k => db.deleteJob k.id) db) := by
  induction ks generalizing db with
  | nil => exact ⟨fun job => by simp, fun _ _ => rfl, rfl⟩
  | cons k ks ih =>
    obtain ⟨hjobs, hruns, hnext⟩ := ih (db.deleteJob k.id)
    refine ⟨fun job => ?_, fun j hj => ?_, hnext⟩
    · rw [List.foldl_cons, hjobs]
      have hmem : job ∈ (db.deleteJob k.id).jobs.rows ↔ job ∈ db.jobs.rows ∧ job.id ≠ k.id := by
        have h := Table.mem_rows_deleteWhere (t := db.jobs) (p := fun j => decide (j.id = k.id))
          (r := job)
        rw [decide_eq_false_iff_not] at h
        exact h
      rw [hmem, List.forall_mem_cons, and_assoc]
    · rw [List.foldl_cons, hruns j fun q hq => hj q (List.mem_cons_of_mem _ hq)]
      exact runsOf_deleteJob db (hj k (List.mem_cons_self ..))

theorem mem_alone {db : Database} {j : JobId} {job : Job} :
    job ∈ (alone db j).jobs.rows ↔ job ∈ db.jobs.rows ∧ job.id = j := by
  rw [alone, (foldl_deleteJob _ db).jobs]
  constructor
  · rintro ⟨hmem, h⟩
    refine ⟨hmem, ?_⟩
    by_contra hne
    exact h job (List.mem_filter.mpr ⟨hmem, decide_eq_true hne⟩) rfl
  · rintro ⟨hmem, rfl⟩
    exact ⟨hmem, fun k hk heq => of_decide_eq_true (List.mem_filter.mp hk).2 heq.symm⟩

theorem runsOf_alone (db : Database) (j : JobId) : runsOf (alone db j) j = runsOf db j :=
  (foldl_deleteJob _ db).runs j fun _ hk heq =>
    of_decide_eq_true (List.mem_filter.mp hk).2 heq.symm

/-! ### The pass on many jobs -/

/- The runs of a pass that are new: the row of the tick under a fresh id. -/
theorem PassedOn.created {now : Time} {job : Job} {tick : Option Time} {db db' : Database}
    (h : PassedOn now job tick db db') :
    created db db' job.id = tick.elim [] fun t => tickRuns (runsOf db job.id) job.id t now 0 := by
  obtain ⟨i, hi, hruns⟩ := h.runs
  have hold : ((runsOf db job.id).filter fun r => decide (db.runs.next ≤ r.id)) = [] := by
    rw [List.filter_eq_nil_iff]
    intro r hr hle
    have hlt : r.id < db.runs.next := db.runs.fresh r (List.mem_of_mem_filter hr)
    exact absurd (of_decide_eq_true hle) (Nat.not_le.mpr hlt)
  unfold Scheduler.created
  rw [hruns, List.filter_append, hold, List.nil_append]
  cases tick with
  | none => rfl
  | some t =>
    simp only [Option.elim_some, tickRuns]
    split
    · rfl
    · simp [NewRun.row, hi]

/- What happens to a job in a pass that returns. -/
theorem scheduleDueJobs_created {cronNext : CronNext} {db : Database} {now : Time}
    {out : Database × List RunId} (h : scheduleDueJobs cronNext db now = .ok out) {job : Job}
    (hj : job ∈ db.jobs.rows) {tick : Option Time} (ht : passTick cronNext job now = .ok tick) :
    created db out.1 job.id = (tick.elim [] fun t => tickRuns (runsOf db job.id) job.id t now 0) ∧
      out.1.jobs.get job.id = some (tick.elim job fun t => anchoredJob t now job) := by
  obtain ⟨tick', ht', hpass⟩ := scheduleDueJobs_passedOn h hj
  rw [ht] at ht'
  cases ht'
  exact ⟨hpass.created, hpass.row⟩

/- No job disturbs another exactly when the fire times of every job can be computed. -/
theorem independent_iff {isValid : String → Bool} {cronNext : CronNext} {db : Database}
    (hcron : ∀ job ∈ db.jobs.rows,
      Forward cronNext job.scheduleType job.scheduleExpr job.timezone)
    (hjobs : ∀ job ∈ db.jobs.rows, Accepted isValid job) {now : Time} :
    Independent cronNext db now ↔
      ∀ job ∈ db.jobs.rows, schedulable job = true → Computable cronNext job now := by
  constructor
  · rintro ⟨out, hout, -⟩ job hj hs
    obtain ⟨tick, ht, -⟩ := scheduleDueJobs_passedOn hout hj
    rw [passTick, if_pos hs] at ht
    exact (jobTick_ok_iff (hcron job hj) (hjobs job hj) hs).mp ⟨tick, ht⟩
  · intro h
    have hticks : ∀ job ∈ db.jobs.rows, schedulable job = true →
        ∃ tick, jobTick cronNext job now = .ok tick :=
      fun job hj hs => (jobTick_ok_iff (hcron job hj) (hjobs job hj) hs).mpr (h job hj hs)
    obtain ⟨out, hout⟩ := exists_scheduleDueJobs hticks
    refine ⟨out, hout, fun job hj => ?_⟩
    obtain ⟨out', hout'⟩ : ∃ out', scheduleDueJobs cronNext (alone db job.id) now = .ok out' :=
      exists_scheduleDueJobs fun k hk hs => hticks k (mem_alone.mp hk).1 hs
    obtain ⟨tick, ht, -⟩ := scheduleDueJobs_passedOn hout hj
    obtain ⟨hcreated, hrow⟩ := scheduleDueJobs_created hout hj ht
    obtain ⟨hcreated', hrow'⟩ := scheduleDueJobs_created hout' (mem_alone.mpr ⟨hj, rfl⟩) ht
    rw [runsOf_alone] at hcreated'
    exact ⟨out', hout', hcreated.trans hcreated'.symm, hrow.trans hrow'.symm⟩

/- Shell jobs of one user with the given intervals, created at the epoch. -/
def intervalJobs (exprs : List String) : Database :=
  (Database.ofNames 1 exprs []).updateJobs (fun _ => true)
    (fun j => { j with
      taskSpec := [("command", .string "true")]
      scheduleType := .interval
      scheduleExpr := some j.name }) fun _ => rfl

theorem independent_minutely : Independent noCron (intervalJobs ["60", "3600"]) 60000000 := by
  have hvalid : ∀ job ∈ (intervalJobs ["60", "3600"]).jobs.rows,
      Accepted (fun _ => true) job := by decide
  have hrows : ∀ job ∈ (intervalJobs ["60", "3600"]).jobs.rows, job.scheduleType = .interval ∧
      ((job.scheduleExpr.bind Text.int).all fun n =>
        decide (firstAfter (anchorOf job) 60000000 (n * microseconds) ≤ maxTime)) = true := by
    decide
  have hcron : ∀ job ∈ (intervalJobs ["60", "3600"]).jobs.rows,
      Forward noCron job.scheduleType job.scheduleExpr job.timezone := by
    intro job hj
    exact forward_of_ne_cron noCron (by rw [(hrows job hj).1]; decide) _ _
  refine (independent_iff hcron hvalid).mpr fun job hj _ => ?_
  obtain ⟨htype, hall⟩ := hrows job hj
  unfold Computable
  rw [htype]
  intro e n he hn
  rw [he, Option.bind_some, hn] at hall
  exact of_decide_eq_true hall

/- A due job next to one whose first fire time lies after the year 9999. -/
theorem not_independent : ¬ ∀ (isValid : String → Bool) (cronNext : CronNext) (db : Database)
    (now : Time), (∀ job ∈ db.jobs.rows,
      Forward cronNext job.scheduleType job.scheduleExpr job.timezone) →
    (∀ job ∈ db.jobs.rows, Accepted isValid job) → Independent cronNext db now := by
  intro h
  have hinterval : ∀ job ∈ (intervalJobs ["60", "99999999999999"]).jobs.rows,
      job.scheduleType ≠ .cron := by decide
  obtain ⟨out, hout, -⟩ := h (fun _ => true) noCron (intervalJobs ["60", "99999999999999"])
    60000000 (fun job hj => forward_of_ne_cron noCron (hinterval job hj) _ _) (by decide)
  have hraises : (scheduleDueJobs noCron (intervalJobs ["60", "99999999999999"])
      60000000).isOk = false := by decide
  rw [hout] at hraises
  cases hraises

end JobScheduler.Scheduler
