import JobScheduler.Common.Session
import JobScheduler.Scheduler.Isolation
import JobScheduler.Scheduler.Tick

/-!
# Every due tick once (backend/scheduler/main.py)

What one call of `schedule_due_jobs` leaves behind, whatever runs and anchors it finds, and
what a sequence of calls leaves behind. `tick` is taken statement by statement at the end:
an exception at any statement up to the commit undoes the pass.
-/

namespace JobScheduler.Scheduler
open Library Database Cron

variable {cronNext : CronNext} {now : Time} {db : Database}

/-! ### The ids that are returned -/

/- Between two iterations the list holds the ids of the runs added so far, in order. -/
structure Collected (db : Database) (acc : Database × List RunId) : Prop where
  next : db.runs.next ≤ acc.1.runs.next
  ids : ∀ i, i ∈ acc.2 ↔ db.runs.next ≤ i ∧ (acc.1.runs.get i).isSome = true
  sorted : acc.2.Pairwise (· < ·)

theorem collected_start (db : Database) : Collected db (db, []) where
  next := le_rfl
  ids := by
    intro i
    refine iff_of_false List.not_mem_nil ?_
    rintro ⟨hle, hi⟩
    obtain ⟨r, hr⟩ := Option.isSome_iff_exists.mp hi
    exact Nat.not_lt.mpr hle (Table.lt_next_of_get hr)
  sorted := List.Pairwise.nil

theorem Collected.scheduleTick {acc : Database × List RunId} (h : Collected db acc) (j : JobId)
    (tick now : Time) : Collected db (scheduleTick acc j tick now) := by
  unfold Scheduler.scheduleTick
  cases hi : acc.1.insertRun (scheduledRow j tick now) with
  | none => exact ⟨h.next, h.ids, h.sorted⟩
  | some out =>
    obtain ⟨db', i⟩ := out
    obtain ⟨rfl, ha, rfl⟩ := insertRun_eq_some hi
    refine ⟨h.next.trans (Nat.le_succ _), ?_, ?_⟩
    · intro k
      have hget : (anchor (acc.1.addRun _ ha) j tick now).runs.get k =
          if k = acc.1.runs.next then some ((scheduledRow j tick now).row acc.1.runs.next)
          else acc.1.runs.get k := get_addRun acc.1 _ ha k
      rw [hget, List.mem_append, List.mem_singleton, h.ids]
      by_cases hk : k = acc.1.runs.next
      · rw [if_pos hk]
        exact iff_of_true (.inr hk) ⟨hk ▸ h.next, rfl⟩
      · rw [if_neg hk, or_iff_left hk]
    · rw [List.pairwise_append]
      refine ⟨h.sorted, List.pairwise_singleton _ _, ?_⟩
      intro a hia b hib
      rw [List.mem_singleton.mp hib]
      obtain ⟨r, hr⟩ := Option.isSome_iff_exists.mp ((h.ids a).mp hia).2
      exact Table.lt_next_of_get hr

theorem foldlM_collected {jobs : List Job} {acc out : Database × List RunId}
    (h : Collected db acc) (hout : jobs.foldlM (scheduleJob cronNext now) acc = .ok out) :
    Collected db out := by
  induction jobs generalizing acc with
  | nil =>
    cases hout
    exact h
  | cons job jobs ih =>
    obtain ⟨mid, hmid, hout⟩ := bind_eq_ok.mp hout
    obtain ⟨tick, -, rfl⟩ := scheduleJob_eq_ok hmid
    cases tick with
    | none => exact ih h hout
    | some t => exact ih (h.scheduleTick job.id t now) hout

theorem scheduleDueJobs_collected {out : Database × List RunId}
    (h : scheduleDueJobs cronNext db now = .ok out) : Collected db out :=
  foldlM_collected (collected_start db) h

/-! ### One call -/

/-- Some run of job j stands for the tick t. -/
def HasTick (db : Database) (j : JobId) (t : Time) : Prop :=
  ∃ r ∈ db.runs.rows, r.jobId = j ∧ r.scheduledFor = some t

/-- The run i is in `db'` and was not in `db`. -/
def NewRunAt (db db' : Database) (i : RunId) (r : JobRun) : Prop :=
  db.runs.get i = none ∧ db'.runs.get i = some r

/-- What a call of schedule_due_jobs at `now` does: `out` are the tables after it and the
ids it returns. -/
structure DueOnce (cronNext : CronNext) (now : Time) (db : Database)
    (out : Database × List RunId) : Prop where
  due : ∀ job ∈ db.jobs.rows, ∀ t, passTick cronNext job now = .ok (some t) →
    out.1.jobs.get job.id = some (anchoredJob t now job)
  notDue : ∀ job ∈ db.jobs.rows, passTick cronNext job now = .ok none →
    out.1.jobs.get job.id = some job
  noJob : ∀ j, db.jobs.get j = none → out.1.jobs.get j = none
  dependencies : out.1.dependencies = db.dependencies
  oldRuns : ∀ i r, db.runs.get i = some r → out.1.runs.get i = some r
  inserted : ∀ job ∈ db.jobs.rows, ∀ t, passTick cronNext job now = .ok (some t) →
    ((∃ i, NewRunAt db out.1 i ((scheduledRow job.id t now).row i)) ↔ ¬ HasTick db job.id t)
  newRuns : ∀ i r, NewRunAt db out.1 i r →
    ∃ job ∈ db.jobs.rows, ∃ t, passTick cronNext job now = .ok (some t) ∧
      r = (scheduledRow job.id t now).row i
  returned : ∀ i, i ∈ out.2 ↔ ∃ r, NewRunAt db out.1 i r
  distinct : out.2.Nodup

theorem mem_runsOf {j : JobId} {r : JobRun} : r ∈ runsOf db j ↔ r ∈ db.runs.rows ∧ r.jobId = j := by
  simp [runsOf]

theorem any_runsOf_iff {j : JobId} {t : Time} :
    ((runsOf db j).any fun r => decide (r.scheduledFor = some t)) = true ↔ HasTick db j t := by
  rw [List.any_eq_true]
  constructor
  · rintro ⟨r, hr, ht⟩
    obtain ⟨hr, hj⟩ := mem_runsOf.mp hr
    exact ⟨r, hr, hj, of_decide_eq_true ht⟩
  · rintro ⟨r, hr, hj, ht⟩
    exact ⟨r, mem_runsOf.mpr ⟨hr, hj⟩, decide_eq_true ht⟩

/- The runs of a due job after the call. -/
theorem PassedOn.mem {job : Job} {t : Time} {db' : Database} (h : PassedOn now job (some t) db db') :
    ∃ i, db.runs.next ≤ i ∧ ∀ r, r ∈ runsOf db' job.id ↔
      r ∈ runsOf db job.id ∨ ¬ HasTick db job.id t ∧ r = (scheduledRow job.id t now).row i := by
  obtain ⟨i, hi, hruns⟩ := h.runs
  refine ⟨i, hi, fun r => ?_⟩
  rw [hruns, List.mem_append, Option.elim_some, tickRuns, ← any_runsOf_iff]
  cases (runsOf db job.id).any fun r => decide (r.scheduledFor = some t) <;> simp

theorem newRunAt_iff {db' : Database} {i : RunId} {r : JobRun} :
    NewRunAt db db' i r ↔ r ∈ db'.runs.rows ∧ r.id = i ∧ db.runs.get i = none := by
  unfold NewRunAt
  rw [Table.get_eq_some, key_jobRun]
  tauto

theorem scheduleDueJobs_dueOnce {out : Database × List RunId}
    (h : scheduleDueJobs cronNext db now = .ok out) : DueOnce cronNext now db out := by
  have hsched := scheduleDueJobs_scheduled h
  have hids := scheduleDueJobs_collected h
  have hpass : ∀ job ∈ db.jobs.rows, ∀ tick, passTick cronNext job now = .ok tick →
      PassedOn now job tick db out.1 := by
    intro job hjob tick htick
    obtain ⟨tick', htick', hp⟩ := scheduleDueJobs_passedOn h hjob
    rw [htick] at htick'
    cases htick'
    exact hp
  have hnew : ∀ i r, NewRunAt db out.1 i r →
      ∃ job ∈ db.jobs.rows, ∃ t, passTick cronNext job now = .ok (some t) ∧
        ¬ HasTick db job.id t ∧ r = (scheduledRow job.id t now).row i := by
    intro i r hr
    obtain ⟨-, -, job, hjob, hs, hid, t, htick⟩ := hsched.ext.new i r hr.2 hr.1
    have hpt : passTick cronNext job now = .ok (some t) := by rw [passTick, hs, if_pos rfl, htick]
    obtain ⟨hmem, hri, hnone⟩ := newRunAt_iff.mp hr
    obtain ⟨k, -, hruns⟩ := (hpass job hjob _ hpt).mem
    rcases (hruns r).mp (mem_runsOf.mpr ⟨hmem, hid.symm⟩) with hold | ⟨hno, rfl⟩
    · have hget := Table.get_of_mem (mem_runsOf.mp hold).1
      rw [key_jobRun, hri, hnone] at hget
      cases hget
    · have hki : k = i := hri
      rw [hki]
      exact ⟨job, hjob, t, hpt, hno, rfl⟩
  refine ⟨fun job hjob t ht => (hpass job hjob _ ht).row, fun job hjob ht =>
    (hpass job hjob _ ht).row, ?_, hsched.ext.dependencies, hsched.ext.old, ?_, ?_, ?_, ?_⟩
  · intro j hj
    have hsome := hsched.ext.jobIds j
    rw [hj, Option.isSome_none, Option.isSome_eq_false_iff, Option.isNone_iff_eq_none] at hsome
    exact hsome
  · intro job hjob t ht
    constructor
    · rintro ⟨i, hi⟩ ⟨r, hr, hj, hrt⟩
      -- the two rows of one tick would be the same
      have hrow := Table.mem_of_get hi.2
      have hrout : r ∈ out.1.runs.rows :=
        Table.mem_of_get (hsched.ext.old r.id r (Table.get_of_mem hr))
      have heq := out.1.uq_job_run_tick r hrout _ hrow hj hrt (hrt ▸ Option.some_ne_none t)
      have hget := Table.get_of_mem hr
      rw [heq] at hget
      rw [show Keyed.key ((scheduledRow job.id t now).row i) = i from rfl, hi.1] at hget
      cases hget
    · intro hno
      obtain ⟨i, hi, hruns⟩ := (hpass job hjob _ ht).mem
      refine ⟨i, newRunAt_iff.mpr ⟨(mem_runsOf.mp ((hruns _).mpr (.inr ⟨hno, rfl⟩))).1, rfl, ?_⟩⟩
      refine Table.get_eq_none.mpr fun r hr hk => ?_
      exact Nat.not_lt.mpr hi (hk ▸ db.runs.fresh r hr)
  · intro i r hr
    obtain ⟨job, hjob, t, ht, -, heq⟩ := hnew i r hr
    exact ⟨job, hjob, t, ht, heq⟩
  · intro i
    rw [hids.ids, Option.isSome_iff_exists]
    constructor
    · rintro ⟨hle, r, hr⟩
      exact ⟨r, Table.get_eq_none.mpr fun q hq hk => Nat.not_lt.mpr hle (hk ▸ db.runs.fresh q hq), hr⟩
    · rintro ⟨r, hr⟩
      exact ⟨(hsched.ext.new i r hr.2 hr.1).1, r, hr.2⟩
  · exact hids.sorted.imp fun hlt => Nat.ne_of_lt hlt

/-! ### Any number of calls -/

/-- The calls of any leaders, one after the other: the tables and all ids returned. -/
def passes (cronNext : CronNext) (acc : Database × List RunId) (now : Time) :
    Except ScheduleError (Database × List RunId) :=
  (scheduleDueJobs cronNext acc.1 now).map fun out => (out.1, acc.2 ++ out.2)

/- All ids returned so far are different and belong to runs in the table. -/
structure Returned (acc : Database × List RunId) : Prop where
  distinct : acc.2.Nodup
  runs : ∀ i ∈ acc.2, (acc.1.runs.get i).isSome = true

theorem Returned.passes {acc out : Database × List RunId} (h : Returned acc)
    (hout : passes cronNext acc now = .ok out) : Returned out := by
  obtain ⟨res, hres, rfl⟩ := map_eq_ok.mp hout
  have hone := scheduleDueJobs_dueOnce hres
  constructor
  · refine List.nodup_append.mpr ⟨h.distinct, hone.distinct, ?_⟩
    rintro i hi k hk rfl
    obtain ⟨r, hr, -⟩ := (hone.returned i).mp hk
    have hsome := h.runs i hi
    rw [hr] at hsome
    cases hsome
  · intro i hi
    rcases List.mem_append.mp hi with hi | hi
    · obtain ⟨r, hr⟩ := Option.isSome_iff_exists.mp (h.runs i hi)
      rw [hone.oldRuns i r hr]
      rfl
    · obtain ⟨r, hr⟩ := (hone.returned i).mp hi
      rw [hr.2]
      rfl

theorem foldlM_returned {nows : List Time} {acc out : Database × List RunId} (h : Returned acc)
    (hout : nows.foldlM (passes cronNext) acc = .ok out) : Returned out := by
  induction nows generalizing acc with
  | nil =>
    cases hout
    exact h
  | cons now nows ih =>
    obtain ⟨mid, hmid, hout⟩ := bind_eq_ok.mp hout
    exact ih (h.passes hmid) hout

/-! ### tick, statement by statement -/

/- The places where a statement of tick can raise by itself: a Redis or a database error.
due_tick raises where the schedule makes it raise. -/
inductive Point where
  | promote
  | promoted
  | job (n : ℕ)
  | flushed (n : ℕ)
  | requeueOrphans
  | commit
  deriving DecidableEq, Repr

inductive TickError where
  | schedule (e : ScheduleError)
  | raised (point : Point)
  deriving DecidableEq, Repr

section
variable (cfg : Settings) (cronNext : CronNext) (faults : Point → Bool) (now : Time)

def raiseAt (p : Point) : EStateM TickError Env Unit :=
  if faults p then throw (.raised p) else pure ()

/- One iteration: the tables of the session change, the list of ids is a local variable. -/
def scheduleJobM (enqueued : List RunId) (job : Job × ℕ) : EStateM TickError Env (List RunId) := do
  raiseAt faults (.job job.2)
  match jobTick cronNext job.1 now with
  | .error e => throw (.schedule e)
  | .ok none => return enqueued
  | .ok (some t) =>
    let out := scheduleTick ((← get).working, enqueued) job.1.id t now
    modify fun env => { env with working := out.1 }
    raiseAt faults (.flushed job.2)
    return out.2

def passM : EStateM TickError Env (List RunId × List RunId) := do
  let jobs := (← get).working.jobs.rows.filter schedulable
  let scheduled ← jobs.zipIdx.foldlM (scheduleJobM cronNext faults now) []
  raiseAt faults .requeueOrphans
  let orphans := requeueOrphans cfg (← get).working now
  raiseAt faults .commit
  return (scheduled, orphans)

def sessionM : EStateM TickError Env (List RunId × List RunId) := withRollback do
  let out ← passM cfg cronNext faults now
  modify Env.commit
  return out

def enqueueM (out : List RunId × List RunId) : EStateM TickError Env Unit :=
  modify fun env => { env with redis := (out.1 ++ out.2).foldl Redis.enqueueRun env.redis }

def tickM : EStateM TickError Env Unit := do
  raiseAt faults .promote
  modify fun env => { env with redis := (env.redis.promoteDueDelayed now).1 }
  raiseAt faults .promoted
  enqueueM (← sessionM cfg cronNext faults now)

end

/- The statements of the pass touch the tables of the session only. -/
theorem keeps_raiseAt (faults : Point → Bool) (p : Point) :
    Keeps Env.Pending (raiseAt faults p) := by
  unfold raiseAt
  split
  · exact keeps_throw Env.Pending.refl _
  · exact keeps_pure Env.Pending.refl _

theorem keeps_working (f : Env → Database) :
    Keeps Env.Pending
      (modify (fun env => { env with working := f env }) : EStateM TickError Env Unit) where
  ok := by
    intro env a env' h
    cases h
    exact ⟨rfl, rfl⟩
  error := by
    intro env e env' h
    cases h

theorem keeps_get : Keeps Env.Pending (get : EStateM TickError Env Env) where
  ok := by
    intro env a env' h
    cases h
    exact Env.Pending.refl _
  error := by
    intro env e env' h
    cases h

theorem keeps_scheduleJobM (cronNext : CronNext) (faults : Point → Bool) (now : Time)
    (enqueued : List RunId) (job : Job × ℕ) :
    Keeps Env.Pending (scheduleJobM cronNext faults now enqueued job) := by
  unfold scheduleJobM
  refine (keeps_raiseAt _ _).bind Env.Pending.trans fun _ => ?_
  split
  · exact keeps_throw Env.Pending.refl _
  · exact keeps_pure Env.Pending.refl _
  · refine keeps_get.bind Env.Pending.trans fun env => ?_
    refine (keeps_working fun _ => _).bind Env.Pending.trans fun _ => ?_
    refine (keeps_raiseAt _ _).bind Env.Pending.trans fun _ => ?_
    exact keeps_pure Env.Pending.refl _

theorem keeps_passM (cfg : Settings) (cronNext : CronNext) (faults : Point → Bool) (now : Time) :
    Keeps Env.Pending (passM cfg cronNext faults now) := by
  unfold passM
  refine keeps_get.bind Env.Pending.trans fun env => ?_
  refine (Keeps.foldlM Env.Pending.refl Env.Pending.trans
    (keeps_scheduleJobM cronNext faults now) _ _).bind Env.Pending.trans fun _ => ?_
  refine (keeps_raiseAt _ _).bind Env.Pending.trans fun _ => ?_
  refine keeps_get.bind Env.Pending.trans fun env => ?_
  refine (keeps_raiseAt _ _).bind Env.Pending.trans fun _ => ?_
  exact keeps_pure Env.Pending.refl _

/-- An exception before the commit leaves the tables as they were and enqueues nothing of the
pass; the promotions of delayed runs have been made or not. -/
theorem tickM_error {cfg : Settings} {cronNext : CronNext} {faults : Point → Bool} {now : Time}
    {db : Database} {redis : Redis} {e : TickError} {env : Env}
    (h : tickM cfg cronNext faults now (Env.start db redis) = .error e env) :
    env.committed = db ∧ (env.redis = redis ∨ env.redis = (redis.promoteDueDelayed now).1) := by
  unfold tickM at h
  rcases bind_run_error.mp h with h | ⟨_, env₁, h₁, h⟩
  · have hp := (keeps_raiseAt _ _).error _ _ _ h
    exact ⟨hp.1, .inl hp.2⟩
  have hp₁ := (keeps_raiseAt _ _).ok _ _ _ h₁
  have hpromoted : (env₁.redis.promoteDueDelayed now).1 = (redis.promoteDueDelayed now).1 := by
    rw [hp₁.2]
    rfl
  rcases bind_run_error.mp h with h | ⟨_, env₂, h₂, h⟩
  · cases h
  cases h₂
  rcases bind_run_error.mp h with h | ⟨_, env₃, h₃, h⟩
  · have hp := (keeps_raiseAt _ _).error _ _ _ h
    exact ⟨hp.1.trans hp₁.1, .inr (hp.2.trans hpromoted)⟩
  have hp₃ := (keeps_raiseAt _ _).ok _ _ _ h₃
  rcases bind_run_error.mp h with h | ⟨out, env₄, -, h⟩
  · -- the session: the exception comes from the pass, the commit is its last statement
    obtain ⟨env₅, hbody, rfl⟩ := withRollback_error.mp h
    rcases bind_run_error.mp hbody with hbody | ⟨_, _, -, hbody⟩
    · have hp := (keeps_passM cfg cronNext faults now).error _ _ _ hbody
      exact ⟨hp.1.trans (hp₃.1.trans hp₁.1), .inr (hp.2.trans (hp₃.2.trans hpromoted))⟩
    · cases hbody
  · cases h

/-! ### tick without faults -/

def noFaults : Point → Bool := fun _ => false

theorem raiseAt_noFaults (p : Point) (env : Env) : raiseAt noFaults p env = .ok () env := rfl

section
variable {job : Job × ℕ} {ids : List RunId} {env : Env} {out : Database × List RunId}
  {e : ScheduleError}

theorem scheduleJobM_ok (h : scheduleJob cronNext now (env.working, ids) job.1 = .ok out) :
    scheduleJobM cronNext noFaults now ids job env = .ok out.2 { env with working := out.1 } := by
  obtain ⟨tick, ht, rfl⟩ := scheduleJob_eq_ok h
  unfold scheduleJobM
  rw [bind_run, raiseAt_noFaults, ht]
  cases tick with
  | none => rfl
  | some t => rfl

theorem scheduleJobM_error (h : scheduleJob cronNext now (env.working, ids) job.1 = .error e) :
    scheduleJobM cronNext noFaults now ids job env = .error (.schedule e) env := by
  unfold scheduleJobM
  rw [bind_run, raiseAt_noFaults]
  cases ht : jobTick cronNext job.1 now with
  | error e' =>
    rw [scheduleJob, ht] at h
    cases h
    rfl
  | ok tick =>
    rw [scheduleJob, ht] at h
    cases tick <;> cases h

theorem foldlM_scheduleJobM_ok {jobs : List (Job × ℕ)}
    (h : (jobs.map Prod.fst).foldlM (scheduleJob cronNext now) (env.working, ids) = .ok out) :
    jobs.foldlM (scheduleJobM cronNext noFaults now) ids env =
      .ok out.2 { env with working := out.1 } := by
  induction jobs generalizing env ids with
  | nil =>
    cases h
    rfl
  | cons job jobs ih =>
    obtain ⟨mid, hmid, h⟩ := bind_eq_ok.mp h
    rw [List.foldlM_cons, bind_run, scheduleJobM_ok hmid]
    exact ih h

theorem foldlM_scheduleJobM_error {jobs : List (Job × ℕ)}
    (h : (jobs.map Prod.fst).foldlM (scheduleJob cronNext now) (env.working, ids) = .error e) :
    ∃ env', jobs.foldlM (scheduleJobM cronNext noFaults now) ids env =
      .error (.schedule e) env' := by
  induction jobs generalizing env ids with
  | nil => cases h
  | cons job jobs ih =>
    rw [List.foldlM_cons, bind_run]
    rw [List.map_cons, List.foldlM_cons] at h
    cases hmid : scheduleJob cronNext now (env.working, ids) job.1 with
    | error e' =>
      rw [hmid] at h
      cases h
      rw [scheduleJobM_error hmid]
      exact ⟨env, rfl⟩
    | ok mid =>
      rw [hmid] at h
      rw [scheduleJobM_ok hmid]
      exact ih h

theorem map_fst_zipIdx_schedulable (db : Database) :
    (db.jobs.rows.filter schedulable).zipIdx.map Prod.fst = db.jobs.rows.filter schedulable :=
  List.zipIdx_map_fst 0 _

theorem passM_ok {cfg : Settings} (h : scheduleDueJobs cronNext env.working now = .ok out) :
    passM cfg cronNext noFaults now env =
      .ok (out.2, requeueOrphans cfg out.1 now) { env with working := out.1 } := by
  unfold scheduleDueJobs at h
  rw [← map_fst_zipIdx_schedulable] at h
  unfold passM
  rw [get_bind_run, bind_run, foldlM_scheduleJobM_ok h]
  rfl

theorem passM_error {cfg : Settings} (h : scheduleDueJobs cronNext env.working now = .error e) :
    ∃ env', passM cfg cronNext noFaults now env = .error (.schedule e) env' := by
  unfold scheduleDueJobs at h
  rw [← map_fst_zipIdx_schedulable] at h
  obtain ⟨env', henv⟩ := foldlM_scheduleJobM_error h
  refine ⟨env', ?_⟩
  unfold passM
  rw [get_bind_run, bind_run, henv]

end

/-- Without faults the statements of tick are the function `tick`. -/
theorem tickM_noFaults (cfg : Settings) (cronNext : CronNext) (db : Database) (redis : Redis)
    (now : Time) :
    ∃ env, ((∃ e, tickM cfg cronNext noFaults now (Env.start db redis) = .error (.schedule e) env) ∨
        tickM cfg cronNext noFaults now (Env.start db redis) = .ok () env) ∧
      (env.committed, env.redis) = tick cfg cronNext db redis now := by
  let env₁ : Env := ⟨db, db, (redis.promoteDueDelayed now).1⟩
  have hrun : tickM cfg cronNext noFaults now (Env.start db redis) =
      (sessionM cfg cronNext noFaults now >>= enqueueM) env₁ := rfl
  rw [hrun]
  unfold tick
  cases hs : scheduleDueJobs cronNext db now with
  | error e =>
    obtain ⟨env₂, hpass⟩ : ∃ env, passM cfg cronNext noFaults now env₁ = .error (.schedule e) env :=
      passM_error hs
    have hkeep := (keeps_passM cfg cronNext noFaults now).error _ _ _ hpass
    have hsession : sessionM cfg cronNext noFaults now env₁ = .error (.schedule e) env₂.rollback :=
      withRollback_error.mpr ⟨env₂, bind_run_error.mpr (.inl hpass), rfl⟩
    refine ⟨env₂.rollback, .inl ⟨e, ?_⟩, Prod.ext hkeep.1 hkeep.2⟩
    exact bind_run_error.mpr (.inl hsession)
  | ok out =>
    have hpass : passM cfg cronNext noFaults now env₁ = _ := passM_ok hs
    have hsession : sessionM cfg cronNext noFaults now env₁ = _ :=
      withRollback_ok.mpr (bind_run_ok.mpr ⟨_, _, hpass, rfl⟩)
    exact ⟨_, .inr (bind_run_ok.mpr ⟨_, _, hsession, rfl⟩), rfl⟩

/-- schedule_due_jobs creates each due tick once, alone and in any sequence of calls; tick
leaves nothing of a pass that raises. -/
theorem scheduleDueJobs_creates_each_tick_once (cronNext : CronNext) :
    (∀ db now, (∀ job ∈ db.jobs.rows, ∃ tick, passTick cronNext job now = .ok tick) →
      ∃ out, scheduleDueJobs cronNext db now = .ok out ∧ DueOnce cronNext now db out) ∧
    (∀ (db : Database) (nows : List Time) (out : Database × List RunId),
      nows.foldlM (passes cronNext) (db, []) = .ok out →
      out.2.Nodup ∧ ∀ r ∈ out.1.runs.rows, ∀ q ∈ out.1.runs.rows, r.jobId = q.jobId →
        r.scheduledFor = q.scheduledFor → r.scheduledFor ≠ none → r = q) ∧
    ∀ cfg faults now db redis e env,
      tickM cfg cronNext faults now (Env.start db redis) = .error e env →
      env.committed = db ∧
        (env.redis = redis ∨ env.redis = (redis.promoteDueDelayed now).1) := by
  refine ⟨?_, ?_, fun _ _ _ _ _ _ _ h => tickM_error h⟩
  · intro db now h
    have hticks : ∀ job ∈ db.jobs.rows, schedulable job = true →
        ∃ tick, jobTick cronNext job now = .ok tick := by
      intro job hjob hs
      obtain ⟨tick, ht⟩ := h job hjob
      rw [passTick, if_pos hs] at ht
      exact ⟨tick, ht⟩
    obtain ⟨out, hout⟩ := exists_scheduleDueJobs hticks
    exact ⟨out, hout, scheduleDueJobs_dueOnce hout⟩
  · intro db nows out h
    have hstart : Returned (db, []) := ⟨List.nodup_nil, fun _ hi => absurd hi List.not_mem_nil⟩
    exact ⟨(foldlM_returned hstart h).distinct, out.1.uq_job_run_tick⟩

/- Two jobs, one of them due; the second call at the same time finds its run. -/
theorem scheduleDueJobs_creates_each_tick_once_minutely :
    (∀ job ∈ (intervalJobs ["60", "3600"]).jobs.rows,
      ∃ tick, passTick noCron job 60000000 = .ok tick) ∧
    (∃ out, scheduleDueJobs noCron (intervalJobs ["60", "3600"]) 60000000 = .ok out ∧
      DueOnce noCron 60000000 (intervalJobs ["60", "3600"]) out) := by
  have h : ∀ job ∈ (intervalJobs ["60", "3600"]).jobs.rows,
      ∃ tick, passTick noCron job 60000000 = .ok tick := by
    have hok : ∀ job ∈ (intervalJobs ["60", "3600"]).jobs.rows,
        (passTick noCron job 60000000).isOk = true := by decide
    intro job hjob
    have hj := hok job hjob
    cases ht : passTick noCron job 60000000 with
    | error e =>
      rw [ht] at hj
      cases hj
    | ok tick => exact ⟨tick, rfl⟩
  exact ⟨h, (scheduleDueJobs_creates_each_tick_once noCron).1 _ _ h⟩

end JobScheduler.Scheduler
