import JobScheduler.Library.Machine
import JobScheduler.Scheduler.Isolation

/-!
# Polling histories

Passes of `schedule_due_jobs` at any nondecreasing times, by any leader, with anything
happening to the tables in between that keeps the schedule of one job. Each pass starts
from the tick the last one has stored; the fire times of the job come out as if a single
pass had looked at them all.
-/

namespace JobScheduler.Polling
open Library Database Cron Schemas Scheduler

/- For each pass so far, its time and the ticks it created for the job. -/
structure State where
  db : Database
  polls : List (Time × List Time) := []

def start (db : Database) : State := { db := db }

inductive Label where
  | poll (now : Time)
  | other (db' : Database)

/- The columns schedule_due_jobs reads. -/
def SameSchedule (job job' : Job) : Prop :=
  job'.id = job.id ∧ job'.enabled = job.enabled ∧ job'.scheduleType = job.scheduleType ∧
    job'.scheduleExpr = job.scheduleExpr ∧ job'.timezone = job.timezone ∧
    job'.createdAt = job.createdAt

instance (job job' : Job) : Decidable (SameSchedule job job') := by
  unfold SameSchedule
  infer_instance

/- Job j is still there with its schedule and its anchor. -/
def keeps (j : JobId) (db db' : Database) : Bool :=
  match db.jobs.get j, db'.jobs.get j with
  | some job, some job' => decide (SameSchedule job job') &&
      decide (job'.lastScheduledFor = job.lastScheduledFor)
  | _, _ => false

section
variable (cronNext : CronNext) (j : JobId)

/- A pass that raises is rolled back and is no step. -/
def step (s : State) : Label → Option State
  | .poll now =>
    match scheduleDueJobs cronNext s.db now with
    | .ok out => some
        { db := out.1
          polls := s.polls ++ [(now, (created s.db out.1 j).filterMap JobRun.scheduledFor)] }
    | .error _ => none
  | .other db' => if keeps j s.db db' then some { s with db := db' } else none

end

/- Poll times do not go back. -/
def Later (s : State) : Label → Prop
  | .poll now => ∀ p ∈ s.polls, p.1 ≤ now
  | .other _ => True

instance (s : State) (l : Label) : Decidable (Later s l) := by
  cases l <;> unfold Later <;> infer_instance

/- The ticks created for a job that is `job` in the tables db of the start. The anchor they
leave is the one of a single pass over db at the time of the last poll. -/
structure Punctual (cronNext : CronNext) (db : Database) (job : Job) (s : State) : Prop where
  increasing : (s.polls.flatMap Prod.snd).Pairwise (· < ·)
  between : ∀ p ∈ s.polls, ∀ t ∈ p.2, job.createdAt < t ∧ t ≤ p.1
  once : ∀ p ∈ s.polls, p.2.length ≤ 1
  noDrift : ∀ n, job.scheduleType = .interval → job.scheduleExpr.bind Text.int = some n →
    ∀ p ∈ s.polls, ∀ t ∈ p.2, ∃ k : ℕ, 1 ≤ k ∧ t = job.createdAt + k * (n * microseconds)
  final : ∀ p, s.polls.getLast? = some p → ∃ job', s.db.jobs.get job.id = some job' ∧
    jobTick cronNext job p.1 = .ok job'.lastScheduledFor ∧
    ∀ out, scheduleDueJobs cronNext db p.1 = .ok out →
      (out.1.jobs.get job.id).map Job.lastScheduledFor = some job'.lastScheduledFor

section
variable {cronNext : CronNext} {job : Job}

/- The walk of the job's fire times. -/
abbrev Fires (cronNext : CronNext) (job : Job) (now : Time) : Time → Time → Prop :=
  Walk (nextRunTime cronNext job.scheduleType job.scheduleExpr job.timezone) now

/- The anchor is the last tick of the walk from the creation time to the last poll, and
every tick created so far lies up to it. -/
structure Anchored (cronNext : CronNext) (job : Job) (s : State) (job' : Job) : Prop where
  row : s.db.jobs.get job.id = some job'
  schedule : SameSchedule job job'
  stored : job'.lastScheduledFor =
    if anchorOf job' = job.createdAt then none else some (anchorOf job')
  fresh : s.polls = [] → anchorOf job' = job.createdAt
  walk : ∀ p, s.polls.getLast? = some p → Fires cronNext job p.1 job.createdAt (anchorOf job')
  increasing : (s.polls.flatMap Prod.snd).Pairwise (· < ·)
  upTo : ∀ p ∈ s.polls, ∀ t ∈ p.2, t ≤ anchorOf job'
  each : ∀ p ∈ s.polls, p.2.length ≤ 1 ∧
    ∀ t ∈ p.2, t ≠ job.createdAt ∧ Fires cronNext job p.1 job.createdAt t

/- The instants of a poll: nothing, or one tick behind the anchor. -/
theorem ticks_cases {rs : List JobRun} {jobId : JobId} {now base r : Time} {tick : Option Time}
    (htick : tick = if r = base then none else some r) :
    let ticks := (tick.elim [] fun t => tickRuns rs jobId t now 0).filterMap JobRun.scheduledFor
    ticks = [] ∨ ticks = [r] ∧ r ≠ base := by
  subst htick
  by_cases hr : r = base
  · exact .inl (by simp [hr])
  · simp only [hr, if_false, Option.elim_some, tickRuns]
    split
    · exact .inl rfl
    · exact .inr ⟨rfl, hr⟩

theorem anchorOf_elim {job' : Job} {now r : Time} {tick : Option Time}
    (htick : tick = if r = anchorOf job' then none else some r) :
    anchorOf (tick.elim job' fun t => anchoredJob t now job') = r := by
  subst htick
  by_cases hr : r = anchorOf job'
  · simp [hr]
  · rw [if_neg hr]
    rfl

theorem SameSchedule.anchored {job' : Job} (h : SameSchedule job job') (tick : Option Time)
    (now : Time) : SameSchedule job (tick.elim job' fun t => anchoredJob t now job') := by
  cases tick with
  | none => exact h
  | some t => exact h

theorem SameSchedule.schedulable {job' : Job} (h : SameSchedule job job') :
    schedulable job' = schedulable job := by
  obtain ⟨-, he, ht, -⟩ := h
  simp only [Scheduler.schedulable, he, ht]

/- The walk a pass at `now` makes for the job, from the anchor on. -/
theorem SameSchedule.jobTick {job' : Job} (h : SameSchedule job job')
    (hcron : Forward cronNext job.scheduleType job.scheduleExpr job.timezone)
    {now : Time} {tick : Option Time} (ht : Scheduler.jobTick cronNext job' now = .ok tick) :
    ∃ r, Fires cronNext job now (anchorOf job') r ∧
      tick = if r = anchorOf job' then none else some r := by
  obtain ⟨-, -, htype, hexpr, htz, -⟩ := h
  unfold Scheduler.jobTick at ht
  rw [htype, hexpr, htz] at ht
  obtain ⟨r, hw, htick⟩ := (dueTick_eq_ok hcron).mp ht
  exact ⟨r, hw, htick⟩

variable {s : State} {job' : Job}

theorem Anchored.le (h : Anchored cronNext job s job')
    (hcron : Forward cronNext job.scheduleType job.scheduleExpr job.timezone) :
    job.createdAt ≤ anchorOf job' := by
  cases hp : s.polls.getLast? with
  | none => exact (h.fresh (List.getLast?_eq_none_iff.mp hp)).ge
  | some p =>
    rcases (h.walk p hp).eq_or_lt fun a b => nextRunTime_lt hcron with heq | ⟨hlt, -⟩
    · exact heq.ge
    · exact hlt.le

/- The walk to the anchor goes on to the end of the walk of the next pass. -/
theorem Anchored.extend (h : Anchored cronNext job s job') {now r : Time}
    (hlater : ∀ p ∈ s.polls, p.1 ≤ now) (hw : Fires cronNext job now (anchorOf job') r) :
    Fires cronNext job now job.createdAt r := by
  cases hp : s.polls.getLast? with
  | none =>
    rw [h.fresh (List.getLast?_eq_none_iff.mp hp)] at hw
    exact hw
  | some p => exact (h.walk p hp).trans (hlater p (List.mem_of_getLast? hp)) hw

theorem Anchored.poll (h : Anchored cronNext job s job')
    (hcron : Forward cronNext job.scheduleType job.scheduleExpr job.timezone)
    (hs : schedulable job = true) {now : Time} (hlater : ∀ p ∈ s.polls, p.1 ≤ now)
    {out : Database × List RunId} (hout : scheduleDueJobs cronNext s.db now = .ok out) :
    ∃ job'', Anchored cronNext job
      { db := out.1
        polls := s.polls ++
          [(now, (created s.db out.1 job.id).filterMap JobRun.scheduledFor)] } job'' := by
  have hid : job'.id = job.id := h.schedule.1
  have hmem : job' ∈ s.db.jobs.rows := Table.mem_of_get h.row
  obtain ⟨tick, ht, hpass⟩ := scheduleDueJobs_passedOn hout hmem
  rw [passTick, h.schedule.schedulable, if_pos hs] at ht
  obtain ⟨r, hw, htick⟩ := h.schedule.jobTick hcron ht
  have hwalk := h.extend hlater hw
  have hanchor : anchorOf (tick.elim job' fun t => anchoredJob t now job') = r :=
    anchorOf_elim htick
  -- the anchor only moves forward
  have hle : anchorOf job' ≤ r := by
    rcases hw.eq_or_lt fun a b => nextRunTime_lt hcron with heq | ⟨hlt, -⟩
    · exact heq.ge
    · exact hlt.le
  have hcreated := hpass.created
  rw [hid] at hcreated
  have hrow := hpass.row
  rw [hid] at hrow
  have hticks : (created s.db out.1 job.id).filterMap JobRun.scheduledFor = [] ∨
      (created s.db out.1 job.id).filterMap JobRun.scheduledFor = [r] ∧ r ≠ anchorOf job' := by
    rw [hcreated]
    exact ticks_cases htick
  generalize (created s.db out.1 job.id).filterMap JobRun.scheduledFor = ticks at hticks
  have hnew : ∀ t ∈ ticks, t = r ∧ anchorOf job' < r := by
    rcases hticks with rfl | ⟨rfl, hne⟩
    · exact fun t ht => absurd ht List.not_mem_nil
    · exact fun t ht => ⟨List.mem_singleton.mp ht, lt_of_le_of_ne hle hne.symm⟩
  refine ⟨tick.elim job' fun t => anchoredJob t now job', hrow, h.schedule.anchored tick now, ?_,
    ?_, ?_, ?_, ?_, ?_⟩
  · rw [hanchor]
    by_cases hr : r = anchorOf job'
    · rw [if_pos hr] at htick
      rw [htick, hr]
      exact h.stored
    · rw [if_neg hr] at htick
      have hlt : job.createdAt < r := lt_of_le_of_lt (h.le hcron) (lt_of_le_of_ne hle (Ne.symm hr))
      rw [if_neg hlt.ne', htick]
      rfl
  · intro hnil
    simp at hnil
  · intro p hp
    rw [List.getLast?_concat] at hp
    cases hp
    rw [hanchor]
    exact hwalk
  · rw [List.flatMap_append, List.pairwise_append]
    refine ⟨h.increasing, ?_, ?_⟩
    · rcases hticks with rfl | ⟨rfl, -⟩ <;> simp
    · intro a ha b hb
      obtain ⟨p, hp, ha⟩ := List.mem_flatMap.mp ha
      have hb : b ∈ ticks := by simpa using hb
      obtain ⟨rfl, hlt⟩ := hnew b hb
      exact lt_of_le_of_lt (h.upTo p hp a ha) hlt
  · intro p hp t ht
    rw [hanchor]
    rcases List.mem_append.mp hp with hp | hp
    · exact (h.upTo p hp t ht).trans hle
    · cases List.mem_singleton.mp hp
      exact (hnew t ht).1.le
  · intro p hp
    rcases List.mem_append.mp hp with hp | hp
    · exact h.each p hp
    · cases List.mem_singleton.mp hp
      refine ⟨by rcases hticks with rfl | ⟨rfl, -⟩ <;> simp, fun t ht => ?_⟩
      obtain ⟨rfl, hlt⟩ := hnew t ht
      exact ⟨(lt_of_le_of_lt (h.le hcron) hlt).ne', hwalk⟩

theorem Anchored.step {t : State} {l : Label} (h : Anchored cronNext job s job')
    (hcron : Forward cronNext job.scheduleType job.scheduleExpr job.timezone)
    (hs : schedulable job = true) (hlater : Later s l)
    (hstep : Polling.step cronNext job.id s l = some t) :
    ∃ job'', Anchored cronNext job t job'' := by
  cases l with
  | poll now =>
    simp only [Polling.step] at hstep
    split at hstep
    · rename_i out hout
      cases hstep
      exact h.poll hcron hs hlater hout
    · cases hstep
  | other db' =>
    simp only [Polling.step] at hstep
    split at hstep
    · rename_i hkeeps
      cases hstep
      simp only [keeps, h.row] at hkeeps
      split at hkeeps
      · rename_i k k' hk hk'
        cases hk
        simp only [Bool.and_eq_true, decide_eq_true_eq] at hkeeps
        obtain ⟨hsame, hlast⟩ := hkeeps
        have hanchor : anchorOf k' = anchorOf job' := by
          unfold anchorOf
          rw [hlast, hsame.2.2.2.2.2]
        refine ⟨k', hk', ?_, ?_, ?_, ?_, h.increasing, ?_, h.each⟩
        · obtain ⟨h₁, h₂, h₃, h₄, h₅, h₆⟩ := h.schedule
          obtain ⟨k₁, k₂, k₃, k₄, k₅, k₆⟩ := hsame
          exact ⟨k₁.trans h₁, k₂.trans h₂, k₃.trans h₃, k₄.trans h₄, k₅.trans h₅, k₆.trans h₆⟩
        · rw [hanchor, hlast]
          exact h.stored
        · rw [hanchor]
          exact h.fresh
        · rw [hanchor]
          exact h.walk
        · rw [hanchor]
          exact h.upTo
      · cases hkeeps
    · cases hstep

/- A fire time of an interval is a multiple of it after the creation time. -/
theorem interval_of_fires {now t : Time} {n : ℕ}
    (htype : job.scheduleType = .interval) (hn : job.scheduleExpr.bind Text.int = some n)
    (hne : t ≠ job.createdAt) (h : Fires cronNext job now job.createdAt t) :
    ∃ k : ℕ, 1 ≤ k ∧ t = job.createdAt + k * (n * microseconds) := by
  obtain ⟨e, he, hint⟩ := Option.bind_eq_some_iff.mp hn
  have hnext : ∀ a b : Time, (∃ k : ℕ, a = job.createdAt + k * (n * microseconds)) →
      nextRunTime cronNext job.scheduleType job.scheduleExpr job.timezone a = .ok (some b) →
      ∃ k : ℕ, b = job.createdAt + k * (n * microseconds) := by
    rintro a b ⟨k, rfl⟩ hb
    simp only [nextRunTime, htype, he, hint] at hb
    split at hb
    · split at hb
      · cases hb
      · obtain ⟨hb, -⟩ := addSeconds_map_eq_ok.mp hb
        refine ⟨k + 1, ?_⟩
        rw [Option.some.inj hb, Int.add_assoc]
        push_cast
        rw [Int.add_mul, Int.one_mul]
    · cases hb
  obtain ⟨k, hk⟩ := h.preserves hnext ⟨0, by simp⟩
  refine ⟨k, ?_, hk⟩
  rcases Nat.eq_zero_or_pos k with rfl | hpos
  · exact absurd (by simpa using hk) hne
  · exact hpos

theorem Anchored.punctual {db : Database} (h : Anchored cronNext job s job')
    (hcron : Forward cronNext job.scheduleType job.scheduleExpr job.timezone)
    (hs : schedulable job = true) (hjob : db.jobs.get job.id = some job)
    (hnew : job.lastScheduledFor = none) : Punctual cronNext db job s where
  increasing := h.increasing
  between := by
    intro p hp t ht
    obtain ⟨hne, hfires⟩ := (h.each p hp).2 t ht
    exact (hfires.eq_or_lt fun a b => nextRunTime_lt hcron).resolve_left hne
  once := fun p hp => (h.each p hp).1
  noDrift := by
    intro n htype hn p hp t ht
    obtain ⟨hne, hfires⟩ := (h.each p hp).2 t ht
    exact interval_of_fires htype hn hne hfires
  final := by
    intro p hp
    have hbase : anchorOf job = job.createdAt := by
      unfold anchorOf
      rw [hnew]
      rfl
    have hw := h.walk p hp
    rw [← hbase] at hw
    have htick : jobTick cronNext job p.1 = .ok job'.lastScheduledFor := by
      rw [h.stored, ← hbase]
      exact (dueTick_eq_ok hcron).mpr ⟨anchorOf job', hw, rfl⟩
    refine ⟨job', h.row, htick, fun out hout => ?_⟩
    obtain ⟨tick, ht, hpass⟩ := scheduleDueJobs_passedOn hout (Table.mem_of_get hjob)
    rw [passTick, if_pos hs, htick] at ht
    rw [hpass.row, Option.map_some, ← Except.ok.inj ht]
    cases hl : job'.lastScheduledFor with
    | none => rw [Option.elim_none, hnew]
    | some t => rfl

theorem anchored_start {db : Database} (hjob : db.jobs.get job.id = some job)
    (hnew : job.lastScheduledFor = none) : Anchored cronNext job (start db) job where
  row := hjob
  schedule := ⟨rfl, rfl, rfl, rfl, rfl, rfl⟩
  stored := by simp [anchorOf, hnew]
  fresh := fun _ => by simp [anchorOf, hnew]
  walk := nofun
  increasing := .nil
  upTo := nofun
  each := nofun

/- Ticks do not depend on the times of the polls. -/
theorem run_punctual {db : Database} {ls : List Label}
    (hcron : Forward cronNext job.scheduleType job.scheduleExpr job.timezone)
    (hjob : db.jobs.get job.id = some job) (hs : schedulable job = true)
    (hnew : job.lastScheduledFor = none)
    (hlater : Machine.Along (step cronNext job.id) Later (start db) ls)
    (hrun : Machine.run (step cronNext job.id) (start db) ls = some s) :
    Punctual cronNext db job s := by
  obtain ⟨job', h⟩ := Machine.run_invariant (I := fun s => ∃ job', Anchored cronNext job s job')
    (fun s l t ⟨_, h⟩ hl hstep => h.step hcron hs hl hstep)
    ⟨job, anchored_start hjob hnew⟩ hlater hrun
  exact h.punctual hcron hs hjob hnew

end

def minutely : Job where
  id := 0
  ownerUserId := some 1
  name := "60"
  taskSpec := [("command", .string "true")]
  scheduleType := .interval
  scheduleExpr := some "60"

/- Nothing is due, one tick, a pass after the run of it has been removed, and two ticks
collapsed to the latest. -/
def minutelyPolls : List Label :=
  [.poll 1, .poll 60000000, .other (anchor (intervalJobs ["60"]) 0 60000000 60000000),
    .poll 60000001, .poll 180000001]

theorem run_punctual_minutely : ∃ s,
    Machine.run (step noCron minutely.id) (start (intervalJobs ["60"])) minutelyPolls = some s ∧
      s.polls = [(1, []), (60000000, [60000000]), (60000001, []), (180000001, [180000000])] ∧
      Punctual noCron (intervalJobs ["60"]) minutely s := by
  have hall : (Machine.run (step noCron minutely.id) (start (intervalJobs ["60"]))
      minutelyPolls).any (fun s => decide (s.polls =
        [(1, []), (60000000, [60000000]), (60000001, []), (180000001, [180000000])])) = true := by
    decide
  obtain ⟨s, hrun, hpolls⟩ := (Option.any_eq_true _ _).mp hall
  exact ⟨s, hrun, of_decide_eq_true hpolls,
    run_punctual (forward_of_ne_cron noCron (by decide) _ _) rfl (by decide) rfl (by decide) hrun⟩

end JobScheduler.Polling
