import Mathlib
import JobScheduler.Common.Schemas
import JobScheduler.Library.Except
import JobScheduler.Scheduler.Cron

/-!
# The latest due fire time (backend/scheduler/cron.py, `due_tick`)

The fire times of an interval are counted from the base. Those of a cron expression are a
set of instants that depends on the expression and the time zone only, and croniter is
assumed to return the least of them after the instant it is given.
-/

namespace JobScheduler.Cron
open Library Schemas

/-- The fire times of a schedule. -/
def fireTimes (instants : String → String → Set Time) (scheduleType : ScheduleType)
    (scheduleExpr : Option String) (tzName : String) (base : Time) : Set Time :=
  match scheduleType with
  | .cron => {t | ∃ e, scheduleExpr = some e ∧ t ∈ instants e tzName}
  | .interval => {t | ∃ e s, scheduleExpr = some e ∧ Text.int e = some s ∧
      ∃ k : ℕ, 1 ≤ k ∧ t = base + k * (s * microseconds)}
  | .manual => ∅

/-- `get_next` returns the least instant strictly after its argument, for the cron expression and
the zone of `b`. -/
def GetNext (cronNext : CronNext) (instants : String → String → Set Time) (b : JobBase) : Prop :=
  ∀ expr after t, b.scheduleType = .cron → b.scheduleExpr = some expr →
    cronNext expr b.timezone after = .ok t → IsLeast (instants expr b.timezone ∩ Set.Ioi after) t

theorem GetNext.forward {cronNext : CronNext} {instants : String → String → Set Time}
    {b : JobBase} (h : GetNext cronNext instants b) :
    Forward cronNext b.scheduleType b.scheduleExpr b.timezone :=
  fun expr after t hst he ht => (h expr after t hst he ht).1.2

/-- next_run_time overflows neither at the base nor at a fire time that is due. -/
def NoOverflow (cronNext : CronNext) (instants : String → String → Set Time) (b : JobBase)
    (base now : Time) : Prop :=
  ∀ t, t = base ∨
      t ∈ fireTimes instants b.scheduleType b.scheduleExpr b.timezone base ∩ Set.Ioc base now →
    ∃ o, nextRunTime cronNext b.scheduleType b.scheduleExpr b.timezone t = .ok o

/-! ### Intervals -/

theorem nextRunTime_interval {cronNext : CronNext} {e tzName : String} {s : ℕ}
    (hdigit : Text.isdigit e = true) (hint : Text.int e = some s) (hpos : s ≠ 0) (after : Time) :
    nextRunTime cronNext .interval (some e) tzName after = (addSeconds after s).map some := by
  simp [nextRunTime, hdigit, hint, hpos]

theorem nextRunTime_cron {cronNext : CronNext} {e tzName : String} (hne : e ≠ "") (after : Time) :
    nextRunTime cronNext .cron (some e) tzName after = (cronNext e tzName after).map some := by
  simp [nextRunTime, hne]

/- The multiples of d after base, one by one. -/
theorem isLeast_interval {base a d : ℤ} (hd : 0 < d) {k : ℕ} (ha : a = base + k * d) :
    IsLeast ({t | ∃ j : ℕ, 1 ≤ j ∧ t = base + j * d} ∩ Set.Ioi a) (a + d) := by
  refine ⟨⟨⟨k + 1, Nat.succ_pos k, ?_⟩, ?_⟩, ?_⟩
  · rw [ha, Nat.cast_succ, Int.add_mul, one_mul, Int.add_assoc]
  · exact Int.lt_add_of_pos_right a hd
  · rintro t ⟨⟨j, -, rfl⟩, hlt⟩
    rw [Set.mem_Ioi, ha] at hlt
    have hkj : (k : ℤ) < j := lt_of_mul_lt_mul_right (Int.lt_of_add_lt_add_left hlt) hd.le
    have hle : ((k : ℤ) + 1) * d ≤ j * d := mul_le_mul_of_nonneg_right hkj hd.le
    rw [Int.add_mul, one_mul] at hle
    rw [ha]
    omega

/- The quotient counts the fire times that are due. -/
theorem isGreatest_interval {base now d : ℤ} (hd : 0 < d) (h : base + d ≤ now) :
    IsGreatest ({t | ∃ j : ℕ, 1 ≤ j ∧ t = base + j * d} ∩ Set.Ioc base now)
      (base + d * ((now - base) / d)) := by
  have hone : 1 ≤ (now - base) / d := Int.le_ediv_of_mul_le hd (by omega)
  obtain ⟨j, hj⟩ := Int.eq_ofNat_of_zero_le (zero_le_one.trans hone)
  have hmul : d * ((now - base) / d) ≤ now - base := Int.mul_ediv_self_le hd.ne'
  have hpos : 0 < d * ((now - base) / d) := mul_pos hd hone
  refine ⟨⟨⟨j, ?_, ?_⟩, ?_, ?_⟩, ?_⟩
  · omega
  · rw [hj, mul_comm]
  · omega
  · omega
  · rintro t ⟨⟨i, -, rfl⟩, -, hle⟩
    have hi : (i : ℤ) ≤ (now - base) / d := Int.le_ediv_of_mul_le hd (by omega)
    have hmono : (i : ℤ) * d ≤ (now - base) / d * d := mul_le_mul_of_nonneg_right hi hd.le
    rw [mul_comm d]
    omega

/-! ### The successor of a fire time -/

section
variable {isValid : String → Bool} {cronNext : CronNext}
  {instants : String → String → Set Time} {b : JobBase} {base now : Time}

theorem fireTimes_interval {e : String} {s : ℕ} (hint : Text.int e = some s) (tzName : String) :
    fireTimes instants .interval (some e) tzName base =
      {t | ∃ j : ℕ, 1 ≤ j ∧ t = base + j * (s * microseconds)} := by
  ext t
  constructor
  · rintro ⟨e', s', he, hint', k, hk⟩
    cases he
    rw [hint] at hint'
    cases hint'
    exact ⟨k, hk⟩
  · rintro ⟨k, hk⟩
    exact ⟨e, s, rfl, hint, k, hk⟩

theorem seconds_pos {s : ℕ} (h : s ≠ 0) : 0 < (s : ℤ) * microseconds := by
  have hlt := lt_add_seconds 0 h
  rwa [zero_add] at hlt

/-- next_run_time goes from the base and from each fire time to the next one. -/
theorem nextRunTime_isLeast (hcron : GetNext cronNext instants b)
    (hb : b.validateScheduleExpr isValid = .ok ()) {a t : Time}
    (ha : a ∈ insert base (fireTimes instants b.scheduleType b.scheduleExpr b.timezone base))
    (h : nextRunTime cronNext b.scheduleType b.scheduleExpr b.timezone a = .ok (some t)) :
    IsLeast
      (fireTimes instants b.scheduleType b.scheduleExpr b.timezone base ∩ Set.Ioi a) t := by
  cases hst : b.scheduleType with
  | cron =>
    obtain ⟨e, he, hne, -⟩ := JobBase.expr_of_cron hb hst
    rw [hst, he, nextRunTime_cron hne] at h
    obtain ⟨u, hu, hut⟩ := map_eq_ok.mp h
    cases hut
    have hset : fireTimes instants .cron (some e) b.timezone base = instants e b.timezone := by
      ext x
      simp [fireTimes]
    rw [he, hset]
    exact hcron _ _ _ hst he hu
  | interval =>
    obtain ⟨e, s, he, hdigit, hint, hpos⟩ := JobBase.expr_of_interval hb hst
    rw [hst, he, nextRunTime_interval hdigit hint hpos] at h
    obtain ⟨ht, -⟩ := addSeconds_map_eq_ok.mp h
    cases ht
    rw [hst, he, fireTimes_interval hint] at ha
    rw [he, fireTimes_interval hint]
    rcases ha with rfl | ⟨k, -, hk⟩
    · exact isLeast_interval (seconds_pos hpos) (k := 0) (by simp)
    · exact isLeast_interval (seconds_pos hpos) hk
  | manual =>
    rw [hst] at h
    cases h

/- Only a manual schedule has no next fire time. -/
theorem nextRunTime_none (hb : b.validateScheduleExpr isValid = .ok ()) {a : Time}
    (h : nextRunTime cronNext b.scheduleType b.scheduleExpr b.timezone a = .ok none) :
    fireTimes instants b.scheduleType b.scheduleExpr b.timezone base ∩ Set.Ioi a = ∅ := by
  cases hst : b.scheduleType with
  | cron =>
    obtain ⟨e, he, hne, -⟩ := JobBase.expr_of_cron hb hst
    rw [hst, he, nextRunTime_cron hne] at h
    obtain ⟨u, -, hu⟩ := map_eq_ok.mp h
    cases hu
  | interval =>
    obtain ⟨e, s, he, hdigit, hint, hpos⟩ := JobBase.expr_of_interval hb hst
    rw [hst, he, nextRunTime_interval hdigit hint hpos] at h
    obtain ⟨ht, -⟩ := addSeconds_map_eq_ok.mp h
    cases ht
  | manual => exact Set.empty_inter _

/- The loop reaches the end: it is at the base or at a fire time that is due. -/
theorem exists_walk_nextRunTime (hcron : GetNext cronNext instants b)
    (hb : b.validateScheduleExpr isValid = .ok ())
    (hover : NoOverflow cronNext instants b base now) :
    ∃ r, Walk (nextRunTime cronNext b.scheduleType b.scheduleExpr b.timezone) now base r := by
  refine Walk.exists_walk (P := fun t => t = base ∨ t ∈ fireTimes instants b.scheduleType
    b.scheduleExpr b.timezone base ∩ Set.Ioc base now) ?_ hover ?_ (.inl rfl)
  · exact fun a t => nextRunTime_lt hcron.forward
  · intro a t ha hat hle
    have hmem : a ∈ insert base
        (fireTimes instants b.scheduleType b.scheduleExpr b.timezone base) :=
      ha.imp id And.left
    obtain ⟨⟨ht, hlt⟩, -⟩ := nextRunTime_isLeast hcron hb hmem hat
    refine .inr ⟨ht, ?_, hle⟩
    rcases ha with rfl | ⟨-, hbase, -⟩
    · exact hlt
    · exact hbase.trans hlt

end

/-- `o` is the greatest fire time in (base, now], none when there is no such time. -/
def LatestDue (F : Set Time) (base now : Time) (o : Option Time) : Prop :=
  (o = none ↔ F ∩ Set.Ioc base now = ∅) ∧
    ∀ t, o = some t → IsGreatest (F ∩ Set.Ioc base now) t

/-- due_tick ends and returns the latest fire time that is due; for an interval that is the
base and the whole intervals since then. -/
theorem dueTick_latestDue {isValid : String → Bool} {cronNext : CronNext}
    {instants : String → String → Set Time} (b : JobBase) (hcron : GetNext cronNext instants b)
    (hb : b.validateScheduleExpr isValid = .ok ()) (base now : Time)
    (hover : NoOverflow cronNext instants b base now) :
    ∃ o, dueTick cronNext b.scheduleType b.scheduleExpr b.timezone base now = .ok o ∧
      LatestDue (fireTimes instants b.scheduleType b.scheduleExpr b.timezone base) base now o ∧
      ∀ e s, b.scheduleType = .interval → b.scheduleExpr = some e → Text.int e = some s →
        base + s * microseconds ≤ now →
        o = some (base + s * microseconds * ((now - base) / (s * microseconds))) := by
  obtain ⟨r, hw⟩ := exists_walk_nextRunTime hcron hb hover
  have hlatest : LatestDue (fireTimes instants b.scheduleType b.scheduleExpr b.timezone base)
      base now (if r = base then none else some r) := by
    rcases hw.isGreatest (fun a ha t => nextRunTime_isLeast hcron hb ha)
      (fun a _ => nextRunTime_none hb) (Set.mem_insert base _) with ⟨rfl, hnone⟩ | hmax
    · rw [if_pos rfl]
      exact ⟨iff_of_true rfl hnone, fun t ht => by cases ht⟩
    · have hne : r ≠ base := hmax.1.2.1.ne'
      rw [if_neg hne]
      refine ⟨iff_of_false (fun h => by cases h) ?_, ?_⟩
      · exact Set.Nonempty.ne_empty ⟨r, hmax.1⟩
      · intro t ht
        cases ht
        exact hmax
  refine ⟨_, (dueTick_eq_ok hcron.forward).mpr ⟨r, hw, rfl⟩, hlatest, ?_⟩
  intro e s hst he hint hle
  obtain ⟨e', s', he', -, hint', hpos⟩ := JobBase.expr_of_interval hb hst
  rw [he] at he'
  cases he'
  rw [hint] at hint'
  cases hint'
  rw [hst, he, fireTimes_interval hint] at hlatest
  have hmax := isGreatest_interval (seconds_pos hpos) hle
  generalize hr : (if r = base then none else some r) = o at hlatest ⊢
  cases o with
  | none =>
    rw [hlatest.1.mp rfl] at hmax
    exact absurd hmax.1 (Set.notMem_empty _)
  | some t => rw [(hlatest.2 t rfl).unique hmax]

/- croniter on "* * * * *": the next full minute. -/
def everyMinute : CronNext := fun _ _ after => .ok ((after / 60000000 + 1) * 60000000)

def minutes : String → String → Set Time := fun _ _ => {t | ∃ k : ℤ, t = k * 60000000}

theorem getNext_everyMinute (b : JobBase) : GetNext everyMinute minutes b := by
  intro expr after t _ _ ht
  cases ht
  refine ⟨⟨⟨after / 60000000 + 1, rfl⟩, ?_⟩, ?_⟩
  · exact Int.lt_ediv_add_one_mul_self after (by decide)
  · rintro t ⟨⟨k, rfl⟩, hlt⟩
    have hk : after / 60000000 < k := Int.ediv_lt_of_lt_mul (by decide) hlt
    exact Int.mul_le_mul_of_nonneg_right hk (by decide)

def minuteJob : JobBase where
  name := "minutely"
  description := none
  category := none
  taskType := .shell
  taskSpec := [("command", .string "true")]
  scheduleType := .cron
  scheduleExpr := some "* * * * *"
  timezone := "UTC"
  enabled := true
  maxRetries := 0
  retryBackoffSec := 30
  timeoutSec := 300
  dependsOn := []

/- From 0 to 150 s: the minutes at 60 s and 120 s have passed. -/
theorem dueTick_latestDue_everyMinute :
    GetNext everyMinute minutes minuteJob ∧
    minuteJob.validateScheduleExpr (fun e => e == "* * * * *") = .ok () ∧
    NoOverflow everyMinute minutes minuteJob 0 150000000 ∧
    ∃ o, dueTick everyMinute minuteJob.scheduleType minuteJob.scheduleExpr minuteJob.timezone
        0 150000000 = .ok o ∧
      LatestDue (fireTimes minutes minuteJob.scheduleType minuteJob.scheduleExpr
        minuteJob.timezone 0) 0 150000000 o := by
  have hb : minuteJob.validateScheduleExpr (fun e => e == "* * * * *") = .ok () := by decide
  have hover : NoOverflow everyMinute minutes minuteJob 0 150000000 := by
    intro t _
    exact ⟨_, nextRunTime_cron (by decide) t⟩
  obtain ⟨o, ho, hlatest, -⟩ :=
    dueTick_latestDue minuteJob (getNext_everyMinute minuteJob) hb 0 150000000 hover
  exact ⟨getNext_everyMinute minuteJob, hb, hover, o, ho, hlatest⟩

end JobScheduler.Cron
