import JobScheduler.Common.Models
import JobScheduler.Common.Text
import JobScheduler.Library.Walk
import Mathlib.Algebra.Order.Group.Unbundled.Int

/-!
# Next fire times (backend/scheduler/cron.py)

`croniter` is a third-party package: a cron schedule enters as the function `cronNext`
that takes the expression, the name of the time zone and an instant to the result of
`get_next` there, or to the error it raises. Intervals are computed here. A call that
raises, and a loop that never ends, are values of `ScheduleError`.
-/

namespace JobScheduler.Cron
open Library

inductive ScheduleError where
  | overflowError
  | valueError
  | croniterError
  | diverges
  deriving DecidableEq, Repr

abbrev CronNext := String → String → Time → Except ScheduleError Time

/- A croniter that refuses every expression. -/
def noCron : CronNext := fun _ _ _ => .error .croniterError

-- datetime.max in UTC
def maxTime : Time := 253402300799999999

def microseconds : ℤ := 1000000

-- after + timedelta(seconds=seconds)
def addSeconds (after : Time) (seconds : ℤ) : Except ScheduleError Time :=
  if after + seconds * microseconds ≤ maxTime then .ok (after + seconds * microseconds)
  else .error .overflowError

def nextRunTime (cronNext : CronNext) (scheduleType : ScheduleType)
    (scheduleExpr : Option String) (tzName : String) (after : Time) :
    Except ScheduleError (Option Time) :=
  match scheduleType with
  | .cron =>
    match scheduleExpr with
    | none => .ok none
    | some expr => if expr = "" then .ok none else (cronNext expr tzName after).map some
  | .interval =>
    match scheduleExpr with
    | none => .ok none
    | some expr =>
      if Text.isdigit expr then
        match Text.int expr with
        | none => .error .valueError
        | some seconds =>
          if seconds = 0 then .ok none else (addSeconds after seconds).map some
      else .ok none
  | .manual => .ok none

/- The loop of due_tick. Fire times increase by at least a microsecond, so the fuel
of dueTick never runs out on a schedule that moves forward. -/
def dueTickLoop (next : Time → Except ScheduleError (Option Time)) (now : Time) :
    ℕ → Time → Except ScheduleError Time
  | 0, _ => .error .diverges
  | fuel + 1, tick => do
    match ← next tick with
    | none => .ok tick
    | some nxt => if now < nxt then .ok tick else dueTickLoop next now fuel nxt

def dueTick (cronNext : CronNext) (scheduleType : ScheduleType) (scheduleExpr : Option String)
    (tzName : String) (base now : Time) : Except ScheduleError (Option Time) := do
  let next := nextRunTime cronNext scheduleType scheduleExpr tzName
  match ← next base with
  | none => .ok none
  | some tick =>
    if now < tick then .ok none
    else (dueTickLoop next now ((now - tick).toNat + 1) tick).map some

/-! ### due_tick as a walk -/

/- get_next returns an instant strictly after the one it is given, for the expression and the zone
of this schedule. One that goes back in the hour a zone has twice is left out; the other schedules
do not call it. -/
def Forward (cronNext : CronNext) (scheduleType : ScheduleType) (scheduleExpr : Option String)
    (tzName : String) : Prop :=
  ∀ expr after t, scheduleType = .cron → scheduleExpr = some expr →
    cronNext expr tzName after = .ok t → after < t

theorem forward_of_ne_cron (cronNext : CronNext) {st : ScheduleType} (h : st ≠ .cron)
    (expr : Option String) (tzName : String) : Forward cronNext st expr tzName :=
  fun _ _ _ hst => absurd hst h

theorem addSeconds_eq_ok {after t : Time} {seconds : ℤ} (h : addSeconds after seconds = .ok t) :
    t = after + seconds * microseconds := by
  unfold addSeconds at h
  split at h <;> cases h
  rfl

theorem addSeconds_map_eq_ok {n : ℕ} {after : Time} {o : Option Time} :
    (addSeconds after n).map some = .ok o ↔
      o = some (after + n * microseconds) ∧ after + n * microseconds ≤ maxTime := by
  unfold addSeconds
  split
  · rename_i h
    simp [Except.map, h, eq_comm]
  · rename_i h
    simp [Except.map, h]

theorem lt_add_seconds (after : ℤ) {seconds : ℕ} (h : seconds ≠ 0) :
    after < after + seconds * microseconds := by
  unfold microseconds
  omega

theorem nextRunTime_lt {cronNext : CronNext} {st : ScheduleType} {expr : Option String}
    {tzName : String} (hcron : Forward cronNext st expr tzName) {after t : Time}
    (h : nextRunTime cronNext st expr tzName after = .ok (some t)) : after < t := by
  unfold nextRunTime at h
  split at h
  · split at h
    · cases h
    · split at h
      · cases h
      · rename_i e hne
        cases hc : cronNext e tzName after with
        | error err =>
          rw [hc] at h
          cases h
        | ok u =>
          rw [hc] at h
          cases h
          exact hcron e after _ rfl rfl hc
  · split at h
    · cases h
    · split at h
      · split at h
        · cases h
        · rename_i seconds hint
          split at h
          · cases h
          · rename_i hpos
            cases ha : addSeconds after seconds with
            | error err =>
              rw [ha] at h
              cases h
            | ok u =>
              rw [ha] at h
              cases h
              rw [addSeconds_eq_ok ha]
              exact lt_add_seconds after hpos
      · cases h
  · cases h

section
variable {next : Time → Except ScheduleError (Option Time)} {now : Time}

theorem walk_of_dueTickLoop {fuel : ℕ} {tick r : Time}
    (h : dueTickLoop next now fuel tick = .ok r) : Walk next now tick r := by
  induction fuel generalizing tick with
  | zero => cases h
  | succ fuel ih =>
    cases hn : next tick with
    | error e =>
      rw [dueTickLoop, hn] at h
      cases h
    | ok o =>
      rw [dueTickLoop, hn] at h
      cases o with
      | none =>
        cases h
        exact .ended hn
      | some nxt =>
        simp only [bind, Except.bind] at h
        split at h
        · rename_i hlt
          cases h
          exact .passed hn hlt
        · rename_i hle
          exact .step hn (not_lt.mp hle) (ih h)

theorem toNat_sub_lt {now a b : ℤ} {fuel : ℕ} (h : (now - a).toNat < fuel + 1) (hlt : a < b)
    (hle : b ≤ now) : (now - b).toNat < fuel := by omega

/- A step moves by a microsecond at least, so the distance to `now` is fuel enough. -/
theorem dueTickLoop_of_walk (hnext : ∀ a b, next a = .ok (some b) → a < b) {fuel : ℕ}
    {tick r : Time} (hfuel : (now - tick).toNat < fuel) (h : Walk next now tick r) :
    dueTickLoop next now fuel tick = .ok r := by
  induction h generalizing fuel with
  | ended hn =>
    obtain ⟨fuel, rfl⟩ := Nat.exists_eq_succ_of_ne_zero (Nat.ne_of_gt (Nat.zero_lt_of_lt hfuel))
    rw [dueTickLoop, hn]
    rfl
  | passed hn hlt =>
    obtain ⟨fuel, rfl⟩ := Nat.exists_eq_succ_of_ne_zero (Nat.ne_of_gt (Nat.zero_lt_of_lt hfuel))
    rw [dueTickLoop, hn]
    simp [bind, Except.bind, hlt]
  | step hn hle _ ih =>
    obtain ⟨fuel, rfl⟩ := Nat.exists_eq_succ_of_ne_zero (Nat.ne_of_gt (Nat.zero_lt_of_lt hfuel))
    rw [dueTickLoop, hn]
    simp only [bind, Except.bind, not_lt.mpr hle, if_false]
    exact ih (toNat_sub_lt hfuel (hnext _ _ hn) hle)

end

/- due_tick returns the last instant of the walk from the base, if that is not the base. -/
theorem dueTick_eq_ok {cronNext : CronNext} {st : ScheduleType} {expr : Option String}
    {tzName : String} (hcron : Forward cronNext st expr tzName) {base now : Time}
    {o : Option Time} :
    dueTick cronNext st expr tzName base now = .ok o ↔
      ∃ r, Walk (nextRunTime cronNext st expr tzName) now base r ∧
        o = if r = base then none else some r := by
  have hnext : ∀ a b, nextRunTime cronNext st expr tzName a = .ok (some b) → a < b :=
    fun a b => nextRunTime_lt hcron
  cases hn : nextRunTime cronNext st expr tzName base with
  | error e =>
    simp only [dueTick, hn, bind, Except.bind]
    constructor
    · nofun
    · rintro ⟨r, hw, -⟩
      cases hw <;> simp_all
  | ok first =>
    cases first with
    | none =>
      simp only [dueTick, hn, bind, Except.bind]
      constructor
      · intro h
        cases h
        exact ⟨base, .ended hn, (if_pos rfl).symm⟩
      · rintro ⟨r, hw, rfl⟩
        rw [Walk.unique hw (.ended hn), if_pos rfl]
    | some tick =>
      simp only [dueTick, hn, bind, Except.bind]
      by_cases hlt : now < tick
      · rw [if_pos hlt]
        constructor
        · intro h
          cases h
          exact ⟨base, .passed hn hlt, (if_pos rfl).symm⟩
        · rintro ⟨r, hw, rfl⟩
          rw [Walk.unique hw (.passed hn hlt), if_pos rfl]
      · rw [if_neg hlt]
        have hbase : ∀ r, Walk (nextRunTime cronNext st expr tzName) now tick r → r ≠ base := by
          intro r hw
          have htick := hnext _ _ hn
          rcases hw.eq_or_lt hnext with rfl | ⟨hr, -⟩
          · exact htick.ne'
          · exact (htick.trans hr).ne'
        constructor
        · intro h
          cases hl : dueTickLoop (nextRunTime cronNext st expr tzName) now
              ((now - tick).toNat + 1) tick with
          | error e =>
            rw [hl] at h
            cases h
          | ok r =>
            rw [hl] at h
            cases h
            have hw := walk_of_dueTickLoop hl
            exact ⟨r, .step hn (not_lt.mp hlt) hw, (if_neg (hbase r hw)).symm⟩
        · rintro ⟨r, hw, rfl⟩
          cases hw with
          | ended hs => simp [hn] at hs
          | passed hs hlt' =>
            rw [hn] at hs
            cases hs
            exact absurd hlt' hlt
          | step hs hle hw =>
            rw [hn] at hs
            cases hs
            rw [dueTickLoop_of_walk hnext (Nat.lt_succ_self _) hw, if_neg (hbase r hw)]
            rfl

end JobScheduler.Cron
