import JobScheduler.Common.RedisQueue
import JobScheduler.Scheduler.Main

/-!
# One tick of the scheduler (backend/scheduler/main.py, `tick`)

The delayed runs are promoted first. When the database pass raises, its session is rolled
back and nothing of it is enqueued; the promotions stay.
-/

namespace JobScheduler.Scheduler
open Library Database Cron

def tick (cfg : Settings) (cronNext : CronNext) (db : Database) (redis : Redis) (now : Time) :
    Database × Redis :=
  let redis := (redis.promoteDueDelayed now).1
  match scheduleDueJobs cronNext db now with
  | .error _ => (db, redis)
  | .ok (db', scheduled) =>
    (db', (scheduled ++ requeueOrphans cfg db' now).foldl Redis.enqueueRun redis)

end JobScheduler.Scheduler

namespace JobScheduler.Redis
open Library

/- A message of run i that q' has and q has not. -/
def Added (q q' : Redis) (i : RunId) : Prop :=
  ∃ m ∈ q'.stream.rows, m.runId = i ∧ q.stream.next ≤ m.id

instance (q q' : Redis) (i : RunId) : Decidable (q.Added q' i) := by
  unfold Added
  infer_instance

/- The messages that enqueueing a list of runs adds. -/
theorem added_foldl_enqueueRun {q q₀ : Redis} {is : List RunId} {i : RunId}
    (h : q₀.Added (is.foldl enqueueRun q) i) : q₀.Added q i ∨ i ∈ is := by
  induction is generalizing q with
  | nil => exact .inl h
  | cons k is ih =>
    rcases ih h with ⟨m, hm, hi, hle⟩ | h
    · rcases Table.mem_rows_insert.mp hm with hm | rfl
      · exact .inl ⟨m, hm, hi, hle⟩
      · exact .inr (List.mem_cons.mpr (.inl hi.symm))
    · exact .inr (List.mem_cons_of_mem _ h)

theorem delayed_foldl_enqueueRun (q : Redis) (is : List RunId) :
    (is.foldl enqueueRun q).delayed = q.delayed := by
  induction is generalizing q with
  | nil => rfl
  | cons k is ih => exact ih (q.enqueueRun k)

theorem promoteDueDelayed_eq (q : Redis) (now : Time) :
    (q.promoteDueDelayed now).1 = ((q.due now).map Delayed.runId).foldl enqueueRun
      { q with delayed := q.delayed.filter fun d => !decide (d.readyAt ≤ now) } := by
  rw [List.foldl_map]
  rfl

/- Promotion adds messages of due runs only. -/
theorem added_promoteDueDelayed {q : Redis} {now : Time} {i : RunId}
    (h : q.Added (q.promoteDueDelayed now).1 i) :
    ∃ d ∈ q.delayed, d.runId = i ∧ d.readyAt ≤ now := by
  rw [promoteDueDelayed_eq] at h
  rcases added_foldl_enqueueRun h with ⟨m, hm, -, hle⟩ | h
  · exact absurd hle (Nat.not_le.mpr (q.stream.fresh m hm))
  · obtain ⟨d, hd, hi⟩ := List.mem_map.mp h
    obtain ⟨hd, hready⟩ := List.mem_filter.mp hd
    exact ⟨d, hd, hi, of_decide_eq_true hready⟩

theorem mem_delayed_promoteDueDelayed {q : Redis} {now : Time} {d : Delayed}
    (h : d ∈ (q.promoteDueDelayed now).1.delayed) : d ∈ q.delayed := by
  rw [promoteDueDelayed_eq, delayed_foldl_enqueueRun] at h
  exact (List.mem_filter.mp h).1

end JobScheduler.Redis

namespace JobScheduler.Scheduler
open Library Database Cron

variable {cfg : Settings} {cronNext : CronNext} {db : Database} {redis : Redis} {now : Time}

theorem mem_requeueOrphans_iff {i : RunId} : i ∈ requeueOrphans cfg db now ↔
    ∃ r, db.runs.get i = some r ∧ r.status = .queued ∧
      r.createdAt < now - cfg.orphanRequeueAfterSec * microseconds := by
  simp only [requeueOrphans, List.mem_map, List.mem_filter, Bool.and_eq_true, decide_eq_true_eq]
  constructor
  · rintro ⟨r, ⟨hr, hs, hc⟩, rfl⟩
    exact ⟨r, Table.get_of_mem hr, hs, hc⟩
  · rintro ⟨r, hr, hs, hc⟩
    exact ⟨r, ⟨Table.mem_of_get hr, hs, hc⟩, Table.key_of_get hr⟩

/- Where the messages of a tick come from: the delayed set, the new runs of the pass, and
old queued runs. -/
theorem added_tick {i : RunId} (h : redis.Added (tick cfg cronNext db redis now).2 i) :
    (∃ d ∈ redis.delayed, d.runId = i ∧ d.readyAt ≤ now) ∨
    ∃ out, scheduleDueJobs cronNext db now = .ok out ∧
      (i ∈ out.2 ∨ i ∈ requeueOrphans cfg out.1 now) := by
  unfold tick at h
  cases hs : scheduleDueJobs cronNext db now with
  | error e =>
    rw [hs] at h
    exact .inl (Redis.added_promoteDueDelayed h)
  | ok out =>
    rw [hs] at h
    rcases Redis.added_foldl_enqueueRun h with h | h
    · exact .inl (Redis.added_promoteDueDelayed h)
    · exact .inr ⟨out, rfl, List.mem_append.mp h⟩

theorem mem_delayed_tick {d : Delayed} (h : d ∈ (tick cfg cronNext db redis now).2.delayed) :
    d ∈ redis.delayed := by
  unfold tick at h
  cases hs : scheduleDueJobs cronNext db now with
  | error e =>
    rw [hs] at h
    exact Redis.mem_delayed_promoteDueDelayed h
  | ok out =>
    rw [hs] at h
    dsimp only at h
    rw [Redis.delayed_foldl_enqueueRun] at h
    exact Redis.mem_delayed_promoteDueDelayed h

theorem next_le_tick : db.runs.next ≤ (tick cfg cronNext db redis now).1.runs.next := by
  unfold tick
  cases hs : scheduleDueJobs cronNext db now with
  | error e => exact le_rfl
  | ok out => exact (scheduleDueJobs_scheduled hs).ext.next

end JobScheduler.Scheduler
