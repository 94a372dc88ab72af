import JobScheduler.Api.Cycle
import JobScheduler.Execution
import JobScheduler.Scheduler.TickOnce

/-!
# Only committed, dispatched runs are on the queue

The producers are the steps of the system, each with its transaction and its publications
apart, and any of them may stop in between. Requests and ticks that raise before their
commit are steps here too, with the exception at any statement. `claim_run` also accepts
PENDING runs; that it never meets one depends on what the producers put on the queue.
-/

namespace JobScheduler.Dispatched
open Library Database Sys

variable {cfg : Settings} {cronNext : Cron.CronNext}

/- committed: the ids of all runs that have been in the committed tables. -/
structure State where
  sys : Sys
  committed : List RunId

def ids (db : Database) : List RunId := db.runs.rows.map JobRun.id

def start (db : Database) : State := ⟨Sys.start db, ids db⟩

inductive Event where
  | step (l : Label)
  | triggerRaises (ownerUserId : UserId) (jobId : JobId) (now : Time)
  | tickRaises (faults : Scheduler.Point → Bool) (now : Time)

section
variable (cfg : Settings) (cronNext : Cron.CronNext)

/- What a request or a tick that raises leaves in the tables and in Redis. -/
def raised {ε α : Type} (s : Sys) (body : EStateM ε Env α) : Option Sys :=
  match body (Env.start s.db s.redis) with
  | .ok _ _ => none
  | .error _ env => some { s with db := env.committed, redis := env.redis }

def sysStep (s : Sys) : Event → Option Sys
  | .step l => s.step cfg cronNext l
  | .triggerRaises owner job now => raised s (Api.triggerJobM owner job now)
  | .tickRaises faults now => raised s (Scheduler.tickM cfg cronNext faults now)

def step (s : State) (e : Event) : Option State :=
  (sysStep cfg cronNext s.sys e).map fun t => ⟨t, s.committed ++ ids t.db⟩

end

/-! ### Where the ids on the queue come from -/

theorem holds_inFlight {s : Sys} {i : RunId} (h : s.redis.Holds i) : InFlight s i :=
  Or.inr (Or.inl h)

/-- Every id on the queue after a step was there before it, or with the producer or the
handler that has sent it. -/
theorem holds_of_trans {s t : Sys} {l : Label} (h : Trans cfg cronNext s l t) {i : RunId}
    (hi : t.redis.Holds i) : InFlight s i := by
  cases h with
  | promoteDelayed now => exact holds_inFlight (Redis.holds_promoteDueDelayed hi)
  | publish k hk =>
    rcases Redis.holds_enqueueRun.mp hi with hi | rfl
    · exact holds_inFlight hi
    · exact Or.inl hk
  | reclaim w m e p hstale => exact holds_inFlight (Redis.holds_xautoclaim hi)
  | deliver w m p hnext =>
    exact holds_inFlight (Redis.holds_xreadgroup (Redis.nextMessage_mem hnext) hi)
  | advance hd now db' pc out hget hadv =>
    rw [redis_resume] at hi
    rcases hadv.sends rfl hi with hi | hi
    · exact holds_inFlight hi
    · exact (inFlight_of_handler (Table.mem_of_get hget)).2 i hi
  | fail hd hget hw =>
    rw [redis_leave] at hi
    exact holds_inFlight hi
  | cancelTask hd hget hw hcan =>
    rw [redis_leave] at hi
    exact holds_inFlight hi
  | ack hd hget hpc => exact holds_inFlight (Redis.holds_xack hi)
  | del hd hget hpc => exact holds_inFlight (Redis.holds_xdel hi)
  | _ => exact holds_inFlight hi

/-- A request or a tick that raises does nothing but the promotion that may precede it. -/
theorem sysStep_raised {s t : Sys} {e : Event} (h : sysStep cfg cronNext s e = some t) :
    t = s ∨ ∃ l, Trans cfg cronNext s l t := by
  cases e with
  | step l => exact .inr ⟨l, trans_of_step h⟩
  | triggerRaises owner job now =>
    simp only [sysStep, raised] at h
    cases hr : Api.triggerJob s.db owner job now with
    | ok out =>
      rw [Api.triggerJobM_ok hr] at h
      cases h
    | error e =>
      rw [Api.triggerJobM_error hr] at h
      cases h
      exact .inl rfl
  | tickRaises faults now =>
    simp only [sysStep, raised] at h
    cases hr : Scheduler.tickM cfg cronNext faults now (Env.start s.db s.redis) with
    | ok a env =>
      rw [hr] at h
      cases h
    | error e env =>
      rw [hr] at h
      cases h
      obtain ⟨hdb, hredis | hredis⟩ := Scheduler.tickM_error hr
      · rw [hdb, hredis]
        exact .inl rfl
      · rw [hdb, hredis]
        exact .inr ⟨_, .promoteDelayed now⟩

/-! ### The invariant -/

/-- Every id in flight is the id of a run that was committed, and that run is not PENDING. -/
structure Dispatches (s : State) : Prop where
  sound : Sound s.sys
  inFlight : ∀ i, InFlight s.sys i → i ∈ s.committed
  now : ∀ i ∈ ids s.sys.db, i ∈ s.committed

theorem dispatches_start (db : Database) : Dispatches (start db) where
  sound := sound_start db
  inFlight := fun i hi => absurd hi (not_inFlight_start db i)
  now := fun _ hi => hi

theorem Dispatches.trans {s : State} {t : Sys} {l : Label} (hs : Dispatches s)
    (h : Trans cfg cronNext s.sys l t) : Dispatches ⟨t, s.committed ++ ids t.db⟩ where
  sound := h.sound hs.sound
  inFlight := by
    intro i hi
    rcases h.inFlight hi with hi | ⟨r, hr, -⟩
    · exact List.mem_append_left _ (hs.inFlight i hi)
    · refine List.mem_append_right _ (List.mem_map.mpr ⟨r, Table.mem_of_get hr, ?_⟩)
      exact Table.key_of_get hr
  now := fun i hi => List.mem_append_right _ hi

theorem Dispatches.step {s t : State} {e : Event} (hs : Dispatches s)
    (h : Dispatched.step cfg cronNext s e = some t) : Dispatches t := by
  obtain ⟨t', ht, rfl⟩ := Option.map_eq_some_iff.mp h
  rcases sysStep_raised ht with rfl | ⟨l, htrans⟩
  · refine ⟨hs.sound, fun i hi => List.mem_append_left _ (hs.inFlight i hi), ?_⟩
    exact fun i hi => List.mem_append_right _ hi
  · exact hs.trans htrans

/-! ### Placements and claims -/

/-- A message of run i is added to the stream, or an entry of it to the delayed set. -/
def Places (q q' : Redis) (i : RunId) : Prop :=
  q.Added q' i ∨ ∃ d ∈ q'.delayed, d.runId = i ∧ d ∉ q.delayed

theorem Places.holds {q q' : Redis} {i : RunId} (h : Places q q' i) : q'.Holds i := by
  rcases h with ⟨m, hm, hi, -⟩ | ⟨d, hd, hi, -⟩
  · exact Or.inl ⟨m, hm, hi⟩
  · exact Or.inr (Or.inr ⟨d, hd, hi⟩)

/-- The step places only ids of runs that were committed before it and are not PENDING (or
have been deleted), and it starts no PENDING run. -/
def PlacesDispatched (cfg : Settings) (cronNext : Cron.CronNext) (s : State) (e : Event) : Prop :=
  ∀ t, step cfg cronNext s e = some t →
    (∀ i, Places s.sys.redis t.sys.redis i → i ∈ s.committed ∧
      ∀ r, s.sys.db.runs.get i = some r → r.status ≠ .pending) ∧
    ∀ i r r', s.sys.db.runs.get i = some r → t.sys.db.runs.get i = some r' →
      r.status = .pending → r'.status ≠ .running

theorem Dispatches.not_started {s : State} (hs : Dispatches s) {t : Sys} {l : Label}
    (h : Trans cfg cronNext s.sys l t) {i : RunId} {r r' : JobRun}
    (hr : s.sys.db.runs.get i = some r) (hr' : t.db.runs.get i = some r')
    (hp : r.status = .pending) : r'.status ≠ .running := by
  intro hrun
  have hin : InFlight s.sys i :=
    (h.evolves.change hr hr').running hr (by rw [hp]; decide) hrun
  exact (hs.sound.inFlight i hin).2 r hr hp

theorem Dispatches.placesDispatched {s : State} (hs : Dispatches s) (e : Event) :
    PlacesDispatched cfg cronNext s e := by
  intro t h
  obtain ⟨t', ht, rfl⟩ := Option.map_eq_some_iff.mp h
  rcases sysStep_raised ht with rfl | ⟨l, htrans⟩
  · refine ⟨?_, ?_⟩
    · intro i hi
      have hin := holds_inFlight hi.holds
      exact ⟨hs.inFlight i hin, (hs.sound.inFlight i hin).2⟩
    · intro i r r' hr hr' hp
      rw [hr] at hr'
      cases hr'
      rw [hp]
      decide
  · refine ⟨?_, fun i r r' hr hr' hp => hs.not_started htrans hr hr' hp⟩
    intro i hi
    have hin := holds_of_trans htrans hi.holds
    exact ⟨hs.inFlight i hin, (hs.sound.inFlight i hin).2⟩

/-- In every interleaving of producers, workers and failures, from any tables and an empty
queue. -/
theorem only_dispatched_runs_are_queued (cfg : Settings) (cronNext : Cron.CronNext)
    (db : Database) (es : List Event) :
    Machine.Along (step cfg cronNext) (PlacesDispatched cfg cronNext) (start db) es := by
  refine Machine.along_of_invariant (I := Dispatches) ?_ ?_ (dispatches_start db)
    (Machine.along_true _ _)
  · exact fun s e t hs _ h => hs.step h
  · exact fun s e hs _ => hs.placesDispatched e

end JobScheduler.Dispatched
