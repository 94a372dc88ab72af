import JobScheduler.Api.Trigger
import JobScheduler.Common.RedisQueue
import JobScheduler.Library.Machine
import JobScheduler.Worker.Runner

/-!
# The whole system

Committed tables, Redis, API and scheduler processes between their commit and their
publications, and any number of workers with their handlers. A label is one atomic step
of one of them: a transaction, a statement of create_dependency_run, a Redis command, the return
of an executor, an exception, the arrival of a cancellation, or the death of a worker. A run of
the machine is an arbitrary interleaving. The time that `_now()` returns is part of the label.
-/

namespace JobScheduler
open Library Database

namespace Database

/- A commit of create_job or update_job: any jobs and edges that keep the constraints. No
job disappears, and the id of a new one has never been used. -/
def replaceJobs (db : Database) (jobs : Table Job) (dependencies : Table JobDependency) :
    Option Database :=
  if h : (∀ d ∈ dependencies.rows,
      (∃ j ∈ jobs.rows, j.id = d.jobId) ∧ ∃ j ∈ jobs.rows, j.id = d.dependsOnJobId) ∧
      (∀ d ∈ dependencies.rows, ∀ e ∈ dependencies.rows,
        d.jobId = e.jobId → d.dependsOnJobId = e.dependsOnJobId → d = e) ∧
      (∀ j ∈ db.jobs.rows, ∃ k ∈ jobs.rows, k.id = j.id) ∧
      db.jobs.next ≤ jobs.next ∧
      ∀ k ∈ jobs.rows, (∃ j ∈ db.jobs.rows, j.id = k.id) ∨ db.jobs.next ≤ k.id then
    some
      { jobs := jobs
        dependencies := dependencies
        runs := db.runs
        dependency_fk := h.1
        run_fk := by
          intro r hr
          obtain ⟨j, hj, hi⟩ := db.run_fk r hr
          obtain ⟨k, hk, hkj⟩ := h.2.2.1 j hj
          exact ⟨k, hk, hkj.trans hi⟩
        uq_job_dependency := h.2.1
        uq_job_run_tick := db.uq_job_run_tick }
  else none

/- The ids of db' that were in use before are ids of db. -/
structure KeepsJobIds (db db' : Database) : Prop where
  next : db.jobs.next ≤ db'.jobs.next
  old : ∀ k, (db'.jobs.get k).isSome = true →
    (db.jobs.get k).isSome = true ∨ db.jobs.next ≤ k

theorem KeepsJobIds.of_eq {db db' : Database} (hnext : db'.jobs.next = db.jobs.next)
    (hids : ∀ k, (db'.jobs.get k).isSome = (db.jobs.get k).isSome) : db.KeepsJobIds db' where
  next := hnext.ge
  old := fun k hk => Or.inl (by rw [← hids]; exact hk)

theorem replaceJobs_eq_some {db db' : Database} {jobs : Table Job}
    {dependencies : Table JobDependency} (h : db.replaceJobs jobs dependencies = some db') :
    db'.runs = db.runs ∧ db'.dependencies = dependencies ∧ db.KeepsJobIds db' := by
  unfold replaceJobs at h
  split at h
  · rename_i hc
    cases h
    refine ⟨rfl, rfl, hc.2.2.2.1, ?_⟩
    intro k hk
    obtain ⟨j, hj, rfl⟩ := isSome_get_jobs.mp hk
    rw [isSome_get_jobs]
    exact hc.2.2.2.2 j hj
  · cases h

theorem keepsJobIds_deleteJob (db : Database) (i : JobId) : db.KeepsJobIds (db.deleteJob i) where
  next := le_rfl
  old := by
    intro k hk
    obtain ⟨j, hj, rfl⟩ := isSome_get_jobs.mp hk
    exact Or.inl (isSome_get_jobs.mpr ⟨j, (Table.mem_rows_deleteWhere.mp hj).1, rfl⟩)

/- _get_owned_run -/
def ownedRun (db : Database) (runId : RunId) (ownerUserId : UserId) : Option JobRun :=
  (db.runs.get runId).filter fun r => (Api.getJob db r.jobId ownerUserId).isSome

end Database

/- Where the main loop of a worker stands, and how many messages its current XAUTOCLAIM
or XREADGROUP may still return. -/
inductive Phase where
  | polling
  | reclaiming (left count : ℕ)
  | reading (left : ℕ)
  deriving DecidableEq, Repr

/- outbox: runs an API request or a scheduler tick has committed and not yet published.
cancels: runs whose cancellation is committed; the listeners hear of them at any later time.
detached: handlers canceled while a thread was executing their store call, with the pc at which
the thread is now. -/
structure Sys where
  db : Database
  redis : Redis := {}
  outbox : List RunId := []
  cancels : List RunId := []
  handlers : Table Handler := Table.empty
  detached : List Handler := []
  inflightByRun : WorkerId → RunId → Option ℕ := fun _ _ => none
  phase : WorkerId → Phase := fun _ => .polling

inductive Label where
  | elapse (microseconds : ℕ)
  | trigger (ownerUserId : UserId) (jobId : JobId) (now : Time)
  | retryRun (ownerUserId : UserId) (runId : RunId) (now : Time)
  | cancelRun (ownerUserId : UserId) (runId : RunId) (now : Time)
  | editJobs (jobs : Table Job) (dependencies : Table JobDependency)
  | deleteJob (ownerUserId : UserId) (jobId : JobId)
  | promoteDelayed (now : Time)
  | tick (now : Time)
  | publish (runId : RunId)
  | drop (runId : RunId)
  | poll (worker : WorkerId)
  | reclaim (worker : WorkerId) (messageId : ℕ)
  | reclaimed (worker : WorkerId)
  | deliver (worker : WorkerId)
  | delivered (worker : WorkerId)
  | acquire (handler : ℕ)
  | advance (handler : ℕ) (now : Time)
  | executorReturns (handler : ℕ) (res : ExecResult)
  | fail (handler : ℕ)
  | cancelTask (handler : ℕ)
  | commitThread (thread : ℕ) (now : Time)
  | ack (handler : ℕ)
  | ackError (handler : ℕ)
  | del (handler : ℕ)
  | delError (handler : ℕ)
  | crash (worker : WorkerId)

namespace Sys

def start (db : Database) : Sys := { db := db }

def setPc (pc : Pc) (h : Handler) : Handler := { h with pc := pc }

theorem setPc_keeps (pc : Pc) : Table.KeepsKey (setPc pc) := fun _ => rfl

/- Handler i moves to pc. -/
def goto (s : Sys) (i : ℕ) (pc : Pc) : Sys :=
  { s with handlers := s.handlers.update (fun h => decide (h.id = i)) (setPc pc) (setPc_keeps pc) }

def register (s : Sys) (w : WorkerId) (r : RunId) (v : Option ℕ) : Sys :=
  { s with inflightByRun := fun w' r' => if w' = w ∧ r' = r then v else s.inflightByRun w' r' }

/- The finally block of `handle` up to the acknowledgement: the task takes itself out of
inflight_by_run unless another one has replaced it there. -/
def leave (s : Sys) (h : Handler) : Sys :=
  if s.inflightByRun h.worker h.runId = some h.id then
    (s.register h.worker h.runId none).goto h.id .acking
  else s.goto h.id .acking

/- A handler whose call returned continues at pc. -/
def resume (s : Sys) (h : Handler) : Pc → Sys
  | .acking => s.leave h
  | pc => s.goto h.id pc

def remove (s : Sys) (i : ℕ) : Sys :=
  { s with handlers := s.handlers.deleteWhere fun h => decide (h.id = i) }

def newHandler (w : WorkerId) (messageId : ℕ) (runId : RunId) (allowRunning : Bool) (i : ℕ) :
    Handler where
  id := i
  worker := w
  messageId := messageId
  runId := runId
  allowRunning := allowRunning
  pc := .waiting

def spawn (s : Sys) (w : WorkerId) (messageId : ℕ) (runId : RunId) (allowRunning : Bool) : Sys :=
  { s with handlers := s.handlers.insert (newHandler w messageId runId allowRunning) fun _ => rfl }

def setPhase (s : Sys) (w : WorkerId) (p : Phase) : Sys :=
  { s with phase := fun w' => if w' = w then p else s.phase w' }

def send (s : Sys) : Option Send → Sys
  | none => s
  | some (.enqueue i) => { s with redis := s.redis.enqueueRun i }
  | some (.delay i readyAt) => { s with redis := s.redis.scheduleDelayed i readyAt }

/- len(inflight) of a worker -/
def inflight (s : Sys) (w : WorkerId) : ℕ :=
  (s.handlers.rows.filter fun h => decide (h.worker = w)).length

def isWaiting : Pc → Bool
  | .waiting => true
  | _ => false

/- The permits of the semaphore that are taken. -/
def acquired (s : Sys) (w : WorkerId) : ℕ :=
  (s.handlers.rows.filter fun h => decide (h.worker = w) && !isWaiting h.pc).length

section
variable (cfg : Settings) (cronNext : Cron.CronNext)

/- Steps of the API and the scheduler. -/
def producerStep (s : Sys) : Label → Option Sys
  | .trigger owner job now =>
    match Api.triggerJob s.db owner job now with
    | .error _ => none
    | .ok (st, _) => some { s with db := st.1, outbox := s.outbox ++ st.2 }
  | .retryRun owner runId now =>
    match s.db.ownedRun runId owner with
    | none => none
    | some run =>
      if run.status.terminal then
        match s.db.createRun run.jobId .retry none (run.attempt + 1) .queued now with
        | none => none
        | some (db', i) => some { s with db := db', outbox := s.outbox ++ [i] }
      else none
  | .cancelRun owner runId now =>
    match s.db.ownedRun runId owner with
    | none => none
    | some _ =>
      match Store.cancelRun s.db runId now with
      | (_, false) => none
      | (db', true) => some { s with db := db', cancels := s.cancels ++ [runId] }
  | .editJobs jobs dependencies =>
    (s.db.replaceJobs jobs dependencies).map fun db' => { s with db := db' }
  | .deleteJob owner job =>
    match Api.getJob s.db job owner with
    | none => none
    | some _ => some { s with db := s.db.deleteJob job }
  | .promoteDelayed now => some { s with redis := (s.redis.promoteDueDelayed now).1 }
  | .tick now =>
    match Scheduler.scheduleDueJobs cronNext s.db now with
    | .error _ => none
    | .ok (db', ids) =>
      some { s with db := db', outbox := s.outbox ++ ids ++ Scheduler.requeueOrphans cfg db' now }
  | .publish i =>
    if i ∈ s.outbox then
      some { s with outbox := s.outbox.erase i, redis := s.redis.enqueueRun i }
    else none
  | .drop i => if i ∈ s.outbox then some { s with outbox := s.outbox.erase i } else none
  | _ => none

/- Steps of a worker's main loop. -/
def loopStep (s : Sys) : Label → Option Sys
  | .poll w =>
    match s.phase w with
    | .polling =>
      let capacity := cfg.workerConcurrency - s.inflight w
      if capacity ≤ 0 then none
      else
        let count := (min capacity cfg.workerReadBatch).toNat
        some (s.setPhase w (.reclaiming count count))
    | _ => none
  | .reclaim w m =>
    match s.phase w, s.redis.stale cfg.claimMinIdleMs m with
    | .reclaiming (left + 1) count, some e =>
      some (({ s with redis := s.redis.xautoclaim w m }.spawn w m e.runId true).setPhase w
        (.reclaiming left count))
    | _, _ => none
  | .reclaimed w =>
    match s.phase w with
    | .reclaiming _ count => some (s.setPhase w (.reading count))
    | _ => none
  | .deliver w =>
    match s.phase w, s.redis.nextMessage with
    | .reading (left + 1), some m =>
      some (({ s with redis := s.redis.xreadgroup w m }.spawn w m.id m.runId false).setPhase w
        (.reading left))
    | _, _ => none
  | .delivered w =>
    match s.phase w with
    | .reading _ => some (s.setPhase w .polling)
    | _ => none
  | _ => none

/- Steps of a handler. -/
def handlerStep (s : Sys) (h : Handler) : Label → Option Sys
  | .acquire _ =>
    if isWaiting h.pc && decide ((s.acquired h.worker : ℤ) < cfg.workerConcurrency) then
      some ((s.register h.worker h.runId (some h.id)).goto h.id .claiming)
    else none
  | .advance _ now =>
    match Runner.statement cfg s.db h now with
    | none => none
    | some (db', pc, out) => some (({ s with db := db' }.send out).resume h pc)
  | .executorReturns _ res =>
    match h.pc with
    | .executing c => some (s.goto h.id (Runner.returned c res))
    | _ => none
  | .fail _ => if h.pc.working then some (s.leave h) else none
  | .cancelTask _ =>
    if h.pc.working ∧ h.runId ∈ s.cancels ∧ s.inflightByRun h.worker h.runId = some h.id then
      some ({ s with detached := s.detached ++ [h] }.leave h)
    else none
  | .ack _ =>
    match h.pc with
    | .acking => some ({ s with redis := s.redis.xack h.messageId }.goto h.id .deleting)
    | _ => none
  | .ackError _ =>
    match h.pc with
    | .acking => some (s.remove h.id)
    | _ => none
  | .del _ =>
    match h.pc with
    | .deleting => some ({ s with redis := s.redis.xdel h.messageId }.remove h.id)
    | _ => none
  | .delError _ =>
    match h.pc with
    | .deleting => some (s.remove h.id)
    | _ => none
  | _ => none

/- A thread makes the next statement of its store call; nobody waits for what it returns. -/
def threadStep (s : Sys) (k : ℕ) (h : Handler) (now : Time) : Sys :=
  match Runner.statement cfg s.db h now with
  | none => { s with detached := s.detached.eraseIdx k }
  | some (_, .successCreate c x js, _) =>
    { s with detached := s.detached.set k (setPc (.successCreate c x js) h) }
  | some (db', _, _) => { s with db := db', detached := s.detached.eraseIdx k }

def step (s : Sys) (l : Label) : Option Sys :=
  match l with
  | .elapse d => some { s with redis := { s.redis with clock := s.redis.clock + d } }
  | .poll _ | .reclaim _ _ | .reclaimed _ | .deliver _ | .delivered _ => s.loopStep cfg l
  | .acquire i | .advance i _ | .executorReturns i _ | .fail i | .cancelTask i | .ack i
  | .ackError i | .del i | .delError i =>
    (s.handlers.get i).bind fun h => s.handlerStep cfg h l
  | .commitThread k now =>
    match s.detached[k]? with
    | none => none
    | some h => some (s.threadStep cfg k h now)
  | .crash w =>
    some { s with
      handlers := s.handlers.deleteWhere fun h => decide (h.worker = w)
      inflightByRun := fun w' r => if w' = w then none else s.inflightByRun w' r
      phase := fun w' => if w' = w then .polling else s.phase w' }
  | _ => s.producerStep cfg cronNext l

end
end Sys
end JobScheduler
