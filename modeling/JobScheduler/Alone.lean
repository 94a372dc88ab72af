import JobScheduler.Acknowledge

/-!
# A handler on its own

A handler needs nobody else: with the steps of its own worker it takes its run from the
claim to the end of the run, and its message from the pending list and from the stream.
-/

namespace JobScheduler.Drain
open Library Database Store

/-! ### What the calls of a handler leave alone -/

/- Runs other than i that are not pending keep their row. -/
def Spares (i : RunId) (db db' : Database) : Prop :=
  ∀ k r, k ≠ i → db.runs.get k = some r → r.status ≠ .pending → db'.runs.get k = some r

theorem Spares.refl (i : RunId) (db : Database) : Spares i db db := fun _ _ _ hr _ => hr

theorem Spares.trans {i : RunId} {db db' db'' : Database} (h : Spares i db db')
    (k : Spares i db' db'') : Spares i db db'' := by
  intro j r hj hr hs
  exact k j r hj (h j r hj hr hs) hs

/- Run i is over. -/
def Ended (db : Database) (i : RunId) : Prop :=
  ∃ r, db.runs.get i = some r ∧ r.status.terminal = true

/- Runs that are not pending keep their row or come to an end. -/
def Settles (db db' : Database) : Prop :=
  ∀ k r, db.runs.get k = some r → r.status ≠ .pending → db'.runs.get k = some r ∨ Ended db' k

theorem Settles.refl (db : Database) : Settles db db := fun _ _ hr _ => Or.inl hr

theorem Settles.ended {db db' : Database} (h : Settles db db') {i : RunId} (he : Ended db i) :
    Ended db' i := by
  obtain ⟨r, hr, hterm⟩ := he
  have hne : r.status ≠ .pending := by
    intro hp
    rw [hp] at hterm
    cases hterm
  rcases h i r hr hne with hr' | he'
  · exact ⟨r, hr', hterm⟩
  · exact he'

theorem Settles.trans {db db' db'' : Database} (h : Settles db db') (k : Settles db' db'') :
    Settles db db'' := by
  intro i r hr hne
  rcases h i r hr hne with hr' | he
  · exact k i r hr' hne
  · exact Or.inr (k.ended he)

/- The entry XAUTOCLAIM returns first: it goes through the pending list from its start. -/
def firstStale (cfg : Settings) (q : Redis) : Option PendingEntry :=
  q.pending.find? (q.idleAtLeast cfg.claimMinIdleMs)

section
variable (cfg : Settings) (cronNext : Cron.CronNext) (worker : WorkerId)
  (results : Claimed → ExecResult)

/- The steps of one worker when nothing fails. It reads as many messages as Redis has for it,
lets its handlers in first come first served and takes them through their calls; its
executors return the given results. -/
def Own (s : Sys) : Label → Prop
  | .poll w | .deliver w => w = worker
  | .reclaim w m => w = worker ∧ ∃ e, firstStale cfg s.redis = some e ∧ e.messageId = m
  | .reclaimed w => w = worker ∧
    ((∃ count, s.phase w = .reclaiming 0 count) ∨ firstStale cfg s.redis = none)
  | .delivered w => w = worker ∧ (s.phase w = .reading 0 ∨ s.redis.nextMessage = none)
  | .acquire i => ∃ h, s.handlers.get i = some h ∧ h.worker = worker ∧
    ∀ k ∈ s.handlers.rows, k.worker = worker → k.pc = .waiting → i ≤ k.id
  | .advance i _ | .ack i | .del i => ∃ h, s.handlers.get i = some h ∧ h.worker = worker
  | .executorReturns i res =>
    ∃ h c, s.handlers.get i = some h ∧ h.worker = worker ∧ h.pc = .executing c ∧ res = results c
  | _ => False

/- By its own steps the worker gets from s to t. -/
abbrev Alone (s t : Sys) : Prop :=
  Machine.Leads (Sys.step cfg cronNext) (Own cfg worker results) s t

end

/-! ### One handler up to its acknowledgement -/

/- What the steps of handler h, working on run i, leave as it was. -/
structure Carries (h : ℕ) (i : RunId) (s t : Sys) : Prop where
  others : ∀ k, k ≠ h → t.handlers.get k = s.handlers.get k
  phase : t.phase = s.phase
  cursor : t.redis.cursor = s.redis.cursor
  clock : t.redis.clock = s.redis.clock
  pending : t.redis.pending = s.redis.pending
  stream : ∀ m ∈ s.redis.stream.rows, m ∈ t.redis.stream.rows
  spares : Spares i s.db t.db

theorem Carries.trans {h : ℕ} {i : RunId} {s t u : Sys} (hst : Carries h i s t)
    (htu : Carries h i t u) : Carries h i s u where
  others := fun k hk => (htu.others k hk).trans (hst.others k hk)
  phase := htu.phase.trans hst.phase
  cursor := htu.cursor.trans hst.cursor
  clock := htu.clock.trans hst.clock
  pending := htu.pending.trans hst.pending
  stream := fun m hm => htu.stream m (hst.stream m hm)
  spares := hst.spares.trans htu.spares

section
variable {cfg : Settings} {cronNext : Cron.CronNext} {worker : WorkerId}
  {results : Claimed → ExecResult} {s t : Sys}

/- What is left when handler h is gone. -/
structure Handled (h : Handler) (s t : Sys) : Prop where
  handlers : ∀ k, k ∈ t.handlers.rows → k ∈ s.handlers.rows ∧ k.id ≠ h.id
  kept : ∀ k ∈ s.handlers.rows, k.id ≠ h.id → k ∈ t.handlers.rows
  phase : t.phase = s.phase
  cursor : t.redis.cursor = s.redis.cursor
  clock : t.redis.clock = s.redis.clock
  pending : t.redis.pending = (s.redis.xack h.messageId).pending
  stream : ∀ m ∈ s.redis.stream.rows, m.id ≠ h.messageId → m ∈ t.redis.stream.rows
  settles : Settles s.db t.db
  done : ∀ r, s.db.runs.get h.runId = some r → claimable h.allowRunning r.status = true →
    Ended t.db h.runId

end
end JobScheduler.Drain
