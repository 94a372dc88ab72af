import JobScheduler.Api.Created
import JobScheduler.Execution
import JobScheduler.Scheduler.TickOnce

/-!
# Messages of one run

A run is published once by the producer that dispatches it. `requeue_orphans` goes by the
status and the age of the row, so it also enqueues a run that still waits in a backlog or
in the delayed set; `claim_run` turns the additional deliveries away. What bounds the
messages of a run is the number of sweeps that have found it.
-/

namespace JobScheduler
open Library Database

namespace Redis

/-- The messages of run i on the stream, delivered or not; XDEL takes them away. -/
def messages (q : Redis) (i : RunId) : ℕ := q.stream.rows.countP fun m => decide (m.runId = i)

def delays (q : Redis) (i : RunId) : ℕ := q.delayed.countP fun d => decide (d.runId = i)

theorem messages_enqueueRun (q : Redis) (k i : RunId) :
    (q.enqueueRun k).messages i = q.messages i + if k = i then 1 else 0 := by
  unfold messages enqueueRun Table.insert
  rw [List.countP_append, List.countP_singleton]
  simp

theorem messages_foldl_enqueueRun (q : Redis) (ks : List RunId) (i : RunId) :
    (ks.foldl enqueueRun q).messages i = q.messages i + ks.count i := by
  induction ks generalizing q with
  | nil => simp
  | cons k ks ih =>
    rw [List.foldl_cons, ih, messages_enqueueRun, List.count_cons]
    simp only [beq_iff_eq]
    omega

theorem delays_scheduleDelayed (q : Redis) (k i : RunId) (ready : Time) :
    (q.scheduleDelayed k ready).delays i ≤ q.delays i + if k = i then 1 else 0 := by
  unfold delays scheduleDelayed
  have hperm := List.perm_orderedInsert Delayed.before ⟨k, ready⟩
    (q.delayed.filter fun d => decide (d.runId ≠ k))
  rw [hperm.countP_eq, List.countP_cons]
  have hle : (q.delayed.filter fun d => decide (d.runId ≠ k)).countP
      (fun d => decide (d.runId = i)) ≤ q.delayed.countP fun d => decide (d.runId = i) :=
    List.filter_sublist.countP_le
  simp only [decide_eq_true_eq]
  omega

/- Promotion moves entries of the delayed set to the stream. -/
theorem promoteDueDelayed_tokens (q : Redis) (now : Time) (i : RunId) :
    (q.promoteDueDelayed now).1.messages i + (q.promoteDueDelayed now).1.delays i =
      q.messages i + q.delays i := by
  have hsplit := List.countP_eq_countP_filter_add q.delayed (fun d => decide (d.runId = i))
    fun d => decide (d.readyAt ≤ now)
  have hcount : ((q.due now).map Delayed.runId).count i =
      (q.due now).countP fun d => decide (d.runId = i) := by
    rw [List.count, List.countP_map]
    exact List.countP_congr fun d _ => by simp
  have hmessages : (q.promoteDueDelayed now).1.messages i =
      q.messages i + (q.due now).countP fun d => decide (d.runId = i) := by
    rw [promoteDueDelayed_eq, messages_foldl_enqueueRun, hcount]
    rfl
  have hdelays : (q.promoteDueDelayed now).1.delays i =
      (q.delayed.filter fun d => !decide (d.readyAt ≤ now)).countP
        fun d => decide (d.runId = i) := by
    rw [promoteDueDelayed_eq, delays, delayed_foldl_enqueueRun]
  rw [hmessages, hdelays]
  unfold due delays
  omega

theorem messages_xdel (q : Redis) (m : ℕ) (i : RunId) : (q.xdel m).messages i ≤ q.messages i :=
  List.filter_sublist.countP_le

theorem messages_eq_zero {q : Redis} {i : RunId} (h : ¬ q.Holds i) : q.messages i = 0 := by
  refine List.countP_eq_zero.mpr fun m hm => ?_
  simp only [decide_eq_true_eq]
  exact fun hi => h (Or.inl ⟨m, hm, hi⟩)

theorem delays_eq_zero {q : Redis} {i : RunId} (h : ¬ q.Holds i) : q.delays i = 0 := by
  refine List.countP_eq_zero.mpr fun d hd => ?_
  simp only [decide_eq_true_eq]
  exact fun hi => h (Or.inr (Or.inr ⟨d, hd, hi⟩))

end Redis

/- A statement of a handler leaves it with a run to send, sends that run, or does neither; the
run it is left with is new or was read as a pending run. -/
theorem Runner.Advance.sending {cfg : Settings} {db db' : Database} {now : Time} {h : Handler}
    {pc pc' : Pc} {out : Option Send}
    (hadv : Runner.Advance cfg db now h .statement pc db' pc' out) :
    (out = none ∧ pc'.unsent? = none) ∨
    (∃ k, out = none ∧ pc.unsent? = none ∧ pc'.unsent? = some k ∧
      (db.runs.next ≤ k ∨ ∃ c j js, pc = .successCreate c (.read j k) js)) ∨
    ∃ k, pc.unsent? = some k ∧ pc'.unsent? = none ∧
      (out = some (.enqueue k) ∨ ∃ ready, out = some (.delay k ready)) := by
  cases hadv with
  | dependencyPromoted c j p js r hp => exact .inr (.inl ⟨p, rfl, rfl, rfl, .inr ⟨c, j, js, rfl⟩⟩)
  | dependencyInserted c j js db' k hi =>
    obtain ⟨rfl, -, -⟩ := insertRun_eq_some hi
    exact .inr (.inl ⟨_, rfl, rfl, rfl, .inl le_rfl⟩)
  | retryCreated c res db' k hd =>
    obtain ⟨rfl, -, -⟩ := insertRun_eq_some hd
    exact .inr (.inl ⟨_, rfl, rfl, rfl, .inl le_rfl⟩)
  | enqueued c k js => exact .inr (.inr ⟨k, rfl, rfl, .inl rfl⟩)
  | delayed c res k => exact .inr (.inr ⟨k, rfl, rfl, .inr ⟨_, rfl⟩⟩)
  | _ => exact .inl ⟨rfl, rfl⟩

namespace Sys

variable {cfg : Settings} {cronNext : Cron.CronNext} {s t : Sys} {l : Label} {i : RunId}

/-! ### Tokens -/

/- The handlers that have created run i and not sent it yet. -/
def unsent (s : Sys) (i : RunId) : ℕ :=
  s.handlers.rows.countP fun h => decide (h.pc.unsent? = some i)

/-- The messages of run i and whatever may still become one. -/
def tokens (s : Sys) (i : RunId) : ℕ :=
  s.outbox.count i + s.redis.messages i + s.redis.delays i + s.unsent i

theorem messages_le_tokens (s : Sys) (i : RunId) : s.redis.messages i ≤ s.tokens i := by
  unfold tokens
  omega

theorem tokens_eq_zero (h : ¬ InFlight s i) : s.tokens i = 0 := by
  have hout : s.outbox.count i = 0 := List.count_eq_zero.mpr fun hi => h (Or.inl hi)
  have hredis : ¬ s.redis.Holds i := fun hi => h (Or.inr (Or.inl hi))
  have hunsent : s.unsent i = 0 := by
    refine List.countP_eq_zero.mpr fun d hd => ?_
    simp only [decide_eq_true_eq]
    exact fun hi => h ((inFlight_of_handler hd).2 i hi)
  unfold tokens
  rw [hout, Redis.messages_eq_zero hredis, Redis.delays_eq_zero hredis, hunsent]

/- An id that no committed run has, or that belongs to a PENDING run. -/
theorem Sound.tokens_fresh (hs : Sound s) (h : s.db.runs.next ≤ i) : s.tokens i = 0 :=
  tokens_eq_zero fun hi => Nat.not_lt.mpr h (hs.inFlight i hi).1

theorem Sound.tokens_pending (hs : Sound s) {r : JobRun} (hr : s.db.runs.get i = some r)
    (hp : r.status = .pending) : s.tokens i = 0 :=
  tokens_eq_zero fun hi => (hs.inFlight i hi).2 r hr hp

theorem unsent_goto {h : Handler} (hget : s.handlers.get h.id = some h) (pc : Pc) (i : RunId) :
    (s.goto h.id pc).unsent i + (if h.pc.unsent? = some i then 1 else 0) =
      s.unsent i + if pc.unsent? = some i then 1 else 0 := by
  have hcount := Table.countP_update_key hget (fun k => decide (k.pc.unsent? = some i))
    (setPc pc) (setPc_keeps pc)
  simp only [decide_eq_true_eq] at hcount
  exact hcount

/- A handler that has nothing to send after its step. -/
theorem unsent_goto_le {h : Handler} (hget : s.handlers.get h.id = some h) {pc : Pc}
    (hpc : pc.unsent? = none) (i : RunId) : (s.goto h.id pc).unsent i ≤ s.unsent i := by
  have hcount := unsent_goto hget pc i
  rw [hpc] at hcount
  simp only [reduceCtorEq, if_false] at hcount
  omega

theorem unsent_spawn (s : Sys) (w : WorkerId) (m : ℕ) (r : RunId) (allow : Bool) (i : RunId) :
    (s.spawn w m r allow).unsent i = s.unsent i := by
  unfold unsent spawn Table.insert
  rw [List.countP_append, List.countP_singleton]
  simp [newHandler, Pc.unsent?]

theorem unsent_remove_le (s : Sys) (k : ℕ) (i : RunId) : (s.remove k).unsent i ≤ s.unsent i :=
  List.filter_sublist.countP_le

/-- The runs that the orphan pass of a step enqueues. -/
def sweep (cfg : Settings) (cronNext : Cron.CronNext) (s : Sys) : Label → List RunId
  | .tick now =>
    match Scheduler.scheduleDueJobs cronNext s.db now with
    | .ok (db', _) => Scheduler.requeueOrphans cfg db' now
    | .error _ => []
  | _ => []

theorem sweep_tick_ok {now : Time} {out : Database × List RunId}
    (h : Scheduler.scheduleDueJobs cronNext s.db now = .ok out) :
    sweep cfg cronNext s (.tick now) = Scheduler.requeueOrphans cfg out.1 now := by
  simp [sweep, h]

theorem sweep_tick_error {now : Time} {e : Cron.ScheduleError}
    (h : Scheduler.scheduleDueJobs cronNext s.db now = .error e) :
    sweep cfg cronNext s (.tick now) = [] := by
  simp [sweep, h]

/- A flush of create_dependency_run that finds run i no longer PENDING: another transaction has
promoted it, claimed it or canceled it since the SELECT. -/
def lateFlush (s : Sys) (l : Label) (i : RunId) : ℕ :=
  match l.tx s with
  | some (.promoteRun p) => if p = i ∧ s.db.statusOf i ≠ some .pending then 1 else 0
  | _ => 0

/- A step that enqueues run i beyond its dispatch n times leaves it with at most n more tokens; one
more when it dispatches the run, which has none before. -/
def Gains (s t : Sys) (i : RunId) (n : ℕ) : Prop :=
  t.tokens i ≤ s.tokens i + n ∨ s.tokens i = 0 ∧ t.tokens i ≤ 1 + n

theorem Gains.of_le {n : ℕ} (hout : t.outbox.count i ≤ s.outbox.count i)
    (hredis : t.redis.messages i + t.redis.delays i ≤ s.redis.messages i + s.redis.delays i)
    (hunsent : t.unsent i ≤ s.unsent i) : Gains s t i n := by
  left
  unfold tokens
  omega

/- The producers: new runs and swept runs are appended to the outbox. -/
theorem gains_outbox (hs : Sound s) (db' : Database) {new : List RunId} (old : List RunId)
    (hnodup : new.Nodup) (hnew : ∀ k ∈ new, s.db.runs.next ≤ k) :
    Gains s { s with db := db', outbox := s.outbox ++ new ++ old } i (old.count i) := by
  have htokens : tokens { s with db := db', outbox := s.outbox ++ new ++ old } i =
      s.tokens i + new.count i + old.count i := by
    show (s.outbox ++ new ++ old).count i + s.redis.messages i + s.redis.delays i + s.unsent i = _
    rw [List.count_append, List.count_append]
    unfold tokens
    omega
  unfold Gains
  rw [htokens]
  by_cases hi : i ∈ new
  · have hone := List.count_eq_one_of_mem hnodup hi
    have hzero := hs.tokens_fresh (hnew i hi)
    right
    omega
  · have hzero := List.count_eq_zero.mpr hi
    left
    omega

theorem gains_advance (hs : Sound s) {h : Handler} {now : Time} {db' : Database} {pc : Pc}
    {out : Option Send} (hget : s.handlers.get h.id = some h)
    (hadv : Runner.Advance cfg s.db now h .statement h.pc db' pc out) :
    Gains s (({ s with db := db' }.send out).resume h pc) i
      (lateFlush s (.advance h.id now) i) := by
  have hcount := unsent_goto hget pc i
  have hunsent : (({ s with db := db' }.send out).resume h pc).unsent i =
      (s.goto h.id pc).unsent i := by
    unfold unsent
    rw [handlers_advance]
  have hout : (({ s with db := db' }.send out).resume h pc).outbox = s.outbox := by simp
  have hredis : (({ s with db := db' }.send out).resume h pc).redis =
      ({ s with db := db' }.send out).redis := redis_resume ..
  have htokens : tokens (({ s with db := db' }.send out).resume h pc) i =
      s.outbox.count i + ({ s with db := db' }.send out).redis.messages i +
        ({ s with db := db' }.send out).redis.delays i + (s.goto h.id pc).unsent i := by
    unfold tokens
    rw [hunsent, hout, hredis]
  unfold Gains
  rw [htokens]
  rcases hadv.sending with ⟨rfl, hpc⟩ | ⟨k, rfl, hpc, hpc', hk⟩ | ⟨k, hpc, hpc', hsend⟩
  · have hle := unsent_goto_le hget hpc i
    left
    unfold tokens send
    dsimp only
    omega
  · -- the run has no token yet, or the flush is late
    have hzero : s.tokens k = 0 ∨ lateFlush s (.advance h.id now) k = 1 := by
      rcases hk with hk | ⟨c, j, js, hread⟩
      · exact .inl (hs.tokens_fresh hk)
      · by_cases hp : s.db.statusOf k = some .pending
        · obtain ⟨r, hr, hp⟩ := Option.map_eq_some_iff.mp hp
          exact .inl (hs.tokens_pending hr hp)
        · right
          rw [lateFlush, Trans.tx_advance hget, Runner.tx, hread]
          exact if_pos ⟨rfl, hp⟩
    rw [hpc, hpc'] at hcount
    unfold tokens send at *
    dsimp only at *
    by_cases hki : k = i
    · subst hki
      simp at hcount
      rcases hzero with hzero | hlate
      · right
        omega
      · left
        omega
    · left
      simp [hki] at hcount
      omega
  · rw [hpc, hpc'] at hcount
    left
    unfold tokens
    rcases hsend with rfl | ⟨ready, rfl⟩
    · have hmsg := s.redis.messages_enqueueRun k i
      simp only [Option.some.injEq, reduceCtorEq, if_false] at hcount
      show s.outbox.count i + (s.redis.enqueueRun k).messages i + s.redis.delays i +
        (s.goto h.id pc).unsent i ≤ _
      omega
    · have hdel := s.redis.delays_scheduleDelayed k i ready
      simp only [Option.some.injEq, reduceCtorEq, if_false] at hcount
      show s.outbox.count i + s.redis.messages i + (s.redis.scheduleDelayed k ready).delays i +
        (s.goto h.id pc).unsent i ≤ _
      omega

theorem Gains.mono {m n : ℕ} (h : Gains s t i m) (hle : m ≤ n) : Gains s t i n := by
  rcases h with h | ⟨hzero, h⟩
  · exact .inl (by omega)
  · exact .inr ⟨hzero, by omega⟩

theorem Trans.gains (h : Trans cfg cronNext s l t) (hs : Sound s) (i : RunId) :
    Gains s t i ((sweep cfg cronNext s l).count i + lateFlush s l i) := by
  cases h with
  | trigger owner job now st p hok =>
    obtain ⟨new, hids, hlt, hnew⟩ := (Api.triggerJob_orders hok).published
    rw [List.nil_append] at hids
    rw [hids]
    have hfresh : ∀ k ∈ new, s.db.runs.next ≤ k := by
      intro k hk
      obtain ⟨r, hr, -⟩ := (hnew k).mp hk
      exact (Api.triggerJob_orders hok).fresh k r hr
    have hgain := gains_outbox (i := i) hs st.1 [] (hlt.imp fun hab => Nat.ne_of_lt hab) hfresh
    rw [List.append_nil] at hgain
    exact hgain.mono (Nat.zero_le _)
  | retryRun owner k now run db' new hrun hterm hcreate =>
    obtain ⟨rfl, -, -⟩ := insertRun_eq_some hcreate
    have hgain := gains_outbox (i := i) hs db' [] (List.nodup_singleton s.db.runs.next)
      fun k hk => (List.mem_singleton.mp hk).ge
    rw [List.append_nil] at hgain
    exact hgain.mono (Nat.zero_le _)
  | tick now db' ids hok =>
    have hcol := Scheduler.scheduleDueJobs_collected hok
    rw [sweep_tick_ok hok]
    exact (gains_outbox hs db' _ (hcol.sorted.imp fun hab => Nat.ne_of_lt hab)
      fun k hk => ((hcol.ids k).mp hk).1).mono (Nat.le_add_right _ _)
  | promoteDelayed now =>
    exact .of_le le_rfl (s.redis.promoteDueDelayed_tokens now i).le le_rfl
  | publish k hk =>
    left
    have hmsg := s.redis.messages_enqueueRun k i
    have hcount : (s.outbox.erase k).count i + (if k = i then 1 else 0) = s.outbox.count i := by
      rw [List.count_erase]
      by_cases hki : k = i
      · have hpos : 0 < s.outbox.count i := List.count_pos_iff.mpr (hki ▸ hk)
        simp [hki]
        omega
      · simp [hki]
    unfold tokens
    show (s.outbox.erase k).count i + (s.redis.enqueueRun k).messages i + s.redis.delays i +
      s.unsent i ≤ _
    omega
  | drop k hk => exact .of_le (List.erase_sublist.count_le i) le_rfl le_rfl
  | reclaim w m e p hstale =>
    refine .of_le le_rfl le_rfl ?_
    exact (unsent_spawn { s with redis := s.redis.xautoclaim w m } w m e.runId true i).le
  | deliver w m p hnext =>
    refine .of_le le_rfl le_rfl ?_
    exact (unsent_spawn { s with redis := s.redis.xreadgroup w m } w m.id m.runId false i).le
  | acquire hd hget hpc =>
    exact .of_le le_rfl le_rfl (unsent_goto_le hget rfl i)
  | advance hd now db' pc out hget hadv =>
    exact (gains_advance hs hget hadv).mono (Nat.le_add_left _ _)
  | executorReturns hd c res hget hpc =>
    exact .of_le le_rfl le_rfl (unsent_goto_le hget (returned_unsent c res) i)
  | fail hd hget hw =>
    refine .of_le (by rw [outbox_leave]) (by rw [redis_leave]) ?_
    unfold unsent
    rw [handlers_leave]
    exact unsent_goto_le hget rfl i
  | cancelTask hd hget hw hcan =>
    refine .of_le (by rw [outbox_leave]) (by rw [redis_leave]) ?_
    unfold unsent
    rw [handlers_leave]
    exact unsent_goto_le hget rfl i
  | ack hd hget hpc =>
    exact .of_le le_rfl le_rfl (unsent_goto_le hget rfl i)
  | ackError hd hget hpc | delError hd hget hpc =>
    exact .of_le le_rfl le_rfl (unsent_remove_le s hd.id i)
  | del hd hget hpc =>
    refine .of_le le_rfl ?_ (unsent_remove_le s hd.id i)
    exact Nat.add_le_add_right (s.redis.messages_xdel hd.messageId i) _
  | crash w => exact .of_le le_rfl le_rfl List.filter_sublist.countP_le
  | _ => exact .of_le le_rfl le_rfl le_rfl

/-! ### Whole runs -/

/- sweeps: how often the orphan pass has enqueued each run; lateFlushes: how often
create_dependency_run has written it when it was no longer PENDING. -/
structure Swept where
  sys : Sys
  sweeps : RunId → ℕ
  lateFlushes : RunId → ℕ

def Swept.start (db : Database) : Swept := ⟨Sys.start db, fun _ => 0, fun _ => 0⟩

def Swept.step (cfg : Settings) (cronNext : Cron.CronNext) (s : Swept) (l : Label) : Option Swept :=
  (s.sys.step cfg cronNext l).map fun t =>
    ⟨t, fun i => s.sweeps i + (sweep cfg cronNext s.sys l).count i,
      fun i => s.lateFlushes i + lateFlush s.sys l i⟩

structure Swept.Bounded (s : Swept) : Prop where
  sound : Sound s.sys
  tokens : ∀ i, s.sys.tokens i ≤ 1 + s.sweeps i + s.lateFlushes i

theorem Swept.bounded_start (db : Database) : (Swept.start db).Bounded where
  sound := sound_start db
  tokens := by
    intro i
    have hzero : (Sys.start db).tokens i = 0 := tokens_eq_zero (not_inFlight_start db i)
    show (Sys.start db).tokens i ≤ _
    rw [hzero]
    exact Nat.zero_le _

theorem Swept.Bounded.step {s t : Swept} (hs : s.Bounded)
    (h : Swept.step cfg cronNext s l = some t) : t.Bounded := by
  obtain ⟨t', ht, rfl⟩ := Option.map_eq_some_iff.mp h
  have htrans := trans_of_step ht
  refine ⟨htrans.sound hs.sound, fun i => ?_⟩
  have hle := hs.tokens i
  dsimp only
  rcases htrans.gains hs.sound i with hgain | ⟨-, hgain⟩
  · omega
  · omega

/-- One step's orphan pass: the QUEUED runs older than the threshold, each once. -/
def SweepsOrphans (cfg : Settings) (cronNext : Cron.CronNext) (s : Swept) (l : Label) : Prop :=
  (sweep cfg cronNext s.sys l).Nodup ∧
    ∀ i, i ∈ sweep cfg cronNext s.sys l ↔ ∃ now db' ids r, l = .tick now ∧
      Scheduler.scheduleDueJobs cronNext s.sys.db now = .ok (db', ids) ∧
      db'.runs.get i = some r ∧ r.status = .queued ∧
      r.createdAt < now - cfg.orphanRequeueAfterSec * Cron.microseconds

theorem nodup_requeueOrphans (cfg : Settings) (db : Database) (now : Time) :
    (Scheduler.requeueOrphans cfg db now).Nodup :=
  List.pairwise_map.mpr ((db.runs.sorted.imp fun hlt => Nat.ne_of_lt hlt).filter _)

theorem sweepsOrphans (s : Swept) (l : Label) : SweepsOrphans cfg cronNext s l := by
  unfold SweepsOrphans
  cases l with
  | tick now =>
    cases hs : Scheduler.scheduleDueJobs cronNext s.sys.db now with
    | error e =>
      rw [sweep_tick_error hs]
      refine ⟨List.nodup_nil, fun i => iff_of_false List.not_mem_nil ?_⟩
      rintro ⟨now', db', ids, r, hl, hok, -⟩
      cases hl
      rw [hs] at hok
      cases hok
    | ok out =>
      rw [sweep_tick_ok hs]
      refine ⟨nodup_requeueOrphans cfg out.1 now, fun i => ?_⟩
      rw [Scheduler.mem_requeueOrphans_iff]
      constructor
      · rintro ⟨r, hr, hq, hc⟩
        exact ⟨now, out.1, out.2, r, rfl, hs, hr, hq, hc⟩
      · rintro ⟨now', db', ids, r, hl, hok, hr, hq, hc⟩
        cases hl
        rw [hs] at hok
        cases hok
        exact ⟨r, hr, hq, hc⟩
  | _ =>
    refine ⟨List.nodup_nil, fun i => iff_of_false List.not_mem_nil ?_⟩
    rintro ⟨now, db', ids, r, hl, -⟩
    cases hl

/-- In every run of the system the messages of a run are at most one more than the sweeps
that have enqueued it and the late flushes that have promoted it again, and a sweep enqueues each
old QUEUED run once. -/
theorem messages_le_sweeps (cfg : Settings) (cronNext : Cron.CronNext) (db : Database)
    (ls : List Label) :
    Machine.Visits (Swept.step cfg cronNext)
      (fun s => ∀ i, s.sys.redis.messages i ≤ 1 + s.sweeps i + s.lateFlushes i)
      (Swept.start db) ls ∧
    Machine.Along (Swept.step cfg cronNext) (SweepsOrphans cfg cronNext) (Swept.start db) ls := by
  constructor
  · refine Machine.visits_of_invariant (I := Swept.Bounded) (C := fun _ _ => True) ?_ ?_
      (Swept.bounded_start db) (Machine.along_true _ _)
    · exact fun s l t hs _ h => hs.step h
    · exact fun s hs i => (messages_le_tokens s.sys i).trans (hs.tokens i)
  · exact Machine.along_iff.mpr fun _ _ _ _ _ _ => sweepsOrphans _ _

/- One run in a backlog: no worker reads the stream for a minute, then the scheduler ticks. -/
def backlog : List Label := [.trigger 1 0 0, .publish 0, .tick 60000001, .publish 0]

/- The sweep of that tick finds a run whose message is on the stream, and adds a second. -/
theorem sweep_duplicates_backlog :
    (¬ ∀ (cfg : Settings) (cronNext : Cron.CronNext) (db : Database) (ls : List Label),
      Machine.Along (step cfg cronNext)
        (fun s l => ∀ i ∈ sweep cfg cronNext s l, ¬ s.redis.Holds i) (start db) ls) ∧
    ¬ ∀ (cfg : Settings) (cronNext : Cron.CronNext) (db : Database) (ls : List Label),
      Machine.Visits (step cfg cronNext) (fun s => ∀ i, s.redis.messages i ≤ 1) (start db) ls := by
  constructor
  · intro h
    have hone : (Machine.run (step {} Cron.noCron) (start reportJob) (backlog.take 2)).any
        (fun s => decide (0 < s.redis.messages 0) &&
          (sweep {} Cron.noCron s (.tick 60000001)).contains 0) = true := by decide
    obtain ⟨s, hrun, hs⟩ := (Option.any_eq_true _ _).mp hone
    simp only [Bool.and_eq_true, decide_eq_true_eq, List.contains_iff_mem] at hs
    have hno := Machine.along_iff.mp (h {} Cron.noCron reportJob backlog) (backlog.take 2)
      (.tick 60000001) [.publish 0] s rfl hrun 0 hs.2
    exact absurd (Redis.messages_eq_zero hno) (Nat.ne_of_gt hs.1)
  · intro h
    have htwo : (Machine.run (step {} Cron.noCron) (start reportJob) backlog).any
        (fun s => decide (s.redis.messages 0 = 2)) = true := by decide
    obtain ⟨s, hrun, hs⟩ := (Option.any_eq_true _ _).mp htwo
    have hle := (h {} Cron.noCron reportJob backlog).last hrun 0
    rw [of_decide_eq_true hs] at hle
    exact absurd hle (by decide)

end Sys
end JobScheduler
