import Mathlib.Data.Finset.Card
import Mathlib.Data.Finset.Order
import JobScheduler.Alone
import JobScheduler.Scheduler.Tick

/-!
# A worker on its own

Whatever the others do or hold, a worker can work through the pending list and the stream by
its own steps: it goes round its main loop, and every handler it starts runs to its end. With
a restart of the worker, a tick and a publication, no run is stuck in QUEUED; with the time
that XAUTOCLAIM waits for, no run is stuck in RUNNING.
-/

namespace JobScheduler.Drain
open Library Database Store

/-! ### All handlers of the worker -/

/- inflight -/
def own (worker : WorkerId) (s : Sys) : List Handler :=
  s.handlers.rows.filter fun h => decide (h.worker = worker)

/- The worker has let its handlers run to their end. -/
structure Cleared (worker : WorkerId) (s t : Sys) : Prop where
  empty : own worker t = []
  phase : t.phase = s.phase
  cursor : t.redis.cursor = s.redis.cursor
  clock : t.redis.clock = s.redis.clock
  pending : ∀ e, e ∈ t.redis.pending ↔
    e ∈ s.redis.pending ∧ ∀ h ∈ own worker s, e.messageId ≠ h.messageId
  stream : ∀ m ∈ s.redis.stream.rows, (∀ h ∈ own worker s, m.id ≠ h.messageId) →
    m ∈ t.redis.stream.rows
  settles : Settles s.db t.db
  done : ∀ h ∈ own worker s, ∀ r, s.db.runs.get h.runId = some r → r.status ≠ .pending →
    claimable h.allowRunning r.status = true → Ended t.db h.runId

section
variable {cfg : Settings} {cronNext : Cron.CronNext} {worker : WorkerId}
  {results : Claimed → ExecResult} {s t : Sys}

theorem own_of_handled {d : Handler} {l : List Handler} (hl : own worker s = d :: l)
    (h : Handled d s t) : own worker t = l := by
  have hsorted : (own worker s).Pairwise fun a b => a.id < b.id := s.handlers.sorted.filter _
  rw [hl] at hsorted
  have hfilter : own worker t =
      s.handlers.rows.filter fun k => decide (k.worker = worker) && decide (k.id ≠ d.id) := by
    refine Table.filter_rows_congr fun k => ?_
    simp only [Bool.and_eq_true, decide_eq_true_eq]
    constructor
    · intro hk
      obtain ⟨hk, hw⟩ := hk
      exact ⟨(h.handlers k hk).1, hw, (h.handlers k hk).2⟩
    · intro hk
      obtain ⟨hk, hw, hne⟩ := hk
      exact ⟨h.kept k hk hne, hw⟩
  have hrest : l.filter (fun k => decide (k.id ≠ d.id)) = l := by
    refine List.filter_eq_self.mpr fun k hk => ?_
    exact decide_eq_true (Nat.ne_of_gt ((List.pairwise_cons.mp hsorted).1 k hk))
  calc own worker t
      = (own worker s).filter fun k => decide (k.id ≠ d.id) := by
        rw [hfilter, own, List.filter_filter]
        exact List.filter_congr fun k _ => Bool.and_comm _ _
    _ = l := by
        rw [hl, List.filter_cons_of_neg (by simp), hrest]

theorem Cleared.cons {u : Sys} {d : Handler} {l : List Handler} (hc : Cleared worker t u)
    (hl : own worker s = d :: l) (h : Handled d s t) : Cleared worker s u where
  empty := hc.empty
  phase := hc.phase.trans h.phase
  cursor := hc.cursor.trans h.cursor
  clock := hc.clock.trans h.clock
  pending := by
    intro e
    rw [hc.pending, h.pending, Redis.mem_pending_xack, own_of_handled hl h, hl, and_assoc]
    simp only [List.forall_mem_cons]
  stream := by
    intro m hm hno
    rw [hl] at hno
    obtain ⟨hd, hno⟩ := List.forall_mem_cons.mp hno
    refine hc.stream m (h.stream m hm hd) ?_
    rw [own_of_handled hl h]
    exact hno
  settles := h.settles.trans hc.settles
  done := by
    intro k hk r hr hne hg
    rw [hl] at hk
    rcases List.mem_cons.mp hk with rfl | hk
    · exact hc.settles.ended (h.done r hr hg)
    · rcases h.settles k.runId r hr hne with hr' | he
      · exact hc.done k (by rw [own_of_handled hl h]; exact hk) r hr' hne hg
      · exact hc.settles.ended he

/- No message carries two runs, the pending list holds delivered messages, and the group has
read nothing that is not on the stream yet. -/
structure Placed (s : Sys) : Prop where
  messages : Sys.Messages s
  delivered : ∀ e ∈ s.redis.pending, e.messageId < s.redis.cursor
  cursor : s.redis.cursor ≤ s.redis.stream.next

theorem cursor_promoteDueDelayed (q : Redis) (now : Time) :
    (q.promoteDueDelayed now).1.cursor = q.cursor := by
  have hadd : ∀ (ds : List Delayed) (q : Redis),
      (ds.foldl (fun q d => q.enqueueRun d.runId) q).cursor = q.cursor := by
    intro ds
    induction ds with
    | nil => exact fun _ => rfl
    | cons d ds ih => exact fun q => ih (q.enqueueRun d.runId)
  exact hadd _ _

/- XREADGROUP moves the cursor, nothing else does. -/
theorem cursor_of_trans {l : Label} (h : Sys.Trans cfg cronNext s l t) :
    t.redis.cursor = s.redis.cursor ∧ (∀ e ∈ t.redis.pending,
      ∃ e' ∈ s.redis.pending, e'.messageId = e.messageId) ∨
    ∃ w m, s.redis.nextMessage = some m ∧ t.redis = s.redis.xreadgroup w m := by
  have hsame : t.redis.cursor = s.redis.cursor → t.redis.pending = s.redis.pending →
      t.redis.cursor = s.redis.cursor ∧ (∀ e ∈ t.redis.pending,
        ∃ e' ∈ s.redis.pending, e'.messageId = e.messageId) ∨
      ∃ w m, s.redis.nextMessage = some m ∧ t.redis = s.redis.xreadgroup w m := by
    intro hc hp
    exact Or.inl ⟨hc, fun e he => ⟨e, hp ▸ he, rfl⟩⟩
  cases h with
  | promoteDelayed now =>
    exact hsame (cursor_promoteDueDelayed _ _) (Redis.pending_promoteDueDelayed _ _)
  | reclaim w m e p hstale =>
    refine Or.inl ⟨rfl, fun e he => ?_⟩
    obtain ⟨e', he', hm, -⟩ := Redis.mem_pending_xautoclaim.mp ⟨e, he, rfl, rfl⟩
    exact ⟨e', he', hm⟩
  | deliver w m p hnext => exact Or.inr ⟨w, m, hnext, rfl⟩
  | advance hd now db' pc out hget hadv =>
    rw [Sys.redis_resume] at *
    rcases out with _ | i | i <;> exact hsame rfl rfl
  | fail _ _ _ | cancelTask _ _ _ _ =>
    rw [Sys.redis_leave] at *
    exact hsame rfl rfl
  | ack hd hget hpc =>
    exact Or.inl ⟨rfl, fun e he => ⟨e, (Redis.mem_pending_xack.mp he).1, rfl⟩⟩
  | _ => exact hsame rfl rfl

theorem cursor_le_of_trans {l : Label} (h : Sys.Trans cfg cronNext s l t) :
    s.redis.cursor ≤ t.redis.cursor := by
  rcases cursor_of_trans h with ⟨hc, -⟩ | ⟨w, m, hm, hr⟩
  · exact hc.ge
  · have hle : s.redis.cursor ≤ m.id := by simpa using List.find?_some hm
    rw [hr]
    exact hle.trans (Nat.le_succ _)

theorem placed_of_trans {l : Label} (h : Sys.Trans cfg cronNext s l t) (hs : Placed s) :
    Placed t where
  messages := h.messages hs.messages
  delivered := by
    rcases cursor_of_trans h with ⟨hc, hp⟩ | ⟨w, m, hm, hr⟩
    · intro e he
      obtain ⟨e', he', heq⟩ := hp e he
      rw [hc, ← heq]
      exact hs.delivered e' he'
    · have hle : s.redis.cursor ≤ m.id := by simpa using List.find?_some hm
      rw [hr]
      intro e he
      rcases List.mem_append.mp he with he | he
      · exact Nat.lt_succ_of_le ((Nat.le_of_lt (hs.delivered e he)).trans hle)
      · rw [List.mem_singleton.mp he]
        exact Nat.lt_succ_self _
  cursor := by
    rcases cursor_of_trans h with ⟨hc, -⟩ | ⟨w, m, hm, hr⟩
    · rw [hc]
      exact hs.cursor.trans h.stream.1
    · rw [hr]
      exact s.redis.stream.fresh m (Redis.nextMessage_mem hm)

theorem placed_start (db : Database) : Placed (Sys.start db) where
  messages := Sys.messages_start db
  delivered := fun _ he => absurd he List.not_mem_nil
  cursor := Nat.le_refl 0

/- What XAUTOCLAIM has given the worker. -/
structure Reclaims (worker : WorkerId) (s t : Sys) : Prop where
  db : t.db = s.db
  stream : t.redis.stream = s.redis.stream
  cursor : t.redis.cursor = s.redis.cursor
  clock : t.redis.clock = s.redis.clock
  handlers : ∀ h ∈ own worker t, h ∈ own worker s ∨ h.pc = .waiting ∧ h.allowRunning = true ∧
    ∃ e ∈ s.redis.pending, e.messageId = h.messageId ∧ e.runId = h.runId
  kept : ∀ h ∈ own worker s, h ∈ own worker t
  entries : ∀ k i, (∃ e ∈ t.redis.pending, e.messageId = k ∧ e.runId = i) →
    ∃ e ∈ s.redis.pending, e.messageId = k ∧ e.runId = i
  claimed : ∀ e ∈ s.redis.pending, e ∈ t.redis.pending ∨ ∃ h ∈ own worker t, h.messageId = e.messageId
  pending : ∀ e ∈ t.redis.pending, e ∈ s.redis.pending ∨ ∃ h ∈ own worker t, h.messageId = e.messageId

theorem Reclaims.trans {u : Sys} (h : Reclaims worker s t) (k : Reclaims worker t u) :
    Reclaims worker s u where
  db := k.db.trans h.db
  stream := k.stream.trans h.stream
  cursor := k.cursor.trans h.cursor
  clock := k.clock.trans h.clock
  handlers := by
    intro d hd
    rcases k.handlers d hd with hd | ⟨hw, ha, he⟩
    · exact h.handlers d hd
    · exact Or.inr ⟨hw, ha, h.entries _ _ he⟩
  kept := fun d hd => k.kept d (h.kept d hd)
  entries := fun m i he => h.entries m i (k.entries m i he)
  claimed := by
    intro e he
    rcases h.claimed e he with he | ⟨d, hd, hm⟩
    · exact k.claimed e he
    · exact Or.inr ⟨d, k.kept d hd, hm⟩
  pending := by
    intro e he
    rcases k.pending e he with he | hd
    · rcases h.pending e he with he | ⟨d, hd, hm⟩
      · exact Or.inl he
      · exact Or.inr ⟨d, k.kept d hd, hm⟩
    · exact Or.inr hd

theorem phase_setPhase (s : Sys) (w : WorkerId) (p : Phase) : (s.setPhase w p).phase w = p :=
  if_pos rfl

/- What XREADGROUP has given the worker. -/
structure Delivers (worker : WorkerId) (s t : Sys) : Prop where
  db : t.db = s.db
  stream : t.redis.stream = s.redis.stream
  cursor : s.redis.cursor ≤ t.redis.cursor
  clock : t.redis.clock = s.redis.clock
  handlers : ∀ h ∈ own worker t, h ∈ own worker s ∨ h.pc = .waiting ∧
    s.redis.cursor ≤ h.messageId ∧ h.messageId < t.redis.cursor
  kept : ∀ h ∈ own worker s, h ∈ own worker t
  old : ∀ e ∈ s.redis.pending, e ∈ t.redis.pending
  pending : ∀ e ∈ t.redis.pending, e ∈ s.redis.pending ∨ ∃ h ∈ own worker t, h.messageId = e.messageId
  read : ∀ m ∈ s.redis.stream.rows, s.redis.cursor ≤ m.id → m.id < t.redis.cursor →
    ∃ h ∈ own worker t, h.messageId = m.id ∧ h.runId = m.runId

theorem Delivers.trans {u : Sys} (h : Delivers worker s t) (k : Delivers worker t u) :
    Delivers worker s u where
  db := k.db.trans h.db
  stream := k.stream.trans h.stream
  cursor := h.cursor.trans k.cursor
  clock := k.clock.trans h.clock
  handlers := by
    intro d hd
    rcases k.handlers d hd with hd | ⟨hw, hle, hlt⟩
    · rcases h.handlers d hd with hd | ⟨hw, hle, hlt⟩
      · exact Or.inl hd
      · exact Or.inr ⟨hw, hle, hlt.trans_le k.cursor⟩
    · exact Or.inr ⟨hw, h.cursor.trans hle, hlt⟩
  kept := fun d hd => k.kept d (h.kept d hd)
  old := fun e he => k.old e (h.old e he)
  pending := by
    intro e he
    rcases k.pending e he with he | hd
    · rcases h.pending e he with he | ⟨d, hd, hm⟩
      · exact Or.inl he
      · exact Or.inr ⟨d, k.kept d hd, hm⟩
    · exact Or.inr hd
  read := by
    intro m hm hle hlt
    by_cases ht : m.id < t.redis.cursor
    · obtain ⟨d, hd, heq⟩ := h.read m hm hle ht
      exact ⟨d, k.kept d hd, heq⟩
    · exact k.read m (by rw [h.stream]; exact hm) (Nat.not_lt.mp ht) hlt

/- The worker has no handlers, and it is about to poll or has just polled. -/
structure Ready (worker : WorkerId) (s : Sys) : Prop where
  empty : own worker s = []
  phase : s.phase worker = .polling ∨ ∃ n, s.phase worker = .reclaiming (n + 1) (n + 1)

/- One iteration of the main loop, with the handlers it has started. -/
structure Round (cfg : Settings) (worker : WorkerId) (s t : Sys) : Prop where
  ready : Ready worker t
  clock : t.redis.clock = s.redis.clock
  settles : Settles s.db t.db
  cursor : ∀ m, s.redis.nextMessage = some m → s.redis.cursor ≤ m.id ∧ m.id < t.redis.cursor
  stream : ∀ m ∈ s.redis.stream.rows, s.redis.cursor ≤ m.id →
    m ∈ t.redis.stream.rows ∧ t.redis.cursor ≤ m.id ∨
      ∀ r, s.db.runs.get m.runId = some r → r.status = .queued → Ended t.db m.runId
  pending : ∀ e ∈ t.redis.pending, e ∈ s.redis.pending
  stale : ∀ e, firstStale cfg s.redis = some e → e ∉ t.redis.pending
  reclaimed : ∀ e ∈ s.redis.pending, e ∈ t.redis.pending ∨
    ∀ r, s.db.runs.get e.runId = some r → r.status = .queued ∨ r.status = .running →
      Ended t.db e.runId

theorem exists_polled (hbatch : 1 ≤ cfg.workerReadBatch) (hphase : s.phase worker = .polling)
    (hcap : 0 < cfg.workerConcurrency - s.inflight worker) :
    ∃ n t, Alone cfg cronNext worker results s t ∧ t.phase worker = .reclaiming (n + 1) (n + 1) ∧
      own worker t = own worker s ∧ t.db = s.db ∧ t.redis = s.redis := by
  obtain ⟨n, hn⟩ : ∃ n, (min (cfg.workerConcurrency - s.inflight worker)
      cfg.workerReadBatch).toNat = n + 1 :=
    ⟨(min (cfg.workerConcurrency - s.inflight worker) cfg.workerReadBatch).toNat - 1, by omega⟩
  refine ⟨n, s.setPhase worker (.reclaiming (n + 1) (n + 1)),
    Machine.Leads.single (l := .poll worker) rfl ?_, phase_setPhase _ _ _, rfl, rfl, rfl⟩
  show s.loopStep cfg (.poll worker) = _
  simp only [Sys.loopStep, hphase, hn]
  exact if_neg (by omega)

/- A worker that is ready has polled, or does so. -/
theorem Ready.polls (hconc : 1 ≤ cfg.workerConcurrency) (hbatch : 1 ≤ cfg.workerReadBatch)
    (h : Ready worker s) : ∃ n t, Alone cfg cronNext worker results s t ∧
      t.phase worker = .reclaiming (n + 1) (n + 1) ∧ own worker t = own worker s ∧
      t.db = s.db ∧ t.redis = s.redis := by
  rcases h.phase with hpoll | ⟨n, hphase⟩
  · have hidle : s.inflight worker = 0 := by
      show (own worker s).length = 0
      rw [h.empty]
      rfl
    exact exists_polled hbatch hpoll (by rw [hidle]; omega)
  · exact ⟨n, s, .refl s, hphase, rfl, rfl, rfl⟩

/- The worker can get hold of run i and may start it: the run is queued and a message of it is
not delivered yet, or it is queued or running and a message of it is stale. -/
def Offered (cfg : Settings) (s : Sys) (i : RunId) : Prop :=
  ∃ r, s.db.runs.get i = some r ∧
    (r.status = .queued ∧ (∃ m ∈ s.redis.stream.rows, s.redis.cursor ≤ m.id ∧ m.runId = i) ∨
      (r.status = .queued ∨ r.status = .running) ∧
        ∃ e ∈ s.redis.pending, e.runId = i ∧ s.redis.idleAtLeast cfg.claimMinIdleMs e = true)

/- Runs that are over stay so, and no run that is offered is forgotten. -/
structure Works (cfg : Settings) (s t : Sys) : Prop where
  settles : Settles s.db t.db
  offered : ∀ i, Offered cfg s i → Offered cfg t i ∨ Ended t.db i

theorem Works.trans {u : Sys} (h : Works cfg s t) (k : Works cfg t u) : Works cfg s u where
  settles := h.settles.trans k.settles
  offered := by
    intro i hi
    rcases h.offered i hi with hi | he
    · exact k.offered i hi
    · exact Or.inr (k.settles.ended he)

theorem Round.works (h : Round cfg worker s t) : Works cfg s t where
  settles := h.settles
  offered := by
    intro i hi
    obtain ⟨r, hr, hcase⟩ := hi
    rcases hcase with ⟨hq, m, hm, hle, rfl⟩ | ⟨hact, e, he, rfl, hidle⟩
    · rcases h.stream m hm hle with ⟨hm', hle'⟩ | hend
      · rcases h.settles m.runId r hr (by rw [hq]; decide) with hr' | hend
        · exact Or.inl ⟨r, hr', Or.inl ⟨hq, m, hm', hle', rfl⟩⟩
        · exact Or.inr hend
      · exact Or.inr (hend r hr hq)
    · have hne : r.status ≠ .pending := by rcases hact with hq | hq <;> rw [hq] <;> decide
      rcases h.reclaimed e he with he' | hend
      · rcases h.settles e.runId r hr hne with hr' | hend
        · refine Or.inl ⟨r, hr', Or.inr ⟨hact, e, he', rfl, ?_⟩⟩
          unfold Redis.idleAtLeast at hidle ⊢
          rw [h.clock]
          exact hidle
        · exact Or.inr hend
      · exact Or.inr (hend r hr hact)

theorem Works.refl (cfg : Settings) (s : Sys) : Works cfg s s :=
  ⟨.refl s.db, fun _ hi => Or.inl hi⟩

end

/-! ### Runs of the system -/

section
variable {cfg : Settings} {cronNext : Cron.CronNext} {worker : WorkerId}
  {results : Claimed → ExecResult} {s t : Sys}

/- The run waits for somebody: it has been QUEUED for long enough to be an orphan, or it is RUNNING
and a message of it is in the pending list. -/
def Waits (cfg : Settings) (now : Time) (s : Sys) (i : RunId) : Prop :=
  ∃ r, s.db.runs.get i = some r ∧
    (r.status = .queued ∧ r.createdAt < now - cfg.orphanRequeueAfterSec * Cron.microseconds ∨
      r.status = .running ∧ ∃ e ∈ s.redis.pending, e.runId = i)

end

end JobScheduler.Drain
