import JobScheduler.Transition

/-!
# Invariants of every run of the system

What holds in every state that the system can reach, whatever crashes, exceptions, edits
and cancellations happen on the way: a run id that is on the queue, with a producer or
with a handler belongs to a committed run that has left PENDING; the claim records of the
handlers agree with the tables; a job has at most one pending run. A canceled run stays canceled
as long as no flush of create_dependency_run meets a run that has ended.
-/

namespace JobScheduler
open Library Database

/-! ### The calls of a handler -/

namespace Runner

variable {cfg : Settings} {db db' : Database} {now : Time} {h : Handler} {pc pc' : Pc}
  {out : Option Send} {g : Grain}

/- A call that returns a run id returns the id of a queued run. -/
theorem createDependencyRun_queued {j : JobId} {i : RunId}
    (h : Store.createDependencyRun db j now = some (db', some i)) :
    ∃ r, db'.runs.get i = some r ∧ r.status = .queued := by
  rcases Store.createDependencyRun_cases h with ⟨-, -, hres⟩ | ⟨-, p, hp, rfl, hres⟩ |
    ⟨-, ha, rfl, hres⟩
  · cases hres
  · cases hres
    have hget := Table.get_of_mem (oldestRun_eq_some hp).1
    refine ⟨Store.promotedRow p, ?_, rfl⟩
    rw [Store.promoteRun, Store.get_updateRun, if_pos rfl]
    change db.runs.get p.id = some p at hget
    rw [hget]
    rfl
  · cases hres
    exact ⟨_, by rw [get_addRun, if_pos rfl], rfl⟩

theorem Advance.unsent (hadv : Advance cfg db now h g pc db' pc' out) {i : RunId}
    (hi : pc'.unsent? = some i) : ∃ r, db'.runs.get i = some r ∧ r.status = .queued := by
  cases hadv with
  | dependencyCreated c j js db' k hd =>
    cases hi
    exact createDependencyRun_queued hd
  | dependencyPromoted c j p js r hp =>
    cases hi
    refine ⟨Store.promotedRow r, ?_, rfl⟩
    rw [Store.promoteRun, Store.get_updateRun, if_pos rfl, hp]
    rfl
  | dependencyInserted c j js db' k hins =>
    cases hi
    obtain ⟨rfl, ha, rfl⟩ := insertRun_eq_some hins
    exact ⟨_, by rw [get_addRun, if_pos rfl], rfl⟩
  | retryCreated c res db' k hd =>
    cases hi
    obtain ⟨rfl, ha, rfl⟩ := insertRun_eq_some hd
    exact ⟨_, by rw [get_addRun, if_pos rfl], rfl⟩
  | _ => cases hi

/- Only a run the handler has created is sent. -/
theorem Advance.sends (hadv : Advance cfg db now h g pc db' pc' out) {q : Redis} {s : Sys}
    (hq : s.redis = q) {i : RunId} (hi : (s.send out).redis.Holds i) :
    q.Holds i ∨ pc.unsent? = some i := by
  subst hq
  cases hadv with
  | enqueued c k js =>
    rcases Redis.holds_enqueueRun.mp hi with hi | rfl
    · exact Or.inl hi
    · exact Or.inr rfl
  | delayed c res k =>
    rcases Redis.holds_scheduleDelayed hi with hi | rfl
    · exact Or.inl hi
    · exact Or.inr rfl
  | _ => exact Or.inl hi

theorem Advance.claimed_record (hadv : Advance cfg db now h g pc db' pc' out) {c : Store.Claimed}
    (hc : pc'.claimed? = some c) :
    pc.claimed? = some c ∨
      c.runId = h.runId ∧ ∃ r, db'.runs.get h.runId = some r ∧ r.jobId = c.jobId := by
  cases hadv with
  | claimed r job hr hg hjob =>
    cases hc
    have hid : r.id = h.runId := Table.key_of_get hr
    refine Or.inr ⟨hid, Store.claimedRow h.worker now r, ?_, rfl⟩
    rw [Store.get_updateRun, if_pos rfl, hr, Option.map_some, if_pos hg]
  | refused _ | successSkipped _ _ _ | fannedOut _ | dependencyRaised _ _ _ _
  | dependencyGone _ _ _ _ _ | dependencyRefused _ _ _ _ | failureSkipped _ _ _ | retryRaised _ _ _
  | failed _ _ _ => cases hc
  | _ => exact Or.inl hc

theorem Advance.fails (hadv : Advance cfg db now h g pc db' pc' out) {res : ExecResult}
    (hres : pc'.fails? = some res) : pc.fails? = some res := by
  cases hadv with
  | retries _ _ _ | givesUp _ _ _ | retryCreated _ _ _ _ _ | delayed _ _ _ => exact hres
  | _ => cases hres

/- dependents_ready is called after the finish_run of a success. -/
theorem Advance.ready_inv (hadv : Advance cfg db now h g pc db' pc' out) {c : Store.Claimed}
    (hc : pc' = .successReady c) : ∃ res, pc = .successFinish c res ∧
      db' = Store.finishRun db c.runId .succeeded res.exitCode res.result none now := by
  cases hadv with
  | succeeded c' res =>
    cases hc
    exact ⟨res, rfl, rfl⟩
  | _ => cases hc

/- The list of a fan-out shrinks, and begins with the answer of dependents_ready. -/
theorem Advance.todo (hadv : Advance cfg db now h g pc db' pc' out) {j : JobId}
    (hj : j ∈ pc'.todo) : j ∈ pc.todo ∨
      ∃ c, pc = .successReady c ∧ db' = db ∧ j ∈ Store.dependentsReady db c.jobId := by
  cases hadv with
  | ready c => exact Or.inr ⟨c, rfl, rfl, hj⟩
  | dependencySkipped _ _ _ _ _ | dependencyCreated _ _ _ _ _ _ | dependencyDispatched _ _ _ _
  | dependencyPromoted _ _ _ _ _ _ | dependencyInserted _ _ _ _ _ _ =>
    exact Or.inl (List.mem_cons_of_mem _ hj)
  | dependencyChecked _ _ _ _ | dependencyRead _ _ _ _ _ | dependencyAbsent _ _ _ _
  | enqueued _ _ _ => exact Or.inl hj
  | _ => cases hj

/- A transaction that has read a pending run of the job has just read it. -/
theorem Advance.read (hadv : Advance cfg db now h g pc db' pc' out) {j : JobId} {p : RunId}
    (hx : pc'.promotion? = some (.read j p)) :
    db' = db ∧ ∃ r, db.runs.get p = some r ∧ r.jobId = j ∧ r.status = .pending := by
  cases hadv with
  | dependencyRead c j' js r hr =>
    cases hx
    obtain ⟨hmem, hj, hs⟩ := oldestRun_eq_some hr
    exact ⟨rfl, r, Table.get_of_mem hmem, hj, by simpa using hs⟩
  | _ => cases hx

theorem adds_queued {h : Handler} {now : Time} {tx' : RunTx} {r : JobRun}
    (htx : tx h now = some tx') (hr : RunTx.Adds tx' r) : r.status = .queued := by
  unfold tx at htx
  split at htx
  · cases htx
    cases hr
  · cases htx
    cases hr
  · rcases Store.Promotion.tx_cases htx with ⟨p, rfl⟩ | ⟨j, rfl⟩
    · cases hr
    · exact hr.2
  · cases htx
    exact hr.2
  · cases htx
    cases hr
  · cases htx

end Runner

namespace Sys

variable {cfg : Settings} {cronNext : Cron.CronNext} {s t : Sys} {l : Label}

/-! ### Run ids in flight -/

/- Ids that may still reach a claim. -/
def InFlight (s : Sys) (i : RunId) : Prop :=
  i ∈ s.outbox ∨ s.redis.Holds i ∨
    (∃ h ∈ s.handlers.rows, h.runId = i ∨ h.pc.unsent? = some i) ∨ ∃ h ∈ s.detached, h.runId = i

theorem InFlight.elim {i : RunId} {P : RunId → Prop} (hi : InFlight t i)
    (hout : ∀ k ∈ t.outbox, P k) (hredis : ∀ k, t.redis.Holds k → P k)
    (hhand : ∀ h ∈ t.handlers.rows, P h.runId ∧ ∀ k, h.pc.unsent? = some k → P k)
    (hdet : ∀ h ∈ t.detached, P h.runId) : P i := by
  rcases hi with hi | hi | ⟨h, hh, hi⟩ | ⟨h, hh, rfl⟩
  · exact hout i hi
  · exact hredis i hi
  · obtain ⟨hrun, hunsent⟩ := hhand h hh
    rcases hi with rfl | hi
    · exact hrun
    · exact hunsent i hi
  · exact hdet h hh

/- One handler moves. -/
theorem forall_goto {h : Handler} {pc : Pc} {P : RunId → Prop} (hget : s.handlers.get h.id = some h)
    (hold : ∀ k ∈ s.handlers.rows, P k.runId ∧ ∀ i, k.pc.unsent? = some i → P i)
    (hnew : ∀ i, pc.unsent? = some i → P i) :
    ∀ k ∈ (s.goto h.id pc).handlers.rows, P k.runId ∧ ∀ i, k.pc.unsent? = some i → P i := by
  intro k hk
  rcases (mem_goto hget).mp hk with rfl | ⟨hk, -⟩
  · exact ⟨(hold h (Table.mem_of_get hget)).1, hnew⟩
  · exact hold k hk

/- One handler is added. -/
theorem forall_spawn {w : WorkerId} {m : ℕ} {r : RunId} {allow : Bool} {P : RunId → Prop}
    (hold : ∀ k ∈ s.handlers.rows, P k.runId ∧ ∀ i, k.pc.unsent? = some i → P i) (hr : P r) :
    ∀ k ∈ (s.spawn w m r allow).handlers.rows, P k.runId ∧ ∀ i, k.pc.unsent? = some i → P i := by
  intro k hk
  rcases mem_spawn.mp hk with hk | rfl
  · exact hold k hk
  · exact ⟨hr, fun _ hi => by cases hi⟩

theorem returned_unsent (c : Store.Claimed) (res : ExecResult) :
    (Runner.returned c res).unsent? = none := by
  unfold Runner.returned
  split <;> rfl

/- The places where the id of a run in flight can be found. -/
theorem inFlight_of_handler {k : Handler} (hk : k ∈ s.handlers.rows) :
    InFlight s k.runId ∧ ∀ i, k.pc.unsent? = some i → InFlight s i :=
  ⟨Or.inr (Or.inr (Or.inl ⟨k, hk, Or.inl rfl⟩)),
    fun _ hi => Or.inr (Or.inr (Or.inl ⟨k, hk, Or.inr hi⟩))⟩

theorem inFlight_of_detached {d : Handler} (hd : d ∈ s.detached) : InFlight s d.runId :=
  Or.inr (Or.inr (Or.inr ⟨d, hd, rfl⟩))

theorem inFlight_of_claimRun {i : RunId} {w : WorkerId} {allow : Bool} {n : Time}
    (htx : l.tx s = some (.claimRun i w allow n)) : InFlight s i := by
  rcases tx_of_worker htx rfl with ⟨d, hd, now, -, hdtx⟩ | ⟨d, hd, k, now, -, hdtx⟩
  · obtain ⟨-, rfl, -⟩ := Runner.tx_claimRun hdtx
    exact (inFlight_of_handler hd).1
  · obtain ⟨-, rfl, -⟩ := Runner.tx_claimRun hdtx
    exact inFlight_of_detached hd

/- A run becomes RUNNING by the claim of somebody who had its id. -/
theorem RowChange.running {i : RunId} {r r' : JobRun} (h : RowChange s l r r')
    (hr : s.db.runs.get i = some r) (hrun : r.status ≠ .running) (hrun' : r'.status = .running) :
    InFlight s i := by
  have hid : r.id = i := Table.key_of_get hr
  subst hid
  rcases h with rfl | ⟨tx, htx, hrow⟩
  · exact absurd hrun' hrun
  · cases hrow with
    | same => exact absurd hrun' hrun
    | claimed _ w allow now _ => exact inFlight_of_claimRun htx
    | finished _ res error now _ =>
      have hterm := res.status.runStatus_terminal
      rw [show res.status.runStatus = .running from hrun'] at hterm
      cases hterm
    | canceled => cases hrun'
    | promoted => cases hrun'
    | flushed => cases hrun'

/- The call of a handler sends what the handler had not sent, and creates queued runs. -/
theorem inFlight_advance {hd : Handler} {now : Time} {db' : Database} {pc : Pc} {out : Option Send}
    (hget : s.handlers.get hd.id = some hd)
    (hadv : Runner.Advance cfg s.db now hd .statement hd.pc db' pc out) {i : RunId}
    (hi : InFlight (({ s with db := db' }.send out).resume hd pc) i) :
    InFlight s i ∨ ∃ r, db'.runs.get i = some r ∧ r.status = .queued := by
  refine hi.elim (P := fun k => InFlight s k ∨ ∃ r, db'.runs.get k = some r ∧ r.status = .queued)
    ?_ ?_ ?_ ?_
  · intro k hk
    exact Or.inl (Or.inl (by simpa using hk))
  · intro k hk
    rw [redis_resume] at hk
    rcases hadv.sends rfl hk with hk | hk
    · exact Or.inl (Or.inr (Or.inl hk))
    · exact Or.inl ((inFlight_of_handler (Table.mem_of_get hget)).2 k hk)
  · rw [handlers_advance]
    refine forall_goto
      (P := fun k => InFlight s k ∨ ∃ r, db'.runs.get k = some r ∧ r.status = .queued) hget ?_ ?_
    · intro k hk
      obtain ⟨hrun, hunsent⟩ := inFlight_of_handler hk
      exact ⟨Or.inl hrun, fun j hj => Or.inl (hunsent j hj)⟩
    · intro k hk
      obtain ⟨r, hr, hs⟩ := hadv.unsent hk
      exact Or.inr ⟨r, hr, hs⟩
  · intro d hd
    exact Or.inl (inFlight_of_detached (by simpa using hd))

/- Every producer and every handler puts only committed queued runs in flight. -/
theorem Trans.inFlight (h : Trans cfg cronNext s l t) {i : RunId} (hi : InFlight t i) :
    InFlight s i ∨ ∃ r, t.db.runs.get i = some r ∧ r.status = .queued := by
  have hout : ∀ k ∈ s.outbox, InFlight s k := fun k hk => Or.inl hk
  have hredis : ∀ k, s.redis.Holds k → InFlight s k := fun k hk => Or.inr (Or.inl hk)
  have hhand : ∀ k ∈ s.handlers.rows,
      InFlight s k.runId ∧ ∀ i, k.pc.unsent? = some i → InFlight s i :=
    fun k hk => inFlight_of_handler hk
  have hdet : ∀ d ∈ s.detached, InFlight s d.runId := fun d hd => inFlight_of_detached hd
  cases h with
  | trigger owner job now st p hok =>
    rcases hi with hi | hi
    · rcases List.mem_append.mp hi with hi | hi
      · exact Or.inl (hout i hi)
      · rcases (Api.triggerJob_publishes hok).ids i hi with hi | ⟨-, hr⟩
        · cases hi
        · exact Or.inr hr
    · exact Or.inl (Or.inr hi)
  | retryRun owner k now run db' new hrun hterm hcreate =>
    rcases hi with hi | hi
    · rcases List.mem_append.mp hi with hk | hk
      · exact Or.inl (hout i hk)
      · obtain ⟨rfl, ha, rfl⟩ := insertRun_eq_some hcreate
        rw [List.mem_singleton.mp hk]
        exact Or.inr ⟨_, by rw [get_addRun, if_pos rfl], rfl⟩
    · exact Or.inl (Or.inr hi)
  | tick now db' ids hok =>
    rcases hi with hi | hi
    · rcases List.mem_append.mp hi with hi | hi
      · rcases List.mem_append.mp hi with hi | hi
        · exact Or.inl (hout i hi)
        · exact Or.inr ((Scheduler.scheduleDueJobs_scheduled hok).ids i hi).2
      · exact Or.inr (Scheduler.mem_requeueOrphans hi)
    · exact Or.inl (Or.inr hi)
  | promoteDelayed now =>
    exact Or.inl (hi.elim hout (fun k hk => hredis k (Redis.holds_promoteDueDelayed hk)) hhand hdet)
  | publish k hk =>
    refine Or.inl (hi.elim (fun m hm => hout m (List.mem_of_mem_erase hm)) ?_ hhand hdet)
    intro m hm
    rcases Redis.holds_enqueueRun.mp hm with hm | rfl
    · exact hredis m hm
    · exact hout m hk
  | drop k hk =>
    exact Or.inl (hi.elim (fun m hm => hout m (List.mem_of_mem_erase hm)) hredis hhand hdet)
  | reclaim w m e p hstale =>
    have he : InFlight s e.runId :=
      hredis _ (Or.inr (Or.inl ⟨e, (Redis.stale_mem hstale).1, rfl⟩))
    exact Or.inl (hi.elim hout (fun k hk => hredis k (Redis.holds_xautoclaim hk))
      (forall_spawn hhand he) hdet)
  | deliver w m p hnext =>
    have hm := Redis.nextMessage_mem hnext
    have he : InFlight s m.runId := hredis _ (Or.inl ⟨m, hm, rfl⟩)
    exact Or.inl (hi.elim hout (fun k hk => hredis k (Redis.holds_xreadgroup hm hk))
      (forall_spawn hhand he) hdet)
  | acquire hd hget hpc =>
    exact Or.inl (hi.elim hout hredis (forall_goto hget hhand fun _ hk => by cases hk) hdet)
  | advance hd now db' pc out hget hadv =>
    simp only [db_resume, db_send]
    exact inFlight_advance hget hadv hi
  | executorReturns hd c res hget hpc =>
    refine Or.inl (hi.elim hout hredis (forall_goto hget hhand fun _ hk => ?_) hdet)
    rw [returned_unsent] at hk
    cases hk
  | fail hd hget hw =>
    refine Or.inl (hi.elim (by simpa using hout) (by simpa using hredis) ?_ (by simpa using hdet))
    rw [handlers_leave]
    exact forall_goto hget hhand fun _ hk => by cases hk
  | cancelTask hd hget hw hc =>
    refine Or.inl (hi.elim (by simpa using hout) (by simpa using hredis) ?_ ?_)
    · rw [handlers_leave]
      exact forall_goto hget hhand fun _ hk => by cases hk
    · intro d hd'
      rw [detached_leave] at hd'
      rcases List.mem_append.mp hd' with hd' | hd'
      · exact hdet d hd'
      · rw [List.mem_singleton.mp hd']
        exact (hhand hd (Table.mem_of_get hget)).1
  | ack hd hget hpc =>
    exact Or.inl (hi.elim hout (fun k hk => hredis k (Redis.holds_xack hk))
      (forall_goto (by exact hget) hhand fun _ hk => by cases hk) hdet)
  | commitThread k now hd db' hk hdb =>
    exact Or.inl (hi.elim hout hredis hhand fun d hd => hdet d (List.mem_of_mem_eraseIdx hd))
  | threadGoesOn k now hd c x js hk hadv =>
    refine Or.inl (hi.elim hout hredis hhand fun d hd' => ?_)
    rcases List.mem_or_eq_of_mem_set hd' with hd' | rfl
    · exact hdet d hd'
    · exact hdet hd (List.mem_of_getElem? hk)
  | ackError hd hget hpc | delError hd hget hpc =>
    exact Or.inl (hi.elim hout hredis (fun d hd => hhand d (mem_remove.mp hd).1) hdet)
  | del hd hget hpc =>
    exact Or.inl (hi.elim hout (fun k hk => hredis k (Redis.holds_xdel hk))
      (fun d hd => hhand d (mem_remove.mp hd).1) hdet)
  | crash w =>
    exact Or.inl (hi.elim hout hredis
      (fun d hd => hhand d (Table.mem_rows_deleteWhere.mp hd).1) hdet)
  | _ => exact Or.inl hi

/-! ### Cancellations -/

theorem Trans.cancels (h : Trans cfg cronNext s l t) {i : RunId} (hi : i ∈ t.cancels) :
    i ∈ s.cancels ∨ ∃ r, t.db.runs.get i = some r ∧ r.status = .canceled := by
  cases h with
  | cancelRun owner k now r hr ha =>
    rcases List.mem_append.mp hi with hi | hi
    · exact Or.inl hi
    · rw [List.mem_singleton.mp hi]
      refine Or.inr ⟨Store.canceledRow now r, ?_, rfl⟩
      show (Store.updateRun s.db k RunStatus.active (Store.canceledRow now)
        (Store.canceledRow_keeps now)).runs.get k = _
      rw [Store.get_updateRun, if_pos rfl, hr, Option.map_some, if_pos ha]
  | advance _ _ _ _ _ _ _ | fail _ _ _ | cancelTask _ _ _ _ => exact Or.inl (by simpa using hi)
  | _ => exact Or.inl hi

theorem Trans.cancels_mono (h : Trans cfg cronNext s l t) {i : RunId} (hi : i ∈ s.cancels) :
    i ∈ t.cancels := by
  cases h with
  | cancelRun owner k now r hr ha => exact List.mem_append_left _ hi
  | advance _ _ _ _ _ _ _ | fail _ _ _ | cancelTask _ _ _ _ => simpa using hi
  | _ => exact hi

/- A thread that has made another statement of its transaction. -/
def GoesOn (cfg : Settings) (s : Sys) (d k : Handler) : Prop :=
  ∃ now c x js, k = setPc (.successCreate c x js) d ∧
    Runner.Advance cfg s.db now d .statement d.pc s.db (.successCreate c x js) none

theorem Trans.detached (h : Trans cfg cronNext s l t) {d : Handler} (hd : d ∈ t.detached) :
    d ∈ s.detached ∨ (d ∈ s.handlers.rows ∧ d.runId ∈ s.cancels) ∨
      t.db = s.db ∧ ∃ d' ∈ s.detached, GoesOn cfg s d' d := by
  cases h with
  | cancelTask hd' hget hw hcan =>
    rw [detached_leave] at hd
    rcases List.mem_append.mp hd with hd | hd
    · exact Or.inl hd
    · rw [List.mem_singleton.mp hd]
      exact Or.inr (Or.inl ⟨Table.mem_of_get hget, hcan⟩)
  | commitThread n now hd' db' hn hdb => exact Or.inl (List.mem_of_mem_eraseIdx hd)
  | threadGoesOn n now hd' c x js hn hadv =>
    rcases List.mem_or_eq_of_mem_set hd with hd | rfl
    · exact Or.inl hd
    · exact Or.inr (Or.inr ⟨rfl, hd', List.mem_of_getElem? hn, now, c, x, js, rfl, hadv⟩)
  | advance _ _ _ _ _ _ _ | fail _ _ _ => exact Or.inl (by simpa using hd)
  | _ => exact Or.inl hd

/-! ### Claim records -/

/- Handlers, and handlers whose last store call is still executed by a thread. -/
def Works (s : Sys) (h : Handler) : Prop := h ∈ s.handlers.rows ∨ h ∈ s.detached

/- One who works after the step worked before it, has just been spawned, or has moved. -/
theorem Trans.works (h : Trans cfg cronNext s l t) {k : Handler} (hk : Works t k) :
    Works s k ∨ k.pc = .waiting ∨
      (∃ h ∈ s.handlers.rows, ∃ pc, k = setPc pc h ∧ Moves cfg s h l t.db pc) ∨
      t.db = s.db ∧ ∃ d ∈ s.detached, GoesOn cfg s d k := by
  rcases hk with hk | hk
  · rcases h.handler hk with ⟨hk, -⟩ | ⟨hpc, -⟩ | hm
    · exact Or.inl (Or.inl hk)
    · exact Or.inr (Or.inl hpc)
    · exact Or.inr (Or.inr (Or.inl hm))
  · rcases h.detached hk with hk | ⟨hk, -⟩ | hk
    · exact Or.inl (Or.inr hk)
    · exact Or.inl (Or.inl hk)
    · exact Or.inr (Or.inr (Or.inr hk))

/- A record comes from an earlier state or from a claim that has just been committed. -/
theorem Trans.record (h : Trans cfg cronNext s l t) {k : Handler} (hk : Works t k)
    {c : Store.Claimed} (hc : k.pc.claimed? = some c) :
    (∃ h, Works s h ∧ h.runId = k.runId ∧ h.pc.claimed? = some c) ∨
      c.runId = k.runId ∧ ∃ r, t.db.runs.get k.runId = some r ∧ r.jobId = c.jobId := by
  rcases h.works hk with hk | hpc | ⟨k', hk', pc, rfl, hm⟩ | ⟨-, k', hk', now, c', x, js, rfl, hadv⟩
  · exact Or.inl ⟨k, hk, rfl, hc⟩
  · rw [hpc] at hc
    cases hc
  · change pc.claimed? = some c at hc
    generalize t.db = db' at hm ⊢
    cases hm with
    | acquire _ | fail _ | cancelTask _ _ | ack _ => cases hc
    | advance now db' pc out hadv =>
      rcases hadv.claimed_record hc with hc | hc
      · exact Or.inl ⟨k', Or.inl hk', rfl, hc⟩
      · exact Or.inr hc
    | executorReturns c' res hpc =>
      refine Or.inl ⟨k', Or.inl hk', rfl, ?_⟩
      rw [hpc]
      unfold Runner.returned at hc
      split at hc <;> exact hc
  · exact Or.inl ⟨k', Or.inr hk', rfl, hadv.goesOn_claimed.trans hc⟩

/- _on_failure is only called with a result that is no success. -/
theorem Trans.fails (h : Trans cfg cronNext s l t) {k : Handler} (hk : Works t k)
    {res : ExecResult} (hres : k.pc.fails? = some res) :
    (∃ h, Works s h ∧ h.pc.fails? = some res) ∨ res.status ≠ .succeeded := by
  rcases h.works hk with hk | hpc | ⟨k', hk', pc, rfl, hm⟩ | ⟨-, k', hk', now, c, x, js, rfl, -⟩
  · exact Or.inl ⟨k, hk, hres⟩
  · rw [hpc] at hres
    cases hres
  · change pc.fails? = some res at hres
    generalize t.db = db' at hm ⊢
    cases hm with
    | acquire _ | fail _ | cancelTask _ _ | ack _ => cases hres
    | advance now db' pc out hadv => exact Or.inl ⟨k', Or.inl hk', hadv.fails hres⟩
    | executorReturns c res' hpc =>
      unfold Runner.returned at hres
      split at hres
      · cases hres
      · rename_i hno
        cases hres
        exact Or.inr fun hs => hno (decide_eq_true hs)
  · cases hres

theorem returned_fansOut (c : Store.Claimed) (res : ExecResult) :
    (Runner.returned c res).fansOut? = none := by
  unfold Runner.returned
  split <;> rfl

/- A handler that calls dependents_ready next has just finished its run, or was there before. -/
theorem Trans.ready (h : Trans cfg cronNext s l t) {k : Handler} (hk : Works t k)
    {c : Store.Claimed} (hc : k.pc = .successReady c) :
    (∃ h, Works s h ∧ h.pc = .successReady c) ∨
    ∃ h ∈ s.handlers.rows, ∃ res now, h.pc = .successFinish c res ∧ l = .advance h.id now ∧
      t.db = Store.finishRun s.db c.runId .succeeded res.exitCode res.result none now := by
  rcases h.works hk with hk | hpc | ⟨k', hk', pc, rfl, hm⟩ | ⟨-, k', hk', now, c', x, js, rfl, -⟩
  · exact Or.inl ⟨k, hk, hc⟩
  · rw [hpc] at hc
    cases hc
  · change pc = .successReady c at hc
    generalize t.db = db' at hm ⊢
    cases hm with
    | acquire _ | fail _ | cancelTask _ _ | ack _ => cases hc
    | advance now db' pc out hadv =>
      obtain ⟨res, hpc, hdb⟩ := hadv.ready_inv hc
      exact Or.inr ⟨k', hk', res, now, hpc, rfl, hdb⟩
    | executorReturns c' res hpc =>
      have hno := returned_fansOut c' res
      rw [hc] at hno
      cases hno
  · cases hc

/- Dependents to promote come from an earlier state or from dependents_ready. -/
theorem Trans.todo (h : Trans cfg cronNext s l t) {k : Handler} (hk : Works t k) {j : JobId}
    (hj : j ∈ k.pc.todo) :
    (∃ h, Works s h ∧ j ∈ h.pc.todo) ∨
      t.db = s.db ∧ ∃ h, Works s h ∧ ∃ c, h.pc = .successReady c ∧
        j ∈ Store.dependentsReady s.db c.jobId := by
  rcases h.works hk with hk | hpc | ⟨k', hk', pc, rfl, hm⟩ | ⟨-, k', hk', now, c, x, js, rfl, hadv⟩
  · exact Or.inl ⟨k, hk, hj⟩
  · rw [hpc] at hj
    cases hj
  · change j ∈ pc.todo at hj
    generalize t.db = db' at hm ⊢
    cases hm with
    | acquire _ | fail _ | cancelTask _ _ | ack _ => cases hj
    | advance now db' pc out hadv =>
      rcases hadv.todo hj with hj' | ⟨c, hpc, hdb, hready⟩
      · exact Or.inl ⟨k', Or.inl hk', hj'⟩
      · exact Or.inr ⟨hdb, k', Or.inl hk', c, hpc, hready⟩
    | executorReturns c' res hpc =>
      obtain ⟨c, hc⟩ := Pc.fansOut?_of_todo hj
      rw [returned_fansOut] at hc
      cases hc
  · rcases hadv.todo hj with hj' | ⟨c', hpc, -, -⟩
    · exact Or.inl ⟨k', Or.inr hk', hj'⟩
    · rw [hpc] at hadv
      cases hadv

theorem returned_promotion (c : Store.Claimed) (res : ExecResult) :
    (Runner.returned c res).promotion? = none := by
  unfold Runner.returned
  split <;> rfl

/- A transaction that has read a pending run has just done so, or had done so before. -/
theorem Trans.read (h : Trans cfg cronNext s l t) {k : Handler} (hk : Works t k) {j : JobId}
    {p : RunId} (hx : k.pc.promotion? = some (.read j p)) :
    (∃ h, Works s h ∧ h.pc.promotion? = some (.read j p)) ∨
      ∃ r, s.db.runs.get p = some r ∧ r.jobId = j ∧ r.status = .pending := by
  rcases h.works hk with hk | hpc | ⟨k', hk', pc, rfl, hm⟩ | ⟨-, k', hk', now, c, x, js, rfl, hadv⟩
  · exact Or.inl ⟨k, hk, hx⟩
  · rw [hpc] at hx
    cases hx
  · change pc.promotion? = some (.read j p) at hx
    generalize t.db = db' at hm
    cases hm with
    | acquire _ | fail _ | cancelTask _ _ | ack _ => cases hx
    | advance now db' pc out hadv => exact Or.inr (hadv.read hx).2
    | executorReturns c res hpc =>
      rw [returned_promotion] at hx
      cases hx
  · exact Or.inr (hadv.read hx).2

/-! ### Pending runs -/

/- Only a trigger creates runs that are not queued. -/
theorem NewRow.queued {r : JobRun} (h : NewRow s l r) :
    r.status = .queued ∨ (∃ owner job now, l = .trigger owner job now) ∧
      r.status = Api.openedStatus s.db r.jobId := by
  rcases h with ⟨tx, htx, hr⟩ | h
  · left
    cases l with
    | retryRun owner i now =>
      obtain ⟨run, -, rfl⟩ := Option.map_eq_some_iff.mp htx
      exact hr.2
    | cancelRun owner i now =>
      cases htx
      cases hr
    | tick now =>
      cases htx
      exact hr
    | advance i now =>
      obtain ⟨hd, -, htx⟩ := Option.bind_eq_some_iff.mp htx
      exact Runner.adds_queued htx hr
    | commitThread k now =>
      obtain ⟨hd, -, htx⟩ := Option.bind_eq_some_iff.mp htx
      exact Runner.adds_queued htx hr
    | _ => cases htx
  · exact Or.inr h

theorem NewRow.status {r : JobRun} (h : NewRow s l r) : r.status = .queued ∨ r.status = .pending := by
  rcases h.queued with hq | ⟨-, hq⟩
  · exact Or.inl hq
  · rw [hq, Api.openedStatus]
    split
    · exact Or.inl rfl
    · exact Or.inr rfl

/- A job has at most one pending run. -/
def PendingOnce (db : Database) : Prop :=
  ∀ i r, db.runs.get i = some r → r.status = .pending →
    ∀ k q, db.runs.get k = some q → q.status = .pending → r.jobId = q.jobId → i = k

theorem hasRun_active_of_pending {db : Database} {i : RunId} {r : JobRun}
    (hr : db.runs.get i = some r) (hp : r.status = .pending) :
    db.HasRun r.jobId RunStatus.active :=
  hasRun_iff_get.mpr ⟨i, r, hr, rfl, by rw [hp]; rfl⟩

theorem pendingOnce_trigger {db : Database} {owner : UserId} {job : JobId} {now : Time}
    {st : Api.Prepared} {p : RunId} (hdb : PendingOnce db)
    (h : Api.triggerJob db owner job now = .ok (st, p)) : PendingOnce st.1 := by
  have hprep := Api.triggerJob_prepares h
  by_cases hd : db.dependencyIds job = []
  · obtain ⟨-, n, ha, -, hs, hst⟩ := hprep.leaf hd
    have hold : ∀ i r, st.1.runs.get i = some r → r.status = .pending →
        db.runs.get i = some r := by
      intro i r hr hp
      rw [hst, get_addRun] at hr
      split at hr
      · cases hr
        rw [show (n.row db.runs.next).status = n.status from rfl, hs] at hp
        cases hp
      · exact hr
    intro i r hr hp k q hq hp'
    exact hdb i r (hold i r hr hp) hp k q (hold k q hq hp') hp'
  · have hw := hprep.walk hd
    intro i r hr hp k q hq hp' hj
    rcases hw.ext.cases hr with hr' | ⟨hn, -, -, -, hidle, -⟩ <;>
      rcases hw.ext.cases hq with hq' | ⟨hm, -, -, -, hidle', -⟩
    · exact hdb i r hr' hp k q hq' hp' hj
    · exact absurd (hj ▸ hasRun_active_of_pending hr' hp) hidle'
    · exact absurd (hj ▸ hasRun_active_of_pending hq' hp') hidle
    · exact hw.once i r hr hn k q hq hm hj

theorem Trans.pendingOnce (h : Trans cfg cronNext s l t) (hs : PendingOnce s.db) :
    PendingOnce t.db := by
  by_cases htr : ∃ owner job now, l = .trigger owner job now
  · obtain ⟨owner, job, now, rfl⟩ := htr
    cases h with
    | trigger _ _ _ st p hok => exact pendingOnce_trigger hs hok
  · have hold : ∀ i r, t.db.runs.get i = some r → r.status = .pending →
        s.db.runs.get i = some r := by
      intro i r hr hp
      cases hg : s.db.runs.get i with
      | none =>
        rcases (h.evolves.new i r hr hg).2.queued with hq | ⟨hex, -⟩
        · rw [hq] at hp
          cases hp
        · exact absurd hex htr
      | some q =>
        rw [(h.evolves.change hg hr).pending hp]
    intro i r hr hp k q hq hp'
    exact hs i r (hold i r hr hp) hp k q (hold k q hq hp') hp'

/-! ### Every state, whatever the run table was at first -/

/- Ids in flight belong to committed runs that have left PENDING, and a thread outlives its
handler only if the run was canceled. -/
structure Sound (s : Sys) : Prop where
  inFlight : ∀ i, InFlight s i → i < s.db.runs.next ∧
    ∀ r, s.db.runs.get i = some r → r.status ≠ .pending
  cancels : ∀ i ∈ s.cancels, i < s.db.runs.next
  detached : ∀ h ∈ s.detached, h.runId ∈ s.cancels

theorem Trans.sound (h : Trans cfg cronNext s l t) (hs : Sound s) : Sound t where
  inFlight := by
    intro i hi
    rcases h.inFlight hi with hi | ⟨r, hr, hq⟩
    · obtain ⟨hlt, hne⟩ := hs.inFlight i hi
      refine ⟨hlt.trans_le h.evolves.next, ?_⟩
      intro r' hr' hp
      obtain ⟨r, hr, hrow⟩ := h.evolves.back hr' hlt
      have heq := hrow.pending hp
      subst heq
      exact hne r' hr hp
    · refine ⟨Table.lt_next_of_get hr, ?_⟩
      intro q hq' hp
      have hrq : r = q := Option.some.inj (hr.symm.trans hq')
      rw [← hrq, hq] at hp
      cases hp
  cancels := by
    intro i hi
    rcases h.cancels hi with hi | ⟨r, hr, -⟩
    · exact (hs.cancels i hi).trans_le h.evolves.next
    · exact Table.lt_next_of_get hr
  detached := by
    intro d hd
    rcases h.detached hd with hd | ⟨-, hd⟩ | ⟨-, d', hd', now, c, x, js, rfl, -⟩
    · exact h.cancels_mono (hs.detached d hd)
    · exact h.cancels_mono hd
    · exact h.cancels_mono (hs.detached d' hd')

theorem not_inFlight_start (db : Database) (i : RunId) : ¬ InFlight (start db) i := by
  intro hi
  exact hi.elim (P := fun _ => False) (fun _ hk => absurd hk List.not_mem_nil)
    (fun _ hk => by
      rcases hk with ⟨m, hm, -⟩ | ⟨e, he, -⟩ | ⟨d, hd, -⟩
      · exact absurd hm List.not_mem_nil
      · exact absurd he List.not_mem_nil
      · exact absurd hd List.not_mem_nil)
    (fun _ hk => absurd hk List.not_mem_nil) (fun _ hk => absurd hk List.not_mem_nil)

theorem sound_start (db : Database) : Sound (start db) where
  inFlight := fun i hi => absurd hi (not_inFlight_start db i)
  cancels := fun _ hi => absurd hi List.not_mem_nil
  detached := fun _ hd => absurd hd List.not_mem_nil

/-! ### Every reachable state -/

structure WellFormed (s : Sys) : Prop where
  inFlight : ∀ i, InFlight s i → i < s.db.runs.next ∧
    ∀ r, s.db.runs.get i = some r → r.status ≠ .pending
  record : ∀ h, Works s h → ∀ c, h.pc.claimed? = some c → c.runId = h.runId ∧
    ∀ r, s.db.runs.get h.runId = some r → r.jobId = c.jobId
  row : ∀ h, Works s h → ∀ c, h.pc.claimed? = some c → c.jobId < s.db.jobs.next ∧
    ((s.db.jobs.get c.jobId).isSome = true → ∃ r, s.db.runs.get h.runId = some r)
  fails : ∀ h, Works s h → ∀ res, h.pc.fails? = some res → res.status ≠ .succeeded
  read : ∀ h, Works s h → ∀ j p, h.pc.promotion? = some (.read j p) → p < s.db.runs.next ∧
    ∀ r, s.db.runs.get p = some r → r.jobId = j
  cancels : ∀ i ∈ s.cancels, i < s.db.runs.next
  detached : ∀ h ∈ s.detached, h.runId ∈ s.cancels
  pending : PendingOnce s.db

theorem WellFormed.runId_lt (hs : WellFormed s) {h : Handler} (hw : Works s h) :
    h.runId < s.db.runs.next := by
  rcases hw with hw | hw
  · exact (hs.inFlight h.runId (inFlight_of_handler hw).1).1
  · exact (hs.inFlight h.runId (inFlight_of_detached hw)).1

theorem WellFormed.sound (hs : WellFormed s) : Sound s := ⟨hs.inFlight, hs.cancels, hs.detached⟩

theorem WellFormed.runId_of_finish (hs : WellFormed s) {d : Handler} (hw : Works s d)
    {now n : Time} {i : RunId} {res : ExecResult} {error : Option String}
    (hdtx : Runner.tx d now = some (.finishRun i res error n)) : d.runId = i := by
  obtain ⟨-, c, hc, hci⟩ := Runner.tx_finishRun hdtx
  rw [← (hs.record d hw c hc).1, hci]

/- The run that a flush of create_dependency_run takes to the queue. -/
theorem WellFormed.promoteRun_inv (hs : WellFormed s) {p : RunId}
    (htx : l.tx s = some (.promoteRun p)) {r : JobRun} (hr : s.db.runs.get p = some r) :
    ∃ d, Works s d ∧ d.pc.promotion? = some (.read r.jobId p) ∧ r.jobId ∈ d.pc.todo := by
  have hread : ∀ d now, Works s d → Runner.tx d now = some (.promoteRun p) →
      d.pc.promotion? = some (.read r.jobId p) ∧ r.jobId ∈ d.pc.todo := by
    intro d now hw hdtx
    obtain ⟨c, j, js, hpc⟩ := Runner.tx_promoteRun hdtx
    have hx : d.pc.promotion? = some (.read j p) := by rw [hpc]; rfl
    have hj := (hs.read d hw j p hx).2 r hr
    refine ⟨by rw [hx, hj], ?_⟩
    rw [hpc, hj]
    exact List.mem_cons_self ..
  rcases tx_of_worker htx rfl with ⟨d, hd, now, -, hdtx⟩ | ⟨d, hd, k, now, -, hdtx⟩
  · exact ⟨d, Or.inl hd, hread d now (Or.inl hd) hdtx⟩
  · exact ⟨d, Or.inr hd, hread d now (Or.inr hd) hdtx⟩

theorem insertDependencyRun_inv {j : JobId} {n : Time}
    (htx : l.tx s = some (.insertDependencyRun j n)) : ∃ d, Works s d ∧ j ∈ d.pc.todo := by
  have htodo : ∀ d now, Runner.tx d now = some (.insertDependencyRun j n) → j ∈ d.pc.todo := by
    intro d now hdtx
    obtain ⟨c, js, hpc⟩ := Runner.tx_insertDependencyRun hdtx
    rw [hpc]
    exact List.mem_cons_self ..
  rcases tx_of_worker htx rfl with ⟨d, hd, now, -, hdtx⟩ | ⟨d, hd, k, now, -, hdtx⟩
  · exact ⟨d, Or.inl hd, htodo d now hdtx⟩
  · exact ⟨d, Or.inr hd, htodo d now hdtx⟩

theorem tx_ne_createDependencyRun (j : JobId) (n : Time) :
    l.tx s ≠ some (.createDependencyRun j n) := by
  intro htx
  rcases tx_of_worker htx rfl with ⟨d, -, now, -, hdtx⟩ | ⟨d, -, k, now, -, hdtx⟩
  · exact Runner.tx_ne_createDependencyRun d now j n hdtx
  · exact Runner.tx_ne_createDependencyRun d now j n hdtx

theorem Trans.get_deleted_job (h : Trans cfg cronNext s l t) {owner : UserId} {j : JobId}
    (hl : l = .deleteJob owner j) : t.db.jobs.get j = none := by
  cases h with
  | deleteJob _ _ =>
    cases hl
    refine Table.get_eq_none.mpr ?_
    intro k hk hid
    have hne := (Table.mem_rows_deleteWhere.mp hk).2
    simp only [decide_eq_false_iff_not] at hne
    exact hne hid
  | _ => cases hl

theorem Trans.wellFormed (h : Trans cfg cronNext s l t) (hs : WellFormed s) : WellFormed t where
  inFlight := (h.sound hs.sound).inFlight
  record := by
    intro k hk c hc
    rcases h.record hk hc with ⟨k', hk', hrun, hc'⟩ | ⟨hrun, r, hr, hj⟩
    · obtain ⟨hcr, hjob⟩ := hs.record k' hk' c hc'
      refine ⟨hcr.trans hrun, ?_⟩
      intro r' hr'
      have hlt := hs.runId_lt hk'
      rw [hrun] at hlt hjob
      obtain ⟨r, hr, hrow⟩ := h.evolves.back hr' hlt
      exact hrow.jobId.trans (hjob r hr)
    · refine ⟨hrun, ?_⟩
      intro r' hr'
      have hrr : r = r' := Option.some.inj (hr.symm.trans hr')
      rw [← hrr, hj]
  row := by
    intro k hk c hc
    rcases h.record hk hc with ⟨k', hk', hrun, hc'⟩ | ⟨hrun, r, hr, hj⟩
    · obtain ⟨hlt, hrow⟩ := hs.row k' hk' c hc'
      refine ⟨hlt.trans_le h.evolves.jobs.next, ?_⟩
      intro hjob
      rcases h.evolves.jobs.old c.jobId hjob with hold | hle
      · obtain ⟨r, hr⟩ := hrow hold
        rw [← hrun]
        rcases h.evolves.row k'.runId r hr with ⟨r', hr', -⟩ | ⟨⟨owner, hl⟩, -⟩
        · exact ⟨r', hr'⟩
        · exfalso
          rw [(hs.record k' hk' c hc').2 r hr] at hl
          rw [h.get_deleted_job hl] at hjob
          cases hjob
      · exact absurd hlt (Nat.not_lt.mpr hle)
    · obtain ⟨j, hj', hid⟩ := t.db.run_fk r (Table.mem_of_get hr)
      have hget : t.db.jobs.get c.jobId = some j :=
        Table.get_eq_some.mpr ⟨hj', hid.trans hj⟩
      exact ⟨Table.lt_next_of_get hget, fun _ => ⟨r, hr⟩⟩
  fails := by
    intro k hk res hres
    rcases h.fails hk hres with ⟨k', hk', hres'⟩ | hne
    · exact hs.fails k' hk' res hres'
    · exact hne
  read := by
    intro k hk j p hx
    rcases h.read hk hx with ⟨k', hk', hx'⟩ | ⟨r, hr, hj, -⟩
    · obtain ⟨hlt, hjob⟩ := hs.read k' hk' j p hx'
      refine ⟨hlt.trans_le h.evolves.next, ?_⟩
      intro r' hr'
      obtain ⟨r, hr, hrow⟩ := h.evolves.back hr' hlt
      exact hrow.jobId.trans (hjob r hr)
    · refine ⟨(Table.lt_next_of_get hr).trans_le h.evolves.next, ?_⟩
      intro r' hr'
      exact (h.evolves.change hr hr').jobId.trans hj
  cancels := (h.sound hs.sound).cancels
  detached := (h.sound hs.sound).detached
  pending := h.pendingOnce hs.pending

theorem not_works_start (db : Database) (h : Handler) : ¬ Works (start db) h := by
  intro hw
  rcases hw with hw | hw
  · exact absurd hw List.not_mem_nil
  · exact absurd hw List.not_mem_nil

theorem get_start {db : Database} (hdb : db.runs.rows = []) (i : RunId) :
    (start db).db.runs.get i = none := by
  rw [Table.get_eq_none, show (start db).db.runs.rows = [] from hdb]
  exact fun _ hr => absurd hr List.not_mem_nil

theorem wellFormed_start {db : Database} (hdb : db.runs.rows = []) : WellFormed (start db) := by
  refine ⟨(sound_start db).inFlight, fun k hk => absurd hk (not_works_start db k),
    fun k hk => absurd hk (not_works_start db k), fun k hk => absurd hk (not_works_start db k),
    fun k hk => absurd hk (not_works_start db k), (sound_start db).cancels, (sound_start db).detached, ?_⟩
  intro i r hr
  rw [get_start hdb] at hr
  cases hr

theorem run_wellFormed {ls : List Label} (hs : WellFormed s)
    (h : Machine.run (step cfg cronNext) s ls = some t) : WellFormed t := by
  refine Machine.run_invariant ?_ hs (Machine.along_true s ls) h
  intro s l t hs _ ht
  exact (trans_of_step ht).wellFormed hs

/-! ### Every run whose flushes find their runs active -/

/- A committed cancellation stands. -/
structure Settled (s : Sys) : Prop extends WellFormed s where
  canceled : ∀ i ∈ s.cancels, ∀ r, s.db.runs.get i = some r → r.status = .canceled

theorem Settled.canceled_of_detached (hs : Settled s) {d : Handler} (hd : d ∈ s.detached)
    {r : JobRun} (hr : s.db.runs.get d.runId = some r) : r.status = .canceled :=
  hs.canceled d.runId (hs.detached d hd) r hr

/- A claim that hits its row is the call of a live handler. -/
theorem Settled.claim_inv (hs : Settled s) {i : RunId} {w : WorkerId} {allow : Bool}
    {n : Time} (htx : l.tx s = some (.claimRun i w allow n)) {r : JobRun}
    (hr : s.db.runs.get i = some r) (hg : Store.claimable allow r.status = true) :
    ∃ d ∈ s.handlers.rows, d.runId = i ∧ d.pc = .claiming ∧ d.allowRunning = allow ∧
      ∃ now, l = .advance d.id now := by
  rcases tx_of_worker htx rfl with ⟨d, hd, now, hl, hdtx⟩ | ⟨d, hd, k, now, -, hdtx⟩
  · obtain ⟨hpc, hrun, hallow⟩ := Runner.tx_claimRun hdtx
    exact ⟨d, hd, hrun, hpc, hallow, now, hl⟩
  · obtain ⟨-, hrun, -⟩ := Runner.tx_claimRun hdtx
    have hcan := hs.canceled_of_detached hd (by rw [hrun]; exact hr)
    have hterm := RunTx.claimable_not_terminal hg
    rw [hcan] at hterm
    cases hterm

/- The threads of canceled handlers find their runs canceled, so a run is finished by the
call of a live handler. -/
theorem Settled.finish_inv (hs : Settled s) {i : RunId} {res : ExecResult}
    {error : Option String} {n : Time} (htx : l.tx s = some (.finishRun i res error n))
    {r : JobRun} (hr : s.db.runs.get i = some r) (hne : r.status ≠ .canceled) :
    ∃ d ∈ s.handlers.rows, d.runId = i ∧ ∃ now, l = .advance d.id now ∧
      Runner.tx d now = some (.finishRun i res error n) := by
  rcases tx_of_worker htx rfl with ⟨d, hd, now, hl, hdtx⟩ | ⟨d, hd, k, now, -, hdtx⟩
  · exact ⟨d, hd, hs.runId_of_finish (Or.inl hd) hdtx, now, hl, hdtx⟩
  · refine absurd (hs.canceled_of_detached hd ?_) hne
    rw [hs.runId_of_finish (Or.inr hd) hdtx]
    exact hr

theorem Trans.settled (h : Trans cfg cronNext s l t) (hs : Settled s)
    (hp : FlushFinds RunStatus.active s l) : Settled t where
  toWellFormed := h.wellFormed hs.toWellFormed
  canceled := by
    intro i hi r' hr'
    rcases h.cancels hi with hi | ⟨r, hr, hc⟩
    · obtain ⟨r, hr, hrow⟩ := h.evolves.back hr' (hs.cancels i hi)
      have hcan := hs.canceled i hi r hr
      have hid : r.id = i := Table.key_of_get hr
      rw [hrow.canceled hp rfl (hid ▸ hr) hcan]
      exact hcan
    · rw [← Option.some.inj (hr.symm.trans hr'), hc]

theorem settled_start {db : Database} (hdb : db.runs.rows = []) : Settled (start db) where
  toWellFormed := wellFormed_start hdb
  canceled := fun _ hi => absurd hi List.not_mem_nil

theorem run_settled {ls : List Label} (hs : Settled s)
    (hp : Machine.Along (step cfg cronNext) (FlushFinds RunStatus.active) s ls)
    (h : Machine.run (step cfg cronNext) s ls = some t) : Settled t := by
  refine Machine.run_invariant ?_ hs hp h
  intro s l t hs hp ht
  exact (trans_of_step ht).settled hs hp

end Sys
end JobScheduler
