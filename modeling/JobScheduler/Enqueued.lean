import JobScheduler.Backoff
import JobScheduler.Drain
import JobScheduler.Duplicates

/-!
# No queued run is forgotten

A run becomes QUEUED in the tables first and is put on the queue afterwards, by the process
that has committed it. What can go wrong is confined to a few steps: the process stops in
between, or a handler that has not claimed its run yet raises or is canceled and acknowledges the
message all the same. Without these steps every QUEUED run is with somebody who will enqueue it,
or on the queue.
-/

namespace JobScheduler
open Library Database

namespace Pc

/- Past claim_run. -/
def begun : Pc → Bool
  | waiting | claiming => false
  | _ => true

theorem isClaiming_of_not_begun {pc : Pc} (hw : pc.working = true) (hb : pc.begun = false) :
    pc.isClaiming = true := by
  cases pc with
  | waiting => cases hw
  | claiming => rfl
  | _ => cases hb

/- The next statement adds a run, or promotes one. -/
def creates : Pc → Bool
  | successCreate _ (.read _ _) _ | successCreate _ (.absent _) _ | failureRetry _ _ => true
  | _ => false

end Pc

/-! ### The queue -/

namespace Redis

variable {q : Redis} {i k : RunId}

/- A worker can still be given run i: it is in the backlog, pending, or delayed. -/
def Has (q : Redis) (i : RunId) : Prop :=
  (∃ m ∈ q.stream.rows, q.cursor ≤ m.id ∧ m.runId = i) ∨ (∃ e ∈ q.pending, e.runId = i) ∨
    ∃ d ∈ q.delayed, d.runId = i

/- In the backlog, or delayed: nobody has been given run i yet. -/
def Due (q : Redis) (i : RunId) : Prop :=
  (∃ m ∈ q.stream.rows, q.cursor ≤ m.id ∧ m.runId = i) ∨ ∃ d ∈ q.delayed, d.runId = i

theorem Due.has (h : q.Due i) : q.Has i := by
  rcases h with h | h
  · exact Or.inl h
  · exact Or.inr (Or.inr h)

theorem due_enqueueRun (hle : q.cursor ≤ q.stream.next) (h : q.Due i ∨ i = k) :
    (q.enqueueRun k).Due i := by
  rcases h with (⟨m, hm, hle', hi⟩ | h) | rfl
  · exact Or.inl ⟨m, Table.mem_rows_insert.mpr (Or.inl hm), hle', hi⟩
  · exact Or.inr h
  · exact Or.inl ⟨_, Table.mem_rows_insert.mpr (Or.inr rfl), hle, rfl⟩

theorem due_foldl_enqueueRun (ks : List RunId) (hle : q.cursor ≤ q.stream.next)
    (h : q.Due i ∨ i ∈ ks) : (ks.foldl enqueueRun q).Due i := by
  induction ks generalizing q with
  | nil =>
    rcases h with h | h
    · exact h
    · cases h
  | cons k ks ih =>
    refine ih (q := q.enqueueRun k) (hle.trans (Nat.le_succ _)) ?_
    rcases h with h | h
    · exact Or.inl (due_enqueueRun hle (Or.inl h))
    · rcases List.mem_cons.mp h with h | h
      · exact Or.inl (due_enqueueRun hle (Or.inr h))
      · exact Or.inr h

theorem due_scheduleDelayed (readyAt : Time) (h : q.Due i ∨ i = k) :
    (q.scheduleDelayed k readyAt).Due i := by
  have hmem : ∀ d, d ∈ (q.scheduleDelayed k readyAt).delayed ↔
      d = ⟨k, readyAt⟩ ∨ d ∈ q.delayed ∧ d.runId ≠ k := by
    intro d
    simp only [scheduleDelayed, List.mem_orderedInsert, List.mem_filter, decide_eq_true_eq]
  rcases h with (h | ⟨d, hd, hi⟩) | rfl
  · exact Or.inl h
  · by_cases hk : i = k
    · exact Or.inr ⟨_, (hmem _).mpr (Or.inl rfl), hk.symm⟩
    · exact Or.inr ⟨d, (hmem d).mpr (Or.inr ⟨hd, hi ▸ hk⟩), hi⟩
  · exact Or.inr ⟨_, (hmem _).mpr (Or.inl rfl), rfl⟩

/- Promotion moves what is due to the stream and leaves the rest. -/
theorem due_promoteDueDelayed (now : Time) (hle : q.cursor ≤ q.stream.next) (h : q.Due i) :
    (q.promoteDueDelayed now).1.Due i := by
  rw [promoteDueDelayed_eq]
  refine due_foldl_enqueueRun _ hle ?_
  rcases h with h | ⟨d, hd, hi⟩
  · exact Or.inl (Or.inl h)
  · by_cases hdue : d.readyAt ≤ now
    · exact Or.inr (List.mem_map.mpr ⟨d, List.mem_filter.mpr ⟨hd, decide_eq_true hdue⟩, hi⟩)
    · exact Or.inl (Or.inr ⟨d, List.mem_filter.mpr ⟨hd, by simpa using hdue⟩, hi⟩)

/- The message that is delivered is pending from now on; the backlog begins behind it. -/
theorem due_xreadgroup (w : WorkerId) {m : Message} (hm : q.nextMessage = some m) (h : q.Due i) :
    (q.xreadgroup w m).Due i ∨ m.runId = i := by
  rcases h with ⟨m', hm', hle, hi⟩ | h
  · have hge : m.id ≤ m'.id := Table.key_le_of_find? hm hm' (by simpa using hle)
    by_cases heq : m'.id = m.id
    · have hsame : m' = m := q.stream.eq_of_key_eq hm' (nextMessage_mem hm) heq
      rw [hsame] at hi
      exact Or.inr hi
    · exact Or.inl (Or.inl ⟨m', hm', Nat.lt_of_le_of_ne hge (Ne.symm heq), hi⟩)
  · exact Or.inl (Or.inr h)

/- A message that was delivered is not in the backlog. -/
theorem due_xdel {m : ℕ} (hm : m < q.cursor) (h : q.Due i) : (q.xdel m).Due i := by
  rcases h with ⟨a, ha, hle, hi⟩ | h
  · refine Or.inl ⟨a, Table.mem_rows_deleteWhere.mpr ⟨ha, ?_⟩, hle, hi⟩
    exact decide_eq_false fun heq => Nat.not_le.mpr hm (heq ▸ hle)
  · exact Or.inr h

end Redis

/-! ### Who queues a run -/

namespace Store

/- The updates of claim_run, cancel_run and finish_run leave no run QUEUED that was not. -/
theorem queued_of_updateRun {db : Database} {i k : RunId} {g : RunStatus → Bool}
    {f : JobRun → JobRun} (hf : KeepsRun f) (hne : ∀ r, (f r).status ≠ .queued) {r : JobRun}
    (hr : (updateRun db i g f hf).runs.get k = some r) (hq : r.status = .queued) :
    db.runs.get k = some r := by
  rw [get_updateRun] at hr
  by_cases hk : k = i
  · rw [if_pos hk] at hr
    obtain ⟨q, hget, heq⟩ := Option.map_eq_some_iff.mp hr
    by_cases hg : g q.status = true
    · rw [if_pos hg] at heq
      rw [← heq] at hq
      exact absurd hq (hne q)
    · rw [if_neg hg] at heq
      rw [← heq]
      exact hget
  · rw [if_neg hk] at hr
    exact hr

theorem queued_of_addRun {db : Database} {n : NewRun} (ha : db.Admits n) {i : RunId} {r : JobRun}
    (hr : (db.addRun n ha).runs.get i = some r) : db.runs.get i = some r ∨ i = db.runs.next := by
  rw [get_addRun] at hr
  by_cases hi : i = db.runs.next
  · exact Or.inr hi
  · rw [if_neg hi] at hr
    exact Or.inl hr

theorem queued_of_promoteRun {db : Database} {i p : RunId} {r : JobRun}
    (hr : (promoteRun db p).runs.get i = some r) : db.runs.get i = some r ∨ i = p := by
  rw [promoteRun, get_updateRun] at hr
  by_cases hi : i = p
  · exact Or.inr hi
  · rw [if_neg hi] at hr
    exact Or.inl hr

end Store

namespace Runner

variable {cfg : Settings} {db db' : Database} {now : Time} {h : Handler} {pc pc' : Pc}
  {out : Option Send} {i : RunId}

theorem queued_of_finishRun {k : RunId} {status : RunStatus} {exitCode : Option ℤ}
    {result : Option Json} {error : Option String} (hterm : status.terminal = true) {r : JobRun}
    (hr : (Store.finishRun db k status exitCode result error now).runs.get i = some r)
    (hq : r.status = .queued) : db.runs.get i = some r := by
  refine Store.queued_of_updateRun _ (fun q hfq => ?_) hr hq
  rw [show status = .queued from hfq] at hterm
  cases hterm

/- A statement that leaves a run QUEUED has found it so, or the handler has it to send
afterwards. -/
theorem Advance.queued (hadv : Advance cfg db now h .statement pc db' pc' out) {r : JobRun}
    (hr : db'.runs.get i = some r) (hq : r.status = .queued) :
    db.runs.get i = some r ∨ pc'.unsent? = some i := by
  cases hadv with
  | claimed r job hrow hg hjob =>
    exact Or.inl (Store.queued_of_updateRun _ (fun q hfq => by cases hfq) hr hq)
  | succeeded c res => exact Or.inl (queued_of_finishRun (show RunStatus.succeeded.terminal = true from rfl) hr hq)
  | failed c res error => exact Or.inl (queued_of_finishRun res.status.runStatus_terminal hr hq)
  | dependencyPromoted c j p js q hp =>
    rcases Store.queued_of_promoteRun hr with hr | rfl
    · exact Or.inl hr
    · exact Or.inr rfl
  | dependencyInserted _ _ _ db' k hins | retryCreated _ _ db' k hins =>
    obtain ⟨rfl, ha, rfl⟩ := insertRun_eq_some hins
    rcases Store.queued_of_addRun ha hr with hr | rfl
    · exact Or.inl hr
    · exact Or.inr rfl
  | _ => exact Or.inl hr

/- The run a handler has to send is sent by its next call. -/
theorem Advance.sent (hadv : Advance cfg db now h .statement pc db' pc' out) (hi : pc.unsent? = some i) :
    out = some (.enqueue i) ∨ ∃ readyAt, out = some (.delay i readyAt) := by
  cases hadv with
  | enqueued c k js =>
    cases hi
    exact Or.inl rfl
  | delayed c res k =>
    cases hi
    exact Or.inr ⟨_, rfl⟩
  | _ => cases hi

/- Apart from the creating statements no transaction of a handler leaves a run QUEUED that was not. -/
theorem queued_of_tx {cronNext : Cron.CronNext} {tx' : RunTx} (htx : tx h now = some tx')
    (hno : h.pc.creates = false) {r : JobRun} (hr : (tx'.exec cronNext db).runs.get i = some r)
    (hq : r.status = .queued) : db.runs.get i = some r := by
  unfold tx at htx
  split at htx
  · cases htx
    rw [RunTx.exec] at hr
    rcases Store.claimRun_cases db h.runId h.worker h.allowRunning now with
      ⟨heq, -⟩ | ⟨q, job, -, -, -, heq⟩
    · rw [heq] at hr
      exact hr
    · rw [heq] at hr
      exact Store.queued_of_updateRun (Store.claimedRow_keeps h.worker now)
        (fun q hfq => by cases hfq) hr hq
  · cases htx
    exact queued_of_finishRun (show RunStatus.succeeded.terminal = true from rfl) hr hq
  · rename_i c x js hpc
    rw [hpc] at hno
    cases x with
    | checked j => cases htx
    | read j p => cases hno
    | absent j => cases hno
  · rename_i hpc
    rw [hpc] at hno
    cases hno
  · rename_i c res error hpc
    cases htx
    exact queued_of_finishRun res.status.runStatus_terminal hr hq
  · cases htx

/- After a claim that was refused or granted the run is not QUEUED. -/
theorem Advance.not_queued (hadv : Advance cfg db now h .statement .claiming db' pc' out) {r : JobRun}
    (hr : db'.runs.get h.runId = some r) : r.status ≠ .queued := by
  intro hq
  cases hadv with
  | refused hno =>
    have hg := hno r hr
    rw [hq] at hg
    cases hallow : h.allowRunning <;> rw [hallow] at hg <;> cases hg
  | claimed q job hrow hg hjob =>
    rw [Store.get_updateRun, if_pos rfl, hrow, Option.map_some, if_pos hg] at hr
    cases hr
    cases hq

end Runner

namespace Sys

/- The runs whose way to the queue ends with a handler that stops here. -/
def droppedBy (h : Handler) : List RunId :=
  h.pc.unsent?.toList ++ if h.pc.isClaiming then [h.runId] else []

def isQueued (s : Sys) (i : RunId) : Bool :=
  (s.db.runs.get i).any fun r => decide (r.status = .queued)

/- The step throws away no enqueue of a run that is still QUEUED, and no canceled handler's
thread creates a run behind its back. -/
def KeepsEnqueues (s : Sys) : Label → Prop
  | .drop i => s.isQueued i = false
  | .fail i | .cancelTask i =>
    (s.handlers.get i).all (fun h => (droppedBy h).all fun k => !s.isQueued k) = true
  | .crash w => (s.handlers.rows.all fun h => !decide (h.worker = w) ||
      h.pc.unsent?.all fun k => !s.isQueued k) = true
  | .commitThread k _ => s.detached[k]?.all (fun h => !h.pc.creates) = true
  | _ => True

variable {cfg : Settings} {cronNext : Cron.CronNext} {s t : Sys} {l : Label} {i : RunId}

theorem isQueued_iff : s.isQueued i = true ↔ ∃ r, s.db.runs.get i = some r ∧ r.status = .queued := by
  unfold isQueued
  rw [Option.any_eq_true]
  simp only [decide_eq_true_eq]

theorem isQueued_eq_false : s.isQueued i = false ↔
    ∀ r, s.db.runs.get i = some r → r.status ≠ .queued := by
  rw [← Bool.not_eq_true, isQueued_iff]
  push Not
  rfl

/-! ### Messages that nobody has begun -/

/- The handlers of the message have not got past claim_run. -/
def Untouched (s : Sys) (m : ℕ) : Prop :=
  ∀ h ∈ s.handlers.rows, h.messageId = m → h.pc.begun = false

/- As Findable, but a pending message counts only while it is untouched: it stays in the pending
list then, because a handler acknowledges after the claim. -/
def Awaited (s : Sys) (i : RunId) : Prop :=
  i ∈ s.outbox ∨ s.redis.Due i ∨
    (∃ e ∈ s.redis.pending, e.runId = i ∧ Untouched s e.messageId) ∨
    ∃ h ∈ s.handlers.rows, h.pc.unsent? = some i

/- Every handler works on a message that has been delivered. -/
structure Given (s : Sys) : Prop where
  placed : Drain.Placed s
  delivered : ∀ h ∈ s.handlers.rows, h.messageId < s.redis.cursor

theorem Trans.given (h : Trans cfg cronNext s l t) (hs : Given s) : Given t where
  placed := Drain.placed_of_trans h hs.placed
  delivered := by
    have hle : s.redis.cursor ≤ t.redis.cursor := Drain.cursor_le_of_trans h
    intro k hk
    rcases h.handler hk with ⟨hk, -⟩ | ⟨-, -, e, he, hm, -⟩ | ⟨d, hd, pc, rfl, -⟩
    · exact (hs.delivered k hk).trans_le hle
    · rw [← hm]
      exact (Drain.placed_of_trans h hs.placed).delivered e he
    · exact (hs.delivered d hd).trans_le hle

theorem Awaited.imp (h : Awaited s i) (hout : i ∈ s.outbox → i ∈ t.outbox)
    (hdue : s.redis.Due i → t.redis.Due i)
    (hpend : ∀ e ∈ s.redis.pending, e.runId = i → Untouched s e.messageId → Awaited t i)
    (hhand : ∀ h ∈ s.handlers.rows, h.pc.unsent? = some i → Awaited t i) : Awaited t i := by
  rcases h with h | h | ⟨e, he, hi, hno⟩ | ⟨k, hk, hi⟩
  · exact Or.inl (hout h)
  · exact Or.inr (Or.inl (hdue h))
  · exact hpend e he hi hno
  · exact hhand k hk hi

/- A step that leaves the pending list and all handlers as they are. -/
theorem Awaited.of_eq (h : Awaited s i) (hout : i ∈ s.outbox → i ∈ t.outbox)
    (hdue : s.redis.Due i → t.redis.Due i) (hpending : t.redis.pending = s.redis.pending)
    (hhandlers : t.handlers = s.handlers) : Awaited t i := by
  refine h.imp hout hdue (fun e he hi hno => ?_) fun k hk hi => ?_
  · refine Or.inr (Or.inr (Or.inl ⟨e, by rw [hpending]; exact he, hi, ?_⟩))
    unfold Untouched
    rw [hhandlers]
    exact hno
  · exact Or.inr (Or.inr (Or.inr ⟨k, by rw [hhandlers]; exact hk, hi⟩))

/- One handler moves. It begins no message of run i, and has nothing to send or sends it. -/
theorem Awaited.goto {h : Handler} {pc : Pc} (ha : Awaited s i)
    (hget : s.handlers.get h.id = some h) (ht : t.handlers = (s.goto h.id pc).handlers)
    (hout : i ∈ s.outbox → i ∈ t.outbox) (hdue : s.redis.Due i → t.redis.Due i)
    (hpending : t.redis.pending = s.redis.pending)
    (hbegins : (∃ e ∈ s.redis.pending, e.runId = i ∧ e.messageId = h.messageId) →
      h.pc.begun = false → pc.begun = false)
    (hsent : h.pc.unsent? = some i → Awaited t i) : Awaited t i := by
  refine ha.imp hout hdue (fun e he hi hno => ?_) fun k hk hi => ?_
  · refine Or.inr (Or.inr (Or.inl ⟨e, by rw [hpending]; exact he, hi, ?_⟩))
    intro k hk hm
    rw [ht] at hk
    rcases (mem_goto hget).mp hk with rfl | ⟨hk, -⟩
    · exact hbegins ⟨e, he, hi, hm.symm⟩ (hno h (Table.mem_of_get hget) hm)
    · exact hno k hk hm
  · by_cases hid : k.id = h.id
    · have hkh : k = h := s.handlers.eq_of_key_eq hk (Table.mem_of_get hget) hid
      exact hsent (hkh ▸ hi)
    · refine Or.inr (Or.inr (Or.inr ⟨k, ?_, hi⟩))
      rw [ht]
      exact (mem_goto hget).mpr (Or.inr ⟨hk, hid⟩)

theorem Awaited.sublist (ha : Awaited s i) (hout : i ∈ s.outbox → i ∈ t.outbox)
    (hdue : s.redis.Due i → t.redis.Due i) (hpending : t.redis.pending = s.redis.pending)
    (hsub : ∀ k ∈ t.handlers.rows, k ∈ s.handlers.rows)
    (hsent : ∀ k ∈ s.handlers.rows, k.pc.unsent? = some i → k ∈ t.handlers.rows) :
    Awaited t i := by
  refine ha.imp hout hdue (fun e he hi hno => ?_) fun k hk hi =>
    Or.inr (Or.inr (Or.inr ⟨k, hsent k hk hi, hi⟩))
  exact Or.inr (Or.inr (Or.inl ⟨e, by rw [hpending]; exact he, hi,
    fun k hk hm => hno k (hsub k hk) hm⟩))

theorem Awaited.spawn {w : WorkerId} {m : ℕ} {r : RunId} {allow : Bool} (ha : Awaited s i)
    (ht : t.handlers = (s.spawn w m r allow).handlers) (hout : i ∈ s.outbox → i ∈ t.outbox)
    (hdue : s.redis.Due i → Awaited t i)
    (hpend : ∀ e ∈ s.redis.pending, ∃ e' ∈ t.redis.pending,
      e'.messageId = e.messageId ∧ e'.runId = e.runId) : Awaited t i := by
  have hnew : ∀ k ∈ t.handlers.rows, k ∈ s.handlers.rows ∨ k.pc.begun = false := by
    intro k hk
    rw [ht] at hk
    rcases mem_spawn.mp hk with hk | rfl
    · exact Or.inl hk
    · exact Or.inr rfl
  rcases ha with h | h | ⟨e, he, hi, hno⟩ | ⟨k, hk, hi⟩
  · exact Or.inl (hout h)
  · exact hdue h
  · obtain ⟨e', he', hm, hr⟩ := hpend e he
    refine Or.inr (Or.inr (Or.inl ⟨e', he', hr.trans hi, fun k hk hkm => ?_⟩))
    rcases hnew k hk with hk | hk
    · exact hno k hk (hkm.trans hm)
    · exact hk
  · refine Or.inr (Or.inr (Or.inr ⟨k, ?_, hi⟩))
    rw [ht]
    exact mem_spawn.mpr (Or.inl hk)

/-! ### Steps of one kind -/

/- A trigger publishes the runs it has created QUEUED. -/
theorem awaited_trigger {owner : UserId} {job : JobId} {now : Time} {st : Api.Prepared} {p : RunId}
    (hok : Api.triggerJob s.db owner job now = .ok (st, p)) {r : JobRun}
    (hr : st.1.runs.get i = some r) (hq : r.status = .queued)
    (hold : s.db.runs.get i = some r → Awaited s i) :
    Awaited { s with db := st.1, outbox := s.outbox ++ st.2 } i := by
  obtain ⟨-, -, -, hkeep, -, -, new, hpub, -, hnew⟩ := Api.triggerJob_orders hok
  cases hg : s.db.runs.get i with
  | none =>
    refine Or.inl (List.mem_append_right _ ?_)
    rw [hpub]
    exact List.mem_append_right _ ((hnew i).mpr ⟨r, ⟨hg, hr⟩, hq⟩)
  | some q =>
    have hsame : q = r := Option.some.inj ((hkeep i q hg).symm.trans hr)
    rw [hsame] at hg
    exact (hold hg).of_eq (List.mem_append_left _) id rfl rfl

theorem awaited_tick {now : Time} {db' : Database} {ids old : List RunId}
    (hok : Scheduler.scheduleDueJobs cronNext s.db now = .ok (db', ids)) {r : JobRun}
    (hr : db'.runs.get i = some r) (hold : s.db.runs.get i = some r → Awaited s i) :
    Awaited { s with db := db', outbox := s.outbox ++ ids ++ old } i := by
  have hids := (Scheduler.scheduleDueJobs_collected hok).ids i
  have hext := (Scheduler.scheduleDueJobs_scheduled hok).ext
  cases hg : s.db.runs.get i with
  | none =>
    refine Or.inl (List.mem_append_left _ (List.mem_append_right _ (hids.mpr ⟨?_, ?_⟩)))
    · exact (hext.new i r hr hg).1
    · exact Option.isSome_iff_exists.mpr ⟨r, hr⟩
  | some q =>
    have hsame : q = r := Option.some.inj ((hext.old i q hg).symm.trans hr)
    rw [hsame] at hg
    refine (hold hg).of_eq (fun ho => ?_) id rfl rfl
    exact List.mem_append_left _ (List.mem_append_left _ ho)

/- The message that is delivered is pending, and nobody has begun it: the handlers that are there
have older messages. -/
theorem awaited_deliver (hs : Given s) (w : WorkerId) {m : Message} (p : Phase)
    (hnext : s.redis.nextMessage = some m) (ha : Awaited s i) :
    Awaited (({ s with redis := s.redis.xreadgroup w m }.spawn w m.id m.runId false).setPhase w p)
      i := by
  refine ha.spawn rfl id (fun hdue => ?_) fun e he => ⟨e, List.mem_append_left _ he, rfl, rfl⟩
  rcases Redis.due_xreadgroup w hnext hdue with hdue | hi
  · exact Or.inr (Or.inl hdue)
  · refine Or.inr (Or.inr (Or.inl ⟨⟨m.id, m.runId, w, s.redis.clock⟩,
      List.mem_append_right _ (List.mem_singleton_self _), hi, fun k hk hm => ?_⟩))
    rcases mem_spawn.mp hk with hk | rfl
    · have hlt := hs.delivered k hk
      rw [hm] at hlt
      have hle : s.redis.cursor ≤ m.id := by simpa using List.find?_some hnext
      exact absurd hlt (Nat.not_lt.mpr hle)
    · rfl

/- A handler begins its message by the claim, after which its run is not QUEUED; what it has to
send it sends. -/
theorem awaited_advance (hs : Given s) {d : Handler} {now : Time} {db' : Database} {pc : Pc}
    {out : Option Send} (hget : s.handlers.get d.id = some d)
    (hadv : Runner.Advance cfg s.db now d .statement d.pc db' pc out) {r : JobRun}
    (hr : db'.runs.get i = some r) (hq : r.status = .queued)
    (hold : s.db.runs.get i = some r → Awaited s i) :
    Awaited (({ s with db := db' }.send out).resume d pc) i := by
  have hhandlers := handlers_advance s pc d out db'
  have hle := hs.placed.cursor
  rcases hadv.queued hr hq with hr' | hnew
  · refine (hold hr').goto hget hhandlers (fun ho => by simpa using ho) (fun hdue => ?_) ?_ ?_ ?_
    · rw [redis_resume]
      rcases out with _ | k | ⟨k, readyAt⟩
      · exact hdue
      · exact Redis.due_enqueueRun hle (Or.inl hdue)
      · exact Redis.due_scheduleDelayed readyAt (Or.inl hdue)
    · rw [redis_resume]
      rcases out with _ | k | ⟨k, readyAt⟩ <;> rfl
    · rintro ⟨e, he, hi, hm⟩ hb
      have hrun : d.runId = i := (hs.placed.messages.once d.messageId d.runId i
        (Or.inr (Or.inr ⟨d, Table.mem_of_get hget, rfl, rfl⟩)) (Or.inr (Or.inl ⟨e, he, hm, hi⟩)))
      subst hrun
      cases hpc : d.pc with
      | waiting =>
        rw [hpc] at hadv
        cases hadv
      | claiming =>
        rw [hpc] at hadv
        exact absurd hq (hadv.not_queued hr)
      | _ =>
        rw [hpc] at hb
        cases hb
    · intro hsent
      refine Or.inr (Or.inl ?_)
      rw [redis_resume]
      rcases hadv.sent hsent with rfl | ⟨readyAt, rfl⟩
      · exact Redis.due_enqueueRun hle (Or.inr rfl)
      · exact Redis.due_scheduleDelayed readyAt (Or.inr rfl)
  · refine Or.inr (Or.inr (Or.inr ⟨setPc pc d, ?_, hnew⟩))
    rw [hhandlers]
    exact (mem_goto hget).mpr (Or.inl rfl)

/- A handler that raises or is canceled drops nothing that is QUEUED. -/
theorem awaited_leave (hs : Given s) {u : Sys} {d : Handler}
    (hget : s.handlers.get d.id = some d) (hw : d.pc.working = true)
    (hc : (s.handlers.get d.id).all (fun h => (droppedBy h).all fun k => !s.isQueued k) = true)
    (hu : u.handlers = s.handlers) (hredis : u.redis = s.redis) (hout : u.outbox = s.outbox)
    (hq : s.isQueued i = true) (ha : Awaited s i) : Awaited (u.leave d) i := by
  have hdrop : ∀ k ∈ droppedBy d, s.isQueued k = false := by
    intro k hk
    rw [hget, Option.all_some, List.all_eq_true] at hc
    simpa using hc k hk
  have hhandlers : (u.leave d).handlers = (s.goto d.id .acking).handlers := by
    rw [handlers_leave, goto, goto, hu]
  refine ha.goto hget hhandlers (fun ho => ?_) (fun hdue => ?_) ?_ ?_ ?_
  · rw [outbox_leave, hout]
    exact ho
  · rw [redis_leave, hredis]
    exact hdue
  · rw [redis_leave, hredis]
  · rintro ⟨e, he, hi, hm⟩ hb
    have hrun : d.runId = i := (hs.placed.messages.once d.messageId d.runId i
      (Or.inr (Or.inr ⟨d, Table.mem_of_get hget, rfl, rfl⟩)) (Or.inr (Or.inl ⟨e, he, hm, hi⟩)))
    have hno := hdrop d.runId (by
      rw [droppedBy, if_pos (Pc.isClaiming_of_not_begun hw hb)]
      exact List.mem_append_right _ (List.mem_singleton_self _))
    rw [hrun, hq] at hno
    cases hno
  · intro hsent
    have hno := hdrop i (by
      rw [droppedBy, hsent]
      exact List.mem_append_left _ (List.mem_singleton_self _))
    rw [hq] at hno
    cases hno

/- The message that keeps run i awaited is not the one that is acknowledged. -/
theorem awaited_ack {d : Handler} (hget : s.handlers.get d.id = some d) (hpc : d.pc = .acking)
    (ha : Awaited s i) :
    Awaited ({ s with redis := s.redis.xack d.messageId }.goto d.id .deleting) i := by
  refine ha.imp id id (fun e he hi hno => ?_) fun k hk hi => ?_
  · have hne : e.messageId ≠ d.messageId := by
      intro hm
      have hb := hno d (Table.mem_of_get hget) hm.symm
      rw [hpc] at hb
      cases hb
    refine Or.inr (Or.inr (Or.inl ⟨e, Redis.mem_pending_xack.mpr ⟨he, hne⟩, hi, fun k hk hm => ?_⟩))
    rcases (mem_goto (s := { s with redis := s.redis.xack d.messageId }) hget).mp hk with
      rfl | ⟨hk, -⟩
    · exact absurd hm.symm hne
    · exact hno k hk hm
  · refine Or.inr (Or.inr (Or.inr ⟨k, (mem_goto hget).mpr (Or.inr ⟨hk, fun heq => ?_⟩), hi⟩))
    rw [s.handlers.eq_of_key_eq hk (Table.mem_of_get hget) heq, hpc] at hi
    cases hi

theorem mem_remove_of_unsent {d k : Handler} (hget : s.handlers.get d.id = some d)
    (hno : d.pc.unsent? = none) (hk : k ∈ s.handlers.rows) (hi : k.pc.unsent? = some i) :
    k ∈ (s.remove d.id).handlers.rows := by
  refine mem_remove.mpr ⟨hk, fun heq => ?_⟩
  rw [s.handlers.eq_of_key_eq hk (Table.mem_of_get hget) heq, hno] at hi
  cases hi

/-! ### Every step -/

theorem Trans.awaited (h : Trans cfg cronNext s l t) (hs : Given s) (hc : KeepsEnqueues s l)
    (hf : s.isQueued i = true → Awaited s i) {r : JobRun} (hr : t.db.runs.get i = some r)
    (hq : r.status = .queued) : Awaited t i := by
  have hold : s.db.runs.get i = some r → Awaited s i := fun hr => hf (isQueued_iff.mpr ⟨r, hr, hq⟩)
  cases h with
  | trigger owner job now st p hok => exact awaited_trigger hok hr hq hold
  | retryRun owner k now run db' new hrun hterm hcreate =>
    obtain ⟨rfl, ha, rfl⟩ := insertRun_eq_some hcreate
    rcases Store.queued_of_addRun ha hr with hr | rfl
    · exact (hold hr).of_eq (List.mem_append_left _) id rfl rfl
    · exact Or.inl (List.mem_append_right _ (List.mem_singleton_self _))
  | tick now db' ids hok => exact awaited_tick hok hr hold
  | cancelRun owner k now q hget hact =>
    exact (hold (Store.queued_of_updateRun (Store.canceledRow_keeps now)
      (fun q hfq => by cases hfq) hr hq)).of_eq id id rfl rfl
  | editJobs jobs dependencies db' hdb =>
    rw [(replaceJobs_eq_some hdb).1] at hr
    exact (hold hr).of_eq id id rfl rfl
  | deleteJob owner job =>
    rw [get_deleteJob] at hr
    exact (hold (Option.filter_eq_some_iff.mp hr).1).of_eq id id rfl rfl
  | promoteDelayed now =>
    exact (hold hr).of_eq id (Redis.due_promoteDueDelayed now hs.placed.cursor)
      (Redis.pending_promoteDueDelayed _ _) rfl
  | publish k hk =>
    by_cases hik : i = k
    · exact Or.inr (Or.inl (Redis.due_enqueueRun hs.placed.cursor (Or.inr hik)))
    · exact (hold hr).of_eq (List.mem_erase_of_ne hik).mpr
        (fun hdue => Redis.due_enqueueRun hs.placed.cursor (Or.inl hdue)) rfl rfl
  | drop k hk =>
    refine (hold hr).of_eq (fun ho => ?_) id rfl rfl
    refine (List.mem_erase_of_ne fun hik => ?_).mpr ho
    subst hik
    exact isQueued_eq_false.mp hc r hr hq
  | reclaim w m e p hstale =>
    exact (hold hr).spawn rfl id (fun hdue => Or.inr (Or.inl hdue))
      fun e he => Redis.mem_pending_xautoclaim.mpr ⟨e, he, rfl, rfl⟩
  | deliver w m p hnext => exact awaited_deliver hs w p hnext (hold hr)
  | acquire hd hget hpc =>
    exact (hold hr).goto hget rfl id id rfl (fun _ _ => rfl)
      fun hsent => by rw [hpc] at hsent; cases hsent
  | executorReturns hd c res hget hpc =>
    refine (hold hr).goto hget rfl id id rfl (fun _ hb => ?_)
      fun hsent => by rw [hpc] at hsent; cases hsent
    rw [hpc] at hb
    cases hb
  | advance hd now db' pc out hget hadv =>
    rw [db_resume, db_send] at hr
    exact awaited_advance hs hget hadv hr hq hold
  | fail hd hget hw =>
    rw [db_leave] at hr
    exact awaited_leave hs hget hw hc rfl rfl rfl (isQueued_iff.mpr ⟨r, hr, hq⟩) (hold hr)
  | cancelTask hd hget hw hcan =>
    rw [db_leave] at hr
    exact awaited_leave hs hget hw hc rfl rfl rfl (isQueued_iff.mpr ⟨r, hr, hq⟩) (hold hr)
  | commitThread k now hd db' hk hdb =>
    rcases hdb with ⟨rfl, -⟩ | ⟨tx, htx, rfl⟩
    · exact (hold hr).of_eq id id rfl rfl
    · change s.detached[k]?.all _ = true at hc
      rw [hk, Option.all_some, Bool.not_eq_true'] at hc
      exact (hold (Runner.queued_of_tx htx hc hr hq)).of_eq id id rfl rfl
  | ack hd hget hpc => exact awaited_ack hget hpc (hold hr)
  | ackError hd hget hpc | delError hd hget hpc =>
    exact (hold hr).sublist id id rfl (fun k hk => (mem_remove.mp hk).1)
      fun _ hk => mem_remove_of_unsent hget (by rw [hpc]; rfl) hk
  | del hd hget hpc =>
    exact (hold hr).sublist id (Redis.due_xdel (hs.delivered hd (Table.mem_of_get hget))) rfl
      (fun k hk => (mem_remove.mp hk).1)
      fun _ hk => mem_remove_of_unsent hget (by rw [hpc]; rfl) hk
  | crash w =>
    refine (hold hr).sublist id id rfl (fun k hk => (Table.mem_rows_deleteWhere.mp hk).1)
      fun k hk hi => Table.mem_rows_deleteWhere.mpr ⟨hk, ?_⟩
    by_cases hw : k.worker = w
    · have hdrop := List.all_eq_true.mp hc k hk
      rw [hi] at hdrop
      have hno : s.isQueued i = false := by simpa [hw] using hdrop
      exact absurd hq (isQueued_eq_false.mp hno r hr)
    · simp [hw]
  | _ => exact (hold hr).of_eq id id rfl rfl

instance (s : Sys) : ∀ l, Decidable (KeepsEnqueues s l)
  | .drop i => inferInstanceAs (Decidable (s.isQueued i = false))
  | .fail i | .cancelTask i => inferInstanceAs (Decidable ((s.handlers.get i).all (fun h =>
      (droppedBy h).all fun k => !s.isQueued k) = true))
  | .crash w => inferInstanceAs (Decidable ((s.handlers.rows.all fun h =>
      !decide (h.worker = w) || h.pc.unsent?.all fun k => !s.isQueued k) = true))
  | .commitThread k _ => inferInstanceAs (Decidable (s.detached[k]?.all (fun h =>
      !h.pc.creates) = true))
  | .elapse _ | .trigger .. | .retryRun .. | .cancelRun .. | .editJobs .. | .deleteJob ..
  | .promoteDelayed _ | .tick _ | .publish _ | .poll _ | .reclaim .. | .reclaimed _ | .deliver _
  | .delivered _ | .acquire _ | .advance .. | .executorReturns .. | .ack _ | .ackError _ | .del _
  | .delError _ => isTrue trivial

end Sys
end JobScheduler
