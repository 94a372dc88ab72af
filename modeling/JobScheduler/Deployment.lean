import Mathlib.Logic.Function.Basic
import JobScheduler.Backlog
import JobScheduler.Worker.Shutdown

/-!
# The workers as they are deployed

`Sys` hands a worker the messages of a reply one by one and counts its handlers itself. Here
each worker runs the loop of backend/worker/main.py: Redis answers XAUTOCLAIM and XREADGROUP
with a batch at once, the loop counts its tasks and their permits, and a signal stops it. Every
run of these workers is a run of the system.
-/

namespace JobScheduler.Deployment
open Library WorkerMain

/- The phases of `sys` stay where they are: the loops stand at `loop`. -/
structure State where
  sys : Sys
  loop : WorkerId → Worker := fun _ => {}

/- `other` is a step of anybody else or inside of a handler. In `acquire` and `leave` a task of
the loop takes a permit of the semaphore, or returns with the step `l` of its handler. -/
inductive Label where
  | other (l : JobScheduler.Label)
  | loop (worker : WorkerId) (l : WorkerMain.Label)
  | xautoclaim (worker : WorkerId) (entries : List PendingEntry)
  | xreadgroup (worker : WorkerId) (count : ℕ)
  | acquire (handler task : ℕ)
  | leave (handler task : ℕ) (l : JobScheduler.Label)
  | crash (worker : WorkerId)

def start (db : Database) : State := { sys := Sys.start db }

def isOther : JobScheduler.Label → Bool
  | .poll _ | .reclaim .. | .reclaimed _ | .deliver _ | .delivered _ | .acquire _ | .ackError _
  | .del _ | .delError _ | .crash _ => false
  | _ => true

/- The steps of the loop that no message and no handler takes part in. -/
def isLoop : WorkerMain.Label → Bool
  | .signal | .check | .wake | .xautoclaim none | .xreadgroup none | .discard _ | .drained => true
  | _ => false

/- The XACK that raises, or the end of the XDEL. -/
def leaves (i : ℕ) : JobScheduler.Label → Bool
  | .ackError j | .del j | .delError j => decide (j = i)
  | _ => false

/- The fields that enqueue_run and the script of promote_due_delayed write. -/
def reply (messageId : ℕ) (runId : RunId) : StreamMessage :=
  Worker.runMessage (toString messageId) runId

/- The task of a handler. -/
def isTaskOf (h : Handler) (t : Task) : Bool :=
  decide (t.messageId = toString h.messageId) && decide (t.runId = (h.runId : ℤ)) &&
    decide (t.allowRunning = h.allowRunning)

/- XAUTOCLAIM with all entries of its reply. -/
def xautoclaim (q : Redis) (w : WorkerId) (entries : List PendingEntry) : Redis :=
  { q with pending := q.pending.map fun e =>
      if e.messageId ∈ entries.map PendingEntry.messageId then
        { e with consumer := w, deliveredAt := q.clock } else e }

/- The messages that nobody has read, in the order of the stream. -/
def unread (q : Redis) : List Message := q.stream.rows.filter fun m => decide (q.cursor ≤ m.id)

/- XREADGROUP with all messages of its reply. -/
def xreadgroup (q : Redis) (w : WorkerId) (messages : List Message) : Redis :=
  { q with
    cursor := (messages.getLast?.map fun m => m.id + 1).getD q.cursor
    pending := q.pending ++ messages.map fun m => ⟨m.id, m.runId, w, q.clock⟩ }

/- `spawn` for each message of a reply. -/
def spawnAll (s : Sys) (w : WorkerId) (allowRunning : Bool) (messages : List (ℕ × RunId)) : Sys :=
  messages.foldl (fun s m => s.spawn w m.1 m.2 allowRunning) s

section
variable (cfg : Settings) (cronNext : Cron.CronNext)

/- The loop of worker w makes a step while the rest of the system becomes `sys`. -/
def State.turn (d : State) (w : WorkerId) (l : WorkerMain.Label) (sys : Sys) : Option State :=
  ((d.loop w).step cfg l).map fun worker =>
    { sys := sys, loop := Function.update d.loop w worker }

def step (d : State) : Label → Option State
  | .other l =>
    if isOther l then (d.sys.step cfg cronNext l).map fun s => { d with sys := s } else none
  | .loop w l => if isLoop l then d.turn cfg w l d.sys else none
  | .xautoclaim w entries =>
    if entries.Sublist (d.sys.redis.pending.filter (d.sys.redis.idleAtLeast cfg.claimMinIdleMs)) then
      d.turn cfg w (.xautoclaim (some (entries.map fun e => reply e.messageId e.runId)))
        (spawnAll { d.sys with redis := xautoclaim d.sys.redis w entries } w true
          (entries.map fun e => (e.messageId, e.runId)))
    else none
  | .xreadgroup w count =>
    let messages := (unread d.sys.redis).take count
    d.turn cfg w (.xreadgroup (some (messages.map fun m => reply m.id m.runId)))
      (spawnAll { d.sys with redis := xreadgroup d.sys.redis w messages } w false
        (messages.map fun m => (m.id, m.runId)))
  | .acquire i k =>
    match d.sys.handlers.get i with
    | none => none
    | some h =>
      if Sys.isWaiting h.pc && ((d.loop h.worker).inflight[k]?).any (isTaskOf h) then
        d.turn cfg h.worker (.acquire k)
          ((d.sys.register h.worker h.runId (some h.id)).goto h.id .claiming)
      else none
  | .leave i k l =>
    match d.sys.handlers.get i with
    | none => none
    | some h =>
      if leaves i l && ((d.loop h.worker).inflight[k]?).any (isTaskOf h) then
        (d.sys.step cfg cronNext l).bind fun s => d.turn cfg h.worker (.finish k) s
      else none
  | .crash w =>
    (d.sys.step cfg cronNext (.crash w)).map fun s =>
      { sys := s, loop := Function.update d.loop w {} }

end

/-! ### Redis: a batch and its messages -/

section
variable {cfg : Settings} {q : Redis} {w : WorkerId} {e : PendingEntry} {es : List PendingEntry}
  {m : Message} {ms : List Message}

theorem xautoclaim_nil (q : Redis) (w : WorkerId) : xautoclaim q w [] = q := by
  unfold xautoclaim
  simp

theorem xautoclaim_cons (q : Redis) (w : WorkerId) (e : PendingEntry) (es : List PendingEntry) :
    xautoclaim q w (e :: es) = xautoclaim (q.xautoclaim w e.messageId) w es := by
  unfold xautoclaim Redis.xautoclaim
  rw [List.map_map]
  congr 1
  refine List.map_congr_left fun a _ => ?_
  simp only [Function.comp_apply, List.map_cons, List.mem_cons]
  by_cases ha : a.messageId = e.messageId
  · rw [if_pos (Or.inl ha), if_pos ha]
    split <;> rfl
  · rw [if_neg ha]
    by_cases hes : a.messageId ∈ es.map PendingEntry.messageId
    · rw [if_pos (Or.inr hes), if_pos hes]
    · rw [if_neg (not_or.mpr ⟨ha, hes⟩), if_neg hes]

theorem messageIds_xautoclaim (q : Redis) (w : WorkerId) (m : ℕ) :
    (q.xautoclaim w m).pending.map PendingEntry.messageId =
      q.pending.map PendingEntry.messageId := by
  exact (q.grows_xautoclaim w m).messageIds

/- The entries of a reply that XAUTOCLAIM may still give. -/
structure Claimable (cfg : Settings) (q : Redis) (es : List PendingEntry) : Prop where
  once : (q.pending.map PendingEntry.messageId).Nodup
  distinct : (es.map PendingEntry.messageId).Nodup
  stale : ∀ e ∈ es, e ∈ q.pending ∧ q.idleAtLeast cfg.claimMinIdleMs e = true

theorem claimable_of_sublist (honce : (q.pending.map PendingEntry.messageId).Nodup)
    (h : es.Sublist (q.pending.filter (q.idleAtLeast cfg.claimMinIdleMs))) :
    Claimable cfg q es where
  once := honce
  distinct := honce.sublist ((h.trans List.filter_sublist).map _)
  stale := fun _ he => List.mem_filter.mp (h.subset he)

theorem Claimable.head (h : Claimable cfg q (e :: es)) :
    q.stale cfg.claimMinIdleMs e.messageId = some e := by
  obtain ⟨hmem, hidle⟩ := h.stale e (List.mem_cons_self ..)
  cases hfind : q.stale cfg.claimMinIdleMs e.messageId with
  | none =>
    have hno := List.find?_eq_none.mp hfind e hmem
    simp [hidle] at hno
  | some a =>
    obtain ⟨ha, hid⟩ := Redis.stale_mem hfind
    rw [List.inj_on_of_nodup_map h.once ha hmem hid]

/- XAUTOCLAIM of one message leaves the entries of the others as they are. -/
theorem Claimable.tail (h : Claimable cfg q (e :: es)) :
    Claimable cfg (q.xautoclaim w e.messageId) es where
  once := by
    rw [messageIds_xautoclaim]
    exact h.once
  distinct := (List.nodup_cons.mp h.distinct).2
  stale := by
    intro a ha
    obtain ⟨hmem, hidle⟩ := h.stale a (List.mem_cons_of_mem _ ha)
    refine ⟨List.mem_map.mpr ⟨a, hmem, if_neg ?_⟩, hidle⟩
    intro heq
    exact (List.nodup_cons.mp h.distinct).1 (heq ▸ List.mem_map_of_mem ha)

theorem nextMessage_of_unread (h : unread q = m :: ms) : q.nextMessage = some m := by
  unfold Redis.nextMessage
  rw [← List.head?_filter]
  show (unread q).head? = some m
  rw [h, List.head?_cons]

theorem unread_xreadgroup (h : unread q = m :: ms) : unread (q.xreadgroup w m) = ms := by
  have hsorted : (unread q).Pairwise fun a b => a.id < b.id := q.stream.sorted.filter _
  rw [h] at hsorted
  obtain ⟨hlt, -⟩ := List.pairwise_cons.mp hsorted
  have hm : m ∈ unread q := by rw [h]; exact List.mem_cons_self ..
  have hle : q.cursor ≤ m.id := of_decide_eq_true (List.mem_filter.mp hm).2
  calc unread (q.xreadgroup w m)
      = (unread q).filter fun a => decide (m.id + 1 ≤ a.id) := by
        unfold unread
        rw [List.filter_filter]
        refine List.filter_congr fun a _ => ?_
        show decide (m.id + 1 ≤ a.id) = _
        by_cases ha : m.id + 1 ≤ a.id
        · have hca : q.cursor ≤ a.id := hle.trans ((Nat.le_succ _).trans ha)
          simp [ha, hca]
        · simp [ha]
    _ = ms := by
        rw [h, List.filter_cons_of_neg (by simp)]
        exact List.filter_eq_self.mpr fun a ha => decide_eq_true (hlt a ha)

theorem xreadgroup_nil (q : Redis) (w : WorkerId) : xreadgroup q w [] = q := by
  unfold xreadgroup
  simp

theorem xreadgroup_cons (q : Redis) (w : WorkerId) (m : Message) (ms : List Message) :
    xreadgroup q w (m :: ms) = xreadgroup (q.xreadgroup w m) w ms := by
  unfold xreadgroup Redis.xreadgroup
  cases ms with
  | nil => simp
  | cons a ms =>
    have hlast : (a :: ms).getLast? = some ((a :: ms).getLast (by simp)) :=
      List.getLast?_eq_some_getLast _
    simp [List.getLast?_cons_cons, hlast]

end

/-! ### The system without its phases -/

def withPhase (s : Sys) (p : WorkerId → Phase) : Sys := { s with phase := p }

/- The steps that look at a phase or change it. -/
def ofPhase : JobScheduler.Label → Bool
  | .poll _ | .reclaim .. | .reclaimed _ | .deliver _ | .delivered _ | .crash _ => true
  | _ => false

section
variable {cfg : Settings} {cronNext : Cron.CronNext}

theorem leave_withPhase (s : Sys) (p : WorkerId → Phase) (h : Handler) :
    (withPhase s p).leave h = withPhase (s.leave h) p := by
  show (if s.inflightByRun h.worker h.runId = some h.id then _ else _) = _
  unfold Sys.leave
  split <;> rfl

theorem resume_withPhase (s : Sys) (p : WorkerId → Phase) (h : Handler) (pc : Pc) :
    (withPhase s p).resume h pc = withPhase (s.resume h pc) p := by
  cases pc <;> first | exact leave_withPhase s p h | rfl

theorem send_withPhase (s : Sys) (p : WorkerId → Phase) (out : Option Send) :
    (withPhase s p).send out = withPhase (s.send out) p := by
  rcases out with _ | _ | _ <;> rfl

theorem producerStep_withPhase (s : Sys) (p : WorkerId → Phase) (l : JobScheduler.Label) :
    (withPhase s p).producerStep cfg cronNext l =
      (s.producerStep cfg cronNext l).map fun t => withPhase t p := by
  cases l with
  | trigger owner job now =>
    simp only [Sys.producerStep, withPhase]
    cases Api.triggerJob s.db owner job now <;> rfl
  | retryRun owner i now =>
    simp only [Sys.producerStep, withPhase]
    cases s.db.ownedRun i owner with
    | none => rfl
    | some run =>
      simp only
      split
      · cases s.db.createRun run.jobId .retry none (run.attempt + 1) .queued now <;> rfl
      · rfl
  | cancelRun owner i now =>
    simp only [Sys.producerStep, withPhase]
    cases s.db.ownedRun i owner with
    | none => rfl
    | some run =>
      simp only
      split <;> rfl
  | editJobs jobs dependencies =>
    simp only [Sys.producerStep, withPhase]
    cases s.db.replaceJobs jobs dependencies <;> rfl
  | deleteJob owner job =>
    simp only [Sys.producerStep, withPhase]
    cases Api.getJob s.db job owner <;> rfl
  | tick now =>
    simp only [Sys.producerStep, withPhase]
    cases Scheduler.scheduleDueJobs cronNext s.db now <;> rfl
  | publish i | drop i =>
    by_cases hi : i ∈ s.outbox
    · have hi' : i ∈ (withPhase s p).outbox := hi
      rw [Sys.producerStep, Sys.producerStep, if_pos hi, if_pos hi']
      rfl
    · have hi' : i ∉ (withPhase s p).outbox := hi
      rw [Sys.producerStep, Sys.producerStep, if_neg hi, if_neg hi']
      rfl
  | _ => rfl

theorem handlerStep_withPhase (s : Sys) (p : WorkerId → Phase) (h : Handler)
    (l : JobScheduler.Label) :
    (withPhase s p).handlerStep cfg h l = (s.handlerStep cfg h l).map fun t => withPhase t p := by
  cases l with
  | acquire i =>
    show (if Sys.isWaiting h.pc && decide ((s.acquired h.worker : ℤ) < _) then _ else _) = _
    simp only [Sys.handlerStep]
    split <;> rfl
  | advance i now =>
    simp only [Sys.handlerStep, show (withPhase s p).db = s.db from rfl]
    cases Runner.statement cfg s.db h now with
    | none => rfl
    | some out =>
      obtain ⟨db', pc, out⟩ := out
      show some (((withPhase { s with db := db' } p).send out).resume h pc) = _
      rw [send_withPhase, resume_withPhase]
      rfl
  | executorReturns i res =>
    simp only [Sys.handlerStep]
    split <;> rfl
  | fail i =>
    simp only [Sys.handlerStep, leave_withPhase]
    split <;> rfl
  | cancelTask i =>
    show (if h.pc.working ∧ h.runId ∈ s.cancels ∧ s.inflightByRun h.worker h.runId = some h.id then
      some ((withPhase { s with detached := s.detached ++ [h] } p).leave h) else _) = _
    rw [leave_withPhase]
    simp only [Sys.handlerStep]
    split <;> rfl
  | ack i | ackError i | del i | delError i =>
    simp only [Sys.handlerStep]
    split <;> rfl
  | _ => rfl

theorem threadStep_withPhase (s : Sys) (p : WorkerId → Phase) (k : ℕ) (h : Handler) (now : Time) :
    (withPhase s p).threadStep cfg k h now = withPhase (s.threadStep cfg k h now) p := by
  simp only [Sys.threadStep, show (withPhase s p).db = s.db from rfl]
  split <;> rfl

/- Nobody but the loops of the workers knows the phases. -/
theorem step_withPhase (s : Sys) (p : WorkerId → Phase) {l : JobScheduler.Label}
    (hl : ofPhase l = false) :
    (withPhase s p).step cfg cronNext l = (s.step cfg cronNext l).map fun t => withPhase t p := by
  have hhandler : ∀ i, ((withPhase s p).handlers.get i).bind
      (fun h => (withPhase s p).handlerStep cfg h l) =
      ((s.handlers.get i).bind fun h => s.handlerStep cfg h l).map fun t => withPhase t p := by
    intro i
    show (s.handlers.get i).bind _ = _
    cases s.handlers.get i with
    | none => rfl
    | some h => exact handlerStep_withPhase s p h l
  have hproducer : (withPhase s p).producerStep cfg cronNext l =
      (s.producerStep cfg cronNext l).map fun t => withPhase t p := producerStep_withPhase s p l
  cases l with
  | elapse d => rfl
  | commitThread k now =>
    show (match s.detached[k]? with
      | none => none
      | some h => some ((withPhase s p).threadStep cfg k h now)) = _
    simp only [Sys.step]
    cases s.detached[k]? with
    | none => rfl
    | some h => exact congrArg some (threadStep_withPhase s p k h now)
  | poll _ | reclaim _ _ | reclaimed _ | deliver _ | delivered _ | crash _ => cases hl
  | acquire i | advance i _ | executorReturns i _ | fail i | cancelTask i | ack i | ackError i
  | del i | delError i => exact hhandler i
  | _ => exact hproducer

end

/-! ### A reply, message by message -/

section
variable {cfg : Settings} {cronNext : Cron.CronNext} {s : Sys} {p : WorkerId → Phase} {w : WorkerId}

def setPhase (p : WorkerId → Phase) (w : WorkerId) (ph : Phase) : WorkerId → Phase :=
  fun w' => if w' = w then ph else p w'

@[simp] theorem setPhase_self (p : WorkerId → Phase) (w : WorkerId) (ph : Phase) :
    setPhase p w ph w = ph := if_pos rfl

theorem setPhase_ne (p : WorkerId → Phase) {v w : WorkerId} (ph : Phase) (h : v ≠ w) :
    setPhase p w ph v = p v := if_neg h

/- The steps of the system that follow the loop of worker w lead to `t`, w to phase `ph`, and the
others stay where they are. -/
def Follows (cfg : Settings) (cronNext : Cron.CronNext) (w : WorkerId) (s : Sys)
    (p : WorkerId → Phase) (t : Sys) (ph : Phase) : Prop :=
  ∃ ms p', Machine.run (Sys.step cfg cronNext) (withPhase s p) ms = some (withPhase t p') ∧
    p' w = ph ∧ ∀ v, v ≠ w → p' v = p v

theorem Follows.refl (cfg : Settings) (cronNext : Cron.CronNext) (w : WorkerId) (s : Sys)
    (p : WorkerId → Phase) : Follows cfg cronNext w s p s (p w) :=
  ⟨[], p, rfl, rfl, fun _ _ => rfl⟩

theorem Follows.head {s' t : Sys} {l : JobScheduler.Label} {ph ph' : Phase}
    (hstep : (withPhase s p).step cfg cronNext l = some (withPhase s' (setPhase p w ph)))
    (h : Follows cfg cronNext w s' (setPhase p w ph) t ph') : Follows cfg cronNext w s p t ph' := by
  obtain ⟨ms, p', hrun, hw, hother⟩ := h
  refine ⟨l :: ms, p', Machine.run_cons.mpr ⟨_, hstep, hrun⟩, hw, ?_⟩
  intro v hv
  rw [hother v hv, setPhase_ne p ph hv]

theorem Follows.trans {t u : Sys} {ph ph' : Phase} (h : Follows cfg cronNext w s p t ph)
    (h' : ∀ p', p' w = ph → Follows cfg cronNext w t p' u ph') : Follows cfg cronNext w s p u ph' := by
  obtain ⟨ms, p', hrun, hw, hother⟩ := h
  obtain ⟨ns, p'', hrun', hw', hother'⟩ := h' p' hw
  refine ⟨ms ++ ns, p'', Machine.run_append.mpr ⟨_, hrun, hrun'⟩, hw', ?_⟩
  intro v hv
  rw [hother' v hv, hother v hv]

theorem Follows.single {t : Sys} {l : JobScheduler.Label} {ph : Phase}
    (hstep : (withPhase s p).step cfg cronNext l = some (withPhase t (setPhase p w ph))) :
    Follows cfg cronNext w s p t ph := by
  have hend := Follows.refl cfg cronNext w t (setPhase p w ph)
  rw [setPhase_self] at hend
  exact hend.head hstep

theorem follows_reclaimed {left count : ℕ} (hp : p w = .reclaiming left count) :
    Follows cfg cronNext w s p s (.reading count) := by
  refine Follows.single (l := .reclaimed w) ?_
  have hphase : (withPhase s p).phase w = .reclaiming left count := hp
  show (withPhase s p).loopStep cfg (.reclaimed w) = _
  simp only [Sys.loopStep, hphase]
  rfl

theorem follows_delivered {left : ℕ} (hp : p w = .reading left) :
    Follows cfg cronNext w s p s .polling := by
  refine Follows.single (l := .delivered w) ?_
  have hphase : (withPhase s p).phase w = .reading left := hp
  show (withPhase s p).loopStep cfg (.delivered w) = _
  simp only [Sys.loopStep, hphase]
  rfl

theorem follows_reclaims (es : List PendingEntry) (left count : ℕ) {s : Sys}
    {p : WorkerId → Phase} (hp : p w = .reclaiming (es.length + left) count)
    (hes : Claimable cfg s.redis es) :
    Follows cfg cronNext w s p
      (spawnAll { s with redis := xautoclaim s.redis w es } w true
        (es.map fun e => (e.messageId, e.runId))) (.reclaiming left count) := by
  induction es generalizing s p with
  | nil =>
    have hend := Follows.refl cfg cronNext w s p
    rw [hp, List.length_nil, Nat.zero_add] at hend
    rw [xautoclaim_nil]
    exact hend
  | cons e es ih =>
    rw [List.length_cons, Nat.add_right_comm] at hp
    have hphase : (withPhase s p).phase w = .reclaiming (es.length + left + 1) count := hp
    have hstale : (withPhase s p).redis.stale cfg.claimMinIdleMs e.messageId = some e := hes.head
    have hstep : (withPhase s p).step cfg cronNext (.reclaim w e.messageId) =
        some (withPhase ({ s with redis := s.redis.xautoclaim w e.messageId }.spawn w e.messageId
          e.runId true) (setPhase p w (.reclaiming (es.length + left) count))) := by
      show (withPhase s p).loopStep cfg (.reclaim w e.messageId) = _
      simp only [Sys.loopStep, hphase, hstale]
      rfl
    rw [xautoclaim_cons]
    exact (ih (setPhase_self _ _ _) hes.tail).head hstep

theorem follows_delivers (ms : List Message) (left : ℕ) {rest : List Message} {s : Sys}
    {p : WorkerId → Phase} (hp : p w = .reading (ms.length + left))
    (hms : unread s.redis = ms ++ rest) :
    Follows cfg cronNext w s p
      (spawnAll { s with redis := xreadgroup s.redis w ms } w false
        (ms.map fun m => (m.id, m.runId))) (.reading left) := by
  induction ms generalizing s p with
  | nil =>
    have hend := Follows.refl cfg cronNext w s p
    rw [hp, List.length_nil, Nat.zero_add] at hend
    rw [xreadgroup_nil]
    exact hend
  | cons m ms ih =>
    rw [List.length_cons, Nat.add_right_comm] at hp
    have hphase : (withPhase s p).phase w = .reading (ms.length + left + 1) := hp
    have hnext : (withPhase s p).redis.nextMessage = some m := nextMessage_of_unread hms
    have hstep : (withPhase s p).step cfg cronNext (.deliver w) =
        some (withPhase ({ s with redis := s.redis.xreadgroup w m }.spawn w m.id m.runId false)
          (setPhase p w (.reading (ms.length + left)))) := by
      show (withPhase s p).loopStep cfg (.deliver w) = _
      simp only [Sys.loopStep, hphase, hnext]
      rfl
    rw [xreadgroup_cons]
    exact (ih (setPhase_self _ _ _) (unread_xreadgroup hms)).head hstep

end

/-! ### Handlers and permits -/

section
variable {cfg : Settings} {cronNext : Cron.CronNext} {s t : Sys} {h : Handler} {v w : WorkerId}

theorem inflight_eq (s : Sys) (w : WorkerId) :
    s.inflight w = s.handlers.rows.countP fun h => decide (h.worker = w) :=
  List.countP_eq_length_filter.symm

theorem acquired_eq (s : Sys) (w : WorkerId) : s.acquired w =
    s.handlers.rows.countP fun h => decide (h.worker = w) && !Sys.isWaiting h.pc :=
  List.countP_eq_length_filter.symm

theorem inflight_spawn (m : ℕ) (r : RunId) (allow : Bool) :
    (s.spawn v m r allow).inflight w = s.inflight w + if v = w then 1 else 0 := by
  have hrows : (s.spawn v m r allow).handlers.rows =
      s.handlers.rows ++ [Sys.newHandler v m r allow s.handlers.next] := rfl
  rw [inflight_eq, inflight_eq, hrows, List.countP_append, List.countP_singleton]
  by_cases hv : v = w <;> simp [Sys.newHandler, hv]

theorem acquired_spawn (m : ℕ) (r : RunId) (allow : Bool) :
    (s.spawn v m r allow).acquired w = s.acquired w := by
  have hrows : (s.spawn v m r allow).handlers.rows =
      s.handlers.rows ++ [Sys.newHandler v m r allow s.handlers.next] := rfl
  rw [acquired_eq, acquired_eq, hrows, List.countP_append, List.countP_singleton, if_neg,
    Nat.add_zero]
  simp [Sys.newHandler, Sys.isWaiting]

theorem inflight_spawnAll (allow : Bool) (ms : List (ℕ × RunId)) (s : Sys) :
    (spawnAll s v allow ms).inflight w = s.inflight w + if v = w then ms.length else 0 := by
  induction ms generalizing s with
  | nil => simp [spawnAll]
  | cons m ms ih =>
    have htail := ih (s.spawn v m.1 m.2 allow)
    rw [inflight_spawn] at htail
    rw [spawnAll, List.foldl_cons, ← spawnAll, htail, List.length_cons]
    split <;> omega

theorem acquired_spawnAll (allow : Bool) (ms : List (ℕ × RunId)) (s : Sys) :
    (spawnAll s v allow ms).acquired w = s.acquired w := by
  induction ms generalizing s with
  | nil => rfl
  | cons m ms ih =>
    have htail := ih (s.spawn v m.1 m.2 allow)
    rw [acquired_spawn] at htail
    exact htail

theorem inflight_goto (hget : s.handlers.get h.id = some h) (pc : Pc) :
    (s.goto h.id pc).inflight w = s.inflight w := by
  have hcount := Table.countP_update_key hget (fun h => decide (h.worker = w)) (Sys.setPc pc)
    (Sys.setPc_keeps pc)
  rw [inflight_eq, inflight_eq]
  exact Nat.add_right_cancel hcount

theorem acquired_goto (hget : s.handlers.get h.id = some h) (pc : Pc) :
    (s.goto h.id pc).acquired w + (if h.worker = w ∧ Sys.isWaiting h.pc = false then 1 else 0) =
      s.acquired w + if h.worker = w ∧ Sys.isWaiting pc = false then 1 else 0 := by
  have hcount := Table.countP_update_key hget
    (fun h => decide (h.worker = w) && !Sys.isWaiting h.pc) (Sys.setPc pc) (Sys.setPc_keeps pc)
  simp only [Bool.and_eq_true, decide_eq_true_eq, Bool.not_eq_true'] at hcount
  rw [acquired_eq, acquired_eq]
  exact hcount

theorem inflight_remove (hget : s.handlers.get h.id = some h) :
    (s.remove h.id).inflight w + (if h.worker = w then 1 else 0) = s.inflight w := by
  have hcount := Table.countP_deleteWhere_key hget fun h => decide (h.worker = w)
  simp only [decide_eq_true_eq] at hcount
  rw [inflight_eq, inflight_eq]
  exact hcount

theorem acquired_remove (hget : s.handlers.get h.id = some h) :
    (s.remove h.id).acquired w + (if h.worker = w ∧ Sys.isWaiting h.pc = false then 1 else 0) =
      s.acquired w := by
  have hcount := Table.countP_deleteWhere_key hget fun h =>
    decide (h.worker = w) && !Sys.isWaiting h.pc
  simp only [Bool.and_eq_true, decide_eq_true_eq, Bool.not_eq_true'] at hcount
  rw [acquired_eq, acquired_eq]
  exact hcount

/- The numbers of handlers and of taken permits. -/
def SameCounts (s t : Sys) : Prop := ∀ w, t.inflight w = s.inflight w ∧ t.acquired w = s.acquired w

theorem sameCounts_of_handlers (h : t.handlers = s.handlers) : SameCounts s t := by
  intro w
  rw [inflight_eq, inflight_eq, acquired_eq, acquired_eq, h]
  exact ⟨rfl, rfl⟩

/- A handler that has its permit keeps it. -/
theorem sameCounts_goto (hget : s.handlers.get h.id = some h) {pc : Pc}
    (hold : Sys.isWaiting h.pc = false) (hnew : Sys.isWaiting pc = false)
    (ht : t.handlers = (s.goto h.id pc).handlers) : SameCounts s t := by
  intro w
  have hacquired := acquired_goto (w := w) hget pc
  rw [hold, hnew] at hacquired
  obtain ⟨hi, ha⟩ := sameCounts_of_handlers ht w
  exact ⟨hi.trans (inflight_goto hget pc), ha.trans (Nat.add_right_cancel hacquired)⟩

theorem isWaiting_of_working {pc : Pc} (h : pc.working = true) : Sys.isWaiting pc = false := by
  cases pc <;> first | rfl | cases h

theorem sameCounts_of_other {l : JobScheduler.Label} (h : Sys.Trans cfg cronNext s l t)
    (hl : isOther l = true) : SameCounts s t := by
  cases h with
  | advance d now db' pc out hget hadv =>
    have hpcs : Sys.isWaiting d.pc = false ∧ Sys.isWaiting pc = false := by
      generalize d.pc = pc0 at hadv
      cases hadv <;> exact ⟨rfl, rfl⟩
    exact sameCounts_goto hget hpcs.1 hpcs.2 (Sys.handlers_advance s pc d out db')
  | executorReturns d c res hget hpc =>
    refine sameCounts_goto hget (by rw [hpc]; rfl) ?_ rfl
    unfold Runner.returned
    split <;> rfl
  | fail d hget hw =>
    refine sameCounts_goto hget (isWaiting_of_working hw) ?_ (Sys.handlers_leave s d)
    rfl
  | cancelTask d hget hw hcan =>
    refine sameCounts_goto hget (isWaiting_of_working hw) ?_ (Sys.handlers_leave _ d)
    rfl
  | ack d hget hpc => exact sameCounts_goto hget (by rw [hpc]; rfl) rfl rfl
  | poll _ _ | reclaimed _ _ | delivered _ _ | reclaim _ _ _ _ _ | deliver _ _ _ _ | acquire _ _ _
  | ackError _ _ _ | del _ _ _ | delError _ _ _ | crash _ => cases hl
  | _ => exact sameCounts_of_handlers rfl

end

/- The tasks of a loop that have not returned. -/
def live (t : Task) : Bool := !decide (t.stage = .finished)

/- The handlers of a worker are the tasks of its loop, and they have the same permits. -/
structure Counted (s : Sys) (loop : WorkerId → Worker) : Prop where
  tasks : ∀ w, s.inflight w = (loop w).inflight.countP live
  permits : ∀ w, s.acquired w = (loop w).holding

section
variable {cfg : Settings} {cronNext : Cron.CronNext} {s t : Sys} {loop : WorkerId → Worker}
  {worker : Worker} {w : WorkerId}

theorem Counted.update (hc : Counted s loop)
    (hother : ∀ v, v ≠ w → t.inflight v = s.inflight v ∧ t.acquired v = s.acquired v)
    (htasks : t.inflight w = worker.inflight.countP live)
    (hpermits : t.acquired w = worker.holding) : Counted t (Function.update loop w worker) where
  tasks := by
    intro v
    by_cases hv : v = w
    · rw [hv, Function.update_self, htasks]
    · rw [Function.update_of_ne hv, (hother v hv).1, hc.tasks]
  permits := by
    intro v
    by_cases hv : v = w
    · rw [hv, Function.update_self, hpermits]
    · rw [Function.update_of_ne hv, (hother v hv).2, hc.permits]

theorem Counted.same (hc : Counted s loop) (h : SameCounts s t) : Counted t loop where
  tasks := fun w => (h w).1.trans (hc.tasks w)
  permits := fun w => (h w).2.trans (hc.permits w)

theorem parseRunId_reply (messageId : ℕ) (i : RunId) :
    parseRunId (reply messageId i).fields = some (i : ℤ) := by
  unfold parseRunId reply Worker.runMessage
  rw [Option.bind_some, List.lookup_cons_self, Option.bind_some, Text.parseInt_toString]

/- Every message of a reply becomes a task. -/
theorem spawnAll_replies (allow : Bool) {messages : List StreamMessage}
    (h : ∀ m ∈ messages, ∃ k i, m = reply k i) :
    (WorkerMain.spawnAll allow messages).2 = [] ∧
      (WorkerMain.spawnAll allow messages).1.countP live = messages.length ∧
      (WorkerMain.spawnAll allow messages).1.countP (fun t => decide (t.stage = .holding)) = 0 := by
  induction messages with
  | nil => exact ⟨rfl, rfl, rfl⟩
  | cons m ms ih =>
    obtain ⟨k, i, rfl⟩ := h m (List.mem_cons_self ..)
    obtain ⟨hrest, hlive, hheld⟩ := ih fun a ha => h a (List.mem_cons_of_mem _ ha)
    have hparse := parseRunId_reply k i
    simp only [WorkerMain.spawnAll, hparse, List.countP_cons, List.length_cons, hrest, hlive, hheld]
    exact ⟨trivial, rfl, rfl⟩

theorem enter_replies (worker : Worker) (source : Source) {messages : List StreamMessage}
    (h : ∀ m ∈ messages, ∃ k i, m = reply k i) :
    (worker.enter source messages).position = source.after ∧
      (worker.enter source messages).inflight.countP live =
        worker.inflight.countP live + messages.length ∧
      (worker.enter source messages).holding = worker.holding := by
  obtain ⟨hrest, hlive, hheld⟩ := spawnAll_replies source.allowRunning h
  refine ⟨?_, ?_, ?_⟩
  · simp only [Worker.enter, hrest]
  · show (worker.inflight ++ _).countP live = _
    rw [List.countP_append, hlive]
  · show (worker.inflight ++ _).countP _ = _
    rw [List.countP_append, hheld]
    rfl

/- The handlers and the tasks that a reply brings. -/
theorem Counted.spawned (hc : Counted s loop) (ht : t.handlers = s.handlers) (allow : Bool)
    (source : Source) {messages : List StreamMessage} (hms : ∀ m ∈ messages, ∃ k i, m = reply k i)
    {ms : List (ℕ × RunId)} (hlen : ms.length = messages.length) :
    Counted (spawnAll t w allow ms) (Function.update loop w ((loop w).enter source messages)) := by
  obtain ⟨-, hlive, hheld⟩ := enter_replies (loop w) source hms
  have hsame := sameCounts_of_handlers ht
  refine hc.update ?_ ?_ ?_
  · intro v hv
    rw [inflight_spawnAll, if_neg (Ne.symm hv), acquired_spawnAll]
    exact hsame v
  · rw [inflight_spawnAll, if_pos rfl, hlive, hlen, (hsame w).1, hc.tasks]
  · rw [acquired_spawnAll, hheld, (hsame w).2, hc.permits]

end

/-! ### The loops against the phases -/

/- No message is dropped, and the counts of a loop are within what the system still allows. -/
def Stands : Position → Phase → Prop
  | .reclaiming count, ph => ∃ left total : ℕ,
      ph = .reclaiming left total ∧ count ≤ left ∧ count ≤ total
  | .reading count, ph => ∃ left : ℕ, ph = .reading left ∧ count ≤ left
  | .dropping _ _ _, _ | .raised, _ => False
  | _, ph => ph = .polling

section
variable {cfg : Settings} {cronNext : Cron.CronNext} {s t : Sys} {p : WorkerId → Phase}
  {worker worker' : Worker} {w : WorkerId}

/- The system's worker has at least as much capacity: it forgets a handler when its XDEL is done,
the loop when the callback of the task has run. -/
theorem follows_poll (hp : p w = .polling) (htasks : s.inflight w = worker.inflight.countP live)
    (hcap : 0 < cfg.workerConcurrency - worker.inflight.length) :
    ∃ ph, Follows cfg cronNext w s p s ph ∧
      Stands (.reclaiming (min (cfg.workerConcurrency - worker.inflight.length) cfg.workerReadBatch))
        ph := by
  have hle : s.inflight w ≤ worker.inflight.length := htasks ▸ List.countP_le_length
  have hphase : (withPhase s p).phase w = .polling := hp
  have hinflight : (withPhase s p).inflight w = s.inflight w := rfl
  have hpos : ¬ cfg.workerConcurrency - (s.inflight w : ℤ) ≤ 0 := by omega
  obtain ⟨n, hn⟩ : ∃ n, n =
      (min (cfg.workerConcurrency - (s.inflight w : ℤ)) cfg.workerReadBatch).toNat := ⟨_, rfl⟩
  refine ⟨.reclaiming n n, Follows.single (l := .poll w) ?_, n, n, rfl, by omega, by omega⟩
  show (withPhase s p).loopStep cfg (.poll w) = _
  simp only [Sys.loopStep, hphase, hinflight, if_neg hpos, ← hn]
  rfl

theorem follows_loop {l : WorkerMain.Label} (hl : isLoop l = true)
    (h : Worker.Trans cfg worker l worker') (hst : Stands worker.position (p w))
    (htasks : s.inflight w = worker.inflight.countP live) :
    (∃ ph, Follows cfg cronNext w s p s ph ∧ Stands worker'.position ph) ∧
      worker'.inflight.countP live = worker.inflight.countP live ∧
      worker'.holding = worker.holding := by
  have hstay : Follows cfg cronNext w s p s (p w) := .refl ..
  cases h with
  | signal => exact ⟨⟨_, hstay, hst⟩, rfl, rfl⟩
  | leaves hpos _ | full hpos _ _ | wake hpos | drained hpos _ =>
    rw [hpos] at hst
    exact ⟨⟨_, hstay, hst⟩, rfl, rfl⟩
  | polls hpos _ hcap =>
    rw [hpos] at hst
    exact ⟨follows_poll hst htasks hcap, rfl, rfl⟩
  | reclaimFails count hpos =>
    rw [hpos] at hst
    obtain ⟨left, total, hp, -, hle⟩ := hst
    exact ⟨⟨_, follows_reclaimed hp, ⟨total, rfl, hle⟩⟩, rfl, rfl⟩
  | readFails count hpos =>
    rw [hpos] at hst
    obtain ⟨left, hp, -⟩ := hst
    exact ⟨⟨_, follows_delivered hp, rfl⟩, rfl, rfl⟩
  | discard k task hk hdone =>
    have hlive := Positions.countP_eraseIdx_of_some hk live
    have hheld := Positions.countP_eraseIdx_of_some hk fun t => decide (t.stage = .holding)
    rw [if_neg (by simp [live, hdone])] at hlive
    rw [if_neg (by simp [hdone])] at hheld
    exact ⟨⟨_, hstay, hst⟩, hlive, hheld⟩
  | reclaims _ _ _ _ | reads _ _ _ _ | acked _ _ _ | deleted _ _ _ | dropRaises _ _ _ _
  | acquire _ _ _ _ _ | finish _ _ _ _ => cases hl

end

/-! ### The refinement -/

/- State a of the system is the deployed one but for the phases, and those stand where the loops
stand. -/
structure Refines (d : State) (a : Sys) : Prop where
  phase : ∃ p, a = withPhase d.sys p ∧ ∀ w, Stands (d.loop w).position (p w)
  counted : Counted d.sys d.loop
  backed : Sys.Backed a

section
variable {cfg : Settings} {cronNext : Cron.CronNext} {d d' : State} {a s t : Sys}
  {p : WorkerId → Phase} {worker : Worker} {w : WorkerId} {ph : Phase}

theorem refines_start (db : Database) : Refines (start db) (Sys.start db) where
  phase := ⟨fun _ => .polling, rfl, fun _ => rfl⟩
  counted := ⟨fun _ => rfl, fun _ => rfl⟩
  backed := Sys.backed_start db

theorem refines_follow (hst : ∀ v, Stands (d.loop v).position (p v))
    (hb : Sys.Backed (withPhase d.sys p)) (hf : Follows cfg cronNext w d.sys p t ph)
    (hph : Stands worker.position ph) (hc : Counted t (Function.update d.loop w worker)) :
    ∃ ms b, Machine.run (Sys.step cfg cronNext) (withPhase d.sys p) ms = some b ∧
      Refines { sys := t, loop := Function.update d.loop w worker } b := by
  obtain ⟨ms, p', hrun, hw, hother⟩ := hf
  refine ⟨ms, _, hrun, ⟨p', rfl, ?_⟩, hc, ?_⟩
  · intro v
    by_cases hv : v = w
    · subst hv
      show Stands (Function.update d.loop v worker v).position (p' v)
      rw [Function.update_self, hw]
      exact hph
    · show Stands (Function.update d.loop w worker v).position (p' v)
      rw [Function.update_of_ne hv, hother v hv]
      exact hst v
  · exact Machine.run_invariant (C := fun _ _ => True)
      (fun _ _ _ hs _ ht => hs.step (Sys.trans_of_step ht)) hb (Machine.along_true _ _) hrun

/- A step of the system that no loop takes part in. -/
theorem follows_other {l : JobScheduler.Label} (hl : ofPhase l = false)
    (h : s.step cfg cronNext l = some t) : Follows cfg cronNext w s p t (p w) := by
  refine ⟨[l], p, Machine.run_cons.mpr ⟨withPhase t p, ?_, rfl⟩, rfl, fun _ _ => rfl⟩
  rw [step_withPhase s p hl, h]
  rfl

theorem turn_eq_some {l : WorkerMain.Label} (h : d.turn cfg w l t = some d') :
    ∃ worker, Worker.Trans cfg (d.loop w) l worker ∧
      d' = { sys := t, loop := Function.update d.loop w worker } := by
  obtain ⟨worker, hstep, rfl⟩ := Option.map_eq_some_iff.mp h
  exact ⟨worker, Worker.trans_of_step hstep, rfl⟩

theorem refines_loop {l : WorkerMain.Label} (hR : Refines d a) (hl : isLoop l = true)
    (h : d.turn cfg w l d.sys = some d') :
    ∃ ms b, Machine.run (Sys.step cfg cronNext) a ms = some b ∧ Refines d' b := by
  obtain ⟨⟨p, rfl, hst⟩, hc, hb⟩ := hR
  obtain ⟨worker, htrans, rfl⟩ := turn_eq_some h
  obtain ⟨⟨ph, hf, hph⟩, hlive, hheld⟩ := follows_loop hl htrans (hst w) (hc.tasks w)
  refine refines_follow hst hb hf hph (hc.update (fun _ _ => ⟨rfl, rfl⟩) ?_ ?_)
  · rw [hlive, hc.tasks]
  · rw [hheld, hc.permits]

theorem refines_xautoclaim {es : List PendingEntry} (hR : Refines d a)
    (hes : es.Sublist (d.sys.redis.pending.filter (d.sys.redis.idleAtLeast cfg.claimMinIdleMs)))
    (h : d.turn cfg w (.xautoclaim (some (es.map fun e => reply e.messageId e.runId)))
      (spawnAll { d.sys with redis := xautoclaim d.sys.redis w es } w true
        (es.map fun e => (e.messageId, e.runId))) = some d') :
    ∃ ms b, Machine.run (Sys.step cfg cronNext) a ms = some b ∧ Refines d' b := by
  obtain ⟨⟨p, rfl, hst⟩, hc, hb⟩ := hR
  obtain ⟨worker, htrans, rfl⟩ := turn_eq_some h
  cases htrans with
  | reclaims count messages hpos hlen =>
    have hstand := hst w
    rw [hpos] at hstand
    obtain ⟨left, total, hp, hleft, htotal⟩ := hstand
    rw [List.length_map] at hlen
    obtain ⟨n, rfl⟩ : ∃ n, left = es.length + n := Nat.exists_eq_add_of_le (by omega)
    have hreplies : ∀ m ∈ es.map fun e => reply e.messageId e.runId, ∃ k i, m = reply k i := by
      intro m hm
      obtain ⟨e, -, rfl⟩ := List.mem_map.mp hm
      exact ⟨_, _, rfl⟩
    have hclaims : Follows cfg cronNext w d.sys p _ _ :=
      follows_reclaims es n total hp (claimable_of_sublist hb.once hes)
    refine refines_follow hst hb (hclaims.trans fun p' hp' => follows_reclaimed hp') ?_
      (hc.spawned ?_ true (.xautoclaim count) hreplies ?_)
    · rw [(enter_replies (d.loop w) (.xautoclaim count) hreplies).1]
      exact ⟨total, rfl, htotal⟩
    · rfl
    · rw [List.length_map, List.length_map]

theorem refines_xreadgroup {count : ℕ} (hR : Refines d a)
    (h : d.turn cfg w
      (.xreadgroup (some (((unread d.sys.redis).take count).map fun m => reply m.id m.runId)))
      (spawnAll { d.sys with redis := xreadgroup d.sys.redis w ((unread d.sys.redis).take count) } w
        false (((unread d.sys.redis).take count).map fun m => (m.id, m.runId))) = some d') :
    ∃ ms b, Machine.run (Sys.step cfg cronNext) a ms = some b ∧ Refines d' b := by
  obtain ⟨⟨p, rfl, hst⟩, hc, hb⟩ := hR
  obtain ⟨messages, hmessages⟩ : ∃ ms, ms = (unread d.sys.redis).take count := ⟨_, rfl⟩
  rw [← hmessages] at h
  obtain ⟨worker, htrans, rfl⟩ := turn_eq_some h
  cases htrans with
  | reads count' replies hpos hlen =>
    have hstand := hst w
    rw [hpos] at hstand
    obtain ⟨left, hp, hleft⟩ := hstand
    rw [List.length_map] at hlen
    obtain ⟨n, rfl⟩ : ∃ n, left = messages.length + n := Nat.exists_eq_add_of_le (by omega)
    have hreplies : ∀ m ∈ messages.map fun m => reply m.id m.runId, ∃ k i, m = reply k i := by
      intro m hm
      obtain ⟨a, -, rfl⟩ := List.mem_map.mp hm
      exact ⟨_, _, rfl⟩
    have hunread : unread d.sys.redis = messages ++ (unread d.sys.redis).drop count := by
      rw [hmessages, List.take_append_drop]
    have hdelivers : Follows cfg cronNext w d.sys p _ _ := follows_delivers messages n hp hunread
    refine refines_follow hst hb (hdelivers.trans fun p' hp' => follows_delivered hp') ?_
      (hc.spawned ?_ false .xreadgroup hreplies ?_)
    · rw [(enter_replies (d.loop w) .xreadgroup hreplies).1]
      rfl
    · rfl
    · rw [List.length_map, List.length_map]

theorem refines_other {l : JobScheduler.Label} (hR : Refines d a) (hl : isOther l = true)
    (h : d.sys.step cfg cronNext l = some t) :
    ∃ ms b, Machine.run (Sys.step cfg cronNext) a ms = some b ∧
      Refines { d with sys := t } b := by
  obtain ⟨⟨p, rfl, hst⟩, hc, hb⟩ := hR
  have hphase : ofPhase l = false := by cases l <;> first | rfl | cases hl
  have hstep : (withPhase d.sys p).step cfg cronNext l = some (withPhase t p) := by
    rw [step_withPhase d.sys p hphase, h]
    rfl
  refine ⟨[l], _, Machine.run_cons.mpr ⟨_, hstep, rfl⟩, ⟨p, rfl, hst⟩, ?_, ?_⟩
  · exact hc.same (sameCounts_of_other (Sys.trans_of_step h) hl)
  · exact hb.step (Sys.trans_of_step hstep)

/- The semaphore of the loop has a permit for the task. -/
theorem step_acquire {h : Handler} (hget : s.handlers.get h.id = some h)
    (hwait : Sys.isWaiting h.pc = true) (hfree : (s.acquired h.worker : ℤ) < cfg.workerConcurrency) :
    s.step cfg cronNext (.acquire h.id) =
      some ((s.register h.worker h.runId (some h.id)).goto h.id .claiming) := by
  show (s.handlers.get h.id).bind (fun h => s.handlerStep cfg h (.acquire h.id)) = _
  rw [hget, Option.bind_some]
  simp only [Sys.handlerStep]
  exact if_pos (by rw [hwait, decide_eq_true hfree]; rfl)

theorem refines_acquire {h : Handler} {k : ℕ} (hR : Refines d a)
    (hget : d.sys.handlers.get h.id = some h) (hwait : Sys.isWaiting h.pc = true)
    (hturn : d.turn cfg h.worker (.acquire k)
      ((d.sys.register h.worker h.runId (some h.id)).goto h.id .claiming) = some d') :
    ∃ ms b, Machine.run (Sys.step cfg cronNext) a ms = some b ∧ Refines d' b := by
  obtain ⟨⟨p, rfl, hst⟩, hc, hb⟩ := hR
  obtain ⟨worker, htrans, rfl⟩ := turn_eq_some hturn
  have hget' : (d.sys.register h.worker h.runId (some h.id)).handlers.get h.id = some h := hget
  have hacquired := fun v => acquired_goto (w := v) hget' .claiming
  rw [hwait] at hacquired
  cases htrans with
  | acquire _ task hk hstage hfree =>
    rw [← hc.permits h.worker] at hfree
    have hlive := Positions.countP_set_of_some (x := { task with stage := .holding }) hk live
    have hheld := Positions.countP_set_of_some (x := { task with stage := .holding }) hk
      fun t => decide (t.stage = .holding)
    rw [if_pos (by simp [live, hstage]), if_pos (by rfl)] at hlive
    rw [if_neg (by simp [hstage]), if_pos (by rfl), Nat.add_zero] at hheld
    refine refines_follow hst hb (follows_other rfl (step_acquire hget hwait hfree)) (hst h.worker)
      (hc.update ?_ ?_ ?_)
    · intro v hv
      have hcount := hacquired v
      rw [if_neg (fun hh => Ne.symm hv hh.1), if_neg (fun hh => Ne.symm hv hh.1)] at hcount
      exact ⟨inflight_goto hget' .claiming, hcount⟩
    · rw [inflight_goto hget' .claiming]
      exact (hc.tasks h.worker).trans (Nat.add_right_cancel hlive).symm
    · have hcount := hacquired h.worker
      rw [if_neg (fun hh => by cases hh.2), if_pos ⟨rfl, rfl⟩, Nat.add_zero] at hcount
      rw [hcount]
      exact (congrArg (fun n => n + 1) (hc.permits h.worker)).trans hheld.symm

/- The last step of a handler takes it out of its worker. -/
theorem removed_of_leaves {l : JobScheduler.Label} {h : Handler}
    (hget : s.handlers.get h.id = some h) (hl : leaves h.id l = true)
    (ht : Sys.Trans cfg cronNext s l t) :
    Sys.isWaiting h.pc = false ∧ t.handlers = (s.remove h.id).handlers := by
  have hsame : ∀ {k : Handler}, s.handlers.get k.id = some k → k.id = h.id → k = h := by
    intro k hk hid
    rw [hid, hget] at hk
    exact (Option.some.inj hk).symm
  cases ht with
  | ackError k hk hpc | del k hk hpc | delError k hk hpc =>
    have hkh := hsame hk (of_decide_eq_true hl)
    subst hkh
    exact ⟨by rw [hpc]; rfl, rfl⟩
  | _ => cases hl

theorem refines_leave {l : JobScheduler.Label} {h : Handler} {k : ℕ} (hR : Refines d a)
    (hget : d.sys.handlers.get h.id = some h) (hl : leaves h.id l = true)
    (hstep : d.sys.step cfg cronNext l = some t)
    (hturn : d.turn cfg h.worker (.finish k) t = some d') :
    ∃ ms b, Machine.run (Sys.step cfg cronNext) a ms = some b ∧ Refines d' b := by
  obtain ⟨⟨p, rfl, hst⟩, hc, hb⟩ := hR
  obtain ⟨worker, htrans, rfl⟩ := turn_eq_some hturn
  have hphase : ofPhase l = false := by cases l <;> first | rfl | cases hl
  obtain ⟨hpc, hremoved⟩ := removed_of_leaves hget hl (Sys.trans_of_step hstep)
  have hinflight := fun v => inflight_remove (w := v) hget
  have hacquired := fun v => acquired_remove (w := v) hget
  have hsame := sameCounts_of_handlers hremoved
  cases htrans with
  | finish _ task hk hstage =>
    have hhold : task.stage = .holding := by
      rcases hstage with hhold | ⟨-, hraised⟩
      · exact hhold
      · have hno := hst h.worker
        rw [hraised] at hno
        exact hno.elim
    have hlive := Positions.countP_set_of_some (x := { task with stage := .finished }) hk live
    have hheld := Positions.countP_set_of_some (x := { task with stage := .finished }) hk
      fun t => decide (t.stage = .holding)
    rw [if_pos (by simp [live, hhold]), if_neg (by simp [live]), Nat.add_zero] at hlive
    rw [if_pos (by simp [hhold]), if_neg (by simp), Nat.add_zero] at hheld
    refine refines_follow hst hb (follows_other hphase hstep) (hst h.worker) (hc.update ?_ ?_ ?_)
    · intro v hv
      have hi := hinflight v
      have ha := hacquired v
      rw [if_neg (Ne.symm hv)] at hi
      rw [if_neg (fun hh => Ne.symm hv hh.1)] at ha
      exact ⟨(hsame v).1.trans hi, (hsame v).2.trans ha⟩
    · have hi := hinflight h.worker
      rw [if_pos rfl, hc.tasks] at hi
      exact (hsame h.worker).1.trans (Nat.add_right_cancel (hi.trans hlive.symm))
    · have ha := hacquired h.worker
      rw [if_pos ⟨rfl, hpc⟩, hc.permits] at ha
      exact (hsame h.worker).2.trans (Nat.add_right_cancel (ha.trans hheld.symm))

theorem counts_crash (ht : t.handlers = s.handlers.deleteWhere fun h => decide (h.worker = w)) :
    (∀ v, v ≠ w → t.inflight v = s.inflight v ∧ t.acquired v = s.acquired v) ∧
      t.inflight w = 0 ∧ t.acquired w = 0 := by
  have hrows : t.handlers.rows = s.handlers.rows.filter fun h => !decide (h.worker = w) := by
    rw [ht]
    rfl
  simp only [inflight_eq, acquired_eq, hrows, List.countP_filter]
  refine ⟨fun v hv => ⟨?_, ?_⟩, ?_, ?_⟩
  · refine List.countP_congr fun h _ => ?_
    simp only [Bool.and_eq_true, decide_eq_true_eq, Bool.not_eq_true', decide_eq_false_iff_not]
    exact ⟨And.left, fun hw => ⟨hw, fun heq => hv (hw.symm.trans heq)⟩⟩
  · refine List.countP_congr fun h _ => ?_
    simp only [Bool.and_eq_true, decide_eq_true_eq, Bool.not_eq_true', decide_eq_false_iff_not]
    exact ⟨And.left, fun hw => ⟨hw, fun heq => hv (hw.1.symm.trans heq)⟩⟩
  · refine List.countP_eq_zero.mpr fun h _ hh => ?_
    simp only [Bool.and_eq_true, decide_eq_true_eq, Bool.not_eq_true', decide_eq_false_iff_not] at hh
    exact hh.2 hh.1
  · refine List.countP_eq_zero.mpr fun h _ hh => ?_
    simp only [Bool.and_eq_true, decide_eq_true_eq, Bool.not_eq_true', decide_eq_false_iff_not] at hh
    exact hh.2 hh.1.1

/- A crashed worker starts anew without handlers and tasks. -/
theorem refines_crash (hR : Refines d a) (h : d.sys.step cfg cronNext (.crash w) = some t) :
    ∃ ms b, Machine.run (Sys.step cfg cronNext) a ms = some b ∧
      Refines { sys := t, loop := Function.update d.loop w {} } b := by
  obtain ⟨⟨p, rfl, hst⟩, hc, hb⟩ := hR
  have hcrash : (withPhase d.sys p).step cfg cronNext (.crash w) =
      some (withPhase t (setPhase p w .polling)) := by
    cases h
    rfl
  have hhandlers : t.handlers = d.sys.handlers.deleteWhere fun h => decide (h.worker = w) := by
    cases h
    rfl
  obtain ⟨hother, hinflight, hacquired⟩ := counts_crash hhandlers
  exact refines_follow hst hb (.single hcrash) rfl (hc.update hother hinflight hacquired)

theorem refines_step {l : Label} (hR : Refines d a) (h : step cfg cronNext d l = some d') :
    ∃ ms b, Machine.run (Sys.step cfg cronNext) a ms = some b ∧ Refines d' b := by
  cases l with
  | other l =>
    simp only [step] at h
    split at h
    · rename_i hl
      obtain ⟨t, ht, rfl⟩ := Option.map_eq_some_iff.mp h
      exact refines_other hR hl ht
    · cases h
  | loop w l =>
    simp only [step] at h
    split at h
    · rename_i hl
      exact refines_loop hR hl h
    · cases h
  | xautoclaim w entries =>
    simp only [step] at h
    split at h
    · rename_i hes
      exact refines_xautoclaim hR hes h
    · cases h
  | xreadgroup w count => exact refines_xreadgroup hR h
  | acquire i k =>
    simp only [step] at h
    split at h
    · cases h
    · rename_i hd hget
      have hid : hd.id = i := Table.key_of_get hget
      subst hid
      split at h
      · rename_i hwait
        exact refines_acquire hR hget (Bool.and_eq_true_iff.mp hwait).1 h
      · cases h
  | leave i k l =>
    simp only [step] at h
    split at h
    · cases h
    · rename_i hd hget
      have hid : hd.id = i := Table.key_of_get hget
      subst hid
      split at h
      · rename_i hl
        obtain ⟨t, ht, hturn⟩ := Option.bind_eq_some_iff.mp h
        exact refines_leave hR hget (Bool.and_eq_true_iff.mp hl).1 ht hturn
      · cases h
  | crash w =>
    simp only [step] at h
    obtain ⟨t, ht, rfl⟩ := Option.map_eq_some_iff.mp h
    exact refines_crash hR ht

/- Every run of the workers as they are deployed ends in the tables, the queue and the handlers
that some run of the system ends in. No loop has dropped a message or raised, and each has a task
for every handler of its worker and as many permits taken as handlers hold one. -/
theorem deployed_refines (cfg : Settings) (cronNext : Cron.CronNext) (db : Database)
    (ls : List Label) {d : State} (h : Machine.run (step cfg cronNext) (start db) ls = some d) :
    (∃ ms s, Machine.run (Sys.step cfg cronNext) (Sys.start db) ms = some s ∧
      s = withPhase d.sys s.phase) ∧
    ∀ w, (d.loop w).position ≠ .raised ∧
      (∀ source acked rest, (d.loop w).position ≠ .dropping source acked rest) ∧
      d.sys.inflight w = (d.loop w).inflight.countP live ∧ d.sys.acquired w = (d.loop w).holding := by
  obtain ⟨ms, s, -, hs, hR⟩ := Machine.run_simulation (C := fun _ _ => True)
    (D := fun _ _ => True) (R := Refines) (fun s l t u hR _ hst => by
      obtain ⟨ms, v, hv, hR'⟩ := refines_step hR hst
      exact ⟨ms, v, Machine.along_true _ _, hv, hR'⟩)
    (refines_start db) (Machine.along_true _ _) h
  obtain ⟨p, hp, hst⟩ := hR.phase
  refine ⟨⟨ms, s, hs, by rw [hp]; rfl⟩, fun w => ⟨?_, ?_, hR.counted.tasks w, hR.counted.permits w⟩⟩
  · intro hpos
    have hno := hst w
    rw [hpos] at hno
    exact hno
  · intro source acked rest hpos
    have hno := hst w
    rw [hpos] at hno
    exact hno

/- Worker 1 reads a message, is told to stop while it serves it, and stops afterwards. -/
def servedAndStopped : List Label :=
  [.other (.trigger 1 0 0), .other (.publish 0), .loop 1 .check, .xautoclaim 1 [], .xreadgroup 1 1,
    .acquire 0 0, .other (.advance 0 1), .other (.executorReturns 0 { status := .succeeded }),
    .loop 1 .signal, .other (.advance 0 2), .other (.advance 0 3), .other (.advance 0 4),
    .other (.advance 0 5), .other (.ack 0), .loop 1 .check, .leave 0 0 (.del 0), .loop 1 .drained]

theorem deployed_refines_stopped : ∃ d,
    Machine.run (step {} Cron.noCron) (start Sys.reportJob) servedAndStopped = some d ∧
    (∃ ms s, Machine.run (Sys.step {} Cron.noCron) (Sys.start Sys.reportJob) ms = some s ∧
      s = withPhase d.sys s.phase) ∧
    ∀ w, (d.loop w).position ≠ .raised ∧
      (∀ source acked rest, (d.loop w).position ≠ .dropping source acked rest) ∧
      d.sys.inflight w = (d.loop w).inflight.countP live ∧ d.sys.acquired w = (d.loop w).holding := by
  have hsome : (Machine.run (step {} Cron.noCron) (start Sys.reportJob)
      servedAndStopped).isSome = true := by decide
  obtain ⟨d, hd⟩ := Option.isSome_iff_exists.mp hsome
  exact ⟨d, hd, deployed_refines {} Cron.noCron Sys.reportJob _ hd⟩

end

end JobScheduler.Deployment
