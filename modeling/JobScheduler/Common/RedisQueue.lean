import Mathlib.Data.List.Sort
import JobScheduler.Common.Models

/-!
# The dispatch queue (backend/common/redis_queue.py)

The Redis state the program uses: the stream with the consumer group's cursor and
pending list, and the sorted set of delayed runs. Stream ids are numbers in the order of
`XADD`. Idle times are measured on the server's own clock.
-/

namespace JobScheduler
open Library

structure Message where
  id : ℕ
  runId : RunId
  deriving DecidableEq, Repr

instance : Keyed Message := ⟨Message.id⟩

/- A delivered message that was not acknowledged. Only XACK takes an entry away and XDEL
of a message follows its XACK, so an entry always finds its message; the run id it carries
is kept in the entry. -/
structure PendingEntry where
  messageId : ℕ
  runId : RunId
  consumer : WorkerId
  deliveredAt : Time
  deriving DecidableEq, Repr

structure Delayed where
  runId : RunId
  readyAt : Time
  deriving DecidableEq, Repr

/- Members of equal score are kept in the order of their names. -/
def Delayed.before (a b : Delayed) : Prop :=
  a.readyAt < b.readyAt ∨ a.readyAt = b.readyAt ∧ toString a.runId ≤ toString b.runId

instance : DecidableRel Delayed.before := by
  intro a b
  unfold Delayed.before
  infer_instance

structure Redis where
  stream : Table Message := Table.empty
  cursor : ℕ := 0
  pending : List PendingEntry := []
  delayed : List Delayed := []
  clock : Time := 0

namespace Redis

/- enqueue_run, enqueue_run_async -/
def enqueueRun (q : Redis) (runId : RunId) : Redis :=
  { q with stream := q.stream.insert (fun i => ⟨i, runId⟩) fun _ => rfl }

/- schedule_delayed, schedule_delayed_async: ZADD moves a member that is already there. -/
def scheduleDelayed (q : Redis) (runId : RunId) (readyAt : Time) : Redis :=
  let others := q.delayed.filter fun d => decide (d.runId ≠ runId)
  { q with delayed := others.orderedInsert Delayed.before ⟨runId, readyAt⟩ }

def due (q : Redis) (now : Time) : List Delayed :=
  q.delayed.filter fun d => decide (d.readyAt ≤ now)

/- The script of promote_due_delayed, which Redis runs atomically, and its result. -/
def promoteDueDelayed (q : Redis) (now : Time) : Redis × ℕ :=
  ((q.due now).foldl (fun q d => q.enqueueRun d.runId)
      { q with delayed := q.delayed.filter fun d => !decide (d.readyAt ≤ now) },
    (q.due now).length)

/- The next message that XREADGROUP ... > would deliver. -/
def nextMessage (q : Redis) : Option Message :=
  q.stream.rows.find? fun m => decide (q.cursor ≤ m.id)

def xreadgroup (q : Redis) (consumer : WorkerId) (m : Message) : Redis :=
  { q with
    cursor := m.id + 1
    pending := q.pending ++ [⟨m.id, m.runId, consumer, q.clock⟩] }

def idleAtLeast (q : Redis) (minIdleMs : ℤ) (e : PendingEntry) : Bool :=
  decide (minIdleMs * 1000 ≤ q.clock - e.deliveredAt)

/- An entry that XAUTOCLAIM may return, whoever owns it. -/
def stale (q : Redis) (minIdleMs : ℤ) (messageId : ℕ) : Option PendingEntry :=
  q.pending.find? fun e => decide (e.messageId = messageId) && q.idleAtLeast minIdleMs e

def xautoclaim (q : Redis) (consumer : WorkerId) (messageId : ℕ) : Redis :=
  { q with pending := q.pending.map fun e =>
      if e.messageId = messageId then { e with consumer := consumer, deliveredAt := q.clock } else e }

def xack (q : Redis) (messageId : ℕ) : Redis :=
  { q with pending := q.pending.filter fun e => decide (e.messageId ≠ messageId) }

def xdel (q : Redis) (messageId : ℕ) : Redis :=
  { q with stream := q.stream.deleteWhere fun m => decide (m.id = messageId) }

/-! ### Run ids on the queue -/

/- The run ids that the stream, the pending list and the delayed set hold. -/
def Holds (q : Redis) (i : RunId) : Prop :=
  (∃ m ∈ q.stream.rows, m.runId = i) ∨ (∃ e ∈ q.pending, e.runId = i) ∨
    ∃ d ∈ q.delayed, d.runId = i

theorem holds_enqueueRun {q : Redis} {i k : RunId} :
    (q.enqueueRun k).Holds i ↔ q.Holds i ∨ i = k := by
  unfold Holds enqueueRun
  simp only [Table.mem_rows_insert]
  grind

theorem holds_scheduleDelayed {q : Redis} {i k : RunId} {t : Time}
    (h : (q.scheduleDelayed k t).Holds i) : q.Holds i ∨ i = k := by
  unfold Holds scheduleDelayed at *
  simp only [List.mem_orderedInsert, List.mem_filter] at h
  grind

theorem holds_foldl_enqueueRun {q : Redis} {ds : List Delayed} {i : RunId}
    (h : (ds.foldl (fun q d => q.enqueueRun d.runId) q).Holds i) :
    q.Holds i ∨ ∃ d ∈ ds, d.runId = i := by
  induction ds generalizing q with
  | nil => exact Or.inl h
  | cons d ds ih =>
    rcases ih h with h | ⟨e, he, hi⟩
    · rcases holds_enqueueRun.mp h with h | rfl
      · exact Or.inl h
      · exact Or.inr ⟨d, List.mem_cons_self .., rfl⟩
    · exact Or.inr ⟨e, List.mem_cons_of_mem _ he, hi⟩

theorem holds_promoteDueDelayed {q : Redis} {now : Time} {i : RunId}
    (h : (q.promoteDueDelayed now).1.Holds i) : q.Holds i := by
  rcases holds_foldl_enqueueRun h with h | ⟨d, hd, rfl⟩
  · unfold Holds at *
    grind
  · exact Or.inr (Or.inr ⟨d, List.mem_of_mem_filter hd, rfl⟩)

/- Enqueueing leaves the pending list alone and uses new message ids. -/
theorem foldl_enqueueRun (q : Redis) (ds : List Delayed) :
    let q' := ds.foldl (fun q d => q.enqueueRun d.runId) q
    q'.pending = q.pending ∧ q.stream.next ≤ q'.stream.next ∧
      ∀ m ∈ q'.stream.rows, m ∈ q.stream.rows ∨ q.stream.next ≤ m.id := by
  induction ds generalizing q with
  | nil => exact ⟨rfl, le_rfl, fun _ hm => Or.inl hm⟩
  | cons d ds ih =>
    obtain ⟨hp, hn, hr⟩ := ih (q.enqueueRun d.runId)
    refine ⟨hp, (Nat.le_succ _).trans hn, ?_⟩
    intro m hm
    rcases hr m hm with hm | hm
    · rcases Table.mem_rows_insert.mp hm with hm | rfl
      · exact Or.inl hm
      · exact Or.inr le_rfl
    · exact Or.inr ((Nat.le_succ _).trans hm)

theorem pending_promoteDueDelayed (q : Redis) (now : Time) :
    (q.promoteDueDelayed now).1.pending = q.pending :=
  (foldl_enqueueRun _ _).1

theorem stream_promoteDueDelayed (q : Redis) (now : Time) :
    q.stream.next ≤ (q.promoteDueDelayed now).1.stream.next ∧
      ∀ m ∈ (q.promoteDueDelayed now).1.stream.rows, m ∈ q.stream.rows ∨ q.stream.next ≤ m.id :=
  (foldl_enqueueRun { q with delayed := q.delayed.filter fun d => !decide (d.readyAt ≤ now) }
    (q.due now)).2

theorem nextMessage_mem {q : Redis} {m : Message} (h : q.nextMessage = some m) :
    m ∈ q.stream.rows :=
  List.mem_of_find?_eq_some h

theorem holds_xreadgroup {q : Redis} {w : WorkerId} {m : Message} {i : RunId}
    (hm : m ∈ q.stream.rows) (h : (q.xreadgroup w m).Holds i) : q.Holds i := by
  unfold Holds xreadgroup at *
  grind

theorem stale_mem {q : Redis} {minIdleMs : ℤ} {m : ℕ} {e : PendingEntry}
    (h : q.stale minIdleMs m = some e) : e ∈ q.pending ∧ e.messageId = m := by
  have hf := List.find?_some h
  refine ⟨List.mem_of_find?_eq_some h, ?_⟩
  simp only [Bool.and_eq_true, decide_eq_true_eq] at hf
  exact hf.1

/- XAUTOCLAIM changes the owner and the delivery time of entries, nothing else. -/
theorem mem_pending_xautoclaim {q : Redis} {w : WorkerId} {m : ℕ} {k : ℕ} {i : RunId} :
    (∃ e ∈ (q.xautoclaim w m).pending, e.messageId = k ∧ e.runId = i) ↔
      ∃ e ∈ q.pending, e.messageId = k ∧ e.runId = i := by
  unfold xautoclaim
  simp only [List.mem_map]
  constructor
  · intro h
    obtain ⟨e, ⟨a, ha, rfl⟩, hk, hi⟩ := h
    refine ⟨a, ha, ?_⟩
    split at hk <;> split at hi <;> exact ⟨hk, hi⟩
  · intro h
    obtain ⟨a, ha, hk, hi⟩ := h
    refine ⟨_, ⟨a, ha, rfl⟩, ?_⟩
    split <;> exact ⟨hk, hi⟩

theorem holds_xautoclaim {q : Redis} {w : WorkerId} {m : ℕ} {i : RunId}
    (h : (q.xautoclaim w m).Holds i) : q.Holds i := by
  rcases h with h | ⟨e, he, hi⟩ | h
  · exact Or.inl h
  · obtain ⟨a, ha, -, hai⟩ := mem_pending_xautoclaim.mp ⟨e, he, rfl, hi⟩
    exact Or.inr (Or.inl ⟨a, ha, hai⟩)
  · exact Or.inr (Or.inr h)

theorem mem_pending_xack {q : Redis} {m : ℕ} {e : PendingEntry} :
    e ∈ (q.xack m).pending ↔ e ∈ q.pending ∧ e.messageId ≠ m := by
  simp [xack]

theorem holds_xack {q : Redis} {m : ℕ} {i : RunId} (h : (q.xack m).Holds i) : q.Holds i := by
  unfold Holds xack at *
  grind

theorem holds_xdel {q : Redis} {m : ℕ} {i : RunId} (h : (q.xdel m).Holds i) : q.Holds i := by
  unfold Holds xdel at *
  simp only [Table.mem_rows_deleteWhere] at h
  grind

end Redis
end JobScheduler
