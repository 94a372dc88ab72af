import JobScheduler.Drain

/-!
# The messages of the stream

XADD puts a message on the stream, XREADGROUP moves it to the pending list as well, XACK takes
it from there and XDEL from the stream. Between these commands of different processes every
entry keeps its message, and no delivered message stays behind unnoticed.
-/

namespace JobScheduler
open Library

namespace Redis

/- The queue after commands that deliver nothing and take nothing away. -/
structure Grows (q q' : Redis) : Prop where
  rows : ∀ m ∈ q.stream.rows, m ∈ q'.stream.rows
  new : ∀ m ∈ q'.stream.rows, m ∈ q.stream.rows ∨ q.stream.next ≤ m.id
  cursor : q'.cursor = q.cursor
  pending : q'.pending.map (fun e => (e.messageId, e.runId)) =
    q.pending.map fun e => (e.messageId, e.runId)

theorem Grows.of_eq {q q' : Redis} (hstream : q'.stream = q.stream) (hcursor : q'.cursor = q.cursor)
    (hpending : q'.pending = q.pending) : q.Grows q' where
  rows := fun m hm => hstream ▸ hm
  new := fun m hm => Or.inl (hstream ▸ hm)
  cursor := hcursor
  pending := by rw [hpending]

theorem Grows.trans {q q' q'' : Redis} (h : q.Grows q') (h' : q'.Grows q'')
    (hnext : q.stream.next ≤ q'.stream.next) : q.Grows q'' where
  rows := fun m hm => h'.rows m (h.rows m hm)
  new := by
    intro m hm
    rcases h'.new m hm with hm | hm
    · exact h.new m hm
    · exact Or.inr (hnext.trans hm)
  cursor := h'.cursor.trans h.cursor
  pending := h'.pending.trans h.pending

theorem grows_enqueueRun (q : Redis) (i : RunId) : q.Grows (q.enqueueRun i) where
  rows := fun _ hm => Table.mem_rows_insert.mpr (Or.inl hm)
  new := by
    intro m hm
    rcases Table.mem_rows_insert.mp hm with hm | rfl
    · exact Or.inl hm
    · exact Or.inr le_rfl
  cursor := rfl
  pending := rfl

theorem grows_foldl_enqueueRun (q : Redis) (ds : List Delayed) :
    q.Grows (ds.foldl (fun q d => q.enqueueRun d.runId) q) := by
  induction ds generalizing q with
  | nil => exact .of_eq rfl rfl rfl
  | cons d ds ih => exact (q.grows_enqueueRun d.runId).trans (ih _) (Nat.le_succ _)

theorem grows_promoteDueDelayed (q : Redis) (now : Time) : q.Grows (q.promoteDueDelayed now).1 := by
  have hzrem : q.Grows { q with delayed := q.delayed.filter fun d => !decide (d.readyAt ≤ now) } :=
    .of_eq rfl rfl rfl
  exact hzrem.trans (grows_foldl_enqueueRun _ _) le_rfl

theorem grows_xautoclaim (q : Redis) (w : WorkerId) (m : ℕ) : q.Grows (q.xautoclaim w m) where
  rows := fun _ hm => hm
  new := fun _ hm => Or.inl hm
  cursor := rfl
  pending := by
    unfold xautoclaim
    rw [List.map_map]
    refine List.map_congr_left fun e _ => ?_
    show (fun e : PendingEntry => (e.messageId, e.runId)) (if _ then _ else _) = _
    split <;> rfl

/- The list keeps who is pending. -/
theorem Grows.entry {q q' : Redis} (h : q.Grows q') {k : ℕ} {i : RunId} :
    (∃ e ∈ q'.pending, e.messageId = k ∧ e.runId = i) ↔
      ∃ e ∈ q.pending, e.messageId = k ∧ e.runId = i := by
  have hmem : ∀ es : List PendingEntry, (k, i) ∈ es.map (fun e => (e.messageId, e.runId)) ↔
      ∃ e ∈ es, e.messageId = k ∧ e.runId = i := by
    intro es
    simp
  rw [← hmem, ← hmem, h.pending]

theorem Grows.messageIds {q q' : Redis} (h : q.Grows q') :
    q'.pending.map PendingEntry.messageId = q.pending.map PendingEntry.messageId := by
  have hfst := congrArg (List.map Prod.fst) h.pending
  rwa [List.map_map, List.map_map] at hfst

end Redis

namespace Sys

variable {cfg : Settings} {cronNext : Cron.CronNext} {s t : Sys} {l : Label}

/- What a step does to the stream and the pending list. -/
inductive Queue (s : Sys) : Label → Redis → Prop where
  | grows (l : Label) (q : Redis) : s.redis.Grows q → Queue s l q
  | deliver (w : WorkerId) (m : Message) : s.redis.nextMessage = some m →
      Queue s (.deliver w) (s.redis.xreadgroup w m)
  | ack (h : Handler) : h ∈ s.handlers.rows → h.pc = .acking →
      Queue s (.ack h.id) (s.redis.xack h.messageId)
  | del (h : Handler) : h ∈ s.handlers.rows → h.pc = .deleting →
      Queue s (.del h.id) (s.redis.xdel h.messageId)

theorem Trans.queue (h : Trans cfg cronNext s l t) : Queue s l t.redis := by
  cases h with
  | promoteDelayed now => exact .grows _ _ (s.redis.grows_promoteDueDelayed now)
  | publish i hi => exact .grows _ _ (s.redis.grows_enqueueRun i)
  | reclaim w m e p hstale => exact .grows _ _ (s.redis.grows_xautoclaim w m)
  | deliver w m p hnext => exact .deliver w m hnext
  | advance hd now db' pc out hget hadv =>
    rw [redis_resume]
    rcases out with _ | i | ⟨i, readyAt⟩
    · exact .grows _ _ (.of_eq rfl rfl rfl)
    · exact .grows _ _ (s.redis.grows_enqueueRun i)
    · exact .grows _ _ (.of_eq rfl rfl rfl)
  | fail _ _ _ | cancelTask _ _ _ _ =>
    rw [redis_leave]
    exact .grows _ _ (.of_eq rfl rfl rfl)
  | ack hd hget hpc => exact .ack hd (Table.mem_of_get hget) hpc
  | del hd hget hpc => exact .del hd (Table.mem_of_get hget) hpc
  | _ => exact .grows _ _ (.of_eq rfl rfl rfl)

/- A handler comes to XDEL by its XACK. -/
theorem Trans.deleting (h : Trans cfg cronNext s l t) {k : Handler} (hk : k ∈ t.handlers.rows)
    (hpc : k.pc = .deleting) :
    k ∈ s.handlers.rows ∨ l = .ack k.id ∧ ∃ d ∈ s.handlers.rows, d.id = k.id ∧
      d.messageId = k.messageId := by
  rcases h.handler hk with ⟨hk', -⟩ | ⟨hwait, -⟩ | ⟨d, hd, pc, rfl, hm⟩
  · exact Or.inl hk'
  · rw [hwait] at hpc
    cases hpc
  · change pc = .deleting at hpc
    subst hpc
    generalize t.db = db' at hm
    generalize hlabel : l = l' at hm
    generalize hp : Pc.deleting = p at hm
    cases hm with
    | ack hack => exact Or.inr ⟨rfl, d, hd, rfl, rfl⟩
    | advance now db' pc out hadv =>
      subst hp
      generalize d.pc = pc0 at hadv
      cases hadv
    | executorReturns c res hexec =>
      unfold Runner.returned at hp
      split at hp <;> cases hp
    | _ => cases hp

/- Redis has taken the message from the pending list, and the handler goes on to XDEL. -/
theorem Trans.acked {i : ℕ} (h : Trans cfg cronNext s (.ack i) t) :
    ∃ d ∈ s.handlers.rows, d.id = i ∧ t.redis = s.redis.xack d.messageId ∧
      setPc .deleting d ∈ t.handlers.rows := by
  cases h with
  | ack d hget hpc =>
    exact ⟨d, Table.mem_of_get hget, rfl, rfl, (mem_goto hget).mpr (Or.inl rfl)⟩

theorem Trans.deleted {i : ℕ} (h : Trans cfg cronNext s (.del i) t) :
    ∃ d ∈ s.handlers.rows, d.id = i ∧ t.redis = s.redis.xdel d.messageId := by
  cases h with
  | del d hget hpc => exact ⟨d, Table.mem_of_get hget, rfl, rfl⟩

/- A handler stays before its XDEL until the command returns or raises, or the worker dies. -/
theorem Trans.keeps_deleting (h : Trans cfg cronNext s l t) {k : Handler}
    (hk : k ∈ s.handlers.rows) (hpc : k.pc = .deleting) :
    k ∈ t.handlers.rows ∨ l = .del k.id ∨ l = .delError k.id ∨ l = .crash k.worker := by
  have hgoto : ∀ {d : Handler} {pc : Pc}, s.handlers.get d.id = some d → d.pc ≠ .deleting →
      k ∈ (s.goto d.id pc).handlers.rows := by
    intro d pc hget hne
    refine (mem_goto hget).mpr (Or.inr ⟨hk, ?_⟩)
    intro heq
    exact hne (s.handlers.eq_of_key_eq hk (Table.mem_of_get hget) heq ▸ hpc)
  have hremove : ∀ i, k ∈ (s.remove i).handlers.rows ∨ k.id = i := by
    intro i
    by_cases hi : k.id = i
    · exact Or.inr hi
    · exact Or.inl (mem_remove.mpr ⟨hk, hi⟩)
  have hworking : ∀ {d : Handler}, d.pc.working = true → d.pc ≠ .deleting := by
    intro d hw hd
    rw [hd] at hw
    cases hw
  cases h with
  | reclaim w m e p hstale | deliver w m p hnext => exact Or.inl (mem_spawn.mpr (Or.inl hk))
  | acquire d hget hd => exact Or.inl (hgoto hget (by rw [hd]; exact Pc.noConfusion))
  | advance d now db' pc out hget hadv =>
    rw [handlers_advance]
    refine Or.inl (hgoto hget ?_)
    intro hd
    rw [hd] at hadv
    cases hadv
  | executorReturns d c res hget hd => exact Or.inl (hgoto hget (by rw [hd]; exact Pc.noConfusion))
  | fail d hget hw =>
    rw [handlers_leave]
    exact Or.inl (hgoto hget (hworking hw))
  | cancelTask d hget hw hcan =>
    rw [handlers_leave]
    exact Or.inl (hgoto hget (hworking hw))
  | ack d hget hd => exact Or.inl (hgoto hget (by rw [hd]; exact Pc.noConfusion))
  | ackError d hget hd =>
    rcases hremove d.id with hin | hi
    · exact Or.inl hin
    · have hkd : k = d := s.handlers.eq_of_key_eq hk (Table.mem_of_get hget) hi
      rw [hkd, hd] at hpc
      cases hpc
  | del d hget hd =>
    rcases hremove d.id with hin | hi
    · exact Or.inl hin
    · exact Or.inr (Or.inl (by rw [hi]))
  | delError d hget hd =>
    rcases hremove d.id with hin | hi
    · exact Or.inl hin
    · exact Or.inr (Or.inr (Or.inl (by rw [hi])))
  | crash w =>
    by_cases hw : k.worker = w
    · exact Or.inr (Or.inr (Or.inr (by rw [hw])))
    · exact Or.inl (Table.mem_rows_deleteWhere.mpr ⟨hk, by simp [hw]⟩)
  | _ => exact Or.inl hk

theorem Trans.cursor (h : Trans cfg cronNext s l t) : s.redis.cursor ≤ t.redis.cursor := by
  rcases Drain.cursor_of_trans h with ⟨hc, -⟩ | ⟨w, m, hm, hr⟩
  · exact hc.ge
  · have hle : s.redis.cursor ≤ m.id := by simpa using List.find?_some hm
    rw [hr]
    exact hle.trans (Nat.le_succ _)

/-! ### The messages behind the pending list -/

/- messages: the message of an entry is on the stream. once: no message is pending twice.
acked: a handler before its XDEL has its message out of the list. delivered: the message of a
handler has been read. -/
structure Backed (s : Sys) : Prop where
  placed : Drain.Placed s
  messages : ∀ e ∈ s.redis.pending, ∃ m ∈ s.redis.stream.rows, m.id = e.messageId ∧ m.runId = e.runId
  once : (s.redis.pending.map PendingEntry.messageId).Nodup
  acked : ∀ h ∈ s.handlers.rows, h.pc = .deleting → ∀ e ∈ s.redis.pending, e.messageId ≠ h.messageId
  delivered : ∀ h ∈ s.handlers.rows, h.messageId < s.redis.cursor

theorem backed_start (db : Database) : Backed (start db) where
  placed := Drain.placed_start db
  messages := fun _ he => absurd he List.not_mem_nil
  once := List.nodup_nil
  acked := fun _ hh => absurd hh List.not_mem_nil
  delivered := fun _ hh => absurd hh List.not_mem_nil

theorem nextMessage_unread {q : Redis} {m : Message} (h : q.nextMessage = some m) :
    q.cursor ≤ m.id := by
  simpa using List.find?_some h

theorem Backed.messages_step (hs : Backed s) (h : Trans cfg cronNext s l t) :
    ∀ e ∈ t.redis.pending, ∃ m ∈ t.redis.stream.rows, m.id = e.messageId ∧ m.runId = e.runId := by
  have hq := h.queue
  generalize t.redis = q at hq
  intro e he
  cases hq with
  | grows _ _ hg =>
    obtain ⟨e', he', hm, hi⟩ := hg.entry.mp ⟨e, he, rfl, rfl⟩
    obtain ⟨m, hmem, hid, hrun⟩ := hs.messages e' he'
    exact ⟨m, hg.rows m hmem, hid.trans hm, hrun.trans hi⟩
  | deliver w m hnext =>
    rcases List.mem_append.mp he with he | he
    · exact hs.messages e he
    · have hmem : m ∈ s.redis.stream.rows := Redis.nextMessage_mem hnext
      rw [List.mem_singleton.mp he]
      exact ⟨m, hmem, rfl, rfl⟩
  | ack d hd hpc => exact hs.messages e (Redis.mem_pending_xack.mp he).1
  | del d hd hpc =>
    obtain ⟨m, hmem, hid, hrun⟩ := hs.messages e he
    have hne : m.id ≠ d.messageId := hid ▸ hs.acked d hd hpc e he
    exact ⟨m, Table.mem_rows_deleteWhere.mpr ⟨hmem, by simp [hne]⟩, hid, hrun⟩

theorem Backed.once_step (hs : Backed s) (h : Trans cfg cronNext s l t) :
    (t.redis.pending.map PendingEntry.messageId).Nodup := by
  have hq := h.queue
  generalize t.redis = q at hq
  cases hq with
  | grows _ _ hg =>
    rw [hg.messageIds]
    exact hs.once
  | deliver w m hnext =>
    show ((s.redis.pending ++ [_]).map PendingEntry.messageId).Nodup
    rw [List.map_append, List.nodup_append]
    refine ⟨hs.once, List.nodup_singleton _, ?_⟩
    intro a ha b hb
    obtain ⟨e, he, rfl⟩ := List.mem_map.mp ha
    rw [List.mem_singleton.mp hb]
    exact Nat.ne_of_lt ((hs.placed.delivered e he).trans_le (nextMessage_unread hnext))
  | ack d hd hpc => exact hs.once.sublist (List.filter_sublist.map _)
  | del d hd hpc => exact hs.once

/- A new entry is one of a message that nobody has read before. -/
theorem Trans.pending_old (h : Trans cfg cronNext s l t) {e : PendingEntry}
    (he : e ∈ t.redis.pending) :
    (∃ e' ∈ s.redis.pending, e'.messageId = e.messageId) ∨ s.redis.cursor ≤ e.messageId := by
  rcases Drain.cursor_of_trans h with ⟨-, hp⟩ | ⟨w, m, hm, hr⟩
  · exact Or.inl (hp e he)
  · rw [hr] at he
    rcases List.mem_append.mp he with he | he
    · exact Or.inl ⟨e, he, rfl⟩
    · rw [List.mem_singleton.mp he]
      exact Or.inr (nextMessage_unread hm)

theorem Backed.acked_step (hs : Backed s) (h : Trans cfg cronNext s l t) :
    ∀ k ∈ t.handlers.rows, k.pc = .deleting → ∀ e ∈ t.redis.pending, e.messageId ≠ k.messageId := by
  intro k hk hpc e he
  rcases h.deleting hk hpc with hk | ⟨rfl, d, hd, hid, hm⟩
  · rcases h.pending_old he with ⟨e', he', heq⟩ | hle
    · rw [← heq]
      exact hs.acked k hk hpc e' he'
    · exact Nat.ne_of_gt ((hs.delivered k hk).trans_le hle)
  · obtain ⟨d', hd', hid', hr, -⟩ := h.acked
    have hdd : d' = d := s.handlers.eq_of_key_eq hd' hd (hid'.trans hid.symm)
    rw [hr] at he
    rw [← hm, ← hdd]
    exact (Redis.mem_pending_xack.mp he).2

theorem Backed.delivered_step (hs : Backed s) (h : Trans cfg cronNext s l t) :
    ∀ k ∈ t.handlers.rows, k.messageId < t.redis.cursor := by
  intro k hk
  rcases h.handler hk with ⟨hk, -⟩ | ⟨-, -, e, he, hm, -⟩ | ⟨d, hd, pc, rfl, -⟩
  · exact (hs.delivered k hk).trans_le h.cursor
  · rw [← hm]
    exact (Drain.placed_of_trans h hs.placed).delivered e he
  · exact (hs.delivered d hd).trans_le h.cursor

theorem Backed.step (hs : Backed s) (h : Trans cfg cronNext s l t) : Backed t where
  placed := Drain.placed_of_trans h hs.placed
  messages := hs.messages_step h
  once := hs.once_step h
  acked := hs.acked_step h
  delivered := hs.delivered_step h

/-! ### The messages that are left on the stream -/

/- Message k is not read yet, is pending, or a handler is about to delete it. -/
def Tracked (s : Sys) (k : ℕ) : Prop :=
  s.redis.cursor ≤ k ∨ (∃ e ∈ s.redis.pending, e.messageId = k) ∨
    ∃ h ∈ s.handlers.rows, h.pc = .deleting ∧ h.messageId = k

def isDeleting : Pc → Bool
  | .deleting => true
  | _ => false

/- The XDEL of message k does not fail, nor does its worker die between XACK and XDEL. -/
def KeepsXdel (k : ℕ) (s : Sys) : Label → Prop
  | .delError i => ∀ h ∈ s.handlers.rows, h.id = i → h.messageId ≠ k
  | .crash w => ∀ h ∈ s.handlers.rows, h.worker = w → isDeleting h.pc = true → h.messageId ≠ k
  | _ => True

theorem tracked_new (hs : Drain.Placed s) (h : Trans cfg cronNext s l t) {k : ℕ}
    (hk : s.redis.stream.next ≤ k) : t.Tracked k := by
  left
  rcases Drain.cursor_of_trans h with ⟨hc, -⟩ | ⟨w, m, hm, hr⟩
  · rw [hc]
    exact hs.cursor.trans hk
  · rw [hr]
    exact Nat.le_trans (s.redis.stream.fresh m (Redis.nextMessage_mem hm)) hk

/- XREADGROUP takes the first message that is not read. -/
theorem tracked_unread (h : Trans cfg cronNext s l t) {m : Message}
    (hm : m ∈ s.redis.stream.rows) (hle : s.redis.cursor ≤ m.id) : t.Tracked m.id := by
  rcases Drain.cursor_of_trans h with ⟨hc, -⟩ | ⟨w, n, hn, hr⟩
  · left
    rw [hc]
    exact hle
  · have hfirst : n.id ≤ m.id := Table.key_le_of_find? hn hm (decide_eq_true hle)
    rcases Nat.eq_or_lt_of_le hfirst with heq | hlt
    · refine Or.inr (Or.inl ⟨⟨n.id, n.runId, w, s.redis.clock⟩, ?_, heq⟩)
      rw [hr]
      exact List.mem_append_right _ (List.mem_singleton_self _)
    · left
      rw [hr]
      exact hlt

theorem tracked_pending (h : Trans cfg cronNext s l t) {e : PendingEntry}
    (he : e ∈ s.redis.pending) : t.Tracked e.messageId := by
  rcases h.pending he with ⟨e', he', hm, -⟩ | ⟨d, hd, rfl, hpc, hm⟩
  · exact Or.inr (Or.inl ⟨e', he', hm⟩)
  · obtain ⟨d', hd', hid, -, hnew⟩ := h.acked
    have hdd : d' = d := s.handlers.eq_of_key_eq hd' hd hid
    subst hdd
    exact Or.inr (Or.inr ⟨_, hnew, rfl, hm.symm⟩)

theorem tracked_deleting (h : Trans cfg cronNext s l t) {k : Handler}
    (hk : k ∈ s.handlers.rows) (hpc : k.pc = .deleting) (hc : KeepsXdel k.messageId s l)
    (hleft : ∃ m ∈ t.redis.stream.rows, m.id = k.messageId) : t.Tracked k.messageId := by
  rcases h.keeps_deleting hk hpc with hk | rfl | rfl | rfl
  · exact Or.inr (Or.inr ⟨k, hk, hpc, rfl⟩)
  · obtain ⟨d, hd, hid, hr⟩ := h.deleted
    have hdk : d = k := s.handlers.eq_of_key_eq hd hk hid
    subst hdk
    obtain ⟨m, hm, hid⟩ := hleft
    rw [hr] at hm
    have hne := (Table.mem_rows_deleteWhere.mp hm).2
    exact absurd hid (of_decide_eq_false hne)
  · exact absurd rfl (hc k hk rfl)
  · exact absurd rfl (hc k hk rfl (by rw [hpc]; rfl))

/- Message k, as long as it is on the stream. -/
def Accounted (k : ℕ) (s : Sys) : Prop := ∀ m ∈ s.redis.stream.rows, m.id = k → s.Tracked k

theorem accounted_step {k : ℕ} (hs : Drain.Placed s) (hk : Accounted k s) (hc : KeepsXdel k s l)
    (h : Trans cfg cronNext s l t) : Accounted k t := by
  intro m hm hid
  rcases h.stream.2 m hm with hold | hnew
  · rcases hk m hold hid with hle | ⟨e, he, rfl⟩ | ⟨d, hd, hpc, rfl⟩
    · subst hid
      exact tracked_unread h hold hle
    · exact tracked_pending h he
    · exact tracked_deleting h hd hpc hc ⟨m, hm, hid⟩
  · subst hid
    exact tracked_new hs h hnew

/- In every state of every run the pending list holds no message twice, and only messages that
are on the stream. A message whose XDEL is not lost stays on the stream only as long as it is
not read, is pending, or a handler is about to delete it. -/
theorem stream_accounted (cfg : Settings) (cronNext : Cron.CronNext) (db : Database)
    (ls : List Label) :
    Machine.Visits (step cfg cronNext)
        (fun s => (s.redis.pending.map PendingEntry.messageId).Nodup ∧
          ∀ e ∈ s.redis.pending, ∃ m ∈ s.redis.stream.rows, m.id = e.messageId ∧ m.runId = e.runId)
        (start db) ls ∧
      ∀ k, Machine.Along (step cfg cronNext) (KeepsXdel k) (start db) ls →
        Machine.Visits (step cfg cronNext) (Accounted k) (start db) ls := by
  constructor
  · exact Machine.visits_of_invariant (I := Backed) (C := fun _ _ => True)
      (fun _ _ _ hs _ ht => hs.step (trans_of_step ht)) (fun _ hs => ⟨hs.once, hs.messages⟩)
      (backed_start db) (Machine.along_true _ _)
  · intro k hk
    refine Machine.visits_of_invariant (I := fun s => Drain.Placed s ∧ Accounted k s)
      (C := KeepsXdel k) ?_ (fun _ hs => hs.2) ⟨Drain.placed_start db, ?_⟩ hk
    · intro s l t hs hc ht
      have htrans := trans_of_step ht
      exact ⟨Drain.placed_of_trans htrans hs.1, accounted_step hs.1 hs.2 hc htrans⟩
    · exact fun m hm => absurd hm List.not_mem_nil

instance (k : ℕ) (s : Sys) : ∀ l, Decidable (KeepsXdel k s l)
  | .delError i => inferInstanceAs (Decidable (∀ h ∈ s.handlers.rows, h.id = i → h.messageId ≠ k))
  | .crash w => inferInstanceAs (Decidable
      (∀ h ∈ s.handlers.rows, h.worker = w → isDeleting h.pc = true → h.messageId ≠ k))
  | .elapse _ | .trigger .. | .retryRun .. | .cancelRun .. | .editJobs .. | .deleteJob ..
  | .promoteDelayed _ | .tick _ | .publish _ | .drop _ | .poll _ | .reclaim .. | .reclaimed _
  | .deliver _ | .delivered _ | .acquire _ | .advance .. | .executorReturns .. | .fail _
  | .cancelTask _ | .commitThread .. | .ack _ | .ackError _ | .del _ => isTrue trivial

/- Worker 1 dies while it executes the run; worker 2 executes it and deletes the message. -/
theorem stream_accounted_after_crash :
    Machine.Visits (step {} Cron.noCron) (Accounted 0) (start reportJob)
      (claimedByFirst ++ [.crash 1] ++ reclaimedBySecond ++
        [.advance 1 31, .executorReturns 1 { status := .succeeded }, .advance 1 32, .advance 1 33,
          .advance 1 34, .advance 1 35, .ack 1, .del 1]) :=
  (stream_accounted {} Cron.noCron reportJob _).2 0 (by decide)

end Sys
end JobScheduler
