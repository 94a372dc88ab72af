import JobScheduler.Backoff

/-!
# The retries of a run

One run is delivered, fails, and is retried under a new run, until an attempt succeeds or
the job's retries are used up. Any number of handlers work on the runs of the lineage, on
any worker, each started by a fresh message; the rest of the system goes on beside them.
-/

namespace JobScheduler.Lineage
open Library Positions Database Store Runner

/- A job with its retry settings, the attempt the lineage starts with, and how the executor
ends at each attempt. -/
structure Plan where
  cfg : Settings := {}
  jobId : JobId
  maxRetries : ℤ
  retryBackoffSec : ℤ
  first : ℤ
  outcome : ℤ → Outcome

/- `lineage` holds the first run and the runs that create_retry_run has returned, in this
order; `registered` the calls of schedule_delayed_async, each with the time from the call to
the registered instant. -/
structure State where
  db : Database
  lineage : List RunId
  handlers : List Handler := []
  registered : List (RunId × ℤ) := []

def start (db : Database) (i : RunId) : State := { db := db, lineage := [i] }

inductive Label where
  | deliver (worker : WorkerId) (messageId : ℕ) (runId : RunId)
  | advance (handler : ℕ) (now : Time)
  | executorReturns (handler : ℕ)
  | other (db' : Database)

def registration (now : Time) : Option Send → Option (RunId × ℤ)
  | some (.delay i readyAt) => some (i, readyAt - now)
  | _ => none

/- What the rest of the system leaves alone: the retry settings of the job and the runs of
the lineage. -/
def settings (db : Database) (j : JobId) : Option (ℤ × ℤ) :=
  (db.jobs.get j).map fun job => (job.maxRetries, job.retryBackoffSec)

def progress (db : Database) (i : RunId) : Option (JobId × ℤ × RunStatus) :=
  (db.runs.get i).map fun r => (r.jobId, r.attempt, r.status)

def leaves (p : Plan) (s : State) (db' : Database) : Bool :=
  decide (settings db' p.jobId = settings s.db p.jobId) &&
    s.lineage.all fun i => decide (progress db' i = progress s.db i)

/- Handler k moves to pc. -/
def State.goto (s : State) (k : ℕ) (h : Handler) (pc : Pc) : State :=
  { s with handlers := s.handlers.set k { h with pc := pc } }

/- The call of handler k has returned. -/
def State.after (s : State) (k : ℕ) (h : Handler) (now : Time) (db' : Database) (pc : Pc)
    (out : Option Send) : State :=
  { s.goto k h pc with
    db := db'
    lineage := s.lineage ++ (Backoff.createdRetry pc).toList
    registered := s.registered ++ (registration now out).toList }

def step (p : Plan) (s : State) : Label → Option State
  | .deliver worker messageId runId =>
    if runId ∈ s.lineage then
      some { s with handlers := s.handlers ++
        [{ id := s.handlers.length, worker := worker, messageId := messageId, runId := runId,
           allowRunning := false, pc := .claiming }] }
    else none
  | .advance k now =>
    s.handlers[k]?.bind fun h =>
      (next p.cfg s.db h now).map fun (db', pc, out) => s.after k h now db' pc out
  | .executorReturns k =>
    s.handlers[k]?.bind fun h =>
      match h.pc with
      | .executing c => some (s.goto k h (returned c (p.outcome c.attempt).result))
      | _ => none
  | .other db' => if leaves p s db' then some { s with db := db' } else none

/- Every run of the lineage has been delivered, and every delivery dealt with. -/
def State.Complete (s : State) : Prop :=
  (∀ h ∈ s.handlers, h.pc.acks = true) ∧ ∀ i ∈ s.lineage, ∃ h ∈ s.handlers, h.runId = i

/-! ### What the lineage should be -/

namespace Plan

def succeeds (p : Plan) (i : ℤ) : Bool := (p.outcome i).result.succeeded

/- The attempts from the first one up to max(first, max_retries + 1). -/
def attempts (p : Plan) : List ℤ :=
  (List.range ((max p.first (p.maxRetries + 1) - p.first).toNat + 1)).map fun t : ℕ => p.first + t

/- The first attempt that succeeds, when it is among them. -/
def last (p : Plan) : ℤ := (p.attempts.find? p.succeeds).getD (max p.first (p.maxRetries + 1))

/- The seconds the retry after attempt i waits. -/
def wait (p : Plan) (i : ℤ) : ℤ :=
  if p.retryBackoffSec ≤ 0 then 0
  else min (p.retryBackoffSec * 2 ^ (i - 1).toNat) p.cfg.retryBackoffMaxSec

/- The runs are those of the attempts first, ..., last, one of each, every one in the status of
its outcome; each but the first is registered once, with the wait of the attempt before it. -/
structure Exact (p : Plan) (s : State) : Prop where
  runs : s.lineage.map (progress s.db) =
    (List.range ((p.last - p.first).toNat + 1)).map fun t : ℕ =>
      some (p.jobId, p.first + t, (p.outcome (p.first + t)).result.status.runStatus)
  distinct : s.lineage.Nodup
  registered : ∀ i d, (i, d) ∈ s.registered ↔
    ∃ t : ℕ, s.lineage[t + 1]? = some i ∧ d = p.wait (p.first + t) * 1000000
  once : (s.registered.map Prod.fst).Nodup

/- A queued run of the job with the first attempt. -/
structure Starts (p : Plan) (db : Database) (i : RunId) : Prop where
  job : settings db p.jobId = some (p.maxRetries, p.retryBackoffSec)
  run : progress db i = some (p.jobId, p.first, .queued)

/- _on_failure retries attempt i. -/
def Retries (p : Plan) (i : ℤ) : Prop := p.succeeds i = false ∧ i ≤ p.maxRetries

end Plan

/-! ### The invariant -/

variable {p : Plan} {s s' : State} {t k : ℕ} {i : RunId} {h : Handler} {pc : Pc}

/- What claim_run has returned for run i, attempt first + t. -/
structure Record (p : Plan) (t : ℕ) (i : RunId) (c : Claimed) : Prop where
  runId : c.runId = i
  jobId : c.jobId = p.jobId
  attempt : c.attempt = p.first + t
  maxRetries : c.maxRetries = p.maxRetries
  retryBackoffSec : c.retryBackoffSec = p.retryBackoffSec

def At (p : Plan) (s : State) (t : ℕ) (i : RunId) (st : RunStatus) : Prop :=
  progress s.db i = some (p.jobId, p.first + t, st)

def Executed (s : State) (i : RunId) : Prop :=
  ∃ (k : ℕ) (h : Handler), s.handlers[k]? = some h ∧ h.runId = i ∧ h.pc.executes = true

/- Until a run is decided it is the last of the lineage; afterwards it is so only when it is
not retried. -/
def RowOk (p : Plan) (s : State) (t : ℕ) (i : RunId) (st : RunStatus) : Prop :=
  match st with
  | .pending | .canceled => False
  | .queued => s.lineage.length = t + 1
  | .running => Executed s i
  | st => st = (p.outcome (p.first + t)).result.status.runStatus ∧
      (p.Retries (p.first + t) → t + 1 < s.lineage.length)

def PcOk (p : Plan) (s : State) (t : ℕ) (i : RunId) : Pc → Prop
  | .waiting | .deleting | .successCreate .. => False
  | .claiming => True
  | .acking | .successReady _ | .successFan _ _ | .successEnqueue _ _ _ => ¬ At p s t i .queued
  | .executing c => Record p t i c ∧ At p s t i .running ∧ s.lineage.length = t + 1
  | .successCheck c res | .successFinish c res =>
    Record p t i c ∧ At p s t i .running ∧ s.lineage.length = t + 1 ∧
      res = (p.outcome (p.first + t)).result ∧ p.succeeds (p.first + t) = true
  | .failureCheck c res =>
    Record p t i c ∧ At p s t i .running ∧ s.lineage.length = t + 1 ∧
      res = (p.outcome (p.first + t)).result ∧ p.succeeds (p.first + t) = false
  | .failureRetry c res =>
    Record p t i c ∧ At p s t i .running ∧ s.lineage.length = t + 1 ∧
      res = (p.outcome (p.first + t)).result ∧ p.Retries (p.first + t)
  | .failureDelay c res n =>
    Record p t i c ∧ At p s t i .running ∧ s.lineage[t + 1]? = some n ∧
      res = (p.outcome (p.first + t)).result ∧ p.Retries (p.first + t) ∧
      n ∉ s.registered.map Prod.fst
  | .failureFinish c res _ =>
    Record p t i c ∧ At p s t i .running ∧
      (p.Retries (p.first + t) → t + 1 < s.lineage.length) ∧
      res = (p.outcome (p.first + t)).result ∧ p.succeeds (p.first + t) = false

structure Holds (p : Plan) (s : State) : Prop where
  job : settings s.db p.jobId = some (p.maxRetries, p.retryBackoffSec)
  nonempty : 0 < s.lineage.length
  retried : ∀ t : ℕ, t + 1 < s.lineage.length → p.Retries (p.first + t)
  row : ∀ (t : ℕ) (i : RunId), s.lineage[t]? = some i → ∃ st, At p s t i st ∧ RowOk p s t i st
  handler : ∀ (k : ℕ) (h : Handler), s.handlers[k]? = some h → h.allowRunning = false ∧
    ∃ t : ℕ, s.lineage[t]? = some h.runId ∧ PcOk p s t h.runId h.pc
  unique : ∀ (k k' : ℕ) (h h' : Handler), s.handlers[k]? = some h → s.handlers[k']? = some h' →
    h.runId = h'.runId → h.pc.executes = true → h'.pc.executes = true → k = k'
  entry : ∀ i d, (i, d) ∈ s.registered →
    ∃ t : ℕ, s.lineage[t + 1]? = some i ∧ d = p.wait (p.first + t) * 1000000
  once : (s.registered.map Prod.fst).Nodup
  cover : ∀ (t : ℕ) (i : RunId), s.lineage[t + 1]? = some i → i ∈ s.registered.map Prod.fst ∨
    ∃ (k : ℕ) (h : Handler) (c : Claimed) (res : ExecResult), s.handlers[k]? = some h ∧
      h.pc = .failureDelay c res i

/-! ### Small facts -/

theorem At.unique {st st' : RunStatus} {t t' : ℕ} (h : At p s t i st) (h' : At p s t' i st') :
    t = t' ∧ st = st' := by
  have heq := h.symm.trans h'
  simp only [Option.some.injEq, Prod.mk.injEq, true_and] at heq
  exact ⟨by omega, heq.2⟩

/- A run has one place in the lineage: the attempts along it differ. -/
theorem Holds.index_unique (hs : Holds p s) {t t' : ℕ} (h : s.lineage[t]? = some i)
    (h' : s.lineage[t']? = some i) : t = t' := by
  obtain ⟨st, hat, -⟩ := hs.row t i h
  obtain ⟨st', hat', -⟩ := hs.row t' i h'
  exact (hat.unique hat').1

theorem Holds.distinct (hs : Holds p s) : s.lineage.Nodup := by
  rw [List.nodup_iff_getElem?_ne_getElem?]
  intro t t' hlt hlen heq
  have hsome : s.lineage[t]? = some s.lineage[t] := List.getElem?_eq_getElem _
  have := hs.index_unique hsome (heq ▸ hsome)
  omega

theorem PcOk.running (h : PcOk p s t i pc) (hx : pc.executes = true) : At p s t i .running := by
  cases pc <;> first | exact h.2.1 | cases hx

theorem PcOk.started (h : PcOk p s t i pc) (hpc : pc ≠ .claiming) : ¬ At p s t i .queued := by
  cases hx : pc.executes with
  | true =>
    intro hq
    exact absurd (hq.unique (h.running hx)).2 (by decide)
  | false => cases pc <;> first | exact h | exact absurd rfl hpc | exact False.elim h | cases hx

/- The run that a handler has created and not registered yet. -/
theorem PcOk.created {n : RunId} (h : PcOk p s t i pc) (hn : Backoff.createdRetry pc = some n) :
    s.lineage[t + 1]? = some n ∧ n ∉ s.registered.map Prod.fst := by
  cases pc <;> cases hn
  exact ⟨h.2.2.1, h.2.2.2.2.2⟩

/- What a handler knows stays true when its run is left alone; a run may be added to the
lineage when the handler is not at the end of it. -/
theorem PcOk.frame (h : PcOk p s t i pc) (hq : ¬ At p s t i .queued → ¬ At p s' t i .queued)
    (hx : pc.executes = true → (At p s t i .running → At p s' t i .running) ∧
      (s'.lineage = s.lineage ∨ t + 1 < s.lineage.length ∧ ∃ n, s'.lineage = s.lineage ++ [n]) ∧
      ∀ n, Backoff.createdRetry pc = some n → n ∉ s'.registered.map Prod.fst) :
    PcOk p s' t i pc := by
  cases hpc : pc.executes with
  | false => cases pc <;> first | exact hq h | exact h | cases hpc
  | true =>
    obtain ⟨hat, hlin, hreg⟩ := hx hpc
    have hlast : s.lineage.length = t + 1 → s'.lineage.length = t + 1 := by
      intro hlen
      rcases hlin with hlin | ⟨hlt, -⟩
      · rw [hlin, hlen]
      · omega
    have hmore : t + 1 < s.lineage.length → t + 1 < s'.lineage.length := by
      intro hlt
      rcases hlin with hlin | ⟨-, n, hlin⟩
      · rwa [hlin]
      · rw [hlin, List.length_append]
        omega
    cases pc with
    | executing c => exact ⟨h.1, hat h.2.1, hlast h.2.2⟩
    | successCheck c res | successFinish c res | failureCheck c res | failureRetry c res =>
      exact ⟨h.1, hat h.2.1, hlast h.2.2.1, h.2.2.2⟩
    | failureDelay c res n =>
      refine ⟨h.1, hat h.2.1, ?_, h.2.2.2.1, h.2.2.2.2.1, hreg n rfl⟩
      rcases hlin with hlin | ⟨hlt, n', hlin⟩
      · rw [hlin]
        exact h.2.2.1
      · rw [hlin, List.getElem?_append_left hlt]
        exact h.2.2.1
    | failureFinish c res error =>
      exact ⟨h.1, hat h.2.1, fun hr => hmore (h.2.2.1 hr), h.2.2.2⟩
    | _ => cases hpc

/-! ### The transitions of a handler -/

/- The rest of the system commits something. -/
theorem Holds.other (hs : Holds p s) {db' : Database} (hl : leaves p s db' = true) :
    Holds p { s with db := db' } := by
  simp only [leaves, Bool.and_eq_true, decide_eq_true_eq, List.all_eq_true] at hl
  obtain ⟨hjob, hrows⟩ := hl
  have hat : ∀ (t : ℕ) (i : RunId) (st : RunStatus), i ∈ s.lineage →
      (At p { s with db := db' } t i st ↔ At p s t i st) := by
    intro t i st hi
    rw [At, At, hrows i hi]
  refine { hs with job := hjob.trans hs.job, row := ?_, handler := ?_ }
  · intro t i ht
    obtain ⟨st, hst, hok⟩ := hs.row t i ht
    exact ⟨st, (hat t i st (List.mem_of_getElem? ht)).mpr hst, hok⟩
  · intro k h hk
    obtain ⟨hallow, t, ht, hok⟩ := hs.handler k h hk
    refine ⟨hallow, t, ht, hok.frame ?_ fun hx => ⟨?_, .inl rfl, ?_⟩⟩
    · exact fun hq hq' => hq ((hat t _ _ (List.mem_of_getElem? ht)).mp hq')
    · exact (hat t _ _ (List.mem_of_getElem? ht)).mpr
    · exact fun n hn => (hok.created hn).2

/- The lineage is the same, and a run that was executed still is. -/
theorem RowOk.frame {s' : State} {st : RunStatus} (h : RowOk p s t i st)
    (hlin : s'.lineage = s.lineage) (hex : Executed s i → Executed s' i) : RowOk p s' t i st := by
  cases st with
  | running => exact hex h
  | queued | succeeded | failed | timedOut =>
    simp only [RowOk, hlin]
    exact h
  | pending | canceled => exact h

/- A handler that does not execute the run goes on. -/
theorem Holds.pass (hs : Holds p s) (hk : s.handlers[k]? = some h) (hx : h.pc.executes = false)
    (hx' : pc.executes = false)
    (hpc : ∀ t, s.lineage[t]? = some h.runId → PcOk p s t h.runId h.pc → PcOk p s t h.runId pc) :
    Holds p (s.goto k h pc) := by
  have hkeep : ∀ (k' : ℕ) (h' : Handler), s.handlers[k']? = some h' → h'.pc.executes = true →
      (s.goto k h pc).handlers[k']? = some h' := by
    intro k' h' hk' hex
    refine getElem?_set_of_ne hk hk' ?_
    rintro rfl
    rw [hx] at hex
    cases hex
  refine { hs with row := ?_, handler := ?_, unique := ?_, cover := ?_ }
  · intro t i ht
    obtain ⟨st, hst, hok⟩ := hs.row t i ht
    refine ⟨st, hst, hok.frame rfl ?_⟩
    rintro ⟨k', h', hk', hi, hex⟩
    exact ⟨k', h', hkeep k' h' hk' hex, hi, hex⟩
  · intro k' h' hk'
    rcases set_cases hk' with ⟨-, rfl⟩ | ⟨-, hk'⟩
    · obtain ⟨hallow, t, ht, hok⟩ := hs.handler k h hk
      exact ⟨hallow, t, ht, hpc t ht hok⟩
    · exact hs.handler k' h' hk'
  · intro k1 k2 h1 h2 hk1 hk2 hrun hex1 hex2
    rcases set_cases hk1 with ⟨-, rfl⟩ | ⟨-, hk1⟩
    · rw [hx'] at hex1
      cases hex1
    · rcases set_cases hk2 with ⟨-, rfl⟩ | ⟨-, hk2⟩
      · rw [hx'] at hex2
        cases hex2
      · exact hs.unique k1 k2 h1 h2 hk1 hk2 hrun hex1 hex2
  · intro t i ht
    rcases hs.cover t i ht with hreg | ⟨k', h', c, res, hk', hpc'⟩
    · exact .inl hreg
    · exact .inr ⟨k', h', c, res, hkeep k' h' hk' (by rw [hpc']; rfl), hpc'⟩

/- No other handler executes the run of handler k. -/
def Alone (s : State) (k : ℕ) (i : RunId) : Prop :=
  ∀ k' h', s.handlers[k']? = some h' → k' ≠ k → h'.runId = i → h'.pc.executes = false

theorem Holds.alone (hs : Holds p s) (hk : s.handlers[k]? = some h)
    (hx : h.pc.executes = true) : Alone s k h.runId := by
  intro k' h' hk' hne hrun
  rw [← Bool.not_eq_true]
  exact fun hx' => hne (hs.unique k' k h' h hk' hk hrun hx' hx)

theorem Holds.alone_of_queued (hs : Holds p s) (hq : At p s t i .queued) : Alone s k i := by
  intro k' h' hk' hne hrun
  rw [← Bool.not_eq_true]
  intro hx
  obtain ⟨-, t', -, hok⟩ := hs.handler k' h' hk'
  rw [hrun] at hok
  exact absurd (hq.unique (hok.running hx)).2 (by decide)

/- A run stays executed when a handler goes on executing. -/
theorem Executed.goto (hi : Executed s i) (hk : s.handlers[k]? = some h) (pc : Pc)
    (hx : pc.executes = true) : Executed (s.goto k h pc) i := by
  obtain ⟨k', h', hk', hrun, hex⟩ := hi
  by_cases hkk : k = k'
  · subst hkk
    rw [hk] at hk'
    cases hk'
    exact ⟨k, _, getElem?_set_of_some hk, hrun, hx⟩
  · exact ⟨k', h', (List.getElem?_set_ne hkk).trans hk', hrun, hex⟩

theorem Holds.unique_set (hs : Holds p s) (halone : Alone s k h.runId) :
    ∀ (k1 k2 : ℕ) (h1 h2 : Handler), (s.goto k h pc).handlers[k1]? = some h1 →
      (s.goto k h pc).handlers[k2]? = some h2 → h1.runId = h2.runId → h1.pc.executes = true →
      h2.pc.executes = true → k1 = k2 := by
  intro k1 k2 h1 h2 hk1 hk2 hrun hex1 hex2
  rcases set_cases hk1 with ⟨rfl, rfl⟩ | ⟨hne1, hold1⟩ <;>
    rcases set_cases hk2 with ⟨rfl, rfl⟩ | ⟨hne2, hold2⟩
  · rfl
  · rw [halone k2 h2 hold2 hne2 hrun.symm] at hex2
    cases hex2
  · rw [halone k1 h1 hold1 hne1 hrun] at hex1
    cases hex1
  · exact hs.unique k1 k2 h1 h2 hold1 hold2 hrun hex1 hex2

/- The one handler that executes a run goes on, and may write the run's status. -/
theorem Holds.work (hs : Holds p s) {db' : Database} {st : RunStatus}
    (hk : s.handlers[k]? = some h) (ht : s.lineage[t]? = some h.runId)
    (halone : Alone s k h.runId)
    (hjob : settings db' p.jobId = settings s.db p.jobId)
    (hrows : ∀ i, i ≠ h.runId → progress db' i = progress s.db i)
    (hat : progress db' h.runId = some (p.jobId, p.first + t, st)) (hst : st ≠ .queued)
    (hrow : RowOk p { s.goto k h pc with db := db' } t h.runId st)
    (hpc : PcOk p { s.goto k h pc with db := db' } t h.runId pc)
    (hdelay : Backoff.createdRetry h.pc = none) :
    Holds p { s.goto k h pc with db := db' } := by
  have hother : ∀ (t' : ℕ) (i : RunId) (st' : RunStatus), i ≠ h.runId →
      (At p { s.goto k h pc with db := db' } t' i st' ↔ At p s t' i st') := by
    intro t' i st' hi
    rw [At, At, hrows i hi]
  refine { hs with job := hjob.trans hs.job, row := ?_, handler := ?_, unique := ?_, cover := ?_ }
  · intro t' i ht'
    by_cases hi : i = h.runId
    · subst hi
      rw [hs.index_unique ht' ht]
      exact ⟨st, hat, hrow⟩
    · obtain ⟨st', hst', hok⟩ := hs.row t' i ht'
      refine ⟨st', (hother t' i st' hi).mpr hst', hok.frame rfl ?_⟩
      rintro ⟨k', h', hk', hrun, hex⟩
      have hne : h' ≠ h := by
        rintro rfl
        exact hi hrun.symm
      exact ⟨k', h', getElem?_set_of_ne hk hk' hne, hrun, hex⟩
  · intro k' h' hk'
    rcases set_cases hk' with ⟨-, rfl⟩ | ⟨hne, hk'⟩
    · exact ⟨(hs.handler k h hk).1, t, ht, hpc⟩
    · obtain ⟨hallow, t', ht', hok⟩ := hs.handler k' h' hk'
      refine ⟨hallow, t', ht', hok.frame ?_ fun hx => ⟨?_, .inl rfl, ?_⟩⟩
      · intro hq hq'
        by_cases hrun : h'.runId = h.runId
        · have heq := hq'.symm.trans (hrun ▸ hat)
          simp only [Option.some.injEq, Prod.mk.injEq, true_and] at heq
          exact hst heq.2.symm
        · exact hq ((hother t' _ _ hrun).mp hq')
      · have hrun : h'.runId ≠ h.runId := by
          intro hrun
          rw [halone k' h' hk' hne hrun] at hx
          cases hx
        exact (hother t' _ _ hrun).mpr
      · exact fun n hn => (hok.created hn).2
  · exact hs.unique_set halone
  · intro t' i ht'
    rcases hs.cover t' i ht' with hreg | ⟨k', h', c, res, hk', hpc'⟩
    · exact .inl hreg
    · have hne : h' ≠ h := by
        rintro rfl
        rw [hpc'] at hdelay
        cases hdelay
      exact .inr ⟨k', h', c, res, getElem?_set_of_ne hk hk' hne, hpc'⟩

/- A fresh message of a run of the lineage. -/
theorem Holds.deliver (hs : Holds p s) (hi : h.runId ∈ s.lineage) (hallow : h.allowRunning = false)
    (hpc : h.pc = .claiming) : Holds p { s with handlers := s.handlers ++ [h] } := by
  have hx : h.pc.executes = false := by
    rw [hpc]
    rfl
  refine { hs with row := ?_, handler := ?_, unique := ?_, cover := ?_ }
  · intro t i ht
    obtain ⟨st, hst, hok⟩ := hs.row t i ht
    refine ⟨st, hst, hok.frame rfl ?_⟩
    rintro ⟨k, h', hk, hrun, hex⟩
    exact ⟨k, h', getElem?_concat hk, hrun, hex⟩
  · intro k h' hk
    rcases concat_cases hk with hk | ⟨-, rfl⟩
    · exact hs.handler k h' hk
    · obtain ⟨t, ht⟩ := List.mem_iff_getElem?.mp hi
      rw [hpc]
      exact ⟨hallow, t, ht, trivial⟩
  · intro k1 k2 h1 h2 hk1 hk2 hrun hex1 hex2
    rcases concat_cases hk1 with hk1 | ⟨-, rfl⟩
    · rcases concat_cases hk2 with hk2 | ⟨-, rfl⟩
      · exact hs.unique k1 k2 h1 h2 hk1 hk2 hrun hex1 hex2
      · rw [hx] at hex2
        cases hex2
    · rw [hx] at hex1
      cases hex1
  · intro t i ht
    rcases hs.cover t i ht with hreg | ⟨k, h', c, res, hk, hpc'⟩
    · exact .inl hreg
    · exact .inr ⟨k, h', c, res, getElem?_concat hk, hpc'⟩

theorem Holds.lt_next (hs : Holds p s) (hi : i ∈ s.lineage) : i < s.db.runs.next := by
  obtain ⟨t, ht⟩ := List.mem_iff_getElem?.mp hi
  obtain ⟨st, hat, -⟩ := hs.row t i ht
  obtain ⟨r, hr, -⟩ := Option.map_eq_some_iff.mp hat
  exact Table.lt_next_of_get hr

theorem progress_addRun {db : Database} {n : NewRun} (ha : db.Admits n) :
    (∀ i, i < db.runs.next → progress (db.addRun n ha) i = progress db i) ∧
      progress (db.addRun n ha) db.runs.next = some (n.jobId, n.attempt, n.status) := by
  constructor
  · intro i hi
    rw [progress, get_addRun, if_neg (Nat.ne_of_lt hi), progress]
  · rw [progress, get_addRun, if_pos rfl]
    rfl

/- create_retry_run returns: the lineage grows by the next attempt. -/
theorem Holds.retry (hs : Holds p s) {c : Claimed} {res : ExecResult} {n : NewRun}
    (hk : s.handlers[k]? = some h) (hpc : h.pc = .failureRetry c res) (ha : s.db.Admits n)
    (hn : n.jobId = c.jobId ∧ n.attempt = c.attempt + 1 ∧ n.status = .queued) :
    Holds p { s.goto k h (.failureDelay c res s.db.runs.next) with
      db := s.db.addRun n ha, lineage := s.lineage ++ [s.db.runs.next] } := by
  obtain ⟨hallow, t, ht, hok⟩ := hs.handler k h hk
  rw [hpc] at hok
  obtain ⟨hrec, hrunning, hlen, hres, hretries⟩ := hok
  have halone : Alone s k h.runId := hs.alone hk (by rw [hpc]; rfl)
  obtain ⟨hold, hnew⟩ := progress_addRun ha
  rw [hn.1, hn.2.1, hn.2.2, hrec.jobId, hrec.attempt] at hnew
  have hat : ∀ (t' : ℕ) (i : RunId) (st : RunStatus), i ∈ s.lineage →
      progress (s.db.addRun n ha) i = some (p.jobId, p.first + t', st) → At p s t' i st := by
    intro t' i st hi heq
    rw [hold i (hs.lt_next hi)] at heq
    exact heq
  refine ⟨hs.job, ?_, ?_, ?_, ?_, ?_, ?_, hs.once, ?_⟩
  · rw [List.length_append]
    exact Nat.lt_add_right _ hs.nonempty
  · intro t' ht'
    rw [List.length_append, List.length_singleton] at ht'
    rcases Nat.lt_or_ge (t' + 1) s.lineage.length with hlt | hge
    · exact hs.retried t' hlt
    · have heq : t' = t := by omega
      rw [heq]
      exact hretries
  · intro t' i ht'
    rcases concat_cases ht' with ht' | ⟨rfl, rfl⟩
    · have hi := List.mem_of_getElem? ht'
      obtain ⟨st, hst, hrow⟩ := hs.row t' i ht'
      refine ⟨st, (hold i (hs.lt_next hi)).trans hst, ?_⟩
      cases st with
      | queued =>
        -- the last run of the lineage is the one that is executed
        have heq : t' = t := Nat.succ.inj (hrow.symm.trans hlen)
        subst heq
        rw [ht] at ht'
        cases ht'
        exact absurd (hst.unique hrunning).2 (by decide)
      | running => exact Executed.goto hrow hk _ rfl
      | pending | canceled => exact hrow
      | succeeded | failed | timedOut =>
        refine ⟨hrow.1, fun hr => ?_⟩
        rw [List.length_append]
        exact Nat.lt_add_right _ (hrow.2 hr)
    · refine ⟨.queued, ?_, List.length_append⟩
      rw [At, hnew, hlen]
      push_cast
      rw [add_assoc]
  · intro k' h' hk'
    rcases set_cases hk' with ⟨-, rfl⟩ | ⟨hne, hk'⟩
    · refine ⟨hallow, t, getElem?_concat ht, hrec, ?_, ?_, hres, hretries, ?_⟩
      · exact (hold h.runId (hs.lt_next (List.mem_of_getElem? ht))).trans hrunning
      · rw [← hlen]
        exact List.getElem?_concat_length
      · intro hmem
        obtain ⟨⟨i, d⟩, hmem, heq⟩ := List.mem_map.mp hmem
        obtain ⟨t', ht', -⟩ := hs.entry i d hmem
        exact absurd heq (Nat.ne_of_lt (hs.lt_next (List.mem_of_getElem? ht')))
    · obtain ⟨hallow', t', ht', hok'⟩ := hs.handler k' h' hk'
      have hi := List.mem_of_getElem? ht'
      refine ⟨hallow', t', getElem?_concat ht', hok'.frame ?_ fun hx => ⟨?_, .inr ⟨?_, _, rfl⟩, ?_⟩⟩
      · exact fun hq hq' => hq (hat t' _ _ hi hq')
      · exact fun hr => (hold _ (hs.lt_next hi)).trans hr
      · have hlt := (List.getElem?_eq_some_iff.mp ht').1
        by_contra hge
        have heq : t' = t := by omega
        subst heq
        rw [ht] at ht'
        rw [halone k' h' hk' hne (Option.some.inj ht').symm] at hx
        cases hx
      · exact fun n' hn' => (hok'.created hn').2
  · exact hs.unique_set halone
  · intro i d hmem
    obtain ⟨t', ht', hd⟩ := hs.entry i d hmem
    exact ⟨t', getElem?_concat ht', hd⟩
  · intro t' i ht'
    rcases concat_cases ht' with ht' | ⟨-, rfl⟩
    · rcases hs.cover t' i ht' with hreg | ⟨k', h', c', res', hk', hpc'⟩
      · exact .inl hreg
      · have hne : h' ≠ h := by
          rintro rfl
          rw [hpc] at hpc'
          cases hpc'
        exact .inr ⟨k', h', c', res', getElem?_set_of_ne hk hk' hne, hpc'⟩
    · exact .inr ⟨k, _, c, res, getElem?_set_of_some hk, rfl⟩

/- schedule_delayed_async returns. -/
theorem Holds.delay (hs : Holds p s) {c : Claimed} {res : ExecResult} {n : RunId}
    {error : Option String} {d : ℤ} (hk : s.handlers[k]? = some h)
    (hpc : h.pc = .failureDelay c res n)
    (hd : d = backoffSeconds p.cfg c.attempt c.retryBackoffSec * 1000000) :
    Holds p { s.goto k h (.failureFinish c res error) with
      registered := s.registered ++ [(n, d)] } := by
  obtain ⟨hallow, t, ht, hok⟩ := hs.handler k h hk
  rw [hpc] at hok
  obtain ⟨hrec, hrunning, hn, hres, hretries, hunreg⟩ := hok
  have halone : Alone s k h.runId := hs.alone hk (by rw [hpc]; rfl)
  refine { hs with
    row := ?_, handler := ?_, unique := hs.unique_set halone, entry := ?_, once := ?_, cover := ?_ }
  · intro t' i ht'
    obtain ⟨st, hst, hrow⟩ := hs.row t' i ht'
    exact ⟨st, hst, hrow.frame rfl fun hex => Executed.goto hex hk _ rfl⟩
  · intro k' h' hk'
    rcases set_cases hk' with ⟨-, rfl⟩ | ⟨hne, hk'⟩
    · refine ⟨hallow, t, ht, hrec, hrunning, fun _ => ?_, hres, hretries.1⟩
      exact (List.getElem?_eq_some_iff.mp hn).1
    · obtain ⟨hallow', t', ht', hok'⟩ := hs.handler k' h' hk'
      refine ⟨hallow', t', ht', hok'.frame id fun hx => ⟨id, .inl rfl, ?_⟩⟩
      intro n' hn'
      obtain ⟨hnext, hunreg'⟩ := hok'.created hn'
      rw [List.map_append, List.mem_append, not_or]
      refine ⟨hunreg', fun hmem => ?_⟩
      -- the other handler would execute the same run
      rw [List.mem_singleton.mp hmem] at hnext
      have heq : t' = t := Nat.succ.inj (hs.index_unique hnext hn)
      subst heq
      rw [ht] at ht'
      rw [halone k' h' hk' hne (Option.some.inj ht').symm] at hx
      cases hx
  · intro i d' hmem
    rcases List.mem_append.mp hmem with hmem | hmem
    · exact hs.entry i d' hmem
    · cases List.mem_singleton.mp hmem
      refine ⟨t, hn, ?_⟩
      rw [hd, hrec.attempt, hrec.retryBackoffSec]
      rfl
  · rw [List.map_append]
    exact List.nodup_append.mpr ⟨hs.once, List.nodup_singleton _, by
      intro a ha b hb hab
      rw [List.mem_singleton.mp hb] at hab
      exact hunreg ((show a = n from hab) ▸ ha)⟩
  · intro t' i ht'
    rw [List.map_append, List.mem_append]
    rcases hs.cover t' i ht' with hreg | ⟨k', h', c', res', hk', hpc'⟩
    · exact .inl (.inl hreg)
    · by_cases hkk : k = k'
      · subst hkk
        rw [hk] at hk'
        cases hk'
        rw [hpc] at hpc'
        cases hpc'
        exact .inl (.inr (List.mem_singleton.mpr rfl))
      · exact .inr ⟨k', h', c', res', (List.getElem?_set_ne hkk).trans hk', hpc'⟩

/-! ### The calls of process_run -/

theorem after_eq_goto {db' : Database} {now : Time} {out : Option Send}
    (hpc : Backoff.createdRetry pc = none) (hout : registration now out = none) :
    s.after k h now db' pc out = { s.goto k h pc with db := db' } := by
  simp [State.after, State.goto, hpc, hout]

theorem progress_updateRun {db : Database} {g : RunStatus → Bool} {f : JobRun → JobRun}
    {hf : KeepsRun f} {r : JobRun} (hr : db.runs.get i = some r) (hg : g r.status = true) :
    progress (updateRun db i g f hf) i = some ((f r).jobId, (f r).attempt, (f r).status) := by
  rw [progress, get_updateRun, if_pos rfl, hr, Option.map_some, if_pos hg]
  rfl

theorem progress_updateRun_ne {db : Database} {g : RunStatus → Bool} {f : JobRun → JobRun}
    {hf : KeepsRun f} {i' : RunId} (hne : i' ≠ i) :
    progress (updateRun db i g f hf) i' = progress db i' := by
  rw [progress, get_updateRun, if_neg hne, progress]

theorem At.row {st : RunStatus} (h : At p s t i st) :
    ∃ r, s.db.runs.get i = some r ∧ r.jobId = p.jobId ∧ r.attempt = p.first + t ∧
      r.status = st := by
  obtain ⟨r, hr, heq⟩ := Option.map_eq_some_iff.mp h
  simp only [Prod.mk.injEq] at heq
  exact ⟨r, hr, heq⟩

theorem At.not_canceled (h : At p s t i .running) : isRunCanceled s.db i = false := by
  rw [← Bool.not_eq_true, isRunCanceled_iff]
  rintro ⟨r, hr, hcan⟩
  obtain ⟨r', hr', -, -, hst⟩ := h.row
  rw [hr] at hr'
  cases hr'
  rw [hcan] at hst
  cases hst

theorem At.finished (h : At p s t i .running) (st : RunStatus) (exitCode : Option ℤ)
    (result : Option Json) (error : Option String) (now : Time) :
    progress (finishRun s.db i st exitCode result error now) i =
      some (p.jobId, p.first + t, st) := by
  obtain ⟨r, hr, hjob, hatt, hst⟩ := h.row
  rw [finishRun, progress_updateRun hr (by rw [hst]; rfl)]
  simp only [finishedRow, hjob, hatt]

/- A decided run is the last of the lineage unless it is retried. -/
theorem rowOk_decided (h : p.Retries (p.first + t) → t + 1 < s.lineage.length) :
    RowOk p s t i (p.outcome (p.first + t)).result.status.runStatus := by
  cases hst : (p.outcome (p.first + t)).result.status with
  | succeeded | failed | timedOut => exact ⟨by rw [hst], h⟩

/- A handler that executes the run goes on without a write. -/
theorem Holds.move (hs : Holds p s) (hk : s.handlers[k]? = some h)
    (ht : s.lineage[t]? = some h.runId) (hat : At p s t h.runId .running)
    (hx : h.pc.executes = true) (hx' : pc.executes = true) (hpc : PcOk p s t h.runId pc)
    (hdelay : Backoff.createdRetry h.pc = none) : Holds p (s.goto k h pc) := by
  have hself : Executed (s.goto k h pc) h.runId :=
    ⟨k, _, getElem?_set_of_some hk, rfl, hx'⟩
  exact hs.work hk ht (hs.alone hk hx) rfl (fun _ _ => rfl) hat (by decide) hself hpc hdelay

theorem Holds.claimed (hs : Holds p s) {r : JobRun} {job : Job} {now : Time}
    (hk : s.handlers[k]? = some h) (hr : s.db.runs.get h.runId = some r)
    (hg : claimable h.allowRunning r.status = true) (hjob : s.db.jobs.get r.jobId = some job)
    (hpc : h.pc = .claiming) :
    Holds p { s.goto k h (.executing (claimedOf (claimedRow h.worker now r) job)) with
      db := updateRun s.db h.runId (claimable h.allowRunning) (claimedRow h.worker now)
        (claimedRow_keeps h.worker now) } := by
  obtain ⟨hallow, t, ht, -⟩ := hs.handler k h hk
  obtain ⟨st, hat, hrow⟩ := hs.row t _ ht
  obtain ⟨r', hr', hrjob, hratt, rfl⟩ := hat.row
  rw [hr] at hr'
  cases hr'
  have hqueued : r.status = .queued := by
    rw [hallow] at hg
    cases hst : r.status <;> rw [hst] at hg hrow <;> first | rfl | exact False.elim hrow | cases hg
  rw [hqueued] at hat hrow
  have hrunning : progress (updateRun s.db h.runId (claimable h.allowRunning)
      (claimedRow h.worker now) (claimedRow_keeps h.worker now)) h.runId =
        some (p.jobId, p.first + t, .running) := by
    rw [progress_updateRun hr hg]
    simp only [claimedRow, hrjob, hratt]
  have hrec : Record p t h.runId (claimedOf (claimedRow h.worker now r) job) := by
    obtain ⟨job', hjob', heq⟩ := Option.map_eq_some_iff.mp hs.job
    rw [hrjob, hjob'] at hjob
    cases hjob
    simp only [Prod.mk.injEq] at heq
    exact ⟨Table.key_of_get hr, hrjob, hratt, heq.1, heq.2⟩
  refine hs.work hk ht (hs.alone_of_queued hat) rfl (fun i' hne => progress_updateRun_ne hne)
    hrunning (by decide) ?_ ⟨hrec, hrunning, hrow⟩ (by rw [hpc]; rfl)
  exact ⟨k, _, getElem?_set_of_some hk, rfl, rfl⟩

/- finish_run, at the end of either path. -/
theorem Holds.finished (hs : Holds p s) {st : RunStatus} (exitCode : Option ℤ)
    (result : Option Json) (error : Option String) (now : Time) (hk : s.handlers[k]? = some h)
    (ht : s.lineage[t]? = some h.runId) (hat : At p s t h.runId .running)
    (hx : h.pc.executes = true) (hdelay : Backoff.createdRetry h.pc = none)
    (hst : st = (p.outcome (p.first + t)).result.status.runStatus)
    (hlen : p.Retries (p.first + t) → t + 1 < s.lineage.length)
    (hpc : ∀ s', ¬ At p s' t h.runId .queued → PcOk p s' t h.runId pc) :
    Holds p { s.goto k h pc with
      db := finishRun s.db h.runId st exitCode result error now } := by
  have hne : st ≠ .queued := by
    rw [hst]
    cases (p.outcome (p.first + t)).result.status <;> decide
  have hat' := hat.finished st exitCode result error now
  refine hs.work hk ht (hs.alone hk hx) rfl (fun i' hne => progress_updateRun_ne hne) hat' hne
    (hst ▸ rowOk_decided hlen) (hpc _ ?_) hdelay
  intro hq
  have heq := hq.symm.trans hat'
  simp only [Option.some.injEq, Prod.mk.injEq, true_and] at heq
  exact hne heq.symm

/- The fan-out writes pending and new runs only. -/
theorem Holds.leaves_createDependencyRun (hs : Holds p s) {db' : Database} {j : JobId} {now : Time}
    {out : Option RunId} (hcreate : createDependencyRun s.db j now = some (db', out)) :
    leaves p s db' = true := by
  simp only [leaves, Bool.and_eq_true, decide_eq_true_eq, List.all_eq_true]
  rcases createDependencyRun_cases hcreate with
    ⟨-, rfl, -⟩ | ⟨-, r, hr, rfl, -⟩ | ⟨-, ha, rfl, -⟩
  · exact ⟨rfl, fun i hi => rfl⟩
  · refine ⟨rfl, fun i hi => progress_updateRun_ne ?_⟩
    rintro rfl
    obtain ⟨hmem, -, hpending⟩ := oldestRun_eq_some hr
    obtain ⟨t, ht⟩ := List.mem_iff_getElem?.mp hi
    obtain ⟨st, hat, hrow⟩ := hs.row t _ ht
    obtain ⟨r', hr', -, -, hst⟩ := hat.row
    have heq : r = r' := Option.some.inj ((Table.get_of_mem hmem).symm.trans hr')
    rw [← hst, ← heq, of_decide_eq_true hpending] at hrow
    exact hrow
  · exact ⟨rfl, fun i hi => (progress_addRun ha).1 i (hs.lt_next hi)⟩

theorem Holds.admits (hs : Holds p s) {n : NewRun} (hj : n.jobId = p.jobId)
    (hn : n.scheduledFor = none) : s.db.Admits n := by
  obtain ⟨job, hjob, -⟩ := Option.map_eq_some_iff.mp hs.job
  obtain ⟨hmem, hid⟩ := Table.get_eq_some.mp hjob
  exact ⟨⟨job, hmem, hid.trans hj.symm⟩, fun _ _ _ _ => hn⟩

theorem retryable_of_not_succeeded {res : ExecResult} (h : res.succeeded = false) :
    retryable res.status = true := by
  rw [ExecResult.succeeded, decide_eq_false_iff_not] at h
  cases hst : res.status with
  | succeeded => exact absurd hst h
  | failed | timedOut => rfl

/- The retry enters the lineage when its row does. -/
theorem after_retryCreated {c : Claimed} {res : ExecResult} {n : NewRun} (now : Time)
    (ha : s.db.Admits n) :
    s.after k h now (s.db.addRun n ha) (.failureDelay c res s.db.runs.next) none =
      { s.goto k h (.failureDelay c res s.db.runs.next) with
        db := s.db.addRun n ha
        lineage := s.lineage ++ [s.db.runs.next] } := by
  simp [State.after, State.goto, Backoff.createdRetry, registration]

theorem after_delayed {c : Claimed} {res : ExecResult} {i : RunId} (error : Option String)
    (now readyAt : Time) :
    s.after k h now s.db (.failureFinish c res error) (some (.delay i readyAt)) =
      { s.goto k h (.failureFinish c res error) with
        registered := s.registered ++ [(i, readyAt - now)] } := by
  simp [State.after, State.goto, Backoff.createdRetry, registration]

theorem Holds.advance (hs : Holds p s) {now : Time} {db' : Database} {out : Option Send}
    (hk : s.handlers[k]? = some h) (hn : next p.cfg s.db h now = some (db', pc, out)) :
    Holds p (s.after k h now db' pc out) := by
  obtain ⟨hallow, t, ht, hok⟩ := hs.handler k h hk
  have hadv := advance_of_next hn
  dsimp only at hadv
  generalize hpc : h.pc = pc0 at hadv hok
  have hx : ∀ b, pc0.executes = b → h.pc.executes = b := fun b hb => hpc ▸ hb
  have hd : ∀ o, Backoff.createdRetry pc0 = o → Backoff.createdRetry h.pc = o :=
    fun o ho => hpc ▸ ho
  cases hadv with
  | refused hno =>
    rw [after_eq_goto rfl rfl]
    refine hs.pass hk (hx _ rfl) rfl fun t ht _ hq => ?_
    obtain ⟨r, hr, -, -, hst⟩ := hq.row
    have hfalse := hno r hr
    rw [hst, hallow] at hfalse
    cases hfalse
  | claimed r job hr hg hjob =>
    rw [after_eq_goto rfl rfl]
    exact hs.claimed hk hr hg hjob hpc
  | successSkipped c res hcan =>
    rw [hok.1.runId, hok.2.1.not_canceled] at hcan
    cases hcan
  | successChecked c res hcan =>
    rw [after_eq_goto rfl rfl]
    exact hs.move hk ht hok.2.1 (hx _ rfl) rfl hok (hd _ rfl)
  | succeeded c res =>
    obtain ⟨hrec, hat, hlen, hres, hsucc⟩ := hok
    rw [after_eq_goto rfl rfl, hrec.runId]
    refine hs.finished _ _ _ _ hk ht hat (hx _ rfl) (hd _ rfl) ?_ ?_ fun s' hq => hq
    · rw [of_decide_eq_true hsucc]
      rfl
    · intro hretries
      rw [hretries.1] at hsucc
      cases hsucc
  | ready c =>
    rw [after_eq_goto rfl rfl]
    exact hs.pass hk (hx _ rfl) rfl (hpc ▸ fun _ _ hq => hq)
  | fannedOut c =>
    rw [after_eq_goto rfl rfl]
    exact hs.pass hk (hx _ rfl) rfl (hpc ▸ fun _ _ hq => hq)
  | dependencyRaised c j js hcreate =>
    rw [after_eq_goto rfl rfl]
    exact hs.pass hk (hx _ rfl) rfl (hpc ▸ fun _ _ hq => hq)
  | dependencySkipped c j js db' hcreate =>
    rw [after_eq_goto rfl rfl]
    exact (hs.other (hs.leaves_createDependencyRun hcreate)).pass hk (hx _ rfl) rfl
      (hpc ▸ fun _ _ hq => hq)
  | dependencyCreated c j js db' i hcreate =>
    rw [after_eq_goto rfl rfl]
    exact (hs.other (hs.leaves_createDependencyRun hcreate)).pass hk (hx _ rfl) rfl
      (hpc ▸ fun _ _ hq => hq)
  | enqueued c i js =>
    rw [after_eq_goto rfl rfl]
    exact hs.pass hk (hx _ rfl) rfl (hpc ▸ fun _ _ hq => hq)
  | failureSkipped c res hcan =>
    rw [hok.1.runId, hok.2.1.not_canceled] at hcan
    cases hcan
  | retries c res hcan =>
    obtain ⟨hrec, hat, hlen, hres, hfail⟩ := hok
    have hretry := willRetry_of_retries hpc hcan hn
    rw [willRetry, Bool.and_eq_true, shouldRetry, decide_eq_true_eq, hrec.attempt,
      hrec.maxRetries] at hretry
    rw [after_eq_goto rfl rfl]
    exact hs.move hk ht hat (hx _ rfl) rfl ⟨hrec, hat, hlen, hres, hfail, hretry.2⟩ (hd _ rfl)
  | givesUp c res hcan =>
    obtain ⟨hrec, hat, hlen, hres, hfail⟩ := hok
    have hretry := willRetry_of_givesUp hpc hcan hn
    rw [willRetry, ← Bool.not_eq_true, Bool.and_eq_true, shouldRetry, decide_eq_true_eq,
      hrec.attempt, hrec.maxRetries] at hretry
    rw [after_eq_goto rfl rfl]
    refine hs.move hk ht hat (hx _ rfl) rfl ⟨hrec, hat, ?_, hres, hfail⟩ (hd _ rfl)
    exact fun hr => absurd ⟨retryable_of_not_succeeded (hres ▸ hfail), hr.2⟩ hretry
  | retryRaised c res hno =>
    rw [createRetryRun, insertRun, dif_pos (hs.admits hok.1.jobId rfl)] at hno
    cases hno
  | retryCreated c res db' i hcreate =>
    obtain ⟨rfl, ha, rfl⟩ := insertRun_eq_some hcreate
    rw [after_retryCreated now ha]
    exact hs.retry hk hpc ha ⟨rfl, rfl, rfl⟩
  | delayed c res i =>
    rw [after_delayed]
    exact hs.delay hk hpc (add_sub_cancel_left _ _)
  | failed c res error =>
    obtain ⟨hrec, hat, hlen, hres, hfail⟩ := hok
    rw [after_eq_goto rfl rfl, hrec.runId]
    exact hs.finished _ _ _ _ hk ht hat (hx _ rfl) (hd _ rfl) (by rw [hres]) hlen fun s' hq => hq

theorem Holds.executorReturns (hs : Holds p s) {c : Claimed} (hk : s.handlers[k]? = some h)
    (hpc : h.pc = .executing c) :
    Holds p (s.goto k h (returned c (p.outcome c.attempt).result)) := by
  obtain ⟨hallow, t, ht, hok⟩ := hs.handler k h hk
  rw [hpc] at hok
  obtain ⟨hrec, hat, hlen⟩ := hok
  rw [hrec.attempt, returned]
  split
  · rename_i hsucc
    exact hs.move hk ht hat (by rw [hpc]; rfl) rfl ⟨hrec, hat, hlen, rfl, hsucc⟩ (by rw [hpc]; rfl)
  · rename_i hfail
    exact hs.move hk ht hat (by rw [hpc]; rfl) rfl
      ⟨hrec, hat, hlen, rfl, Bool.eq_false_of_not_eq_true hfail⟩ (by rw [hpc]; rfl)

theorem Holds.step {l : Label} (hs : Holds p s) (hstep : Lineage.step p s l = some s') :
    Holds p s' := by
  cases l with
  | deliver worker messageId runId =>
    simp only [Lineage.step] at hstep
    split at hstep
    · rename_i hmem
      cases hstep
      exact hs.deliver hmem rfl rfl
    · cases hstep
  | advance k now =>
    obtain ⟨h, hk, hstep⟩ := Option.bind_eq_some_iff.mp hstep
    obtain ⟨⟨db', pc, out⟩, hn, rfl⟩ := Option.map_eq_some_iff.mp hstep
    exact hs.advance hk hn
  | executorReturns k =>
    obtain ⟨h, hk, hstep⟩ := Option.bind_eq_some_iff.mp hstep
    split at hstep
    · rename_i c hpc
      cases hstep
      exact hs.executorReturns hk hpc
    · cases hstep
  | other db' =>
    simp only [Lineage.step] at hstep
    split at hstep
    · rename_i hl
      cases hstep
      exact hs.other hl
    · cases hstep

theorem Plan.Starts.holds {db : Database} (h : p.Starts db i) : Holds p (start db i) where
  job := h.job
  nonempty := Nat.one_pos
  retried := fun t ht => absurd ht (by simp [start])
  row := by
    intro t i' ht
    obtain ⟨hlt, heq⟩ := List.getElem?_eq_some_iff.mp ht
    have ht0 : t = 0 := Nat.lt_one_iff.mp hlt
    subst ht0
    cases heq
    exact ⟨.queued, by simpa [At, start] using h.run, rfl⟩
  handler := fun k h hk => absurd hk (by simp [start])
  unique := fun k k' h h' hk => absurd hk (by simp [start])
  entry := fun i d hmem => absurd hmem List.not_mem_nil
  once := List.nodup_nil
  cover := fun t i ht => absurd ht (by simp [start])

/-! ### Complete states -/

/- The last attempt is found by its two properties: the attempts before it are retried, and it
is not. -/
theorem Plan.last_eq {n : ℕ} (hretried : ∀ t : ℕ, t < n → p.Retries (p.first + t))
    (hlast : ¬ p.Retries (p.first + n)) : p.last = p.first + n := by
  have hle : p.first + n ≤ max p.first (p.maxRetries + 1) := by
    rcases n with _ | m
    · exact le_max_of_le_left (by simp)
    · have hm := (hretried m (Nat.lt_succ_self m)).2
      refine le_max_of_le_right ?_
      push_cast
      omega
  by_cases hsucc : p.succeeds (p.first + n) = true
  · have hfind : p.attempts.find? p.succeeds = some (p.first + n) := by
      rw [Plan.attempts, List.find?_map, Option.map_eq_some_iff]
      refine ⟨n, ?_, rfl⟩
      rw [List.find?_range_eq_some]
      refine ⟨hsucc, List.mem_range.mpr (by omega), fun t ht => ?_⟩
      rw [Function.comp_apply, (hretried t ht).1]
      rfl
    rw [Plan.last, hfind, Option.getD_some]
  · have hgt : p.maxRetries < p.first + n := by
      by_contra hno
      exact hlast ⟨Bool.eq_false_of_not_eq_true hsucc, by omega⟩
    have hmax : max p.first (p.maxRetries + 1) = p.first + n := le_antisymm (by omega) hle
    have hfind : p.attempts.find? p.succeeds = none := by
      rw [List.find?_eq_none]
      intro i hi
      obtain ⟨t, ht, rfl⟩ := List.mem_map.mp hi
      have ht := List.mem_range.mp ht
      rw [hmax] at ht
      rcases Nat.lt_or_ge t n with hlt | hge
      · rw [(hretried t hlt).1]
        decide
      · have heq : t = n := by omega
        rw [heq]
        exact hsucc
    rw [Plan.last, hfind, Option.getD_none, hmax]

theorem executes_of_acks (h : pc.acks = true) : pc.executes = false := by
  cases pc <;> first | rfl | cases h

/- In a complete state every run of the lineage is decided. -/
theorem Holds.decided (hs : Holds p s) (hc : s.Complete) (ht : s.lineage[t]? = some i) :
    At p s t i (p.outcome (p.first + t)).result.status.runStatus ∧
      (p.Retries (p.first + t) → t + 1 < s.lineage.length) := by
  obtain ⟨st, hat, hrow⟩ := hs.row t i ht
  cases st with
  | pending | canceled => exact False.elim hrow
  | queued =>
    obtain ⟨h, hmem, rfl⟩ := hc.2 i (List.mem_of_getElem? ht)
    obtain ⟨k, hk⟩ := List.mem_iff_getElem?.mp hmem
    obtain ⟨-, t', ht', hok⟩ := hs.handler k h hk
    rw [hs.index_unique ht' ht] at hok
    refine absurd hat (hok.started ?_)
    intro hpc
    have hacks := hc.1 h hmem
    rw [hpc] at hacks
    cases hacks
  | running =>
    obtain ⟨k, h, hk, -, hx⟩ := hrow
    rw [executes_of_acks (hc.1 h (List.mem_of_getElem? hk))] at hx
    cases hx
  | succeeded | failed | timedOut => exact ⟨hrow.1 ▸ hat, hrow.2⟩

theorem Holds.exact_of_complete (hs : Holds p s) (hc : s.Complete) : p.Exact s where
  runs := by
    have hlast : p.last = p.first + (s.lineage.length - 1 : ℕ) := by
      refine Plan.last_eq (fun t ht => hs.retried t (by omega)) fun hr => ?_
      have hlt : s.lineage.length - 1 < s.lineage.length := Nat.sub_one_lt_of_lt hs.nonempty
      have := (hs.decided hc (List.getElem?_eq_getElem hlt)).2 hr
      omega
    have hlen : (p.last - p.first).toNat + 1 = s.lineage.length := by
      have := hs.nonempty
      omega
    rw [hlen]
    refine List.ext_getElem? fun t => ?_
    rw [List.getElem?_map, List.getElem?_map]
    cases ht : s.lineage[t]? with
    | none =>
      rw [List.getElem?_eq_none (by rw [List.length_range]; exact List.getElem?_eq_none_iff.mp ht)]
      rfl
    | some i =>
      rw [List.getElem?_range (List.getElem?_eq_some_iff.mp ht).1]
      exact congrArg some (hs.decided hc ht).1
  distinct := hs.distinct
  registered := by
    intro i d
    constructor
    · exact hs.entry i d
    · rintro ⟨t, ht, rfl⟩
      rcases hs.cover t i ht with hreg | ⟨k, h, c, res, hk, hpc⟩
      · obtain ⟨⟨i', d⟩, hmem, rfl⟩ := List.mem_map.mp hreg
        obtain ⟨t', ht', rfl⟩ := hs.entry i' d hmem
        rw [Nat.succ.inj (hs.index_unique ht' ht)] at hmem
        exact hmem
      · have hacks := hc.1 h (List.mem_of_getElem? hk)
        rw [hpc] at hacks
        cases hacks
  once := hs.once

/-! ### Every history can be completed -/

theorem PcOk.working (h : PcOk p s t i pc) (hpc : pc.acks = false) : pc.working = true := by
  cases pc <;> first | rfl | exact False.elim h | cases hpc

theorem PcOk.not_create (h : PcOk p s t i pc) (c : Claimed) (x : Promotion) (js : List JobId) :
    pc ≠ .successCreate c x js := by
  rintro rfl
  exact h

/- One step of handler k alone. -/
theorem Holds.exists_step (hs : Holds p s) (hk : s.handlers[k]? = some h)
    (hacks : h.pc.acks = false) :
    ∃ l s' pc, Lineage.step p s l = some s' ∧ Nearer pc h.pc ∧
      s'.handlers = s.handlers.set k { h with pc := pc } ∧ s.lineage <+: s'.lineage := by
  obtain ⟨-, t, -, hok⟩ := hs.handler k h hk
  by_cases hx : ∃ c, h.pc = .executing c
  · obtain ⟨c, hpc⟩ := hx
    refine ⟨.executorReturns k, s.goto k h (returned c (p.outcome c.attempt).result), _, ?_, ?_,
      rfl, List.prefix_rfl⟩
    · simp only [Lineage.step, hk, Option.bind_some, hpc]
    · rw [hpc, returned]
      split <;> exact nearer_of_stage (by simp [stage])
  · obtain ⟨⟨db', pc, out⟩, hn⟩ :=
      exists_next p.cfg s.db 0 (hok.working hacks) (fun c hpc => hx ⟨c, hpc⟩) hok.not_create
    refine ⟨.advance k 0, s.after k h 0 db' pc out, pc, ?_, nearer_of_advance (advance_of_next hn),
      rfl, List.prefix_append _ _⟩
    simp only [Lineage.step, hk, Option.bind_some, hn, Option.map_some]

/- Handler k runs to its acknowledgement. -/
theorem Holds.drive {s : State} {h : Handler} (hs : Holds p s) (hk : s.handlers[k]? = some h) :
    ∃ ms s' h', Machine.run (Lineage.step p) s ms = some s' ∧ Holds p s' ∧
      h'.pc.acks = true ∧ h'.runId = h.runId ∧ s'.handlers = s.handlers.set k h' ∧
      s.lineage <+: s'.lineage := by
  cases hacks : h.pc.acks with
  | true =>
    obtain ⟨hlt, heq⟩ := List.getElem?_eq_some_iff.mp hk
    have hset : s.handlers = s.handlers.set k h := by rw [← heq, List.set_getElem_self]
    exact ⟨[], s, h, rfl, hs, hacks, rfl, hset, List.prefix_rfl⟩
  | false =>
    obtain ⟨l, s1, pc, hstep, hnear, hset, hpre⟩ := hs.exists_step hk hacks
    have hk1 : s1.handlers[k]? = some { h with pc := pc } := by
      rw [hset]
      exact getElem?_set_of_some hk
    obtain ⟨ms, s2, h2, hrun, hs2, hacks2, hid, hset2, hpre2⟩ := (hs.step hstep).drive hk1
    refine ⟨l :: ms, s2, h2, Machine.run_cons.mpr ⟨s1, hstep, hrun⟩, hs2, hacks2, hid, ?_,
      hpre.trans hpre2⟩
    rw [hset2, hset, List.set_set]
termination_by (stage h.pc, load h.pc)
decreasing_by exact hnear

/- The first n handlers run to their acknowledgements, one after the other. -/
theorem Holds.drain (hs : Holds p s) (n : ℕ) (hn : n ≤ s.handlers.length) :
    ∃ ms s', Machine.run (Lineage.step p) s ms = some s' ∧ Holds p s' ∧
      (∀ k h, k < n → s'.handlers[k]? = some h → h.pc.acks = true) ∧
      s'.handlers.map Handler.runId = s.handlers.map Handler.runId ∧
      s.lineage <+: s'.lineage := by
  induction n with
  | zero =>
    exact ⟨[], s, rfl, hs, fun k h hk => absurd hk (Nat.not_lt_zero k), rfl, List.prefix_rfl⟩
  | succ n ih =>
    obtain ⟨ms, s1, hrun, hs1, hacks, hids, hpre⟩ := ih (Nat.le_of_succ_le hn)
    have hlen : s1.handlers.length = s.handlers.length := by
      simpa using congrArg List.length hids
    have hlt : n < s1.handlers.length := by omega
    have hk : s1.handlers[n]? = some s1.handlers[n] := List.getElem?_eq_getElem hlt
    obtain ⟨ms', s2, h', hrun', hs2, hacks', hid, hset, hpre'⟩ := hs1.drive hk
    refine ⟨ms ++ ms', s2, Machine.run_append.mpr ⟨s1, hrun, hrun'⟩, hs2, ?_, ?_, hpre.trans hpre'⟩
    · intro k h hkn hkh
      rw [hset] at hkh
      rcases set_cases hkh with ⟨-, rfl⟩ | ⟨hne, hkh⟩
      · exact hacks'
      · exact hacks k h (by omega) hkh
    · have hself : (s1.handlers.map Handler.runId).set n s1.handlers[n].runId =
          s1.handlers.map Handler.runId := by
        rw [← List.map_set, List.set_getElem_self]
      rw [hset, List.map_set, hid, hself, hids]

/- One message for each run of a list. -/
theorem Holds.deliverAll {s : State} (hs : Holds p s) (is : List RunId)
    (his : ∀ i ∈ is, i ∈ s.lineage) :
    ∃ ms s', Machine.run (Lineage.step p) s ms = some s' ∧ Holds p s' ∧
      s'.lineage = s.lineage ∧ s.handlers.map Handler.runId <+: s'.handlers.map Handler.runId ∧
      ∀ i ∈ is, i ∈ s'.handlers.map Handler.runId := by
  induction is generalizing s with
  | nil => exact ⟨[], s, rfl, hs, rfl, List.prefix_rfl, fun i hi => absurd hi List.not_mem_nil⟩
  | cons i is ih =>
    have hi : i ∈ s.lineage := his i (List.mem_cons_self ..)
    let h : Handler :=
      { id := s.handlers.length, worker := 0, messageId := 0, runId := i, allowRunning := false,
        pc := .claiming }
    have hstep : Lineage.step p s (.deliver 0 0 i) =
        some { s with handlers := s.handlers ++ [h] } := by
      simp only [Lineage.step, if_pos hi, h]
    have hs1 : Holds p { s with handlers := s.handlers ++ [h] } := hs.deliver hi rfl rfl
    obtain ⟨ms, s', hrun, hs', hlin, hids, hall⟩ :=
      ih hs1 fun i' hi' => his i' (List.mem_cons_of_mem _ hi')
    refine ⟨.deliver 0 0 i :: ms, s', Machine.run_cons.mpr ⟨_, hstep, hrun⟩, hs', hlin, ?_, ?_⟩
    · exact ((List.prefix_append _ _).map _).trans hids
    · intro i' hi'
      rcases List.mem_cons.mp hi' with rfl | hi'
      · exact hids.subset
          (List.mem_map.mpr ⟨h, List.mem_append_right _ (List.mem_singleton.mpr rfl), rfl⟩)
      · exact hall i' hi'

/- A lineage is no longer than the attempts. -/
theorem Holds.length_le (hs : Holds p s) : s.lineage.length ≤ p.attempts.length := by
  simp only [Plan.attempts, List.length_map, List.length_range]
  by_contra hgt
  have hm := (hs.retried (s.lineage.length - 2) (by omega)).2
  omega

/- Deliver every run once more and let all handlers finish: this completes the history, or else
the lineage has grown. -/
theorem Holds.completes {s : State} (hs : Holds p s) :
    ∃ ms s', Machine.run (Lineage.step p) s ms = some s' ∧ s'.Complete := by
  obtain ⟨ms1, s1, hrun1, hs1, hlin1, -, hall⟩ := hs.deliverAll s.lineage fun i hi => hi
  obtain ⟨ms2, s2, hrun2, hs2, hacks, hids, hpre⟩ := hs1.drain s1.handlers.length le_rfl
  have hrun : Machine.run (Lineage.step p) s (ms1 ++ ms2) = some s2 :=
    Machine.run_append.mpr ⟨s1, hrun1, hrun2⟩
  have hlen2 : s2.handlers.length = s1.handlers.length := by
    simpa using congrArg List.length hids
  rw [hlin1] at hpre
  by_cases hsame : s2.lineage.length = s.lineage.length
  · refine ⟨ms1 ++ ms2, s2, hrun, ?_, ?_⟩
    · intro h hmem
      obtain ⟨k, hk⟩ := List.mem_iff_getElem?.mp hmem
      have hlt := (List.getElem?_eq_some_iff.mp hk).1
      exact hacks k h (by omega) hk
    · intro i hi
      rw [← hpre.eq_of_length hsame.symm] at hi
      have hmem := hall i hi
      rw [← hids] at hmem
      exact List.mem_map.mp hmem
  · have hlt : p.attempts.length - s2.lineage.length < p.attempts.length - s.lineage.length := by
      have hle := hpre.length_le
      have hbound := hs2.length_le
      omega
    obtain ⟨ms, s', hrun', hcomplete⟩ := hs2.completes
    exact ⟨ms1 ++ ms2 ++ ms, s', Machine.run_append.mpr ⟨s2, hrun, hrun'⟩, hcomplete⟩
termination_by p.attempts.length - s.lineage.length

/- In every history, a complete state holds exactly the planned lineage, and every state can be
brought to a complete one. -/
theorem exact_visits {db : Database} (hstart : p.Starts db i) (ls : List Label) :
    Machine.Visits (step p)
      (fun s => (s.Complete → p.Exact s) ∧
        ∃ ms s', Machine.run (step p) s ms = some s' ∧ s'.Complete)
      (start db i) ls := by
  refine Machine.visits_of_invariant (I := Holds p) (fun s l s' hs _ hstep => hs.step hstep) ?_
    hstart.holds (Machine.along_true _ _)
  exact fun s hs => ⟨hs.exact_of_complete, hs.completes⟩

/-! ### An exception, and a success at the retry -/

instance (s : State) : Decidable s.Complete := by
  unfold State.Complete
  infer_instance

def crashThenSucceed : Plan where
  jobId := 0
  maxRetries := 1
  retryBackoffSec := 120
  first := 1
  outcome := fun i =>
    if i = 1 then .raised "no such file" else .returned { status := .succeeded, exitCode := some 0 }

/- The retry is delivered before its predecessor is finished, and the first run twice. -/
def twoAttempts : List Label :=
  [.deliver 1 0 0, .advance 0 1, .executorReturns 0, .advance 0 2, .advance 0 3, .deliver 2 1 1,
    .advance 0 4, .deliver 2 2 0, .advance 1 5, .advance 0 6, .executorReturns 1, .advance 2 7,
    .advance 1 8, .advance 1 9, .advance 1 10, .advance 1 11]

theorem exact_twoAttempts : ∃ db s, Backoff.queuedReport = some db ∧ crashThenSucceed.Starts db 0 ∧
    Machine.run (step crashThenSucceed) (start db 0) twoAttempts = some s ∧
    s.lineage = [0, 1] ∧ s.Complete ∧ crashThenSucceed.Exact s := by
  have hall : Backoff.queuedReport.any (fun db =>
      decide (settings db 0 = some (1, 120)) && decide (progress db 0 = some (0, 1, .queued)) &&
        (Machine.run (step crashThenSucceed) (start db 0) twoAttempts).any fun s =>
          decide (s.lineage = [0, 1]) && decide s.Complete) = true := by
    decide
  obtain ⟨db, hdb, hall⟩ := (Option.any_eq_true _ _).mp hall
  simp only [Bool.and_eq_true, decide_eq_true_eq] at hall
  obtain ⟨⟨hjob, hrow⟩, hall⟩ := hall
  obtain ⟨s, hs, hall⟩ := (Option.any_eq_true _ _).mp hall
  simp only [Bool.and_eq_true, decide_eq_true_eq] at hall
  have hstart : crashThenSucceed.Starts db 0 := ⟨hjob, hrow⟩
  exact ⟨db, s, hdb, hstart, hs, hall.1, hall.2,
    ((exact_visits hstart twoAttempts).last hs).1 hall.2⟩

end JobScheduler.Lineage
