import JobScheduler.System

/-!
# The transitions of the system

`Trans` lists the steps with the state each of them leads to; `trans_of_step` is the only
place where the step function is unfolded. The second half says what a transition does to
the tables: it commits the transaction `Label.tx`, or it is a trigger, an edit or a
deletion of jobs.
-/

namespace JobScheduler
open Library Database

namespace Sys

section
variable (s : Sys) (i : ℕ) (pc : Pc) (h : Handler) (out : Option Send) (w : WorkerId)
  (r : RunId) (v : Option ℕ)

@[simp] theorem db_goto : (s.goto i pc).db = s.db := rfl
@[simp] theorem redis_goto : (s.goto i pc).redis = s.redis := rfl
@[simp] theorem outbox_goto : (s.goto i pc).outbox = s.outbox := rfl
@[simp] theorem cancels_goto : (s.goto i pc).cancels = s.cancels := rfl
@[simp] theorem detached_goto : (s.goto i pc).detached = s.detached := rfl

@[simp] theorem db_register : (s.register w r v).db = s.db := rfl

/- The task has its own entry in inflight_by_run to take out, or none. -/
theorem leave_elim (P : Sys → Prop)
    (hown : P ((s.register h.worker h.runId none).goto h.id .acking))
    (hother : P (s.goto h.id .acking)) : P (s.leave h) := by
  unfold leave
  split
  · exact hown
  · exact hother

@[simp] theorem db_leave : (s.leave h).db = s.db :=
  s.leave_elim h (fun t => t.db = s.db) rfl rfl
@[simp] theorem redis_leave : (s.leave h).redis = s.redis :=
  s.leave_elim h (fun t => t.redis = s.redis) rfl rfl
@[simp] theorem outbox_leave : (s.leave h).outbox = s.outbox :=
  s.leave_elim h (fun t => t.outbox = s.outbox) rfl rfl
@[simp] theorem cancels_leave : (s.leave h).cancels = s.cancels :=
  s.leave_elim h (fun t => t.cancels = s.cancels) rfl rfl
@[simp] theorem detached_leave : (s.leave h).detached = s.detached :=
  s.leave_elim h (fun t => t.detached = s.detached) rfl rfl
@[simp] theorem handlers_leave : (s.leave h).handlers = (s.goto h.id .acking).handlers :=
  s.leave_elim h (fun t => t.handlers = (s.goto h.id .acking).handlers) rfl rfl

theorem resume_elim (P : Sys → Prop) (hleave : pc = .acking → P (s.leave h))
    (hgoto : P (s.goto h.id pc)) : P (s.resume h pc) := by
  cases pc with
  | acking => exact hleave rfl
  | _ => exact hgoto

@[simp] theorem db_resume : (s.resume h pc).db = s.db :=
  s.resume_elim pc h (fun t => t.db = s.db) (fun _ => s.db_leave h) rfl
@[simp] theorem redis_resume : (s.resume h pc).redis = s.redis :=
  s.resume_elim pc h (fun t => t.redis = s.redis) (fun _ => s.redis_leave h) rfl
@[simp] theorem outbox_resume : (s.resume h pc).outbox = s.outbox :=
  s.resume_elim pc h (fun t => t.outbox = s.outbox) (fun _ => s.outbox_leave h) rfl
@[simp] theorem cancels_resume : (s.resume h pc).cancels = s.cancels :=
  s.resume_elim pc h (fun t => t.cancels = s.cancels) (fun _ => s.cancels_leave h) rfl
@[simp] theorem detached_resume : (s.resume h pc).detached = s.detached :=
  s.resume_elim pc h (fun t => t.detached = s.detached) (fun _ => s.detached_leave h) rfl
@[simp] theorem handlers_resume : (s.resume h pc).handlers = (s.goto h.id pc).handlers :=
  s.resume_elim pc h (fun t => t.handlers = (s.goto h.id pc).handlers)
    (fun hpc => by rw [hpc, handlers_leave]) rfl

@[simp] theorem db_send : (s.send out).db = s.db := by
  rcases out with _ | _ | _ <;> rfl
@[simp] theorem outbox_send : (s.send out).outbox = s.outbox := by
  rcases out with _ | _ | _ <;> rfl
@[simp] theorem cancels_send : (s.send out).cancels = s.cancels := by
  rcases out with _ | _ | _ <;> rfl
@[simp] theorem detached_send : (s.send out).detached = s.detached := by
  rcases out with _ | _ | _ <;> rfl
@[simp] theorem handlers_send : (s.send out).handlers = s.handlers := by
  rcases out with _ | _ | _ <;> rfl

/- The handlers after a call has returned. -/
theorem handlers_advance (db' : Database) :
    (({ s with db := db' }.send out).resume h pc).handlers = (s.goto h.id pc).handlers := by
  rw [handlers_resume, goto, handlers_send]
  rfl

end

section
variable {s : Sys} {h k : Handler} {i : ℕ} {pc : Pc}

/- The handlers after one of them has moved. -/
theorem mem_goto (hh : s.handlers.get i = some h) :
    k ∈ (s.goto i pc).handlers.rows ↔ k = setPc pc h ∨ k ∈ s.handlers.rows ∧ k.id ≠ i := by
  have hid : h.id = i := Table.key_of_get hh
  unfold goto
  rw [Table.mem_rows_update]
  constructor
  · intro hk
    obtain ⟨a, ha, rfl⟩ := hk
    by_cases hai : a.id = i
    · have hah : a = h := s.handlers.eq_of_key_eq ha (Table.mem_of_get hh) (hai.trans hid.symm)
      subst hah
      left
      simp [Table.rewrite, hai]
    · right
      simp [Table.rewrite, hai, ha]
  · intro hk
    rcases hk with rfl | ⟨hk, hne⟩
    · exact ⟨h, Table.mem_of_get hh, by simp [Table.rewrite, hid]⟩
    · exact ⟨k, hk, by simp [Table.rewrite, hne]⟩

/- The program counter of a handler. -/
def pcOf (s : Sys) (i : ℕ) : Option Pc := (s.handlers.get i).map Handler.pc

theorem get_goto (hget : s.handlers.get i = some h) (k : ℕ) :
    (s.goto i pc).handlers.get k = if k = i then some (setPc pc h) else s.handlers.get k := by
  have hupd : (s.goto i pc).handlers.get k = (s.handlers.get k).map
      (Table.rewrite (fun h => decide (h.id = i)) (setPc pc)) :=
    Table.get_update s.handlers _ _ (setPc_keeps pc) k
  rw [hupd]
  by_cases hk : k = i
  · have hid : h.id = i := Table.key_of_get hget
    rw [if_pos hk, hk, hget, Option.map_some]
    simp [Table.rewrite, hid]
  · rw [if_neg hk]
    cases hg : s.handlers.get k with
    | none => rfl
    | some d =>
      have hid : d.id = k := Table.key_of_get hg
      simp [Table.rewrite, hid, hk]

theorem mem_spawn {w : WorkerId} {m : ℕ} {r : RunId} {allow : Bool} :
    k ∈ (s.spawn w m r allow).handlers.rows ↔
      k ∈ s.handlers.rows ∨ k = newHandler w m r allow s.handlers.next :=
  @Table.mem_rows_insert _ _ s.handlers (newHandler w m r allow) (fun _ => rfl) k

theorem mem_remove : k ∈ (s.remove i).handlers.rows ↔ k ∈ s.handlers.rows ∧ k.id ≠ i := by
  unfold remove
  rw [Table.mem_rows_deleteWhere, decide_eq_false_iff_not]

end

section
variable (cfg : Settings) (cronNext : Cron.CronNext)

inductive Trans (s : Sys) : Label → Sys → Prop where
  | elapse (d : ℕ) :
      Trans s (.elapse d) { s with redis := { s.redis with clock := s.redis.clock + d } }
  | trigger (owner : UserId) (job : JobId) (now : Time) (st : Api.Prepared) (p : RunId) :
      Api.triggerJob s.db owner job now = .ok (st, p) →
      Trans s (.trigger owner job now) { s with db := st.1, outbox := s.outbox ++ st.2 }
  | retryRun (owner : UserId) (i : RunId) (now : Time) (run : JobRun) (db' : Database)
      (k : RunId) : s.db.ownedRun i owner = some run → run.status.terminal = true →
      s.db.createRun run.jobId .retry none (run.attempt + 1) .queued now = some (db', k) →
      Trans s (.retryRun owner i now) { s with db := db', outbox := s.outbox ++ [k] }
  | cancelRun (owner : UserId) (i : RunId) (now : Time) (r : JobRun) :
      s.db.runs.get i = some r → r.status.active = true →
      Trans s (.cancelRun owner i now)
        { s with db := (Store.cancelRun s.db i now).1, cancels := s.cancels ++ [i] }
  | editJobs (jobs : Table Job) (dependencies : Table JobDependency) (db' : Database) :
      s.db.replaceJobs jobs dependencies = some db' →
      Trans s (.editJobs jobs dependencies) { s with db := db' }
  | deleteJob (owner : UserId) (job : JobId) :
      Trans s (.deleteJob owner job) { s with db := s.db.deleteJob job }
  | promoteDelayed (now : Time) :
      Trans s (.promoteDelayed now) { s with redis := (s.redis.promoteDueDelayed now).1 }
  | tick (now : Time) (db' : Database) (ids : List RunId) :
      Scheduler.scheduleDueJobs cronNext s.db now = .ok (db', ids) →
      Trans s (.tick now)
        { s with db := db', outbox := s.outbox ++ ids ++ Scheduler.requeueOrphans cfg db' now }
  | publish (i : RunId) : i ∈ s.outbox →
      Trans s (.publish i) { s with outbox := s.outbox.erase i, redis := s.redis.enqueueRun i }
  | drop (i : RunId) : i ∈ s.outbox → Trans s (.drop i) { s with outbox := s.outbox.erase i }
  | poll (w : WorkerId) (p : Phase) : Trans s (.poll w) (s.setPhase w p)
  | reclaimed (w : WorkerId) (p : Phase) : Trans s (.reclaimed w) (s.setPhase w p)
  | delivered (w : WorkerId) (p : Phase) : Trans s (.delivered w) (s.setPhase w p)
  | reclaim (w : WorkerId) (m : ℕ) (e : PendingEntry) (p : Phase) :
      s.redis.stale cfg.claimMinIdleMs m = some e →
      Trans s (.reclaim w m)
        (({ s with redis := s.redis.xautoclaim w m }.spawn w m e.runId true).setPhase w p)
  | deliver (w : WorkerId) (m : Message) (p : Phase) : s.redis.nextMessage = some m →
      Trans s (.deliver w)
        (({ s with redis := s.redis.xreadgroup w m }.spawn w m.id m.runId false).setPhase w p)
  | acquire (h : Handler) : s.handlers.get h.id = some h → h.pc = .waiting →
      Trans s (.acquire h.id) ((s.register h.worker h.runId (some h.id)).goto h.id .claiming)
  | advance (h : Handler) (now : Time) (db' : Database) (pc : Pc) (out : Option Send) :
      s.handlers.get h.id = some h → Runner.Advance cfg s.db now h .statement h.pc db' pc out →
      Trans s (.advance h.id now) (({ s with db := db' }.send out).resume h pc)
  | executorReturns (h : Handler) (c : Store.Claimed) (res : ExecResult) :
      s.handlers.get h.id = some h → h.pc = .executing c →
      Trans s (.executorReturns h.id res) (s.goto h.id (Runner.returned c res))
  | fail (h : Handler) : s.handlers.get h.id = some h → h.pc.working = true →
      Trans s (.fail h.id) (s.leave h)
  | cancelTask (h : Handler) : s.handlers.get h.id = some h → h.pc.working = true →
      h.runId ∈ s.cancels →
      Trans s (.cancelTask h.id) ({ s with detached := s.detached ++ [h] }.leave h)
  | commitThread (k : ℕ) (now : Time) (h : Handler) (db' : Database) :
      s.detached[k]? = some h →
      (db' = s.db ∧ Runner.tx h now = none ∨
        ∃ tx, Runner.tx h now = some tx ∧ db' = tx.exec cronNext s.db) →
      Trans s (.commitThread k now) { s with db := db', detached := s.detached.eraseIdx k }
  | threadGoesOn (k : ℕ) (now : Time) (h : Handler) (c : Store.Claimed) (x : Store.Promotion)
      (js : List JobId) : s.detached[k]? = some h →
      Runner.Advance cfg s.db now h .statement h.pc s.db (.successCreate c x js) none →
      Trans s (.commitThread k now)
        { s with detached := s.detached.set k (setPc (.successCreate c x js) h) }
  | ack (h : Handler) : s.handlers.get h.id = some h → h.pc = .acking →
      Trans s (.ack h.id) ({ s with redis := s.redis.xack h.messageId }.goto h.id .deleting)
  | ackError (h : Handler) : s.handlers.get h.id = some h → h.pc = .acking →
      Trans s (.ackError h.id) (s.remove h.id)
  | del (h : Handler) : s.handlers.get h.id = some h → h.pc = .deleting →
      Trans s (.del h.id) ({ s with redis := s.redis.xdel h.messageId }.remove h.id)
  | delError (h : Handler) : s.handlers.get h.id = some h → h.pc = .deleting →
      Trans s (.delError h.id) (s.remove h.id)
  | crash (w : WorkerId) :
      Trans s (.crash w)
        { s with
          handlers := s.handlers.deleteWhere fun h => decide (h.worker = w)
          inflightByRun := fun w' r => if w' = w then none else s.inflightByRun w' r
          phase := fun w' => if w' = w then .polling else s.phase w' }

end

variable {cfg : Settings} {cronNext : Cron.CronNext}

theorem trans_of_producerStep {s t : Sys} {l : Label}
    (h : s.producerStep cfg cronNext l = some t) : Trans cfg cronNext s l t := by
  cases l with
  | trigger owner job now =>
    simp only [producerStep] at h
    split at h
    · cases h
    · rename_i st p hok
      cases h
      exact .trigger owner job now st p hok
  | retryRun owner i now =>
    simp only [producerStep] at h
    split at h
    · cases h
    · rename_i run hrun
      split at h
      · rename_i hterm
        split at h
        · cases h
        · rename_i db' k hcreate
          cases h
          exact .retryRun owner i now run db' k hrun hterm hcreate
      · cases h
  | cancelRun owner i now =>
    simp only [producerStep] at h
    split at h
    · cases h
    · split at h
      · cases h
      · rename_i db' hcancel
        cases h
        have hm : Store.matchesRun s.db i RunStatus.active = true := congrArg Prod.snd hcancel
        obtain ⟨r, hr, ha⟩ := Store.matchesRun_iff.mp hm
        have hdb : db' = (Store.cancelRun s.db i now).1 := (congrArg Prod.fst hcancel).symm
        rw [hdb]
        exact .cancelRun owner i now r hr ha
  | editJobs jobs dependencies =>
    obtain ⟨db', hdb, rfl⟩ := Option.map_eq_some_iff.mp h
    exact .editJobs jobs dependencies db' hdb
  | deleteJob owner job =>
    simp only [producerStep] at h
    split at h
    · cases h
    · cases h
      exact .deleteJob owner job
  | promoteDelayed now =>
    cases h
    exact .promoteDelayed now
  | tick now =>
    simp only [producerStep] at h
    split at h
    · cases h
    · rename_i db' ids hok
      cases h
      exact .tick now db' ids hok
  | publish i =>
    simp only [producerStep] at h
    split at h
    · rename_i hi
      cases h
      exact .publish i hi
    · cases h
  | drop i =>
    simp only [producerStep] at h
    split at h
    · rename_i hi
      cases h
      exact .drop i hi
    · cases h
  | _ => cases h

theorem trans_of_loopStep {s t : Sys} {l : Label} (h : s.loopStep cfg l = some t) :
    Trans cfg cronNext s l t := by
  cases l with
  | poll w =>
    simp only [loopStep] at h
    split at h
    · split at h
      · cases h
      · cases h
        exact .poll w _
    · cases h
  | reclaim w m =>
    simp only [loopStep] at h
    split at h
    · rename_i left count e _ hstale
      cases h
      exact .reclaim w m e _ hstale
    · cases h
  | reclaimed w =>
    simp only [loopStep] at h
    split at h
    · cases h
      exact .reclaimed w _
    · cases h
  | deliver w =>
    simp only [loopStep] at h
    split at h
    · rename_i left m _ hnext
      cases h
      exact .deliver w m _ hnext
    · cases h
  | delivered w =>
    simp only [loopStep] at h
    split at h
    · cases h
      exact .delivered w _
    · cases h
  | _ => cases h

theorem trans_of_handlerStep {s t : Sys} {h : Handler} {i : ℕ} {l : Label}
    (hget : s.handlers.get i = some h)
    (hl : l ∈ [Label.acquire i, .fail i, .cancelTask i, .ack i, .ackError i, .del i, .delError i] ∨
      (∃ now, l = .advance i now) ∨ ∃ res, l = .executorReturns i res)
    (hs : s.handlerStep cfg h l = some t) : Trans cfg cronNext s l t := by
  have hid : h.id = i := Table.key_of_get hget
  subst hid
  rcases hl with hl | ⟨now, rfl⟩ | ⟨res, rfl⟩
  · simp only [List.mem_cons, List.not_mem_nil, or_false] at hl
    rcases hl with rfl | rfl | rfl | rfl | rfl | rfl | rfl
    · simp only [handlerStep] at hs
      split at hs
      · rename_i hc
        cases hs
        refine .acquire h hget ?_
        cases hpc : h.pc <;> simp [hpc, isWaiting] at hc ⊢
      · cases hs
    · simp only [handlerStep] at hs
      split at hs
      · rename_i hw
        cases hs
        exact .fail h hget hw
      · cases hs
    · simp only [handlerStep] at hs
      split at hs
      · rename_i hc
        cases hs
        exact .cancelTask h hget hc.1 hc.2.1
      · cases hs
    · simp only [handlerStep] at hs
      split at hs
      · rename_i hpc
        cases hs
        exact .ack h hget hpc
      · cases hs
    · simp only [handlerStep] at hs
      split at hs
      · rename_i hpc
        cases hs
        exact .ackError h hget hpc
      · cases hs
    · simp only [handlerStep] at hs
      split at hs
      · rename_i hpc
        cases hs
        exact .del h hget hpc
      · cases hs
    · simp only [handlerStep] at hs
      split at hs
      · rename_i hpc
        cases hs
        exact .delError h hget hpc
      · cases hs
  · simp only [handlerStep] at hs
    split at hs
    · cases hs
    · rename_i db' pc out hn
      cases hs
      exact .advance h now db' pc out hget (Runner.advance_of_statement hn)
  · simp only [handlerStep] at hs
    split at hs
    · rename_i c hpc
      cases hs
      exact .executorReturns h c res hget hpc
    · cases hs

theorem trans_of_threadStep {s : Sys} {k : ℕ} {h : Handler} (now : Time)
    (hk : s.detached[k]? = some h) :
    Trans cfg cronNext s (.commitThread k now) (s.threadStep cfg k h now) := by
  unfold threadStep
  split
  · rename_i hn
    exact .commitThread k now h s.db hk (Or.inl ⟨rfl, Runner.tx_of_statement_none hn⟩)
  · rename_i db' c x js out hn
    have hadv := Runner.advance_of_statement hn
    obtain ⟨rfl, rfl⟩ := hadv.goesOn
    exact .threadGoesOn k now h c x js hk hadv
  · rename_i db' pc out _ hn
    have hexec := (Runner.advance_of_statement hn).exec cronNext
    refine .commitThread k now h db' hk ?_
    rcases hexec with ⟨htx, hdb⟩ | hexec
    · exact Or.inl ⟨hdb, htx⟩
    · exact Or.inr hexec

theorem trans_of_step {s t : Sys} {l : Label} (h : s.step cfg cronNext l = some t) :
    Trans cfg cronNext s l t := by
  cases l with
  | elapse d =>
    cases h
    exact .elapse d
  | commitThread k now =>
    simp only [step] at h
    split at h
    · cases h
    · rename_i hd hk
      cases h
      exact trans_of_threadStep now hk
  | crash w =>
    cases h
    exact .crash w
  | poll _ | reclaim _ _ | reclaimed _ | deliver _ | delivered _ => exact trans_of_loopStep h
  | acquire _ | fail _ | cancelTask _ | ack _ | ackError _ | del _ | delError _ =>
    obtain ⟨hd, hget, hs⟩ := Option.bind_eq_some_iff.mp h
    exact trans_of_handlerStep hget (Or.inl (by simp)) hs
  | advance _ now =>
    obtain ⟨hd, hget, hs⟩ := Option.bind_eq_some_iff.mp h
    exact trans_of_handlerStep hget (Or.inr (Or.inl ⟨now, rfl⟩)) hs
  | executorReturns _ res =>
    obtain ⟨hd, hget, hs⟩ := Option.bind_eq_some_iff.mp h
    exact trans_of_handlerStep hget (Or.inr (Or.inr ⟨res, rfl⟩)) hs
  | _ => exact trans_of_producerStep h

theorem Trans.ack_inv {s t : Sys} {d : Handler} (h : Trans cfg cronNext s (.ack d.id) t)
    (hd : d ∈ s.handlers.rows) :
    t.db = s.db ∧ t.handlers = (s.goto d.id .deleting).handlers ∧
      t.redis.pending = (s.redis.xack d.messageId).pending := by
  generalize hl : Label.ack d.id = l at h
  cases h with
  | ack hd' hget hpc =>
    injection hl with hid
    have heq : d = hd' := s.handlers.eq_of_key_eq hd (Table.mem_of_get hget) hid
    subst heq
    exact ⟨rfl, rfl, rfl⟩
  | _ => cases hl

theorem Trans.advance_inv {s t : Sys} {d : Handler} {now : Time}
    (h : Trans cfg cronNext s (.advance d.id now) t) (hd : d ∈ s.handlers.rows) :
    ∃ db' pc out, Runner.Advance cfg s.db now d .statement d.pc db' pc out ∧ t.db = db' ∧
      t.handlers = (s.goto d.id pc).handlers ∧ t.redis = (s.send out).redis := by
  generalize hl : Label.advance d.id now = l at h
  cases h with
  | advance hd' now' db' pc out hget hadv =>
    injection hl with hid hnow
    have heq : d = hd' := s.handlers.eq_of_key_eq hd (Table.mem_of_get hget) hid
    subst heq
    subst hnow
    refine ⟨db', pc, out, hadv, by simp, handlers_advance _ _ _ _ _, ?_⟩
    rw [redis_resume]
    rcases out with _ | _ | _ <;> rfl
  | _ => cases hl

theorem step_acquire {s : Sys} {h : Handler} (hget : s.handlers.get h.id = some h) :
    s.step cfg cronNext (.acquire h.id) =
      if isWaiting h.pc && decide ((s.acquired h.worker : ℤ) < cfg.workerConcurrency) then
        some ((s.register h.worker h.runId (some h.id)).goto h.id .claiming)
      else none := by
  show ((s.handlers.get h.id).bind fun d => s.handlerStep cfg d (.acquire h.id)) = _
  rw [hget, Option.bind_some, handlerStep]

theorem step_advance {s : Sys} {d : Handler} {now : Time} {db' : Database} {pc : Pc}
    {out : Option Send} (hget : s.handlers.get d.id = some d)
    (hnext : Runner.statement cfg s.db d now = some (db', pc, out)) :
    s.step cfg cronNext (.advance d.id now) =
      some (({ s with db := db' }.send out).resume d pc) := by
  show ((s.handlers.get d.id).bind fun h => s.handlerStep cfg h (.advance d.id now)) = _
  rw [hget, Option.bind_some, handlerStep, hnext]

end Sys

/-! ### The tables -/

open RunTx

/- The run transaction a step commits. -/
def Label.tx (s : Sys) : Label → Option RunTx
  | .retryRun owner i now => (s.db.ownedRun i owner).map fun run =>
      .createRun run.jobId .retry none (run.attempt + 1) .queued now
  | .cancelRun _ i now => some (.cancelRun i now)
  | .tick now => some (.scheduleDueJobs now)
  | .advance i now => (s.handlers.get i).bind fun h => Runner.tx h now
  | .commitThread k now => s.detached[k]?.bind fun h => Runner.tx h now
  | _ => none

namespace Sys

def RowChange (s : Sys) (l : Label) (r r' : JobRun) : Prop :=
  r' = r ∨ ∃ tx, l.tx s = some tx ∧ RowStep tx r r'

def NewRow (s : Sys) (l : Label) (r : JobRun) : Prop :=
  (∃ tx, l.tx s = some tx ∧ Adds tx r) ∨
    (∃ owner job now, l = .trigger owner job now) ∧ r.status = Api.openedStatus s.db r.jobId

structure Evolves (s : Sys) (l : Label) (t : Sys) : Prop where
  jobs : s.db.KeepsJobIds t.db
  next : s.db.runs.next ≤ t.db.runs.next
  row : ∀ i r, s.db.runs.get i = some r →
    (∃ r', t.db.runs.get i = some r' ∧ RowChange s l r r') ∨
      (∃ owner, l = .deleteJob owner r.jobId) ∧ t.db.runs.get i = none
  new : ∀ i r, t.db.runs.get i = some r → s.db.runs.get i = none →
    s.db.runs.next ≤ i ∧ NewRow s l r
  edges : t.db.dependencies = s.db.dependencies ∨ (∃ jobs, l = .editJobs jobs t.db.dependencies) ∨
    ∃ owner job, l = .deleteJob owner job ∧ t.db = s.db.deleteJob job

theorem Evolves.of_runs {s t : Sys} {l : Label} (h : t.db.runs = s.db.runs)
    (hjobs : s.db.KeepsJobIds t.db)
    (he : t.db.dependencies = s.db.dependencies ∨ (∃ jobs, l = .editJobs jobs t.db.dependencies)) :
    Evolves s l t where
  jobs := hjobs
  next := by rw [h]
  row := fun i r hr => Or.inl ⟨r, by rw [h]; exact hr, Or.inl rfl⟩
  new := by
    intro i r hr hn
    rw [h, hn] at hr
    cases hr
  edges := by
    rcases he with he | he
    · exact Or.inl he
    · exact Or.inr (Or.inl he)

theorem Evolves.of_db {s t : Sys} {l : Label} (h : t.db = s.db) : Evolves s l t :=
  of_runs (by rw [h]) (.of_eq (by rw [h]) fun k => by rw [h]) (Or.inl (by rw [h]))

theorem Evolves.of_tx {s t : Sys} {l : Label} {tx : RunTx} (htx : l.tx s = some tx)
    (h : Effect tx s.db t.db) : Evolves s l t where
  jobs := .of_eq h.jobsNext h.jobIds
  next := h.next
  row := by
    intro i r hr
    obtain ⟨r', hr', hrow⟩ := h.row i r hr
    exact Or.inl ⟨r', hr', Or.inr ⟨tx, htx, hrow⟩⟩
  new := by
    intro i r hr hn
    obtain ⟨hle, hadds⟩ := h.new i r hr hn
    exact ⟨hle, Or.inl ⟨tx, htx, hadds⟩⟩
  edges := Or.inl h.dependencies

theorem Evolves.of_trigger {s t : Sys} {owner : UserId} {job : JobId} {now : Time}
    {st : Api.Prepared} {p : RunId} (h : Api.triggerJob s.db owner job now = .ok (st, p))
    (ht : t.db = st.1) : Evolves s (.trigger owner job now) t := by
  have hext : s.db.Extends (fun r => r.status = Api.openedStatus s.db r.jobId) t.db := by
    rw [ht]
    have hprep := Api.triggerJob_prepares h
    by_cases hd : s.db.dependencyIds job = []
    · obtain ⟨-, n, ha, hj, hs, hdb⟩ := hprep.leaf hd
      rw [hdb]
      refine extends_addRun s.db n ha ?_
      show n.status = Api.openedStatus s.db n.jobId
      rw [hs, hj, Api.openedStatus, hd]
      rfl
    · exact (hprep.walk hd).ext.mono fun r hr => hr.1
  refine ⟨.of_eq hext.jobsNext hext.jobIds, hext.next, ?_, ?_, Or.inl hext.dependencies⟩
  · intro i r hr
    exact Or.inl ⟨r, hext.old i r hr, Or.inl rfl⟩
  · intro i r hr hn
    obtain ⟨hle, hs⟩ := hext.new i r hr hn
    exact ⟨hle, Or.inr ⟨⟨owner, job, now, rfl⟩, hs⟩⟩

theorem get_deleteJob (db : Database) (j : JobId) (i : RunId) :
    (db.deleteJob j).runs.get i = (db.runs.get i).filter fun r => !decide (r.jobId = j) :=
  Table.get_deleteWhere db.runs _ i

theorem Evolves.of_delete {s t : Sys} {owner : UserId} {job : JobId}
    (ht : t.db = s.db.deleteJob job) : Evolves s (.deleteJob owner job) t where
  jobs := by rw [ht]; exact keepsJobIds_deleteJob s.db job
  next := by rw [ht]; exact le_rfl
  row := by
    intro i r hr
    rw [ht, get_deleteJob, hr]
    by_cases hj : r.jobId = job
    · rw [Option.filter_some_neg (by simp [hj])]
      exact Or.inr ⟨⟨owner, by rw [hj]⟩, rfl⟩
    · rw [Option.filter_some_pos (by simp [hj])]
      exact Or.inl ⟨r, rfl, Or.inl rfl⟩
  new := by
    intro i r hr hn
    rw [ht, get_deleteJob, hn] at hr
    cases hr
  edges := Or.inr (Or.inr ⟨owner, job, rfl, ht⟩)

section
variable {cfg : Settings} {cronNext : Cron.CronNext} {s t : Sys} {l : Label}

theorem Trans.tx_advance {h : Handler} (hget : s.handlers.get h.id = some h) (now : Time) :
    (Label.advance h.id now).tx s = Runner.tx h now := by
  show ((s.handlers.get h.id).bind fun h => Runner.tx h now) = _
  rw [hget, Option.bind_some]

theorem Trans.evolves (h : Trans cfg cronNext s l t) : Evolves s l t := by
  cases h with
  | trigger owner job now st p hok => exact Evolves.of_trigger hok rfl
  | retryRun owner i now run db' k hrun hterm hcreate =>
    have htx : (Label.retryRun owner i now).tx s =
        some (.createRun run.jobId .retry none (run.attempt + 1) .queued now) := by
      simp [Label.tx, hrun]
    have heff := effect_exec cronNext s.db
      (.createRun run.jobId .retry none (run.attempt + 1) .queued now)
    rw [RunTx.exec, hcreate] at heff
    exact Evolves.of_tx htx heff
  | cancelRun owner i now r hr ha =>
    exact Evolves.of_tx rfl (effect_exec cronNext s.db (.cancelRun i now))
  | editJobs jobs dependencies db' hdb =>
    obtain ⟨hruns, hdeps, hjobs⟩ := replaceJobs_eq_some hdb
    exact Evolves.of_runs hruns hjobs (Or.inr ⟨jobs, by rw [hdeps]⟩)
  | deleteJob owner job => exact Evolves.of_delete rfl
  | tick now db' ids hok =>
    have heff := effect_exec cronNext s.db (.scheduleDueJobs now)
    rw [RunTx.exec, hok] at heff
    exact Evolves.of_tx rfl heff
  | advance hd now db' pc out hget hadv =>
    have htx := Trans.tx_advance hget now
    rcases hadv.exec cronNext with ⟨-, rfl⟩ | ⟨tx, hsome, rfl⟩
    · exact Evolves.of_db (by simp)
    · refine Evolves.of_tx (htx.trans hsome) ?_
      simp only [db_resume, db_send]
      exact effect_exec cronNext s.db tx
  | commitThread k now hd db' hk hdb =>
    rcases hdb with ⟨rfl, -⟩ | ⟨tx, hsome, rfl⟩
    · exact Evolves.of_db rfl
    · have htx : (Label.commitThread k now).tx s = some tx := by
        show (s.detached[k]?.bind fun h => Runner.tx h now) = some tx
        rw [hk, Option.bind_some, hsome]
      exact Evolves.of_tx htx (effect_exec cronNext s.db tx)
  | _ => exact Evolves.of_db (by simp [setPhase, spawn, remove])

/- A run that exists after the step and had an id before it existed before. -/
theorem Evolves.back (h : Evolves s l t) {i : RunId} {r' : JobRun}
    (hr' : t.db.runs.get i = some r') (hi : i < s.db.runs.next) :
    ∃ r, s.db.runs.get i = some r ∧ RowChange s l r r' := by
  cases hg : s.db.runs.get i with
  | none => exact absurd (h.new i r' hr' hg).1 (Nat.not_le.mpr hi)
  | some r =>
    rcases h.row i r hg with ⟨q, hq, hrow⟩ | ⟨-, hnone⟩
    · have hqr : q = r' := Option.some.inj (hq.symm.trans hr')
      exact ⟨r, rfl, hqr ▸ hrow⟩
    · rw [hnone] at hr'
      cases hr'

theorem Evolves.change (h : Evolves s l t) {i : RunId} {r r' : JobRun}
    (hr : s.db.runs.get i = some r) (hr' : t.db.runs.get i = some r') : RowChange s l r r' := by
  obtain ⟨r0, hr0, hrow⟩ := h.back hr' (Table.lt_next_of_get hr)
  have heq : r0 = r := Option.some.inj (hr0.symm.trans hr)
  exact heq ▸ hrow

theorem RowChange.jobId {r r' : JobRun} (h : RowChange s l r r') : r'.jobId = r.jobId := by
  rcases h with rfl | ⟨tx, -, hrow⟩
  · rfl
  · exact hrow.jobId

theorem RowChange.pending {r r' : JobRun} (h : RowChange s l r r') (hp : r'.status = .pending) :
    r' = r := by
  rcases h with rfl | ⟨tx, -, hrow⟩
  · rfl
  · cases hrow with
    | same => rfl
    | finished _ res error now hne =>
      have hterm := res.status.runStatus_terminal
      rw [show res.status.runStatus = .pending from hp] at hterm
      cases hterm
    | _ => cases hp

/- The flush of create_dependency_run finds its run in one of the states p. -/
def FlushFinds (p : RunStatus → Bool) (s : Sys) (l : Label) : Prop :=
  ∀ tx, l.tx s = some tx → tx.flushFinds p s.db = true

instance (p : RunStatus → Bool) (s : Sys) (l : Label) : Decidable (FlushFinds p s l) :=
  match htx : l.tx s with
  | none => isTrue fun tx heq => by rw [htx] at heq; cases heq
  | some tx => decidable_of_iff (tx.flushFinds p s.db = true)
      ⟨fun hp tx' heq => by rw [htx] at heq; cases heq; exact hp, fun hp => hp tx htx⟩

/- It finds the run not claimed yet. -/
theorem FlushFinds.active (h : FlushFinds (Store.claimable false) s l) :
    FlushFinds RunStatus.active s l :=
  fun tx htx => RunTx.flushFinds_mono (fun _ hs => by
    rw [RunStatus.active_eq_not_terminal, RunTx.claimable_not_terminal hs]; rfl) (h tx htx)

theorem RowChange.canceled {r r' : JobRun} {p : RunStatus → Bool} (h : RowChange s l r r')
    (hflush : FlushFinds p s l) (hp : p .canceled = false) (hr : s.db.runs.get r.id = some r) (hc : r.status = .canceled) : r' = r := by
  rcases h with rfl | ⟨tx, htx, hrow⟩
  · rfl
  · have hne := RunTx.ne_promoteRun_of_flushFinds (hflush tx htx) hr (by rw [hc, hp])
    exact hrow.canceled_eq hne hc

end
end Sys

/-! ### The handlers -/

/- The handler whose step it is. -/
def Label.actor : Label → Option ℕ
  | .acquire i | .advance i _ | .executorReturns i _ | .fail i | .cancelTask i | .ack i
  | .ackError i | .del i | .delError i => some i
  | _ => none

namespace Sys

/- Handler h moves to the pc and the tables become the given ones. -/
inductive Moves (cfg : Settings) (s : Sys) (h : Handler) : Label → Database → Pc → Prop where
  | acquire : h.pc = .waiting → Moves cfg s h (.acquire h.id) s.db .claiming
  | advance (now : Time) (db' : Database) (pc : Pc) (out : Option Send) :
      Runner.Advance cfg s.db now h .statement h.pc db' pc out →
      Moves cfg s h (.advance h.id now) db' pc
  | executorReturns (c : Store.Claimed) (res : ExecResult) : h.pc = .executing c →
      Moves cfg s h (.executorReturns h.id res) s.db (Runner.returned c res)
  | fail : h.pc.working = true → Moves cfg s h (.fail h.id) s.db .acking
  | cancelTask : h.pc.working = true → h.runId ∈ s.cancels →
      Moves cfg s h (.cancelTask h.id) s.db .acking
  | ack : h.pc = .acking → Moves cfg s h (.ack h.id) s.db .deleting

section
variable {cfg : Settings} {cronNext : Cron.CronNext} {s t : Sys} {l : Label}

/- A handler after the step: one that did not move, a new one, or the one that moved. -/
theorem Trans.handler (h : Trans cfg cronNext s l t) {k : Handler} (hk : k ∈ t.handlers.rows) :
    (k ∈ s.handlers.rows ∧ l.actor ≠ some k.id) ∨
      (k.pc = .waiting ∧ s.redis.Holds k.runId ∧
        ∃ e ∈ t.redis.pending, e.messageId = k.messageId ∧ e.runId = k.runId) ∨
      ∃ h ∈ s.handlers.rows, ∃ pc, k = setPc pc h ∧ Moves cfg s h l t.db pc := by
  have hmove : ∀ {h : Handler} {pc : Pc}, s.handlers.get h.id = some h → l.actor = some h.id →
      Moves cfg s h l t.db pc → k ∈ (s.goto h.id pc).handlers.rows →
      (k ∈ s.handlers.rows ∧ l.actor ≠ some k.id) ∨
        (k.pc = .waiting ∧ s.redis.Holds k.runId ∧
          ∃ e ∈ t.redis.pending, e.messageId = k.messageId ∧ e.runId = k.runId) ∨
        ∃ h ∈ s.handlers.rows, ∃ pc, k = setPc pc h ∧ Moves cfg s h l t.db pc := by
    intro h pc hget hact hm hk
    rcases (mem_goto hget).mp hk with rfl | ⟨hk, hne⟩
    · exact Or.inr (Or.inr ⟨h, Table.mem_of_get hget, pc, rfl, hm⟩)
    · refine Or.inl ⟨hk, ?_⟩
      rw [hact]
      intro heq
      exact hne (Option.some.inj heq).symm
  have hremove : ∀ {i : ℕ}, l.actor = some i → k ∈ (s.remove i).handlers.rows →
      (k ∈ s.handlers.rows ∧ l.actor ≠ some k.id) := by
    intro i hact hk
    obtain ⟨hk, hne⟩ := mem_remove.mp hk
    refine ⟨hk, ?_⟩
    rw [hact]
    intro heq
    exact hne (Option.some.inj heq).symm
  cases h with
  | reclaim w m e p hstale =>
    obtain ⟨he, hm⟩ := Redis.stale_mem hstale
    rcases mem_spawn.mp hk with hk | rfl
    · exact Or.inl ⟨hk, fun h => by cases h⟩
    · exact Or.inr (Or.inl ⟨rfl, Or.inr (Or.inl ⟨e, he, rfl⟩),
        Redis.mem_pending_xautoclaim.mpr ⟨e, he, hm, rfl⟩⟩)
  | deliver w m p hnext =>
    have hm := Redis.nextMessage_mem hnext
    rcases mem_spawn.mp hk with hk | rfl
    · exact Or.inl ⟨hk, fun h => by cases h⟩
    · exact Or.inr (Or.inl ⟨rfl, Or.inl ⟨m, hm, rfl⟩, ⟨m.id, m.runId, w, s.redis.clock⟩,
        List.mem_append_right _ (List.mem_singleton_self _), rfl, rfl⟩)
  | acquire hd hget hpc => exact hmove hget rfl (.acquire hpc) hk
  | advance hd now db' pc out hget hadv =>
    rw [handlers_advance] at hk
    refine hmove hget rfl ?_ hk
    simp only [db_resume, db_send]
    exact .advance now db' pc out hadv
  | executorReturns hd c res hget hpc => exact hmove hget rfl (.executorReturns c res hpc) hk
  | fail hd hget hw =>
    rw [handlers_leave] at hk
    refine hmove hget rfl ?_ hk
    rw [db_leave]
    exact .fail hw
  | cancelTask hd hget hw hcan =>
    rw [handlers_leave] at hk
    refine hmove hget rfl ?_ hk
    rw [db_leave]
    exact .cancelTask hw hcan
  | ack hd hget hpc => exact hmove hget rfl (.ack hpc) hk
  | ackError hd hget hpc | delError hd hget hpc | del hd hget hpc =>
    exact Or.inl (hremove rfl hk)
  | crash w => exact Or.inl ⟨(Table.mem_rows_deleteWhere.mp hk).1, fun h => by cases h⟩
  | _ => exact Or.inl ⟨hk, fun h => by cases h⟩

/- What becomes of a handler. -/
theorem Trans.handler_fate (h : Trans cfg cronNext s l t) {k : Handler}
    (hk : k ∈ s.handlers.rows) :
    k ∈ t.handlers.rows ∨ (∃ pc, setPc pc k ∈ t.handlers.rows ∧ Moves cfg s k l t.db pc) ∨
      k.pc = .acking ∨ k.pc = .deleting ∨ l = .crash k.worker := by
  have hmove : ∀ {h : Handler} {pc : Pc}, s.handlers.get h.id = some h →
      Moves cfg s h l t.db pc → (∀ d, d ∈ (s.goto h.id pc).handlers.rows → d ∈ t.handlers.rows) →
      k ∈ t.handlers.rows ∨ (∃ pc, setPc pc k ∈ t.handlers.rows ∧ Moves cfg s k l t.db pc) ∨
        k.pc = .acking ∨ k.pc = .deleting ∨ l = .crash k.worker := by
    intro h pc hget hm ht
    by_cases heq : k.id = h.id
    · have hkh : k = h := s.handlers.eq_of_key_eq hk (Table.mem_of_get hget) heq
      subst hkh
      exact Or.inr (Or.inl ⟨pc, ht _ ((mem_goto hget).mpr (Or.inl rfl)), hm⟩)
    · exact Or.inl (ht k ((mem_goto hget).mpr (Or.inr ⟨hk, heq⟩)))
  have hremove : ∀ {h : Handler}, s.handlers.get h.id = some h → k ∉ (s.remove h.id).handlers.rows →
      k = h := by
    intro h hget hno
    by_contra hne
    refine hno (mem_remove.mpr ⟨hk, fun heq => hne ?_⟩)
    exact s.handlers.eq_of_key_eq hk (Table.mem_of_get hget) heq
  cases h with
  | reclaim w m e p hstale | deliver w m p hnext => exact Or.inl (mem_spawn.mpr (Or.inl hk))
  | acquire hd hget hpc => exact hmove hget (.acquire hpc) fun _ hd => hd
  | advance hd now db' pc out hget hadv =>
    refine hmove hget ?_ fun d hd => by rw [handlers_advance]; exact hd
    simp only [db_resume, db_send]
    exact .advance now db' pc out hadv
  | executorReturns hd c res hget hpc =>
    exact hmove hget (.executorReturns c res hpc) fun _ hd => hd
  | fail hd hget hw =>
    refine hmove hget ?_ fun d hd => by rw [handlers_leave]; exact hd
    rw [db_leave]
    exact .fail hw
  | cancelTask hd hget hw hcan =>
    refine hmove hget ?_ fun d hd => by rw [handlers_leave]; exact hd
    rw [db_leave]
    exact .cancelTask hw hcan
  | ack hd hget hpc => exact hmove hget (.ack hpc) fun _ hd => hd
  | ackError hd hget hpc =>
    by_cases hin : k ∈ (s.remove hd.id).handlers.rows
    · exact Or.inl hin
    · rw [hremove hget hin]
      exact Or.inr (Or.inr (Or.inl hpc))
  | del hd hget hpc | delError hd hget hpc =>
    by_cases hin : k ∈ (s.remove hd.id).handlers.rows
    · exact Or.inl hin
    · rw [hremove hget hin]
      exact Or.inr (Or.inr (Or.inr (Or.inl hpc)))
  | crash w =>
    by_cases hw : k.worker = w
    · exact Or.inr (Or.inr (Or.inr (Or.inr (by rw [hw]))))
    · exact Or.inl (Table.mem_rows_deleteWhere.mpr ⟨hk, by simp [hw]⟩)
  | _ => exact Or.inl hk

end

/-! ### The pending list -/

/- Only the XACK of a handler takes a message out of the pending list. -/
theorem Trans.pending {cfg : Settings} {cronNext : Cron.CronNext} {s t : Sys} {l : Label}
    (h : Trans cfg cronNext s l t) {e : PendingEntry} (he : e ∈ s.redis.pending) :
    (∃ e' ∈ t.redis.pending, e'.messageId = e.messageId ∧ e'.runId = e.runId) ∨
      ∃ h ∈ s.handlers.rows, l = .ack h.id ∧ h.pc = .acking ∧ e.messageId = h.messageId := by
  have hsame : t.redis.pending = s.redis.pending →
      (∃ e' ∈ t.redis.pending, e'.messageId = e.messageId ∧ e'.runId = e.runId) ∨
        ∃ h ∈ s.handlers.rows, l = .ack h.id ∧ h.pc = .acking ∧ e.messageId = h.messageId :=
    fun heq => Or.inl ⟨e, heq ▸ he, rfl, rfl⟩
  cases h with
  | reclaim w m e' p hstale =>
    exact Or.inl (Redis.mem_pending_xautoclaim.mpr ⟨e, he, rfl, rfl⟩)
  | deliver w m p hnext => exact Or.inl ⟨e, List.mem_append_left _ he, rfl, rfl⟩
  | ack hd hget hpc =>
    by_cases hm : e.messageId = hd.messageId
    · exact Or.inr ⟨hd, Table.mem_of_get hget, rfl, hpc, hm⟩
    · exact Or.inl ⟨e, Redis.mem_pending_xack.mpr ⟨he, hm⟩, rfl, rfl⟩
  | promoteDelayed now => exact hsame (Redis.pending_promoteDueDelayed _ _)
  | advance hd now db' pc out hget hadv =>
    refine hsame ?_
    rw [redis_resume]
    rcases out with _ | _ | _ <;> rfl
  | fail _ _ _ | cancelTask _ _ _ _ => exact hsame (by simp)
  | _ => exact hsame rfl

/-! ### Where a transaction comes from -/

theorem tx_cases {s : Sys} {l : Label} {tx : RunTx} (h : l.tx s = some tx) :
    (∃ owner i now run, l = .retryRun owner i now ∧ s.db.ownedRun i owner = some run ∧
      tx = .createRun run.jobId .retry none (run.attempt + 1) .queued now) ∨
    (∃ owner i now, l = .cancelRun owner i now ∧ tx = .cancelRun i now) ∨
    (∃ now, l = .tick now ∧ tx = .scheduleDueJobs now) ∨
    (∃ h ∈ s.handlers.rows, ∃ now, l = .advance h.id now ∧ Runner.tx h now = some tx) ∨
    ∃ h ∈ s.detached, ∃ k now, l = .commitThread k now ∧ Runner.tx h now = some tx := by
  cases l with
  | retryRun owner i now =>
    obtain ⟨run, hrun, rfl⟩ := Option.map_eq_some_iff.mp h
    exact Or.inl ⟨owner, i, now, run, rfl, hrun, rfl⟩
  | cancelRun owner i now =>
    cases h
    exact Or.inr (Or.inl ⟨owner, i, now, rfl, rfl⟩)
  | tick now =>
    cases h
    exact Or.inr (Or.inr (Or.inl ⟨now, rfl, rfl⟩))
  | advance i now =>
    obtain ⟨hd, hget, htx⟩ := Option.bind_eq_some_iff.mp h
    have hid : hd.id = i := Table.key_of_get hget
    subst hid
    exact Or.inr (Or.inr (Or.inr (Or.inl ⟨hd, Table.mem_of_get hget, now, rfl, htx⟩)))
  | commitThread k now =>
    obtain ⟨hd, hget, htx⟩ := Option.bind_eq_some_iff.mp h
    exact Or.inr (Or.inr (Or.inr (Or.inr ⟨hd, List.mem_of_getElem? hget, k, now, rfl, htx⟩)))
  | _ => cases h

theorem tx_of_worker {s : Sys} {l : Label} {tx : RunTx} (h : l.tx s = some tx)
    (hw : tx.ofWorker = true) :
    (∃ h ∈ s.handlers.rows, ∃ now, l = .advance h.id now ∧ Runner.tx h now = some tx) ∨
      ∃ h ∈ s.detached, ∃ k now, l = .commitThread k now ∧ Runner.tx h now = some tx := by
  rcases tx_cases h with ⟨_, _, _, _, _, _, rfl⟩ | ⟨_, _, _, _, rfl⟩ | ⟨_, _, rfl⟩ | h | h
  · cases hw
  · cases hw
  · cases hw
  · exact Or.inl h
  · exact Or.inr h

end Sys
end JobScheduler
