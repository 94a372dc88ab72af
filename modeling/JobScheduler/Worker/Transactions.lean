import JobScheduler.Scheduler.Main
import JobScheduler.Worker.Executor
import JobScheduler.Worker.Store

/-!
# The run transactions as one family

Everything that writes `job_runs`, except the trigger and the edits of jobs, is one of
the transactions below; the writing statements of create_dependency_run stand beside the whole
transaction. `effect_exec` says once what a transaction can do to a run
that exists and which runs it can add; the invariants of the later modules are derived
from it and never unfold a transaction again.
-/

namespace JobScheduler
open Library Database Store

inductive RunTx where
  | createRun (jobId : JobId) (triggerType : TriggerType) (scheduledFor : Option Time)
      (attempt : ℤ) (status : RunStatus) (now : Time)
  | createRetryRun (jobId : JobId) (attempt : ℤ) (now : Time)
  | createDependencyRun (jobId : JobId) (now : Time)
  | scheduleDueJobs (now : Time)
  | claimRun (runId : RunId) (workerId : WorkerId) (allowRunning : Bool) (now : Time)
  | cancelRun (runId : RunId) (now : Time)
  | finishRun (runId : RunId) (res : ExecResult) (error : Option String) (now : Time)
  | promoteRun (runId : RunId)
  | insertDependencyRun (jobId : JobId) (now : Time)

namespace RunTx

/- The committed tables after the transaction; one that raises leaves them as they were. -/
def exec (cronNext : Cron.CronNext) (db : Database) : RunTx → Database
  | .createRun jobId triggerType scheduledFor attempt status now =>
    ((db.createRun jobId triggerType scheduledFor attempt status now).map Prod.fst).getD db
  | .createRetryRun jobId attempt now =>
    ((Store.createRetryRun db jobId attempt now).map Prod.fst).getD db
  | .createDependencyRun jobId now =>
    ((Store.createDependencyRun db jobId now).map Prod.fst).getD db
  | .scheduleDueJobs now =>
    match Scheduler.scheduleDueJobs cronNext db now with
    | .error _ => db
    | .ok out => out.1
  | .claimRun runId workerId allowRunning now =>
    (Store.claimRun db runId workerId allowRunning now).1
  | .cancelRun runId now => (Store.cancelRun db runId now).1
  | .finishRun runId res error now =>
    Store.finishRun db runId res.status.runStatus res.exitCode res.result error now
  | .promoteRun runId => if (db.runs.get runId).isSome then Store.promoteRun db runId else db
  | .insertDependencyRun jobId now =>
    ((db.insertRun (dependencyRow jobId now)).map Prod.fst).getD db

/- The transactions that only process_run makes. -/
def ofWorker : RunTx → Bool
  | .createRetryRun .. | .createDependencyRun .. | .claimRun .. | .finishRun ..
  | .promoteRun .. | .insertDependencyRun .. => true
  | .createRun .. | .scheduleDueJobs .. | .cancelRun .. => false

/- How a transaction can change a row in place. -/
inductive RowStep : RunTx → JobRun → JobRun → Prop where
  | same (tx : RunTx) (r : JobRun) : RowStep tx r r
  | claimed (r : JobRun) (w : WorkerId) (allow : Bool) (now : Time) :
      claimable allow r.status = true → RowStep (.claimRun r.id w allow now) r (claimedRow w now r)
  | canceled (r : JobRun) (now : Time) :
      r.status.active = true → RowStep (.cancelRun r.id now) r (canceledRow now r)
  | finished (r : JobRun) (res : ExecResult) (error : Option String) (now : Time) :
      r.status ≠ .canceled → RowStep (.finishRun r.id res error now) r
        (finishedRow res.status.runStatus res.exitCode res.result error now r)
  | promoted (r : JobRun) (now : Time) :
      r.status = .pending → RowStep (.createDependencyRun r.jobId now) r (promotedRow r)
  | flushed (r : JobRun) : RowStep (.promoteRun r.id) r (promotedRow r)

/- The runs a transaction can add. -/
def Adds (tx : RunTx) (r : JobRun) : Prop :=
  match tx with
  | .createRun jobId _ _ _ status _ => r.jobId = jobId ∧ r.status = status
  | .createRetryRun jobId _ _ => r.jobId = jobId ∧ r.status = .queued
  | .createDependencyRun jobId _ => r.jobId = jobId ∧ r.status = .queued
  | .insertDependencyRun jobId _ => r.jobId = jobId ∧ r.status = .queued
  | .scheduleDueJobs _ => r.status = .queued
  | .claimRun .. | .cancelRun .. | .finishRun .. | .promoteRun .. => False

/- Tables that differ by one transaction. -/
structure Effect (tx : RunTx) (db db' : Database) : Prop where
  dependencies : db'.dependencies = db.dependencies
  jobIds : ∀ i, (db'.jobs.get i).isSome = (db.jobs.get i).isSome
  jobsNext : db'.jobs.next = db.jobs.next
  next : db.runs.next ≤ db'.runs.next
  row : ∀ i r, db.runs.get i = some r → ∃ r', db'.runs.get i = some r' ∧ RowStep tx r r'
  new : ∀ i r, db'.runs.get i = some r → db.runs.get i = none → db.runs.next ≤ i ∧ Adds tx r

theorem Effect.refl (tx : RunTx) (db : Database) : Effect tx db db where
  dependencies := rfl
  jobIds := fun _ => rfl
  jobsNext := rfl
  next := le_rfl
  row := fun _ r hr => ⟨r, hr, .same tx r⟩
  new := (Extends.refl (Adds tx) db).new

theorem effect_of_extends {tx : RunTx} {db db' : Database} (h : db.Extends (Adds tx) db') :
    Effect tx db db' where
  dependencies := h.dependencies
  jobIds := h.jobIds
  jobsNext := h.jobsNext
  next := h.next
  row := fun i r hr => ⟨r, h.old i r hr, .same tx r⟩
  new := h.new

/- The conditional updates of one run. -/
theorem effect_updateRun {tx : RunTx} (db : Database) (i : RunId) (g : RunStatus → Bool)
    (f : JobRun → JobRun) (hf : KeepsRun f)
    (hstep : ∀ r, db.runs.get i = some r → g r.status = true → RowStep tx r (f r)) :
    Effect tx db (updateRun db i g f hf) where
  dependencies := rfl
  jobIds := fun _ => rfl
  jobsNext := rfl
  next := le_rfl
  row := by
    intro k r hr
    rw [get_updateRun]
    by_cases hk : k = i
    · rw [if_pos hk, hr, Option.map_some]
      by_cases hg : g r.status = true
      · rw [if_pos hg]
        exact ⟨f r, rfl, hstep r (hk ▸ hr) hg⟩
      · rw [if_neg hg]
        exact ⟨r, rfl, .same tx r⟩
    · rw [if_neg hk]
      exact ⟨r, hr, .same tx r⟩
  new := by
    intro k r hr hn
    rw [get_updateRun, hn] at hr
    by_cases hk : k = i
    · rw [if_pos hk] at hr
      cases hr
    · rw [if_neg hk] at hr
      cases hr

theorem effect_insertRun {tx : RunTx} {db : Database} {n : NewRun}
    (hn : ∀ i, Adds tx (n.row i)) :
    Effect tx db (((db.insertRun n).map Prod.fst).getD db) := by
  cases h : db.insertRun n with
  | none => exact Effect.refl tx db
  | some out =>
    obtain ⟨db', i⟩ := out
    obtain ⟨-, ha, rfl⟩ := insertRun_eq_some h
    rw [Option.map_some, Option.getD_some]
    exact effect_of_extends (extends_addRun db n ha (hn _))

theorem effect_createDependencyRun (db : Database) (j : JobId) (now : Time) :
    Effect (.createDependencyRun j now) db
      (((Store.createDependencyRun db j now).map Prod.fst).getD db) := by
  cases h : Store.createDependencyRun db j now with
  | none => exact Effect.refl _ db
  | some out =>
    obtain ⟨db', res⟩ := out
    rw [Option.map_some, Option.getD_some]
    rcases createDependencyRun_cases h with
      ⟨-, rfl, -⟩ | ⟨-, p, hp, rfl, -⟩ | ⟨-, ha, rfl, -⟩
    · exact Effect.refl _ _
    · obtain ⟨hmem, hj, hs⟩ := oldestRun_eq_some hp
      refine effect_updateRun db p.id (fun _ => true) promotedRow promotedRow_keeps ?_
      intro r hr _
      have hrp : p = r := Option.some.inj ((Table.get_of_mem hmem).symm.trans hr)
      subst hrp
      rw [← hj]
      exact .promoted p now (by simpa using hs)
    · exact effect_of_extends (extends_addRun db _ ha ⟨rfl, rfl⟩)

theorem effect_of_createDependencyRun {db db' : Database} {j : JobId} {now : Time}
    {res : Option RunId} (h : Store.createDependencyRun db j now = some (db', res)) :
    Effect (.createDependencyRun j now) db db' := by
  have heff := effect_createDependencyRun db j now
  rw [h] at heff
  exact heff

theorem effect_exec (cronNext : Cron.CronNext) (db : Database) (tx : RunTx) :
    Effect tx db (exec cronNext db tx) := by
  cases tx with
  | createRun jobId triggerType scheduledFor attempt status now =>
    exact effect_insertRun fun i => ⟨rfl, rfl⟩
  | createRetryRun jobId attempt now => exact effect_insertRun fun i => ⟨rfl, rfl⟩
  | createDependencyRun jobId now => exact effect_createDependencyRun db jobId now
  | scheduleDueJobs now =>
    rw [exec]
    split
    · exact Effect.refl _ db
    · rename_i out hout
      have hs := Scheduler.scheduleDueJobs_scheduled hout
      exact effect_of_extends (hs.ext.mono fun r hr => hr.1)
  | claimRun i w allow now =>
    rcases claimRun_cases db i w allow now with ⟨heq, -⟩ | ⟨r, job, hr, hg, -, heq⟩
    · rw [exec, heq]
      exact Effect.refl _ db
    · rw [exec, heq]
      refine effect_updateRun db i _ _ (claimedRow_keeps w now) ?_
      intro q hq hgq
      have hid : q.id = i := Table.key_of_get hq
      rw [← hid]
      exact .claimed q w allow now hgq
  | cancelRun i now =>
    refine effect_updateRun db i _ _ (canceledRow_keeps now) ?_
    intro q hq hgq
    have hid : q.id = i := Table.key_of_get hq
    rw [← hid]
    exact .canceled q now hgq
  | finishRun i res error now =>
    refine effect_updateRun db i _ _ (finishedRow_keeps _ _ _ error now) ?_
    intro q hq hgq
    have hid : q.id = i := Table.key_of_get hq
    rw [← hid]
    exact .finished q res error now (by simpa [finishable] using hgq)
  | promoteRun i =>
    rw [exec]
    split
    · refine effect_updateRun db i _ _ promotedRow_keeps ?_
      intro q hq _
      have hid : q.id = i := Table.key_of_get hq
      rw [← hid]
      exact .flushed q
    · exact Effect.refl _ db
  | insertDependencyRun jobId now => exact effect_insertRun fun i => ⟨rfl, rfl⟩

/- Only the anchors of the scheduler change a job. -/
theorem exec_jobs {cronNext : Cron.CronNext} {db : Database} {tx : RunTx}
    (h : ∀ now, tx ≠ .scheduleDueJobs now) :
    (tx.exec cronNext db).jobs = db.jobs := by
  have hinsert : ∀ n : NewRun, (((db.insertRun n).map Prod.fst).getD db).jobs = db.jobs := by
    intro n
    cases hout : db.insertRun n with
    | none => rfl
    | some out =>
      obtain ⟨db', i⟩ := out
      obtain ⟨-, ha, rfl⟩ := insertRun_eq_some hout
      rfl
  cases tx with
  | createRun jobId triggerType scheduledFor attempt status now => exact hinsert _
  | createRetryRun jobId attempt now => exact hinsert _
  | createDependencyRun jobId now =>
    rw [exec]
    cases hout : Store.createDependencyRun db jobId now with
    | none => rfl
    | some out =>
      obtain ⟨db', res⟩ := out
      rcases createDependencyRun_cases hout with
        ⟨-, rfl, -⟩ | ⟨-, p, -, rfl, -⟩ | ⟨-, ha, rfl, -⟩ <;> rfl
  | scheduleDueJobs now => exact absurd rfl (h now)
  | claimRun runId workerId allowRunning now =>
    rw [exec]
    rcases claimRun_cases db runId workerId allowRunning now with
      ⟨heq, -⟩ | ⟨r, job, -, -, -, heq⟩
    · rw [heq]
    · rw [heq]
      rfl
  | cancelRun runId now => rfl
  | finishRun runId res error now => rfl
  | promoteRun runId =>
    rw [exec]
    split <;> rfl
  | insertDependencyRun jobId now => exact hinsert _

/-! ### The writing statements of create_dependency_run -/

end RunTx

namespace Store

/- The transaction that the next statement commits; a SELECT commits nothing. -/
def Promotion.tx (now : Time) : Promotion → Option RunTx
  | .checked _ => none
  | .read _ pending => some (.promoteRun pending)
  | .absent jobId => some (.insertDependencyRun jobId now)

theorem Promotion.tx_cases {x : Promotion} {now : Time} {tx : RunTx} (h : x.tx now = some tx) :
    (∃ p, tx = .promoteRun p) ∨ ∃ j, tx = .insertDependencyRun j now := by
  cases x with
  | checked j => cases h
  | read j p =>
    cases h
    exact Or.inl ⟨p, rfl⟩
  | absent j =>
    cases h
    exact Or.inr ⟨j, rfl⟩

theorem Promotion.tx_promoteRun {x : Promotion} {now : Time} {p : RunId}
    (h : x.tx now = some (.promoteRun p)) : ∃ j, x = .read j p := by
  cases x with
  | checked j => cases h
  | read j p' =>
    cases h
    exact ⟨j, rfl⟩
  | absent j => cases h

theorem Promotion.tx_insertDependencyRun {x : Promotion} {now n : Time} {j : JobId}
    (h : x.tx now = some (.insertDependencyRun j n)) : x = .absent j := by
  cases x with
  | checked j => cases h
  | read j p => cases h
  | absent j =>
    cases h
    rfl

/- The statement that writes is the last of its transaction. -/
theorem nextStatement_last (db : Database) {x : Promotion} {now : Time} {tx : RunTx}
    (h : x.tx now = some tx) (y : Promotion) : (nextStatement db now x).2 ≠ .goesOn y := by
  cases x with
  | checked j => cases h
  | read j p =>
    simp only [nextStatement]
    split <;> exact fun heq => by cases heq
  | absent j =>
    simp only [nextStatement]
    split <;> exact fun heq => by cases heq

theorem fst_nextStatement (cronNext : Cron.CronNext) (db : Database) (now : Time) (x : Promotion) :
    (nextStatement db now x).1 = ((x.tx now).map (RunTx.exec cronNext db)).getD db := by
  cases x with
  | checked j =>
    simp only [nextStatement]
    split <;> rfl
  | read j p =>
    simp only [nextStatement, Promotion.tx, Option.map_some, Option.getD_some, RunTx.exec]
    split <;> rfl
  | absent j =>
    simp only [nextStatement, Promotion.tx, Option.map_some, Option.getD_some, RunTx.exec]
    cases db.insertRun (dependencyRow j now) <;> rfl

end Store

namespace RunTx

/-! ### Consequences for one row -/

theorem RowStep.jobId {tx : RunTx} {r r' : JobRun} (h : RowStep tx r r') :
    r'.jobId = r.jobId := by
  cases h <;> rfl

theorem RowStep.of_dependency {j : JobId} {now : Time} {r r' : JobRun}
    (h : RowStep (.createDependencyRun j now) r r') :
    r' = r ∨ r.jobId = j ∧ r.status = .pending ∧ r'.status = .queued := by
  cases h with
  | same => exact Or.inl rfl
  | promoted _ now hp => exact Or.inr ⟨rfl, hp, rfl⟩

theorem claimable_not_terminal {allow : Bool} {s : RunStatus} (h : claimable allow s = true) :
    s.terminal = false := by
  cases allow <;> cases s <;> first | rfl | cases h

/- The flush of create_dependency_run finds its run in one of the states p. -/
def flushFinds (p : RunStatus → Bool) (db : Database) : RunTx → Bool
  | .promoteRun runId => (db.statusOf runId).all p
  | _ => true

theorem flushFinds_mono {p q : RunStatus → Bool} (hpq : ∀ s, p s = true → q s = true)
    {db : Database} {tx : RunTx} (h : tx.flushFinds p db = true) : tx.flushFinds q db = true := by
  cases tx with
  | promoteRun i =>
    simp only [flushFinds, Option.all_eq_true] at h ⊢
    exact fun s hs => hpq s (h s hs)
  | _ => rfl

theorem status_of_flushFinds {p : RunStatus → Bool} {db : Database} {tx : RunTx}
    (h : tx.flushFinds p db = true) {r : JobRun} (hr : db.runs.get r.id = some r)
    (htx : tx = .promoteRun r.id) : p r.status = true := by
  subst htx
  simpa [flushFinds, statusOf, hr] using h

theorem ne_promoteRun_of_flushFinds {p : RunStatus → Bool} {db : Database} {tx : RunTx}
    (h : tx.flushFinds p db = true) {r : JobRun} (hr : db.runs.get r.id = some r)
    (hp : p r.status = false) : tx ≠ .promoteRun r.id := by
  intro htx
  rw [status_of_flushFinds h hr htx] at hp
  cases hp

theorem RowStep.of_promoteRun {i : RunId} {r r' : JobRun} (h : RowStep (.promoteRun i) r r') :
    r' = r ∨ r.id = i ∧ r' = promotedRow r := by
  cases h with
  | same => exact Or.inl rfl
  | flushed => exact Or.inr ⟨rfl, rfl⟩

theorem RowStep.canceled_eq {tx : RunTx} {r r' : JobRun} (h : RowStep tx r r')
    (hflush : tx ≠ .promoteRun r.id) (hc : r.status = .canceled) : r' = r := by
  cases h with
  | same => rfl
  | claimed _ w allow now hg =>
    have ht := claimable_not_terminal hg
    rw [hc] at ht
    cases ht
  | canceled _ now ha =>
    rw [hc] at ha
    cases ha
  | finished _ res error now hne => exact absurd hc hne
  | promoted _ now hp =>
    rw [hc] at hp
    cases hp
  | flushed => exact absurd rfl hflush

theorem RowStep.terminal {tx : RunTx} {r r' : JobRun} (h : RowStep tx r r')
    (hflush : tx ≠ .promoteRun r.id) (ht : r.status.terminal = true) :
    r'.status.terminal = true := by
  cases h with
  | same => exact ht
  | claimed _ w allow now hg =>
    rw [claimable_not_terminal hg] at ht
    cases ht
  | canceled _ now ha => rfl
  | finished _ res error now hne => exact res.status.runStatus_terminal
  | promoted _ now hp =>
    rw [hp] at ht
    cases ht
  | flushed => exact absurd rfl hflush

end RunTx
end JobScheduler
