import JobScheduler.Execution
import JobScheduler.Scheduler.Pass

/-!
# The columns of a run

Nothing in the tables keeps the columns of a row in line with its status: every transaction
writes some of them. Here is what they say together in every state the system reaches by steps
whose flushes of create_dependency_run find their runs unclaimed.
-/

namespace JobScheduler
open Library Database

/-! ### Inserted rows -/

/- What the INSERTs of the program have in common. -/
structure Database.NewRun.Fits (now : Time) (n : NewRun) : Prop where
  status : n.status = .pending ∨ n.status = .queued
  createdAt : n.createdAt = now
  tick : n.scheduledFor.isSome = decide (n.triggerType = .scheduled)
  attempt : if n.triggerType = .retry then 2 ≤ n.attempt else n.attempt = 1

/- The row of such an INSERT. -/
def JobRun.Inserted (now : Time) (r : JobRun) : Prop :=
  ∃ n : NewRun, n.Fits now ∧ r = n.row r.id

theorem Database.NewRun.Fits.inserted {now : Time} {n : NewRun} (h : n.Fits now) (i : RunId) :
    (n.row i).Inserted now :=
  ⟨n, h, rfl⟩

namespace Scheduler

theorem fits_scheduledRow (j : JobId) (tick now : Time) : (scheduledRow j tick now).Fits now :=
  ⟨Or.inr rfl, rfl, rfl, rfl⟩

theorem extends_scheduleTick (acc : Database × List RunId) (j : JobId) (tick now : Time) :
    acc.1.Extends (JobRun.Inserted now) (scheduleTick acc j tick now).1 := by
  unfold scheduleTick
  cases hi : acc.1.insertRun (scheduledRow j tick now) with
  | none => exact extends_updateJobs _ _ _ _ _
  | some out =>
    obtain ⟨db', i⟩ := out
    obtain ⟨rfl, ha, rfl⟩ := insertRun_eq_some hi
    have hadd := extends_addRun acc.1 (scheduledRow j tick now) ha
      ((fits_scheduledRow j tick now).inserted acc.1.runs.next)
    exact hadd.trans (extends_updateJobs _ _ _ _ _)

theorem extends_foldlM {cronNext : Cron.CronNext} {now : Time} {jobs : List Job}
    {acc out : Database × List RunId} (h : jobs.foldlM (scheduleJob cronNext now) acc = .ok out) :
    acc.1.Extends (JobRun.Inserted now) out.1 := by
  induction jobs generalizing acc with
  | nil =>
    cases h
    exact Extends.refl _ _
  | cons job jobs ih =>
    rw [List.foldlM_cons] at h
    obtain ⟨mid, hmid, h⟩ := bind_eq_ok.mp h
    obtain ⟨tick, -, rfl⟩ := scheduleJob_eq_ok hmid
    cases tick with
    | none => exact ih h
    | some tick => exact (extends_scheduleTick acc job.id tick now).trans (ih h)

end Scheduler

namespace Api

theorem fits_triggeredRow (now : Time) (job : JobId) {tt : TriggerType} {status : RunStatus}
    (htt : tt = .manual ∨ tt = .dependency) (hs : status = .pending ∨ status = .queued) :
    (triggeredRow now job tt status).Fits now where
  status := hs
  createdAt := rfl
  tick := by rcases htt with rfl | rfl <;> rfl
  attempt := by rcases htt with rfl | rfl <;> rfl

theorem extends_trigger {db : Database} {owner : UserId} {job : JobId} {now : Time}
    {st : Prepared} {p : RunId} (h : triggerJob db owner job now = .ok (st, p)) :
    db.Extends (JobRun.Inserted now) st.1 := by
  unfold triggerJob at h
  split at h
  · cases h
  · refine prepareTriggerRun_rel_of (R := fun a b => a.1.Extends (JobRun.Inserted now) b.1)
      (K := fun tt => tt = .manual ∨ tt = .dependency) (fun st => Extends.refl _ st.1)
      (fun _ _ _ hab hbc => hab.trans hbc) (Or.inr rfl) ?_ ?_ _ _ _ _ _ _ _ (Or.inl rfl) h
    · intro st job tt ha htt _
      exact extends_addRun st.1 _ ha ((fits_triggeredRow now job htt (Or.inr rfl)).inserted _)
    · intro st job tt ha htt _ _
      exact extends_addRun st.1 _ ha ((fits_triggeredRow now job htt (Or.inl rfl)).inserted _)

end Api

namespace RunTx

/- The reading of the clock that a transaction stores, if any. -/
def now? : RunTx → Option Time
  | .createRun _ _ _ _ _ now | .createRetryRun _ _ now | .createDependencyRun _ now
  | .scheduleDueJobs now | .claimRun _ _ _ now | .cancelRun _ now | .finishRun _ _ _ now
  | .insertDependencyRun _ now => some now
  | .promoteRun _ => none

/- A retry is numbered after the run it repeats. -/
def Numbered : RunTx → Prop
  | .createRun _ triggerType scheduledFor attempt status _ =>
    triggerType = .retry ∧ scheduledFor = none ∧ status = .queued ∧ 2 ≤ attempt
  | .createRetryRun _ attempt _ => 2 ≤ attempt
  | _ => True

theorem inserted_insertRun {db : Database} {n : NewRun} {now : Time} (hn : n.Fits now) :
    ∀ i r, (((db.insertRun n).map Prod.fst).getD db).runs.get i = some r →
      db.runs.get i = none → r.Inserted now := by
  intro i r hr hnone
  cases h : db.insertRun n with
  | none =>
    rw [h, Option.map_none, Option.getD_none, hnone] at hr
    cases hr
  | some out =>
    obtain ⟨db', k⟩ := out
    rw [h, Option.map_some, Option.getD_some] at hr
    obtain ⟨-, ha, rfl⟩ := insertRun_eq_some h
    exact ((extends_addRun db n ha (hn.inserted _)).new i r hr hnone).2

/- Every run that a transaction adds is freshly inserted. -/
theorem inserted_exec {cronNext : Cron.CronNext} {db : Database} {tx : RunTx}
    (hnum : tx.Numbered) {i : RunId} {r : JobRun} (hr : (tx.exec cronNext db).runs.get i = some r)
    (hnone : db.runs.get i = none) : ∃ now, tx.now? = some now ∧ r.Inserted now := by
  have hadds := (effect_exec cronNext db tx).new i r hr hnone
  cases tx with
  | createRun jobId triggerType scheduledFor attempt status now =>
    obtain ⟨rfl, rfl, rfl, hle⟩ := hnum
    have hfits : NewRun.Fits now
        { jobId := jobId, triggerType := .retry, status := .queued, attempt := attempt,
          createdAt := now } := ⟨Or.inr rfl, rfl, rfl, hle⟩
    exact ⟨now, rfl, inserted_insertRun hfits i r hr hnone⟩
  | createRetryRun jobId attempt now =>
    have hfits : (Store.retryRow jobId attempt now).Fits now := ⟨Or.inr rfl, rfl, rfl, hnum⟩
    exact ⟨now, rfl, inserted_insertRun hfits i r hr hnone⟩
  | insertDependencyRun jobId now =>
    have hfits : (Store.dependencyRow jobId now).Fits now := ⟨Or.inr rfl, rfl, rfl, rfl⟩
    exact ⟨now, rfl, inserted_insertRun hfits i r hr hnone⟩
  | createDependencyRun jobId now =>
    cases h : Store.createDependencyRun db jobId now with
    | none =>
      rw [exec, h, Option.map_none, Option.getD_none, hnone] at hr
      cases hr
    | some out =>
      obtain ⟨db', res⟩ := out
      rw [exec, h, Option.map_some, Option.getD_some] at hr
      rcases Store.createDependencyRun_cases h with
        ⟨-, rfl, -⟩ | ⟨-, p, hp, rfl, -⟩ | ⟨-, ha, rfl, -⟩
      · rw [hnone] at hr
        cases hr
      · rw [Store.promoteRun, Store.get_updateRun, hnone] at hr
        split at hr <;> cases hr
      · have hfits : (Store.dependencyRow jobId now).Fits now := ⟨Or.inr rfl, rfl, rfl, rfl⟩
        exact ⟨now, rfl, ((extends_addRun db _ ha (hfits.inserted _)).new i r hr hnone).2⟩
  | scheduleDueJobs now =>
    rw [exec] at hr
    split at hr
    · rw [hnone] at hr
      cases hr
    · rename_i out hout
      exact ⟨now, rfl, ((Scheduler.extends_foldlM hout).new i r hr hnone).2⟩
  | claimRun _ _ _ _ | cancelRun _ _ | finishRun _ _ _ _ | promoteRun _ => exact hadds.2.elim

/- The columns that are written once. -/
structure KeepsOrigin (r r' : JobRun) : Prop where
  id : r'.id = r.id
  triggerType : r'.triggerType = r.triggerType
  attempt : r'.attempt = r.attempt
  scheduledFor : r'.scheduledFor = r.scheduledFor
  createdAt : r'.createdAt = r.createdAt
  startedAt : r.startedAt.isSome = true → r'.startedAt.isSome = true

theorem RowStep.keepsOrigin {tx : RunTx} {r r' : JobRun} (h : RowStep tx r r') :
    KeepsOrigin r r' := by
  cases h with
  | claimed _ w allow now hg => exact ⟨rfl, rfl, rfl, rfl, rfl, fun _ => rfl⟩
  | _ => exact ⟨rfl, rfl, rfl, rfl, rfl, id⟩

end RunTx

/-! ### Where the time of a step comes from -/

/- The reading of the clock that belongs to a step. -/
def Label.now? : Label → Option Time
  | .trigger _ _ now | .retryRun _ _ now | .cancelRun _ _ now | .promoteDelayed now | .tick now
  | .advance _ now | .commitThread _ now => some now
  | _ => none

namespace Runner

theorem tx_now {h : Handler} {now n : Time} {tx' : RunTx} (htx : tx h now = some tx')
    (hn : tx'.now? = some n) : now = n := by
  unfold tx at htx
  split at htx
  · cases htx
    exact Option.some.inj hn
  · cases htx
    exact Option.some.inj hn
  · rename_i x js _
    cases x with
    | checked j => cases htx
    | read j p =>
      cases htx
      cases hn
    | absent j =>
      cases htx
      exact Option.some.inj hn
  · cases htx
    exact Option.some.inj hn
  · cases htx
    exact Option.some.inj hn
  · cases htx

/- The error a handler records: none with a success, anything with a failure. -/
theorem tx_finishRun_error {h : Handler} {now : Time} {i : RunId} {res : ExecResult}
    {error : Option String} {n : Time} (htx : tx h now = some (.finishRun i res error n)) :
    error = none ∨ h.pc.fails? = some res := by
  unfold tx at htx
  split at htx
  · cases htx
  · cases htx
    exact Or.inl rfl
  · rcases Store.Promotion.tx_cases htx with ⟨p, heq⟩ | ⟨j, heq⟩ <;> cases heq
  · cases htx
  · rename_i hpc
    cases htx
    rw [hpc]
    exact Or.inr rfl
  · cases htx

theorem tx_createRetryRun {h : Handler} {now : Time} {j : JobId} {a : ℤ} {n : Time}
    (htx : tx h now = some (.createRetryRun j a n)) :
    ∃ c, h.pc.claimed? = some c ∧ a = c.attempt + 1 := by
  unfold tx at htx
  split at htx
  · cases htx
  · cases htx
  · rcases Store.Promotion.tx_cases htx with ⟨p, heq⟩ | ⟨j, heq⟩ <;> cases heq
  · rename_i hpc
    cases htx
    rw [hpc]
    exact ⟨_, rfl, rfl⟩
  · cases htx
  · cases htx

theorem tx_ne_createRun (h : Handler) (now : Time) (j : JobId) (tt : TriggerType)
    (tick : Option Time) (a : ℤ) (status : RunStatus) (n : Time) :
    tx h now ≠ some (.createRun j tt tick a status n) := by
  intro htx
  unfold tx at htx
  split at htx
  · cases htx
  · cases htx
  · rcases Store.Promotion.tx_cases htx with ⟨p, heq⟩ | ⟨j, heq⟩ <;> cases heq
  · cases htx
  · cases htx
  · cases htx

/- A record of a claim is written with the row of the run. -/
theorem Advance.claimed_row {cfg : Settings} {db db' : Database} {now : Time} {h : Handler}
    {g : Grain} {pc pc' : Pc} {out : Option Send} (hadv : Advance cfg db now h g pc db' pc' out)
    {c : Store.Claimed} (hc : pc'.claimed? = some c) :
    pc.claimed? = some c ∨ ∃ r, db.runs.get h.runId = some r ∧
      Store.claimable h.allowRunning r.status = true ∧
      db'.runs.get h.runId = some (Store.claimedRow h.worker now r) ∧ c.runId = h.runId ∧
      c.attempt = r.attempt := by
  cases hadv with
  | claimed r job hr hg hjob =>
    cases hc
    have hid : r.id = h.runId := Table.key_of_get hr
    refine Or.inr ⟨r, hr, hg, ?_, hid, rfl⟩
    rw [Store.get_updateRun, if_pos rfl, hr, Option.map_some, if_pos hg]
  | refused _ | successSkipped _ _ _ | fannedOut _ | dependencyRaised _ _ _ _
  | dependencyGone _ _ _ _ _ | dependencyRefused _ _ _ _ | failureSkipped _ _ _
  | retryRaised _ _ _ | failed _ _ _ => cases hc
  | _ => exact Or.inl hc

end Runner

namespace Sys

variable {cfg : Settings} {cronNext : Cron.CronNext} {s t : Sys} {l : Label}

theorem tx_now {tx : RunTx} (htx : l.tx s = some tx) {n : Time} (hn : tx.now? = some n) :
    l.now? = some n := by
  rcases tx_cases htx with ⟨_, _, now, _, rfl, -, rfl⟩ | ⟨_, _, now, rfl, rfl⟩ |
    ⟨now, rfl, rfl⟩ | ⟨h, -, now, rfl, hh⟩ | ⟨h, -, k, now, rfl, hh⟩
  · exact hn
  · exact hn
  · exact hn
  · exact congrArg some (Runner.tx_now hh hn)
  · exact congrArg some (Runner.tx_now hh hn)

/- The statement of a handler. -/
theorem statement_of_step {i : ℕ} {now : Time} (h : s.step cfg cronNext (.advance i now) = some t) :
    ∃ d db' pc out, s.handlers.get d.id = some d ∧ d.id = i ∧
      Runner.statement cfg s.db d now = some (db', pc, out) ∧
      t = ({ s with db := db' }.send out).resume d pc := by
  obtain ⟨d, hget, hs⟩ := Option.bind_eq_some_iff.mp h
  have hid : d.id = i := Table.key_of_get hget
  simp only [Sys.handlerStep] at hs
  split at hs
  · cases hs
  · rename_i db' pc out hn
    cases hs
    exact ⟨d, db', pc, out, by rw [hid]; exact hget, hid, hn, rfl⟩

/- What a step leaves in the tables. -/
inductive Commits (cronNext : Cron.CronNext) (s : Sys) : Label → Database → Prop where
  | same (l : Label) : l.tx s = none → Commits cronNext s l s.db
  | tx (l : Label) (tx : RunTx) : l.tx s = some tx → Commits cronNext s l (tx.exec cronNext s.db)
  | trigger (owner : UserId) (job : JobId) (now : Time) (st : Api.Prepared) (p : RunId) :
      Api.triggerJob s.db owner job now = .ok (st, p) →
      Commits cronNext s (.trigger owner job now) st.1
  | editJobs (jobs : Table Job) (dependencies : Table JobDependency) (db' : Database) :
      s.db.replaceJobs jobs dependencies = some db' →
      Commits cronNext s (.editJobs jobs dependencies) db'
  | deleteJob (owner : UserId) (job : JobId) :
      Commits cronNext s (.deleteJob owner job) (s.db.deleteJob job)

theorem Trans.commits (h : Trans cfg cronNext s l t) : Commits cronNext s l t.db := by
  cases h with
  | trigger owner job now st p hok => exact .trigger owner job now st p hok
  | retryRun owner i now run db' k hrun hterm hcreate =>
    have htx : (Label.retryRun owner i now).tx s =
        some (.createRun run.jobId .retry none (run.attempt + 1) .queued now) := by
      simp [Label.tx, hrun]
    have hc : Commits cronNext s _ _ := .tx _ _ htx
    rwa [RunTx.exec, hcreate] at hc
  | cancelRun owner i now r hr ha => exact .tx (.cancelRun owner i now) (.cancelRun i now) rfl
  | editJobs jobs dependencies db' hdb => exact .editJobs jobs dependencies db' hdb
  | deleteJob owner job => exact .deleteJob owner job
  | tick now db' ids hok =>
    have hc : Commits cronNext s (.tick now) _ := .tx _ (.scheduleDueJobs now) rfl
    rwa [RunTx.exec, hok] at hc
  | advance hd now db' pc out hget hadv =>
    rw [db_resume, db_send]
    have htx := Trans.tx_advance hget now
    rcases hadv.exec cronNext with ⟨hno, rfl⟩ | ⟨tx, hsome, rfl⟩
    · exact .same _ (htx.trans hno)
    · exact .tx _ _ (htx.trans hsome)
  | commitThread k now hd db' hk hdb =>
    have htx : (Label.commitThread k now).tx s = Runner.tx hd now := by
      show (s.detached[k]?.bind fun h => Runner.tx h now) = _
      rw [hk, Option.bind_some]
    rcases hdb with ⟨rfl, hno⟩ | ⟨tx, hsome, rfl⟩
    · exact .same _ (htx.trans hno)
    · exact .tx _ _ (htx.trans hsome)
  | threadGoesOn k now hd c x js hk hadv =>
    refine .same _ ?_
    show (s.detached[k]?.bind fun h => Runner.tx h now) = none
    rw [hk, Option.bind_some]
    exact Runner.tx_of_goesOn hadv
  | fail _ _ _ | cancelTask _ _ _ _ =>
    rw [db_leave]
    exact .same _ rfl
  | _ => exact .same _ rfl

/- The transaction of a handler is its own. -/
theorem tx_of_works {tx : RunTx} (htx : l.tx s = some tx) (hw : tx.ofWorker = true) :
    ∃ h, Works s h ∧ ∃ now, Runner.tx h now = some tx := by
  rcases tx_of_worker htx hw with ⟨h, hh, now, -, htx⟩ | ⟨h, hh, k, now, -, htx⟩
  · exact ⟨h, Or.inl hh, now, htx⟩
  · exact ⟨h, Or.inr hh, now, htx⟩

/- A record comes from an earlier state or from a claim that has just moved its run. -/
theorem Trans.claimed_row (h : Trans cfg cronNext s l t) {k : Handler} (hk : Works t k)
    {c : Store.Claimed} (hc : k.pc.claimed? = some c) :
    (∃ h, Works s h ∧ h.runId = k.runId ∧ h.pc.claimed? = some c) ∨
      ∃ r now, s.db.runs.get k.runId = some r ∧
        Store.claimable k.allowRunning r.status = true ∧
        t.db.runs.get k.runId = some (Store.claimedRow k.worker now r) ∧ c.runId = k.runId ∧
        c.attempt = r.attempt := by
  rcases h.works hk with hk | hpc | ⟨k', hk', pc, rfl, hm⟩ | ⟨-, k', hk', now, c', x, js, rfl, hadv⟩
  · exact Or.inl ⟨k, hk, rfl, hc⟩
  · rw [hpc] at hc
    cases hc
  · change pc.claimed? = some c at hc
    generalize t.db = db' at hm ⊢
    cases hm with
    | acquire _ | fail _ | cancelTask _ _ | ack _ => cases hc
    | advance now db' pc out hadv =>
      rcases hadv.claimed_row hc with hc | ⟨r, hr, hg, hr', hrun, ha⟩
      · exact Or.inl ⟨k', Or.inl hk', rfl, hc⟩
      · exact Or.inr ⟨r, now, hr, hg, hr', hrun, ha⟩
    | executorReturns c' res hpc =>
      refine Or.inl ⟨k', Or.inl hk', rfl, ?_⟩
      rw [hpc]
      unfold Runner.returned at hc
      split at hc <;> exact hc
  · exact Or.inl ⟨k', Or.inr hk', rfl, hadv.goesOn_claimed.trans hc⟩

end Sys

/-! ### The columns of a row -/

namespace JobRun

/- The columns that stay as the INSERT wrote them. -/
structure Origin (r : JobRun) : Prop where
  tick : r.scheduledFor.isSome = decide (r.triggerType = .scheduled)
  attempt : if r.triggerType = .retry then 2 ≤ r.attempt else r.attempt = 1

theorem Origin.one_le {r : JobRun} (h : r.Origin) : 1 ≤ r.attempt := by
  have ha := h.attempt
  split at ha <;> omega

theorem Origin.kept {r r' : JobRun} (h : r.Origin) (hrow : RunTx.KeepsOrigin r r') :
    r'.Origin where
  tick := by
    rw [hrow.scheduledFor, hrow.triggerType]
    exact h.tick
  attempt := by
    rw [hrow.triggerType, hrow.attempt]
    exact h.attempt

theorem Inserted.origin {now : Time} {r : JobRun} (h : r.Inserted now) : r.Origin := by
  obtain ⟨n, hn, hr⟩ := h
  rw [hr]
  exact ⟨hn.tick, hn.attempt⟩

/- What the columns of a stored run say together. -/
structure Consistent (r : JobRun) : Prop extends Origin r where
  finished : r.finishedAt.isSome = r.status.terminal
  worker : r.workerId.isSome = r.startedAt.isSome
  waits : r.status = .pending ∨ r.status = .queued → r.startedAt = none
  started : r.status ≠ .pending → r.status ≠ .queued → r.status ≠ .canceled →
    r.startedAt.isSome = true
  outcome : r.status.terminal = false ∨ r.status = .canceled → r.exitCode = none ∧ r.result = none
  silent : r.status.terminal = false ∨ r.status = .succeeded → r.error = none
  canceled : r.status = .canceled → r.error = some "canceled by user"

theorem Inserted.consistent {now : Time} {r : JobRun} (h : r.Inserted now) : r.Consistent := by
  have horigin := h.origin
  obtain ⟨n, hn, hr⟩ := h
  rw [hr]
  have hs : n.status.terminal = false := by
    rcases hn.status with hs | hs <;> rw [hs] <;> rfl
  refine ⟨hr ▸ horigin, hs.symm, rfl, fun _ => rfl, ?_, fun _ => ⟨rfl, rfl⟩, fun _ => rfl, ?_⟩
  · intro hp hq _
    rcases hn.status with hs | hs
    · exact absurd hs hp
    · exact absurd hs hq
  · intro hc
    rw [show n.status = .canceled from hc] at hs
    cases hs

/- An unclaimed run that goes to the queue. -/
theorem Consistent.promotedRow {r : JobRun} (h : r.Consistent)
    (hfree : Store.claimable false r.status = true) : (Store.promotedRow r).Consistent := by
  have hact := RunTx.claimable_not_terminal hfree
  have hfinished := h.finished
  rw [hact] at hfinished
  obtain ⟨hexit, hres⟩ := h.outcome (Or.inl hact)
  have hwaits : r.status = .pending ∨ r.status = .queued := by
    cases hs : r.status <;> rw [hs] at hfree <;> first | exact Or.inl rfl | exact Or.inr rfl | cases hfree
  exact
    { finished := hfinished
      worker := h.worker
      waits := fun _ => h.waits hwaits
      started := fun _ hs _ => absurd rfl hs
      outcome := fun _ => ⟨hexit, hres⟩
      silent := fun _ => h.silent (Or.inl hact)
      canceled := fun hs => by cases hs
      toOrigin := ⟨h.tick, h.attempt⟩ }

/- A row stays consistent when a run is finished only after it was claimed, and a success
without an error, and is taken to the queue only before. -/
theorem Consistent.rowStep {tx : RunTx} {r r' : JobRun} (h : r.Consistent)
    (hstep : RunTx.RowStep tx r r')
    (hflush : tx = .promoteRun r.id → Store.claimable false r.status = true)
    (hfin : ∀ i res error now, tx = .finishRun i res error now → i = r.id →
      r.startedAt.isSome = true ∧ (res.status = .succeeded → error = none)) : r'.Consistent := by
  have hrow := hstep.keepsOrigin
  cases hstep with
  | same => exact h
  | claimed _ w allow now hg =>
    have hact := RunTx.claimable_not_terminal hg
    have hfinished := h.finished
    rw [hact] at hfinished
    obtain ⟨hexit, hres⟩ := h.outcome (Or.inl hact)
    exact
      { finished := hfinished
        worker := rfl
        waits := fun hs => by rcases hs with hs | hs <;> cases hs
        started := fun _ _ _ => rfl
        outcome := fun _ => ⟨hexit, hres⟩
        silent := fun _ => h.silent (Or.inl hact)
        canceled := fun hs => by cases hs
        toOrigin := h.toOrigin.kept hrow }
  | canceled _ now ha =>
    have hact : r.status.terminal = false := by simpa using ha
    obtain ⟨hexit, hres⟩ := h.outcome (Or.inl hact)
    exact
      { finished := rfl
        worker := h.worker
        waits := fun hs => by rcases hs with hs | hs <;> cases hs
        started := fun _ _ hs => absurd rfl hs
        outcome := fun _ => ⟨hexit, hres⟩
        silent := fun hs => by rcases hs with hs | hs <;> cases hs
        canceled := fun _ => rfl
        toOrigin := h.toOrigin.kept hrow }
  | finished _ res error now hne =>
    obtain ⟨hstarted, herror⟩ := hfin r.id res error now rfl rfl
    have hterm := res.status.runStatus_terminal
    have hcan : res.status.runStatus ≠ .canceled := by cases res.status <;> decide
    refine ⟨h.toOrigin.kept hrow, hterm.symm, h.worker, ?_, fun _ _ _ => hstarted, ?_, ?_,
      fun hs => absurd hs hcan⟩
    · intro hs
      rcases hs with hs | hs <;> rw [show res.status.runStatus = _ from hs] at hterm <;> cases hterm
    · intro hs
      rcases hs with hs | hs
      · rw [show res.status.runStatus.terminal = false from hs] at hterm
        cases hterm
      · exact absurd hs hcan
    · intro hs
      rcases hs with hs | hs
      · rw [show res.status.runStatus.terminal = false from hs] at hterm
        cases hterm
      · have hs : res.status.runStatus = .succeeded := hs
        refine herror ?_
        cases hr : res.status <;> rw [hr] at hs <;> first | rfl | cases hs
  | promoted _ now hp => exact h.promotedRow (by rw [hp]; rfl)
  | flushed => exact h.promotedRow (hflush rfl)

end JobRun

namespace Sys

variable {cfg : Settings} {cronNext : Cron.CronNext} {s t : Sys} {l : Label}

/- Whoever holds the record of a claim finds the run started. -/
structure Recorded (s : Sys) : Prop where
  wellFormed : WellFormed s
  origin : ∀ i r, s.db.runs.get i = some r → r.Origin
  claimed : ∀ h, Works s h → ∀ c, h.pc.claimed? = some c → 1 ≤ c.attempt ∧
    ∀ r, s.db.runs.get h.runId = some r → r.startedAt.isSome = true ∧ r.attempt = c.attempt

theorem RowChange.keepsOrigin {r r' : JobRun} (h : RowChange s l r r') :
    RunTx.KeepsOrigin r r' := by
  rcases h with rfl | ⟨tx, -, hrow⟩
  · exact ⟨rfl, rfl, rfl, rfl, rfl, id⟩
  · exact hrow.keepsOrigin

/- A handler finishes a run that it has claimed, and a success without an error. -/
theorem Recorded.finish (hs : Recorded s) {i : RunId} {res : ExecResult} {error : Option String}
    {n : Time} (htx : l.tx s = some (.finishRun i res error n)) {r : JobRun}
    (hr : s.db.runs.get i = some r) :
    r.startedAt.isSome = true ∧ (res.status = .succeeded → error = none) := by
  obtain ⟨h, hw, now, hh⟩ := tx_of_works htx rfl
  obtain ⟨-, c, hc, hci⟩ := Runner.tx_finishRun hh
  have hrun : h.runId = i := (hs.wellFormed.record h hw c hc).1.symm.trans hci
  refine ⟨((hs.claimed h hw c hc).2 r (by rw [hrun]; exact hr)).1, ?_⟩
  intro hsucc
  rcases Runner.tx_finishRun_error hh with he | hf
  · exact he
  · exact absurd hsucc (hs.wellFormed.fails h hw res hf)

theorem Recorded.numbered (hs : Recorded s) {tx : RunTx} (htx : l.tx s = some tx) :
    tx.Numbered := by
  have hworker : ∀ h now, Works s h → Runner.tx h now = some tx → tx.Numbered := by
    intro h now hw hh
    cases tx with
    | createRun j tt tick a status n => exact absurd hh (Runner.tx_ne_createRun h now j tt tick a status n)
    | createRetryRun j a n =>
      obtain ⟨c, hc, rfl⟩ := Runner.tx_createRetryRun hh
      have hle := (hs.claimed h hw c hc).1
      show 2 ≤ c.attempt + 1
      omega
    | _ => trivial
  rcases tx_cases htx with ⟨owner, i, now, run, rfl, hrun, rfl⟩ | ⟨_, _, _, -, rfl⟩ | ⟨_, -, rfl⟩ |
    ⟨h, hh, now, -, htx⟩ | ⟨h, hh, k, now, -, htx⟩
  · obtain ⟨hget, -⟩ := Option.filter_eq_some_iff.mp hrun
    have hle := (hs.origin i run hget).one_le
    exact ⟨rfl, rfl, rfl, by omega⟩
  · trivial
  · trivial
  · exact hworker h now (Or.inl hh) htx
  · exact hworker h now (Or.inr hh) htx

/- A run that a step adds is freshly inserted, at the time of the step. -/
theorem Recorded.inserted (hs : Recorded s) (h : Trans cfg cronNext s l t) {i : RunId} {r : JobRun}
    (hr : t.db.runs.get i = some r) (hn : s.db.runs.get i = none) :
    ∃ now, l.now? = some now ∧ r.Inserted now := by
  have hc := h.commits
  generalize t.db = db' at hc hr
  cases hc with
  | same =>
    rw [hn] at hr
    cases hr
  | tx _ tx htx =>
    obtain ⟨now, hnow, hins⟩ := RunTx.inserted_exec (hs.numbered htx) hr hn
    exact ⟨now, tx_now htx hnow, hins⟩
  | trigger owner job now st p hok => exact ⟨now, rfl, ((Api.extends_trigger hok).new i r hr hn).2⟩
  | editJobs jobs dependencies db' hdb =>
    rw [(replaceJobs_eq_some hdb).1, hn] at hr
    cases hr
  | deleteJob owner job =>
    rw [get_deleteJob, hn] at hr
    cases hr

theorem Recorded.step (hs : Recorded s) (h : Trans cfg cronNext s l t) : Recorded t where
  wellFormed := h.wellFormed hs.wellFormed
  origin := by
    intro i r' hr'
    cases hr : s.db.runs.get i with
    | none =>
      obtain ⟨now, -, hins⟩ := hs.inserted h hr' hr
      exact hins.origin
    | some r => exact (hs.origin i r hr).kept (h.evolves.change hr hr').keepsOrigin
  claimed := by
    intro k hk c hc
    rcases h.claimed_row hk hc with ⟨k', hk', hrun, hc'⟩ | ⟨r, now, hr, -, hr', -, ha⟩
    · obtain ⟨hle, hrow⟩ := hs.claimed k' hk' c hc'
      refine ⟨hle, ?_⟩
      intro r' hr'
      have hlt := hs.wellFormed.runId_lt hk'
      rw [hrun] at hlt hrow
      obtain ⟨r, hr, hchange⟩ := h.evolves.back hr' hlt
      obtain ⟨hstart, hatt⟩ := hrow r hr
      have horigin := hchange.keepsOrigin
      exact ⟨horigin.startedAt hstart, horigin.attempt.trans hatt⟩
    · refine ⟨by rw [ha]; exact (hs.origin _ r hr).one_le, ?_⟩
      intro q hq
      rw [hr'] at hq
      cases hq
      exact ⟨rfl, ha.symm⟩

theorem recorded_start {db : Database} (hdb : db.runs.rows = []) : Recorded (start db) where
  wellFormed := wellFormed_start hdb
  origin := by
    intro i r hr
    rw [get_start hdb] at hr
    cases hr
  claimed := fun h hw => absurd hw (not_works_start db h)

theorem run_recorded {ls : List Label} (hs : Recorded s)
    (h : Machine.run (step cfg cronNext) s ls = some t) : Recorded t := by
  refine Machine.run_invariant ?_ hs (Machine.along_true s ls) h
  intro s l t hs _ ht
  exact hs.step (trans_of_step ht)

/- Where no flush finds its run claimed or ended, the rows are consistent too. -/
structure Accounts (s : Sys) : Prop extends Recorded s where
  row : ∀ i r, s.db.runs.get i = some r → r.Consistent

theorem Accounts.consistent_change (hs : Accounts s)
    (hflush : FlushFinds (Store.claimable false) s l) {i : RunId} {r r' : JobRun}
    (hr : s.db.runs.get i = some r) (hrow : RowChange s l r r') : r'.Consistent := by
  have hc := hs.row i r hr
  have hid : r.id = i := Table.key_of_get hr
  rcases hrow with rfl | ⟨tx, htx, hstep⟩
  · exact hc
  · refine hc.rowStep hstep (RunTx.status_of_flushFinds (hflush tx htx) (hid ▸ hr)) ?_
    intro k res error now htxk hk
    subst htxk
    exact hs.finish htx (by rw [hk, hid]; exact hr)

theorem Accounts.step (hs : Accounts s) (h : Trans cfg cronNext s l t)
    (hflush : FlushFinds (Store.claimable false) s l) : Accounts t where
  toRecorded := hs.toRecorded.step h
  row := by
    intro i r' hr'
    cases hr : s.db.runs.get i with
    | none =>
      obtain ⟨now, -, hins⟩ := hs.inserted h hr' hr
      exact hins.consistent
    | some r => exact hs.consistent_change hflush hr (h.evolves.change hr hr')

theorem accounts_start {db : Database} (hdb : db.runs.rows = []) : Accounts (start db) where
  toRecorded := recorded_start hdb
  row := by
    intro i r hr
    rw [get_start hdb] at hr
    cases hr

/- In every state of every run whose flushes of create_dependency_run find their runs unclaimed,
the columns of each stored run agree with its status. -/
theorem rows_consistent (cfg : Settings) (cronNext : Cron.CronNext) (db : Database)
    (ls : List Label) (hdb : db.runs.rows = [])
    (hflush : Machine.Along (step cfg cronNext) (FlushFinds (Store.claimable false)) (start db) ls) :
    Machine.Visits (step cfg cronNext) (fun s => ∀ r ∈ s.db.runs.rows, r.Consistent)
      (start db) ls := by
  refine Machine.visits_of_invariant (I := Accounts) ?_ ?_ (accounts_start hdb) hflush
  · exact fun s l t hs hc ht => hs.step (trans_of_step ht) hc
  · exact fun s hs r hr => hs.row r.id r (Table.get_of_mem hr)

/- Worker 1 dies while it executes the run, and worker 2 finishes it. -/
theorem rows_consistent_after_crash :
    Machine.Visits (step {} Cron.noCron) (fun s => ∀ r ∈ s.db.runs.rows, r.Consistent)
      (start reportJob)
      (claimedByFirst ++ [.crash 1] ++ reclaimedBySecond ++
        [.advance 1 31, .executorReturns 1 { status := .failed, error := some "exit 1" },
          .advance 1 32, .advance 1 33]) :=
  rows_consistent {} Cron.noCron reportJob _ rfl (by decide)

end Sys

/-! ### The times of a row -/

namespace JobRun

/- The times of a run are in order, and none of them is later than b. -/
structure StampedBy (b : Time) (r : JobRun) : Prop where
  created : r.createdAt ≤ b
  started : ∀ a, r.startedAt = some a → r.createdAt ≤ a ∧ a ≤ b
  finished : ∀ f, r.finishedAt = some f → r.createdAt ≤ f ∧ f ≤ b ∧
    ∀ a, r.startedAt = some a → a ≤ f

theorem StampedBy.mono {b b' : Time} {r : JobRun} (h : r.StampedBy b) (hb : b ≤ b') :
    r.StampedBy b' where
  created := h.created.trans hb
  started := fun a ha => ⟨(h.started a ha).1, (h.started a ha).2.trans hb⟩
  finished := fun f hf =>
    ⟨(h.finished f hf).1, (h.finished f hf).2.1.trans hb, (h.finished f hf).2.2⟩

theorem Inserted.stampedBy {now : Time} {r : JobRun} (h : r.Inserted now) : r.StampedBy now := by
  obtain ⟨n, hn, hr⟩ := h
  rw [hr]
  refine ⟨hn.createdAt.le, ?_, ?_⟩
  · intro a ha
    cases ha
  · intro f hf
    cases hf

theorem StampedBy.rowStep {tx : RunTx} {b n : Time} {r r' : JobRun} (h : r.StampedBy b)
    (hc : r.Consistent) (hb : b ≤ n) (hnow : ∀ m, tx.now? = some m → m = n)
    (hstep : RunTx.RowStep tx r r') : r'.StampedBy n := by
  have hmono := h.mono hb
  cases hstep with
  | same => exact hmono
  | claimed _ w allow now hg =>
    have hopen := hc.finished
    rw [RunTx.claimable_not_terminal hg] at hopen
    have hn : now = n := hnow now rfl
    subst hn
    refine ⟨hmono.created, ?_, ?_⟩
    · intro a ha
      cases ha
      exact ⟨hmono.created, le_rfl⟩
    · intro f hf
      rw [show r.finishedAt = some f from hf] at hopen
      cases hopen
  | canceled _ now ha =>
    have hn : now = n := hnow now rfl
    subst hn
    refine ⟨hmono.created, hmono.started, ?_⟩
    intro f hf
    cases hf
    exact ⟨hmono.created, le_rfl, fun a ha => (hmono.started a ha).2⟩
  | finished _ res error now hne =>
    have hn : now = n := hnow now rfl
    subst hn
    refine ⟨hmono.created, hmono.started, ?_⟩
    intro f hf
    cases hf
    exact ⟨hmono.created, le_rfl, fun a ha => (hmono.started a ha).2⟩
  | promoted _ _ _ | flushed => exact ⟨hmono.created, hmono.started, hmono.finished⟩

/- created_at, started_at and finished_at, as far as they are set. -/
structure Ordered (r : JobRun) : Prop where
  started : ∀ a, r.startedAt = some a → r.createdAt ≤ a
  finished : ∀ f, r.finishedAt = some f → r.createdAt ≤ f ∧ ∀ a, r.startedAt = some a → a ≤ f

theorem StampedBy.ordered {b : Time} {r : JobRun} (h : r.StampedBy b) : r.Ordered where
  started := fun a ha => (h.started a ha).1
  finished := fun f hf => ⟨(h.finished f hf).1, (h.finished f hf).2.2⟩

end JobRun

namespace Sys

variable {cfg : Settings} {cronNext : Cron.CronNext} {s t : Sys} {l : Label}

theorem Accounts.stamped_step {b : Time} (hs : Accounts s) (h : Trans cfg cronNext s l t)
    (hb : ∀ now, l.now? = some now → b ≤ now)
    (hrows : ∀ i r, s.db.runs.get i = some r → r.StampedBy b) {i : RunId} {r' : JobRun}
    (hr' : t.db.runs.get i = some r') : r'.StampedBy (l.now?.getD b) := by
  cases hr : s.db.runs.get i with
  | none =>
    obtain ⟨now, hnow, hins⟩ := hs.inserted h hr' hr
    rw [hnow]
    exact hins.stampedBy
  | some r =>
    have hstamp := hrows i r hr
    have hle : b ≤ l.now?.getD b := by
      cases hnow : l.now? with
      | none => exact le_rfl
      | some now => exact hb now hnow
    rcases h.evolves.change hr hr' with rfl | ⟨tx, htx, hstep⟩
    · exact hstamp.mono hle
    · refine hstamp.rowStep (hs.row i r hr) hle ?_ hstep
      intro m hm
      rw [tx_now htx hm, Option.getD_some]

theorem run_stamped {b : Time} {ls : List Label} (hs : Accounts s)
    (hrows : ∀ i r, s.db.runs.get i = some r → r.StampedBy b)
    (hclock : (b :: ls.filterMap Label.now?).Pairwise (· ≤ ·))
    (hflush : Machine.Along (step cfg cronNext) (FlushFinds (Store.claimable false)) s ls)
    (h : Machine.run (step cfg cronNext) s ls = some t) :
    ∃ b', ∀ i r, t.db.runs.get i = some r → r.StampedBy b' := by
  induction ls generalizing s b with
  | nil =>
    cases h
    exact ⟨b, hrows⟩
  | cons l ls ih =>
    obtain ⟨u, hu, hrest⟩ := Machine.run_cons.mp h
    have htrans := trans_of_step hu
    have hstep : ∀ i r, u.db.runs.get i = some r → r.StampedBy (l.now?.getD b) := by
      intro i r hr
      refine hs.stamped_step htrans ?_ hrows hr
      intro now hnow
      refine (List.pairwise_cons.mp hclock).1 now ?_
      rw [List.filterMap_cons_some hnow]
      exact List.mem_cons_self ..
    refine ih (hs.step htrans hflush.1) hstep ?_ (hflush.2 u hu) hrest
    cases hnow : l.now? with
    | none =>
      rw [List.filterMap_cons_none hnow] at hclock
      exact hclock
    | some now =>
      rw [List.filterMap_cons_some hnow] at hclock
      exact (List.pairwise_cons.mp hclock).2

/- When the clocks of all processes never run backwards, a run is started after it was created
and finished after it was started. -/
theorem times_ordered {db : Database} (hdb : db.runs.rows = []) {ls : List Label}
    (hclock : (ls.filterMap Label.now?).Pairwise (· ≤ ·))
    (hflush : Machine.Along (step cfg cronNext) (FlushFinds (Store.claimable false)) (start db) ls)
    (h : Machine.run (step cfg cronNext) (start db) ls = some t) :
    ∀ r ∈ t.db.runs.rows, r.Ordered := by
  have hfirst : ∃ b, (b :: ls.filterMap Label.now?).Pairwise (· ≤ ·) := by
    cases hnows : ls.filterMap Label.now? with
    | nil => exact ⟨0, List.pairwise_singleton _ _⟩
    | cons n ns =>
      rw [hnows] at hclock
      refine ⟨n, List.pairwise_cons.mpr ⟨?_, hclock⟩⟩
      intro m hm
      rcases List.mem_cons.mp hm with rfl | hm
      · exact le_rfl
      · exact (List.pairwise_cons.mp hclock).1 m hm
  obtain ⟨b, hb⟩ := hfirst
  have hstart : ∀ i r, (start db).db.runs.get i = some r → r.StampedBy b := by
    intro i r hr
    rw [get_start hdb] at hr
    cases hr
  obtain ⟨b', hrows⟩ := run_stamped (accounts_start hdb) hstart hb hflush h
  exact fun r hr => (hrows r.id r (Table.get_of_mem hr)).ordered

theorem times_ordered_finished :
    ∃ t, Machine.run (step {} Cron.noCron) (start reportJob)
        (claimedByFirst ++ finishedByFirst) = some t ∧ ∀ r ∈ t.db.runs.rows, r.Ordered := by
  have hsome : (Machine.run (step {} Cron.noCron) (start reportJob)
      (claimedByFirst ++ finishedByFirst)).isSome = true := by decide
  obtain ⟨t, ht⟩ := Option.isSome_iff_exists.mp hsome
  exact ⟨t, ht, times_ordered rfl (by decide) (by decide) ht⟩

/-! ### Canceled before it was started -/

/- Run i was canceled before anybody claimed it, and nobody works on it. -/
structure NeverStarted (i : RunId) (s : Sys) : Prop where
  recorded : Recorded s
  known : i < s.db.runs.next
  row : ∀ r, s.db.runs.get i = some r → r.status = .canceled ∧ r.startedAt = none
  idle : ∀ h, Works s h → ∀ c, h.pc.claimed? = some c → h.runId ≠ i

theorem NeverStarted.step {i : RunId} (hs : NeverStarted i s) (h : Trans cfg cronNext s l t)
    (hflush : FlushFinds (· != .canceled) s l) : NeverStarted i t where
  recorded := hs.recorded.step h
  known := hs.known.trans_le h.evolves.next
  row := by
    intro r' hr'
    obtain ⟨r, hr, hrow⟩ := h.evolves.back hr' hs.known
    have hcan := hs.row r hr
    have hid : r.id = i := Table.key_of_get hr
    rw [hrow.canceled hflush rfl (hid ▸ hr) hcan.1]
    exact hcan
  idle := by
    intro k hk c hc heq
    rcases h.claimed_row hk hc with ⟨k', hk', hrun, hc'⟩ | ⟨r, now, hr, hg, -⟩
    · exact hs.idle k' hk' c hc' (hrun.trans heq)
    · have hterm := RunTx.claimable_not_terminal hg
      rw [(hs.row r (heq ▸ hr)).1] at hterm
      cases hterm

theorem neverStarted_of_canceled (hs : Recorded s) {r : JobRun} (hr : r ∈ s.db.runs.rows)
    (hc : r.status = .canceled) (hn : r.startedAt = none) : NeverStarted r.id s := by
  have hget : s.db.runs.get r.id = some r := Table.get_of_mem hr
  refine ⟨hs, Table.lt_next_of_get hget, ?_, ?_⟩
  · intro q hq
    rw [hget] at hq
    cases hq
    exact ⟨hc, hn⟩
  · intro h hw c hcl heq
    have hstart := ((hs.claimed h hw c hcl).2 r (by rw [heq]; exact hget)).1
    rw [hn] at hstart
    cases hstart

/- A cancel that comes before the first claim is final while no flush of create_dependency_run
finds its run canceled: no worker ever works on the run. -/
theorem canceled_first_never_runs {db : Database} (hdb : db.runs.rows = []) {ls : List Label}
    (h : Machine.run (step cfg cronNext) (start db) ls = some s) {r : JobRun}
    (hr : r ∈ s.db.runs.rows) (hc : r.status = .canceled) (hn : r.startedAt = none)
    (later : List Label)
    (hflush : Machine.Along (step cfg cronNext) (FlushFinds (· != .canceled)) s later) :
    Machine.Visits (step cfg cronNext)
      (fun t => ∀ h, Works t h → ∀ c, h.pc.claimed? = some c → c.runId ≠ r.id) s later := by
  refine Machine.visits_of_invariant (I := NeverStarted r.id) ?_ ?_
    (neverStarted_of_canceled (run_recorded (recorded_start hdb) h) hr hc hn) hflush
  · exact fun s l t hs hc ht => hs.step (trans_of_step ht) hc
  · intro t ht h hw c hcl
    rw [(ht.recorded.wellFormed.record h hw c hcl).1]
    exact ht.idle h hw c hcl

/- The message of the run is delivered after the cancel. -/
theorem canceled_first_never_runs_delivered :
    ∃ s r, Machine.run (step {} Cron.noCron) (start reportJob)
        [.trigger 1 0 0, .publish 0, .cancelRun 1 0 5] = some s ∧ r ∈ s.db.runs.rows ∧
      Machine.Visits (step {} Cron.noCron)
        (fun t => ∀ h, Works t h → ∀ c, h.pc.claimed? = some c → c.runId ≠ r.id) s
        [.poll 1, .reclaimed 1, .deliver 1, .delivered 1, .acquire 0, .advance 0 6] := by
  have hall : (Machine.run (step {} Cron.noCron) (start reportJob)
      [.trigger 1 0 0, .publish 0, .cancelRun 1 0 5]).any (fun s => s.db.runs.rows.any fun r =>
        decide (r.status = .canceled) && decide (r.startedAt = none)) = true := by decide
  obtain ⟨s, hs, hall⟩ := (Option.any_eq_true _ _).mp hall
  simp only [List.any_eq_true, Bool.and_eq_true, decide_eq_true_eq] at hall
  obtain ⟨r, hr, hc, hn⟩ := hall
  have hflush : Machine.Along (step {} Cron.noCron) (FlushFinds (· != .canceled)) (start reportJob)
      ([.trigger 1 0 0, .publish 0, .cancelRun 1 0 5] ++
        [.poll 1, .reclaimed 1, .deliver 1, .delivered 1, .acquire 0, .advance 0 6]) := by decide
  exact ⟨s, r, hs, hr,
    canceled_first_never_runs rfl hs hr hc hn _ ((Machine.along_append.mp hflush).2 s hs)⟩

end Sys
end JobScheduler
