import JobScheduler.Library.Budget
import JobScheduler.Rows

/-!
# The cascade of a run

A success starts the dependents of its job and a failure starts a retry. Where the
dependencies have no cycle, every run can only lead to a bounded number of further runs, and
the runs that are on their way carry that number with them: a potential that no step of a
worker increases.
-/

namespace JobScheduler.Cascade
open Library Database Store

section
variable (m : JobId → ℤ) (w : JobId → ℕ)

/- The retries that are left after attempt a. -/
def retriesLeft (j : JobId) (a : ℤ) : ℕ := (m j + 1 - a).toNat

/- How many runs attempt a of job j may lead to: its success may cause w j, and so may the
success of each of its retries. -/
def worth (j : JobId) (a : ℤ) : ℕ := w j + retriesLeft m j a

/- What a waiting run may still lead to; a run that is claimed has passed it to its handler. -/
def rowWorth (r : JobRun) : ℕ :=
  match r.status with
  | .pending | .queued => worth m w r.jobId r.attempt
  | _ => 0

def dbWorth (db : Database) : ℕ :=
  db.runs.next + (db.runs.rows.map (rowWorth m w)).sum

/- A new first attempt for each of the jobs. -/
def fanWorth (js : List JobId) : ℕ := (js.map fun k => 1 + worth m w k 1).sum

def retryWorth (c : Claimed) : ℕ :=
  if shouldRetry c.attempt c.maxRetries then 1 + retriesLeft m c.jobId (c.attempt + 1)
  else 0

def pcWorth : Pc → ℕ
  | .executing c | .successCheck c _ | .failureCheck c _ => w c.jobId + retryWorth m c
  | .successFinish c _ | .successReady c => w c.jobId
  | .successFan _ js | .successEnqueue _ _ js => fanWorth m w js
  | .successCreate _ x js => fanWorth m w (x.jobId :: js)
  | .failureRetry c _ => 1 + worth m w c.jobId (c.attempt + 1)
  | .waiting | .claiming | .failureDelay _ _ _ | .failureFinish _ _ _ | .acking | .deleting => 0

def idWorth (db : Database) (i : RunId) : ℕ :=
  ((db.runs.get i).map fun r => worth m w r.jobId r.attempt).getD 0

/- Before a claim that also accepts a RUNNING run. -/
def mayReclaim (h : Handler) : Bool :=
  h.allowRunning && (Sys.isWaiting h.pc || h.pc.isClaiming)

/- A handler that may claim a RUNNING run starts a second execution of it. -/
def claimWorth (db : Database) (h : Handler) : ℕ :=
  if mayReclaim h then idWorth m w db h.runId else 0

def handlerWorth (db : Database) (h : Handler) : ℕ :=
  pcWorth m w h.pc + claimWorth m w db h

/- The runs created so far and those that may still be created. -/
def total (s : Sys) : ℕ :=
  dbWorth m w s.db + (s.handlers.rows.map (handlerWorth m w s.db)).sum +
    (s.detached.map (handlerWorth m w s.db)).sum

/- The retries of a job stay below m, and w pays for its dependents. -/
structure Budgeted (db : Database) : Prop where
  retries : ∀ job ∈ db.jobs.rows, job.maxRetries ≤ m job.id
  fan : ∀ j, ∑ k ∈ (db.dependentIds j).toFinset, (1 + worth m w k 1) ≤ w j

end

variable {m : JobId → ℤ} {w : JobId → ℕ} {db db' : Database}

/-! ### Rows -/

theorem rowWorth_of_terminal {r : JobRun} (h : r.status.terminal = true) :
    rowWorth m w r = 0 := by
  unfold rowWorth
  split
  · rename_i hs
    rw [hs] at h
    cases h
  · rename_i hs
    rw [hs] at h
    cases h
  · rfl

/- An update of one run changes the potential by what that run does. -/
theorem dbWorth_updateRun {i : RunId} {r : JobRun} (hr : db.runs.get i = some r)
    (g : RunStatus → Bool) (f : JobRun → JobRun) (hf : KeepsRun f) :
    dbWorth m w (updateRun db i g f hf) + rowWorth m w r ≤
      dbWorth m w db + rowWorth m w (if g r.status then f r else r) := by
  have hid : r.id = i := Table.key_of_get hr
  have hsum := Table.sum_map_le (Table.mem_of_get hr) (f := rowWorth m w)
    (g := fun q => rowWorth m w (Table.rewrite (selects i g) f q)) (fun q _ hne => by
      have hq : selects i g q = false := by
        rw [selects, decide_eq_false (fun hq => hne (hq.trans hid.symm)), Bool.false_and]
      rw [Table.rewrite, hq, if_neg Bool.false_ne_true])
  have hrow : Table.rewrite (selects i g) f r = if g r.status then f r else r := by
    simp [Table.rewrite, selects, hid]
  simp only [hrow] at hsum
  have hupd := Table.sum_map_update db.runs (selects i g) f (fun q => (hf q).1)
    (rowWorth m w)
  unfold dbWorth
  change db.runs.next + _ + _ ≤ _
  rw [show ((updateRun db i g f hf).runs.rows.map (rowWorth m w)).sum = _ from hupd]
  omega

theorem dbWorth_updateRun_none {i : RunId} (hr : db.runs.get i = none)
    (g : RunStatus → Bool) (f : JobRun → JobRun) (hf : KeepsRun f) :
    dbWorth m w (updateRun db i g f hf) = dbWorth m w db := by
  have hupd := Table.sum_map_update db.runs (selects i g) f (fun q => (hf q).1)
    (rowWorth m w)
  have hsame : db.runs.rows.map (fun q => rowWorth m w (Table.rewrite (selects i g) f q)) =
      db.runs.rows.map (rowWorth m w) := by
    refine List.map_congr_left fun q hq => ?_
    have hne : q.id ≠ i := Table.get_eq_none.mp hr q hq
    simp [Table.rewrite, selects, hne]
  rw [hsame] at hupd
  unfold dbWorth
  rw [show ((updateRun db i g f hf).runs.rows.map (rowWorth m w)).sum = _ from hupd]
  rfl

/- An update that leaves no run more to do. -/
theorem dbWorth_updateRun_le (i : RunId) (g : RunStatus → Bool) (f : JobRun → JobRun)
    (hf : KeepsRun f) (hle : ∀ r, db.runs.get i = some r → g r.status = true →
      rowWorth m w (f r) ≤ rowWorth m w r) :
    dbWorth m w (updateRun db i g f hf) ≤ dbWorth m w db := by
  cases hr : db.runs.get i with
  | none => exact (dbWorth_updateRun_none hr g f hf).le
  | some r =>
    have hupd := dbWorth_updateRun (m := m) (w := w) hr g f hf
    by_cases hg : g r.status = true
    · have hrow := hle r hr hg
      rw [if_pos hg] at hupd
      omega
    · rw [if_neg hg] at hupd
      omega

theorem dbWorth_addRun (n : NewRun) (h : db.Admits n) :
    dbWorth m w (db.addRun n h) =
      dbWorth m w db + 1 + rowWorth m w (n.row db.runs.next) := by
  have hins := Table.sum_map_insert db.runs n.row (fun _ => rfl) (rowWorth m w)
  unfold dbWorth
  change db.runs.next + 1 + ((db.runs.insert n.row fun _ => rfl).rows.map _).sum = _
  rw [hins]
  omega

/-! ### Transactions -/

theorem dbWorth_finishRun (db : Database) {status : RunStatus} (hterm : status.terminal = true)
    (i : RunId) (exitCode : Option ℤ) (result : Option Json) (error : Option String) (now : Time) :
    dbWorth m w (finishRun db i status exitCode result error now) ≤
      dbWorth m w db := by
  refine dbWorth_updateRun_le i _ _ (finishedRow_keeps status exitCode result error now) ?_
  intro r _ _
  rw [rowWorth_of_terminal (r := finishedRow status exitCode result error now r) hterm]
  exact Nat.zero_le _

theorem dbWorth_cancelRun (db : Database) (i : RunId) (now : Time) :
    dbWorth m w (Store.cancelRun db i now).1 ≤ dbWorth m w db :=
  dbWorth_updateRun_le i _ _ (canceledRow_keeps now) fun _ _ _ => Nat.zero_le _

theorem dbWorth_deleteJob (db : Database) (job : JobId) :
    dbWorth m w (db.deleteJob job) ≤ dbWorth m w db :=
  Nat.add_le_add_left (Table.sum_map_deleteWhere db.runs _ _) _

theorem dbWorth_claimRun (i : RunId) (worker : WorkerId) (allow : Bool) (now : Time) :
    dbWorth m w (Store.claimRun db i worker allow now).1 ≤ dbWorth m w db := by
  rcases claimRun_cases db i worker allow now with ⟨heq, -⟩ | ⟨r, job, hr, hg, -, heq⟩
  · rw [heq]
  · rw [heq]
    exact dbWorth_updateRun_le i _ _ (claimedRow_keeps worker now) fun _ _ _ => Nat.zero_le _

theorem dbWorth_createRetryRun {j : JobId} {a : ℤ} {now : Time} {i : RunId}
    (h : Store.createRetryRun db j a now = some (db', i)) :
    dbWorth m w db' = dbWorth m w db + 1 + worth m w j a := by
  obtain ⟨-, ha, rfl⟩ := insertRun_eq_some h
  exact dbWorth_addRun _ ha

theorem dbWorth_createDependencyRun {j : JobId} {now : Time} {res : Option RunId}
    (h : Store.createDependencyRun db j now = some (db', res)) :
    dbWorth m w db' ≤ dbWorth m w db + (1 + worth m w j 1) := by
  rcases createDependencyRun_cases h with ⟨-, rfl, -⟩ | ⟨-, p, hp, rfl, -⟩ | ⟨-, ha, rfl, -⟩
  · omega
  · obtain ⟨hmem, -, hs⟩ := oldestRun_eq_some hp
    have hpend : p.status = .pending := by simpa using hs
    refine (dbWorth_updateRun_le p.id _ _ _ fun r hr _ => ?_).trans (Nat.le_add_right _ _)
    have hrp : p = r := Option.some.inj ((Table.get_of_mem hmem).symm.trans hr)
    subst hrp
    -- a pending run is worth what it will be worth on the queue
    unfold rowWorth
    rw [hpend]
    exact le_rfl
  · rw [dbWorth_addRun]
    exact (Nat.add_assoc _ _ _).le

/- A flush may take back to the queue a run that somebody works on, or that has ended. -/
theorem dbWorth_promoteRun {p : RunId} {r : JobRun} (hr : db.runs.get p = some r) :
    dbWorth m w (promoteRun db p) ≤ dbWorth m w db + worth m w r.jobId r.attempt := by
  have hupd := dbWorth_updateRun (m := m) (w := w) hr (fun _ => true) promotedRow promotedRow_keeps
  rw [if_pos rfl, show rowWorth m w (promotedRow r) = worth m w r.jobId r.attempt from rfl] at hupd
  unfold promoteRun
  omega

theorem dbWorth_insertDependencyRun {j : JobId} {now : Time} {i : RunId}
    (h : db.insertRun (dependencyRow j now) = some (db', i)) :
    dbWorth m w db' = dbWorth m w db + (1 + worth m w j 1) := by
  obtain ⟨-, ha, rfl⟩ := insertRun_eq_some h
  rw [dbWorth_addRun]
  exact Nat.add_assoc _ _ _

/- What the transaction of a handler may add. -/
def txWorth (m : JobId → ℤ) (w : JobId → ℕ) (db : Database) : RunTx → ℕ
  | .createRetryRun j a _ => 1 + worth m w j a
  | .createDependencyRun j _ | .insertDependencyRun j _ => 1 + worth m w j 1
  | .promoteRun p => idWorth m w db p
  | _ => 0

theorem dbWorth_exec (db : Database) {tx : RunTx} (cronNext : Cron.CronNext) (htx : tx.ofWorker = true) :
    dbWorth m w (tx.exec cronNext db) ≤
      dbWorth m w db + txWorth m w db tx := by
  cases tx with
  | createRun _ _ _ _ _ _ | scheduleDueJobs _ | cancelRun _ _ => cases htx
  | claimRun i worker allow now => exact dbWorth_claimRun i worker allow now
  | finishRun i res error now => exact dbWorth_finishRun db res.status.runStatus_terminal i _ _ error now
  | createRetryRun j a now =>
    rw [RunTx.exec]
    cases h : Store.createRetryRun db j a now with
    | none => exact Nat.le_add_right _ _
    | some out =>
      have hout := dbWorth_createRetryRun (m := m) (w := w) h
      rw [Option.map_some, Option.getD_some, hout, txWorth]
      omega
  | createDependencyRun j now =>
    rw [RunTx.exec]
    cases h : Store.createDependencyRun db j now with
    | none => exact Nat.le_add_right _ _
    | some out => exact dbWorth_createDependencyRun h
  | promoteRun p =>
    rw [RunTx.exec, txWorth, idWorth]
    cases hr : db.runs.get p with
    | none => exact Nat.le_add_right _ _
    | some r => exact dbWorth_promoteRun hr
  | insertDependencyRun j now =>
    rw [RunTx.exec]
    cases h : db.insertRun (dependencyRow j now) with
    | none => exact Nat.le_add_right _ _
    | some out => exact (dbWorth_insertDependencyRun h).le

/-! ### The calls of a handler -/

theorem ofWorker_of_tx {h : Handler} {now : Time} {tx : RunTx} (htx : Runner.tx h now = some tx) :
    tx.ofWorker = true := by
  unfold Runner.tx at htx
  split at htx
  · cases htx
    rfl
  · cases htx
    rfl
  · rcases Promotion.tx_cases htx with ⟨p, rfl⟩ | ⟨j, rfl⟩ <;> rfl
  · cases htx
    rfl
  · cases htx
    rfl
  · cases htx

/- The run that a handler has read as the pending run of a dependent. -/
def ReadsRun (db : Database) (h : Handler) : Prop :=
  ∀ j p, h.pc.promotion? = some (.read j p) → ∀ r, db.runs.get p = some r →
    r.jobId = j ∧ 1 ≤ r.attempt

/- A later attempt is worth no more than the first. -/
theorem worth_le_first (j : JobId) {a : ℤ} (ha : 1 ≤ a) : worth m w j a ≤ worth m w j 1 := by
  unfold worth retriesLeft
  omega

theorem ReadsRun.idWorth_le {h : Handler} (hread : ReadsRun db h) {j : JobId} {p : RunId}
    (hpc : h.pc.promotion? = some (.read j p)) : idWorth m w db p ≤ worth m w j 1 := by
  unfold idWorth
  cases hr : db.runs.get p with
  | none => exact Nat.zero_le _
  | some r =>
    obtain ⟨rfl, ha⟩ := hread j p hpc r hr
    exact worth_le_first r.jobId ha

theorem txWorth_le_pcWorth {h : Handler} (hread : ReadsRun db h) {now : Time} {tx : RunTx}
    (htx : Runner.tx h now = some tx) : txWorth m w db tx ≤ pcWorth m w h.pc := by
  unfold Runner.tx at htx
  split at htx
  · cases htx
    exact Nat.zero_le _
  · cases htx
    exact Nat.zero_le _
  · rename_i c x js hpc
    have hpc' : h.pc.promotion? = some x := by rw [hpc]; rfl
    rw [hpc]
    cases x with
    | checked j => cases htx
    | read j p =>
      cases htx
      have hle := hread.idWorth_le (m := m) (w := w) hpc'
      simp only [txWorth, pcWorth, fanWorth, Promotion.jobId, List.map_cons, List.sum_cons]
      omega
    | absent j =>
      cases htx
      simp only [txWorth, pcWorth, fanWorth, Promotion.jobId, List.map_cons, List.sum_cons]
      omega
  · rename_i c res hpc
    cases htx
    rw [hpc]
    exact le_rfl
  · cases htx
    exact Nat.zero_le _
  · cases htx

/- The dependents that a success finds ready are paid for. -/
theorem Budgeted.fanWorth_le (hb : Budgeted m w db) (j : JobId) :
    fanWorth m w (dependentsReady db j) ≤ w j := by
  refine (sum_map_le_of_subset (nodup_dependentsReady db j) ?_ _).trans (hb.fan j)
  intro k hk
  exact List.mem_toFinset.mpr (mem_dependentIds.mpr (mem_dependentsReady.mp hk).1)

/- The handler of a claimed run may cause what the run was worth. -/
theorem Budgeted.retryWorth_le (hb : Budgeted m w db) {r : JobRun} {job : Job}
    (hjob : db.jobs.get r.jobId = some job) :
    retryWorth m (claimedOf r job) ≤ retriesLeft m r.jobId r.attempt := by
  have hid : job.id = r.jobId := Table.key_of_get hjob
  have hmax := hb.retries job (Table.mem_of_get hjob)
  rw [hid] at hmax
  unfold retryWorth
  split
  · rename_i hretry
    have hle : r.attempt ≤ job.maxRetries := of_decide_eq_true hretry
    show 1 + (m r.jobId + 1 - (r.attempt + 1)).toNat ≤
      (m r.jobId + 1 - r.attempt).toNat
    omega
  · exact Nat.zero_le _

/- A call spends what it creates. -/
theorem Budgeted.spends (hb : Budgeted m w db) {cfg : Settings} {h : Handler}
    (hread : ReadsRun db h) {now : Time} {pc' : Pc} {out : Option Send}
    (hn : Runner.statement cfg db h now = some (db', pc', out)) :
    dbWorth m w db' + pcWorth m w pc' ≤
      dbWorth m w db + handlerWorth m w db h := by
  have hadv : Runner.Advance cfg db now h .statement h.pc db' pc' out := Runner.advance_of_statement hn
  unfold handlerWorth
  generalize hpc : h.pc = pc at hadv
  cases hadv with
  | refused _ | successSkipped _ _ _ | fannedOut _ | dependencyGone _ _ _ _ _
  | dependencyRefused _ _ _ _ | failureSkipped _ _ _ | retryRaised _ _ _ | givesUp _ _ _ =>
    simp only [pcWorth]
    omega
  | claimed r job hr hg hjob =>
    have hrow := dbWorth_updateRun (m := m) (w := w) hr
      (claimable h.allowRunning) (claimedRow h.worker now) (claimedRow_keeps h.worker now)
    rw [if_pos hg, show rowWorth m w (claimedRow h.worker now r) = 0 from rfl] at hrow
    have hretry : retryWorth m (claimedOf (claimedRow h.worker now r) job) ≤
        retriesLeft m r.jobId r.attempt :=
      hb.retryWorth_le (r := claimedRow h.worker now r) hjob
    have hworth : worth m w r.jobId r.attempt ≤
        rowWorth m w r + claimWorth m w db h := by
      cases hallow : h.allowRunning with
      | true =>
        have hmay : mayReclaim h = true := by rw [mayReclaim, hallow, hpc]; rfl
        rw [claimWorth, if_pos hmay, idWorth, hr]
        exact Nat.le_add_left _ _
      | false =>
        rw [hallow, claimable, if_neg Bool.false_ne_true] at hg
        have hs : r.status = .pending ∨ r.status = .queued := by simpa using hg
        unfold rowWorth
        rcases hs with hs | hs <;> rw [hs] <;> exact Nat.le_add_right _ _
    unfold worth at hworth
    show _ + (w r.jobId + retryWorth m (claimedOf (claimedRow h.worker now r) job)) ≤ _
    omega
  | successChecked c res hcan =>
    simp only [pcWorth]
    omega
  | succeeded c res =>
    have hdb := dbWorth_finishRun (m := m) (w := w) db
      (show RunStatus.succeeded.terminal = true from rfl) c.runId res.exitCode res.result none now
    simp only [pcWorth]
    omega
  | ready c =>
    have hfan := hb.fanWorth_le c.jobId
    simp only [pcWorth]
    omega
  | dependencyDispatched c j js hd | dependencyChecked c j js hd | dependencyRead c j js p hp
  | dependencyAbsent c j js hp =>
    simp only [pcWorth, fanWorth, Promotion.jobId, List.map_cons, List.sum_cons]
    omega
  | dependencyPromoted c j p js r hp =>
    have hdb := dbWorth_promoteRun (m := m) (w := w) hp
    obtain ⟨rfl, ha⟩ := hread j p (by rw [hpc]; rfl) r hp
    have hle := worth_le_first (m := m) (w := w) r.jobId ha
    simp only [pcWorth, fanWorth, Promotion.jobId, List.map_cons, List.sum_cons]
    omega
  | dependencyInserted c j js db' i hi =>
    have hdb := dbWorth_insertDependencyRun (m := m) (w := w) hi
    simp only [pcWorth, fanWorth, Promotion.jobId, List.map_cons, List.sum_cons]
    omega
  | enqueued c i js =>
    simp only [pcWorth]
    omega
  | retries c res hcan =>
    simp only [Runner.statement, hpc] at hn
    have hretry := Runner.willRetry_of_retries hpc hcan hn
    have hshould : shouldRetry c.attempt c.maxRetries = true := by
      rw [Runner.willRetry, Bool.and_eq_true] at hretry
      exact hretry.2
    simp only [pcWorth, retryWorth, hshould, if_true, worth]
    omega
  | retryCreated c res db' i hd =>
    have hdb := dbWorth_createRetryRun (m := m) (w := w) hd
    simp only [pcWorth]
    omega
  | delayed c res i =>
    simp only [pcWorth]
    omega
  | failed c res error =>
    have hdb := dbWorth_finishRun (m := m) (w := w) db
      res.status.runStatus_terminal c.runId res.exitCode res.result error now
    simp only [pcWorth]
    omega

/-! ### Steps of the system -/

/- Everything but the requests and ticks that create runs, an edit of the jobs, and a reclaim,
which starts a second execution. -/
def settles : Label → Bool
  | .trigger .. | .retryRun .. | .editJobs .. | .tick _ | .reclaim .. => false
  | _ => true

variable {cfg : Settings} {cronNext : Cron.CronNext} {s t : Sys} {l : Label}

/- The rows that are left are worth what they were. -/
theorem idWorth_le (h : Sys.Evolves s l t) {i : RunId} (hi : i < s.db.runs.next) :
    idWorth m w t.db i ≤ idWorth m w s.db i := by
  unfold idWorth
  cases hr' : t.db.runs.get i with
  | none => exact Nat.zero_le _
  | some r' =>
    obtain ⟨r, hr, hrow⟩ := h.back hr' hi
    rw [hr, Option.map_some, Option.map_some, hrow.jobId, hrow.keepsOrigin.attempt]

theorem handlerWorth_le (hs : Sys.WellFormed s) (h : Sys.Evolves s l t) {k : Handler}
    (hk : Sys.Works s k) :
    handlerWorth m w t.db k ≤ handlerWorth m w s.db k := by
  have hid := idWorth_le (m := m) (w := w) h (hs.runId_lt hk)
  unfold handlerWorth claimWorth
  split <;> omega

theorem handlerWorth_of_working {h : Handler} {pc : Pc} (hw : Sys.isWaiting pc = false)
    (hc : pc.isClaiming = false) :
    handlerWorth m w db (Sys.setPc pc h) = pcWorth m w pc := by
  have hno : mayReclaim (Sys.setPc pc h) = false := by
    simp [mayReclaim, Sys.setPc, hw, hc]
  rw [handlerWorth, claimWorth, hno, if_neg Bool.false_ne_true]
  rfl

/- One handler moves; the others are worth no more than before. -/
theorem sum_goto {h : Handler} (pc : Pc) (hget : s.handlers.get h.id = some h)
    (hmono : ∀ k ∈ s.handlers.rows,
      handlerWorth m w db' k ≤ handlerWorth m w db k) :
    ((s.goto h.id pc).handlers.rows.map (handlerWorth m w db')).sum +
        handlerWorth m w db h ≤
      (s.handlers.rows.map (handlerWorth m w db)).sum +
        handlerWorth m w db' (Sys.setPc pc h) := by
  have hupd := Table.sum_map_update s.handlers (fun k => decide (k.id = h.id)) (Sys.setPc pc)
    (Sys.setPc_keeps pc) (handlerWorth m w db')
  have hsum := Table.sum_map_le (Table.mem_of_get hget) (f := handlerWorth m w db)
    (g := fun k => handlerWorth m w db'
      (Table.rewrite (fun k => decide (k.id = h.id)) (Sys.setPc pc) k)) (by
      intro k hk hne
      rw [Table.rewrite, decide_eq_false (by exact hne), if_neg Bool.false_ne_true]
      exact hmono k hk)
  simp only [Table.rewrite, decide_true, if_true] at hsum
  rw [show ((s.goto h.id pc).handlers.rows.map (handlerWorth m w db')).sum = _ from hupd]
  exact hsum

/- A thread that outlived its handler commits what it had left to spend. -/
theorem dbWorth_commitThread {d : Handler} (hread : ReadsRun db d) {now : Time}
    (hdb : db' = db ∧ Runner.tx d now = none ∨
      ∃ tx, Runner.tx d now = some tx ∧ db' = tx.exec cronNext db) :
    dbWorth m w db' ≤ dbWorth m w db + pcWorth m w d.pc := by
  rcases hdb with ⟨rfl, -⟩ | ⟨tx, htx, rfl⟩
  · exact Nat.le_add_right _ _
  · have hexec := dbWorth_exec (m := m) (w := w) db cronNext
      (ofWorker_of_tx htx)
    have hle := txWorth_le_pcWorth (m := m) (w := w) hread htx
    omega

/- The SELECTs of create_dependency_run spend nothing. -/
theorem pcWorth_goesOn {cfg : Settings} {now : Time} {h : Handler} {pc : Pc} {c : Claimed}
    {x : Promotion} {js : List JobId} {out : Option Send}
    (hadv : Runner.Advance cfg db now h .statement pc db' (.successCreate c x js) out) :
    pcWorth m w (.successCreate c x js) = pcWorth m w pc := by
  cases hadv <;> rfl

theorem readsRun_of_recorded (hs : Sys.Recorded s) {h : Handler} (hw : Sys.Works s h) :
    ReadsRun s.db h :=
  fun j p hx r hr => ⟨(hs.wellFormed.read h hw j p hx).2 r hr, (hs.origin p r hr).one_le⟩

theorem not_waits_of_advance {cfg : Settings} {now : Time} {h : Handler} {g : Runner.Grain}
    {pc pc' : Pc} {out : Option Send} (hadv : Runner.Advance cfg db now h g pc db' pc' out) :
    Sys.isWaiting pc' = false ∧ pc'.isClaiming = false := by
  cases hadv <;> exact ⟨rfl, rfl⟩

theorem handlerWorth_acking (db : Database) (h : Handler) :
    handlerWorth m w db (Sys.setPc .acking h) = 0 :=
  handlerWorth_of_working rfl rfl

/- The handlers that are left are worth no more than before. -/
theorem handlersWorth_le (hs : Sys.WellFormed s) (h : Sys.Evolves s l t) :
    (∀ k ∈ s.handlers.rows,
      handlerWorth m w t.db k ≤ handlerWorth m w s.db k) ∧
    (s.detached.map (handlerWorth m w t.db)).sum ≤
      (s.detached.map (handlerWorth m w s.db)).sum :=
  ⟨fun _ hk => handlerWorth_le hs h (Or.inl hk),
    List.sum_le_sum fun _ hk => handlerWorth_le hs h (Or.inr hk)⟩

theorem total_advance (hs : Sys.Recorded s) (hb : Budgeted m w s.db) {i : ℕ} {now : Time}
    (h : s.step cfg cronNext (.advance i now) = some t) :
    total m w t ≤ total m w s := by
  obtain ⟨hmono, hdetached⟩ := handlersWorth_le (m := m) (w := w) hs.wellFormed
    (Sys.trans_of_step h).evolves
  obtain ⟨d, db', pc, out, hget, -, hn, rfl⟩ := Sys.statement_of_step h
  have hspend := hb.spends (readsRun_of_recorded hs (Or.inl (Table.mem_of_get hget))) hn
  obtain ⟨hwait, hclaim⟩ := not_waits_of_advance (Runner.advance_of_statement hn)
  unfold total
  rw [Sys.db_resume, Sys.db_send] at hmono hdetached ⊢
  rw [Sys.handlers_advance, Sys.detached_resume, Sys.detached_send]
  have hsum := sum_goto pc hget hmono
  rw [handlerWorth_of_working hwait hclaim] at hsum
  dsimp only at hspend hsum hdetached ⊢
  omega

/- A handler that moves without a write, and whatever else stays. -/
theorem total_goto {h : Handler} {pc : Pc} (hget : s.handlers.get h.id = some h)
    (hle : handlerWorth m w s.db (Sys.setPc pc h) ≤ handlerWorth m w s.db h) :
    total m w (s.goto h.id pc) ≤ total m w s := by
  have hsum := sum_goto pc hget fun k _ => le_refl (handlerWorth m w s.db k)
  unfold total
  rw [Sys.db_goto, Sys.detached_goto]
  omega

theorem total_leave (h : Handler) : total m w (s.leave h) = total m w (s.goto h.id .acking) := by
  unfold total
  rw [Sys.db_leave, Sys.handlers_leave, Sys.detached_leave, Sys.db_goto, Sys.detached_goto]

theorem total_deleteWhere (p : Handler → Bool) :
    total m w { s with handlers := s.handlers.deleteWhere p } ≤ total m w s := by
  have hdel := Table.sum_map_deleteWhere s.handlers p (handlerWorth m w s.db)
  unfold total
  dsimp only at hdel ⊢
  omega

/- A task that is canceled leaves to its thread what it had left to spend. -/
theorem total_cancelTask {h : Handler} (hget : s.handlers.get h.id = some h) :
    total m w ({ s with detached := s.detached ++ [h] }.leave h) ≤ total m w s := by
  have hsum := sum_goto .acking hget
    fun k _ => le_refl (handlerWorth m w s.db k)
  rw [handlerWorth_acking] at hsum
  unfold total
  rw [Sys.db_leave, Sys.handlers_leave, Sys.detached_leave]
  simp only [List.map_append, List.sum_append, List.map_cons, List.map_nil, List.sum_cons,
    List.sum_nil]
  dsimp only [Sys.goto] at hsum ⊢
  omega

theorem total_commitThread (hs : Sys.Recorded s) {k : ℕ} {now : Time}
    (h : Sys.Trans cfg cronNext s (.commitThread k now) t) : total m w t ≤ total m w s := by
  obtain ⟨hmono, hdetached⟩ := handlersWorth_le (m := m) (w := w) hs.wellFormed h.evolves
  have hsum := Table.sum_map_mono hmono
  cases h with
  | commitThread _ _ hd db' hk hdb =>
    have hread := readsRun_of_recorded hs (Or.inr (List.mem_of_getElem? hk))
    have hcommit := dbWorth_commitThread (m := m) (w := w) hread hdb
    have herase := sum_map_eraseIdx hk (handlerWorth m w db')
    have hpc : pcWorth m w hd.pc ≤ handlerWorth m w db' hd :=
      Nat.le_add_right _ _
    unfold total
    dsimp only at hsum hdetached ⊢
    omega
  | threadGoesOn _ _ hd c x js hk hadv =>
    have hset := sum_map_set hk (Sys.setPc (.successCreate c x js) hd) (handlerWorth m w s.db)
    have hpc : handlerWorth m w s.db (Sys.setPc (.successCreate c x js) hd) ≤
        handlerWorth m w s.db hd := by
      rw [handlerWorth_of_working rfl rfl, pcWorth_goesOn hadv]
      exact Nat.le_add_right _ _
    unfold total
    dsimp only
    omega

/- No step but a request, a tick, an edit or a reclaim increases the total. -/
theorem total_step (hs : Sys.Recorded s) (hb : Budgeted m w s.db)
    (hl : settles l = true) (h : s.step cfg cronNext l = some t) :
    total m w t ≤ total m w s := by
  have htrans := Sys.trans_of_step h
  obtain ⟨hmono, hdetached⟩ := handlersWorth_le (m := m) (w := w) hs.wellFormed htrans.evolves
  have hsum := Table.sum_map_mono hmono
  cases htrans with
  | trigger _ _ _ _ _ _ | retryRun _ _ _ _ _ _ _ _ _ | editJobs _ _ _ _ | tick _ _ _ _
  | reclaim _ _ _ _ _ => cases hl
  | elapse _ | promoteDelayed _ | publish _ _ | drop _ _ | poll _ _ | reclaimed _ _
  | delivered _ _ => exact le_rfl
  | advance hd now db' pc out hget hadv => exact total_advance hs hb h
  | cancelRun owner i now r hr ha =>
    have hdb := dbWorth_cancelRun (m := m) (w := w) s.db i now
    unfold total
    dsimp only at hdb hsum hdetached ⊢
    omega
  | deleteJob owner job =>
    have hdb := dbWorth_deleteJob (m := m) (w := w) s.db job
    unfold total
    dsimp only at hdb hsum hdetached ⊢
    omega
  | deliver worker msg p hnext =>
    have hins := Table.sum_map_insert s.handlers (Sys.newHandler worker msg.id msg.runId false)
      (fun _ => rfl) (handlerWorth m w s.db)
    rw [show handlerWorth m w s.db
      (Sys.newHandler worker msg.id msg.runId false s.handlers.next) = 0 from rfl] at hins
    unfold total
    dsimp only [Sys.setPhase, Sys.spawn] at hins ⊢
    omega
  | acquire hd hget hpc =>
    refine total_goto (s := s.register hd.worker hd.runId (some hd.id)) hget (le_of_eq ?_)
    unfold handlerWorth claimWorth mayReclaim
    rw [hpc]
    rfl
  | executorReturns hd c res hget hpc =>
    refine total_goto hget ?_
    have hret : Sys.isWaiting (Runner.returned c res) = false ∧
        (Runner.returned c res).isClaiming = false ∧
        pcWorth m w (Runner.returned c res) = pcWorth m w hd.pc := by
      rw [hpc]
      unfold Runner.returned
      split <;> exact ⟨rfl, rfl, rfl⟩
    rw [handlerWorth_of_working hret.1 hret.2.1, hret.2.2]
    exact Nat.le_add_right _ _
  | fail hd hget hw =>
    rw [total_leave]
    refine total_goto hget ?_
    rw [handlerWorth_acking]
    exact Nat.zero_le _
  | cancelTask hd hget hw hc => exact total_cancelTask hget
  | commitThread k now hd db' hk hdb => exact total_commitThread hs (Sys.trans_of_step h)
  | threadGoesOn k now hd c x js hk hadv => exact total_commitThread hs (Sys.trans_of_step h)
  | ack hd hget hpc =>
    refine total_goto (s := { s with redis := s.redis.xack hd.messageId }) hget ?_
    rw [handlerWorth_of_working rfl rfl]
    exact Nat.zero_le _
  | ackError hd hget hpc | del hd hget hpc | delError hd hget hpc => exact total_deleteWhere _
  | crash worker => exact total_deleteWhere _

/-! ### Whole runs -/

theorem Budgeted.mono (hb : Budgeted m w db)
    (hjobs : ∀ job ∈ db'.jobs.rows, job ∈ db.jobs.rows)
    (hdeps : ∀ j k, db'.DependsOn k j → db.DependsOn k j) : Budgeted m w db' where
  retries := fun job hjob => hb.retries job (hjobs job hjob)
  fan := by
    intro j
    refine (Finset.sum_le_sum_of_subset fun k hk => ?_).trans (hb.fan j)
    rw [List.mem_toFinset, mem_dependentIds] at hk ⊢
    exact hdeps j k hk

theorem not_scheduleDueJobs {tx : RunTx} (hl : settles l = true) (htx : l.tx s = some tx)
    (now : Time) : tx ≠ .scheduleDueJobs now := by
  rcases Sys.tx_cases htx with ⟨_, _, _, _, rfl, -, -⟩ | ⟨_, _, _, -, rfl⟩ | ⟨_, rfl, -⟩ |
    ⟨h, -, n, -, hh⟩ | ⟨h, -, k, n, -, hh⟩
  · cases hl
  · exact fun heq => by cases heq
  · cases hl
  · exact fun heq => Runner.tx_ne_scheduleDueJobs h n now (heq ▸ hh)
  · exact fun heq => Runner.tx_ne_scheduleDueJobs h n now (heq ▸ hh)

theorem Budgeted.step (hb : Budgeted m w s.db) (hl : settles l = true)
    (h : Sys.Trans cfg cronNext s l t) : Budgeted m w t.db := by
  have hcommits := h.commits
  generalize t.db = db' at hcommits
  cases hcommits with
  | same => exact hb
  | tx _ tx htx =>
    refine hb.mono ?_ ?_
    · rw [RunTx.exec_jobs (not_scheduleDueJobs hl htx)]
      exact fun _ hjob => hjob
    · unfold Database.DependsOn
      rw [(RunTx.effect_exec cronNext s.db tx).dependencies]
      exact fun _ _ hk => hk
  | trigger _ _ _ _ _ _ | editJobs _ _ _ _ => cases hl
  | deleteJob owner job =>
    refine hb.mono (fun k hk => (Table.mem_rows_deleteWhere.mp hk).1) ?_
    intro j k hk
    obtain ⟨d, hd, hedge⟩ := hk
    exact ⟨d, (Table.mem_rows_deleteWhere.mp hd).1, hedge⟩

/- max_retries of the stored jobs -/
def retriesOf (db : Database) (j : JobId) : ℤ := ((db.jobs.get j).map Job.maxRetries).getD 0

/- Without cycles there is an account of what each job may cause. -/
theorem exists_budgeted (hdb : Acyclic db.DependsOn) :
    ∃ w : JobId → ℕ,
      (∀ j, w j = ∑ k ∈ (db.dependentIds j).toFinset, (1 + worth (retriesOf db) w k 1)) ∧
      Budgeted (retriesOf db) w db := by
  have hfin : {j | ∃ d ∈ db.dependencies.rows, d.jobId = j}.Finite := by
    refine (List.finite_toSet (db.dependencies.rows.map JobDependency.jobId)).subset ?_
    intro j hj
    exact List.mem_map.mpr hj
  have hwf : WellFounded db.DependsOn := by
    refine hdb.wellFounded hfin ?_
    intro j k hjk
    obtain ⟨d, hd, hj, -⟩ := hjk
    exact ⟨d, hd, hj⟩
  obtain ⟨w, hw⟩ := exists_budget hwf (fun j => (db.dependentIds j).toFinset)
    (fun j k hk => mem_dependentIds.mp (List.mem_toFinset.mp hk))
    fun k => 1 + retriesLeft (retriesOf db) k 1
  have hfan : ∀ j, w j = ∑ k ∈ (db.dependentIds j).toFinset, (1 + worth (retriesOf db) w k 1) := by
    intro j
    rw [hw j]
    refine Finset.sum_congr rfl fun k _ => ?_
    unfold worth
    omega
  refine ⟨w, hfan, ?_, fun j => (hfan j).ge⟩
  intro job hjob
  have hget : db.jobs.get job.id = some job := Table.get_of_mem hjob
  rw [retriesOf, hget]
  exact le_rfl

theorem run_total {ls : List Label} (hs : Sys.Recorded s) (hb : Budgeted m w s.db)
    (hls : Machine.Along (Sys.step cfg cronNext) (fun _ l => settles l = true) s ls)
    (h : Machine.run (Sys.step cfg cronNext) s ls = some t) :
    total m w t ≤ total m w s := by
  induction ls generalizing s with
  | nil =>
    cases h
    exact le_rfl
  | cons l ls ih =>
    obtain ⟨u, hu, hrest⟩ := Machine.run_cons.mp h
    have htrans := Sys.trans_of_step hu
    exact (ih (hs.step htrans) (hb.step hls.1 htrans) (hls.2 u hu) hrest).trans
      (total_step hs hb hls.1 hu)

/- From a reachable state whose dependencies have no cycle the steps of the workers, in any
order and with any outcomes, create no more runs than the total of that state allows. -/
theorem cascade_bounded {db : Database} (hdb : db.runs.rows = []) {before : List Label}
    (hs : Machine.run (Sys.step cfg cronNext) (Sys.start db) before = some s)
    (hacyclic : Acyclic s.db.DependsOn) :
    ∃ w : JobId → ℕ,
      (∀ j, w j = ∑ k ∈ (s.db.dependentIds j).toFinset, (1 + worth (retriesOf s.db) w k 1)) ∧
      ∀ ls t, Machine.Along (Sys.step cfg cronNext) (fun _ l => settles l = true) s ls →
        Machine.run (Sys.step cfg cronNext) s ls = some t →
        t.db.runs.next ≤ total (retriesOf s.db) w s := by
  obtain ⟨w, hw, hb⟩ := exists_budgeted hacyclic
  refine ⟨w, hw, ?_⟩
  intro ls t hls ht
  have hrec : Sys.Recorded s := Sys.run_recorded (Sys.recorded_start hdb) hs
  have htotal := run_total hrec hb hls ht
  refine le_trans ?_ htotal
  unfold total dbWorth
  omega

def chain : Database := Database.ofNames 1 ["extract", "load"] [(1, 0)]

/- Job 1 is triggered: its dependency is queued, and its own run is pending. -/
theorem cascade_bounded_chain :
    ∃ s, Machine.run (Sys.step {} Cron.noCron) (Sys.start chain) [.trigger 1 1 0] = some s ∧
      ∃ w : JobId → ℕ,
        (∀ j, w j = ∑ k ∈ (s.db.dependentIds j).toFinset, (1 + worth (retriesOf s.db) w k 1)) ∧
        ∀ ls t, Machine.Along (Sys.step {} Cron.noCron) (fun _ l => settles l = true) s ls →
          Machine.run (Sys.step {} Cron.noCron) s ls = some t →
          t.db.runs.next ≤ total (retriesOf s.db) w s := by
  have hall : (Machine.run (Sys.step {} Cron.noCron) (Sys.start chain) [.trigger 1 1 0]).any
      (fun s => s.db.dependencies.rows.all fun d => decide (d.dependsOnJobId < d.jobId)) = true := by
    decide
  obtain ⟨s, hs, hall⟩ := (Option.any_eq_true _ _).mp hall
  refine ⟨s, hs, cascade_bounded rfl hs (acyclic_of_lt ?_)⟩
  intro j k hjk
  obtain ⟨d, hd, rfl, rfl⟩ := hjk
  exact of_decide_eq_true (List.all_eq_true.mp hall d hd)

end JobScheduler.Cascade
