import JobScheduler.Backoff

/-!
# A worker crashes and its message is redelivered

One run is executed operation by operation. The worker dies between two operations; its
message is reclaimed by another worker, which may claim a running run and whose executor ends
as the first one did. Compared are the follow-ups that were committed, retries and dependents,
with those of an execution without the crash.
-/

namespace JobScheduler.Recovery
open Library Database Store Runner
open Backoff (queuedReport firstDelivery)

inductive Effect where
  | retry (jobId : JobId) (attempt : ℤ)
  | dependency (jobId : JobId)
  deriving DecidableEq, Repr

/- The follow-up that a call has committed. -/
def made : Pc → Pc → Option Effect
  | .failureRetry c _, .failureDelay _ _ _ => some (.retry c.jobId (c.attempt + 1))
  | .successFan _ (j :: _), .successEnqueue _ _ _ => some (.dependency j)
  | _, _ => none

structure Exec where
  db : Database
  handler : Handler
  effects : List Effect := []

def start (db : Database) (h : Handler) : Exec := { db := db, handler := h }

section
variable (cfg : Settings) (res : ExecResult)

/- One operation of process_run; the executor ends with `res`. -/
def step (e : Exec) (now : Time) : Exec :=
  match e.handler.pc with
  | .executing c => { e with handler := { e.handler with pc := returned c res } }
  | pc =>
    match next cfg e.db e.handler now with
    | none => e
    | some (db', pc', _) =>
      { db := db'
        handler := { e.handler with pc := pc' }
        effects := e.effects ++ (made pc pc').toList }

/- One operation at each of the given times. -/
def run (e : Exec) (times : List Time) : Exec := times.foldl (step cfg res) e

end

/- The tables survive the crash; handler `id` of another worker gets the message. -/
def redeliver (e : Exec) (id : ℕ) (worker : WorkerId) : Exec :=
  { e with handler :=
    { id := id, worker := worker, messageId := e.handler.messageId, runId := e.handler.runId,
      allowRunning := true, pc := .claiming } }

/- A crash here is harmless: no retry has been created for a run that is still running, and no
dependent is left for a run that is finished. -/
def Benign (e : Exec) : Prop :=
  match e.handler.pc with
  | .failureDelay _ _ _ => False
  | .failureFinish c res _ => willRetry c res = false
  | .successReady c => dependentsReady e.db c.jobId = []
  | .successFan _ js | .successEnqueue _ _ js => js = []
  | _ => True

/-! ### Tables that agree on jobs, edges and statuses -/

variable {db db' : Database} {i : RunId} {r r' : JobRun} {res : ExecResult}

def brief (r : JobRun) : JobId × RunStatus := (r.jobId, r.status)

structure Alike (db db' : Database) : Prop where
  jobs : db'.jobs = db.jobs
  dependencies : db'.dependencies = db.dependencies
  rows : ∀ i, (db'.runs.get i).map brief = (db.runs.get i).map brief

theorem Alike.symm (h : Alike db db') : Alike db' db :=
  ⟨h.jobs.symm, h.dependencies.symm, fun i => (h.rows i).symm⟩

theorem Alike.hasRun_mp (h : Alike db db') {j : JobId} {p : RunStatus → Bool}
    (hrun : db.HasRun j p) : db'.HasRun j p := by
  obtain ⟨i, r, hr, rfl, hp⟩ := hasRun_iff_get.mp hrun
  have hrow := h.rows i
  rw [hr, Option.map_some, Option.map_eq_some_iff] at hrow
  obtain ⟨r', hr', heq⟩ := hrow
  simp only [brief, Prod.mk.injEq] at heq
  exact hasRun_iff_get.mpr ⟨i, r', hr', heq.1, by rw [heq.2]; exact hp⟩

theorem Alike.hasRun (h : Alike db db') {j : JobId} {p : RunStatus → Bool} :
    db'.HasRun j p ↔ db.HasRun j p :=
  ⟨h.symm.hasRun_mp, h.hasRun_mp⟩

theorem Alike.dependentsReady (h : Alike db db') (j : JobId) :
    dependentsReady db' j = dependentsReady db j := by
  have hready : ∀ k, readyNow db' k = readyNow db k := by
    intro k
    rw [Bool.eq_iff_iff, readyNow_iff, readyNow_iff, h.jobs]
    unfold DependenciesSucceeded Database.DependsOn
    simp only [h.hasRun, h.dependencies]
  rw [Store.dependentsReady, Store.dependentsReady, dependentIds, dependentIds, h.dependencies]
  exact List.filter_congr fun k _ => hready k

/- Finishing the run evens out what was different about it. -/
theorem alike_finishRun (hr : db.runs.get i = some r) (hr' : db'.runs.get i = some r')
    (hrows : ∀ k, k ≠ i → db'.runs.get k = db.runs.get k) (hjobs : db'.jobs = db.jobs)
    (hdeps : db'.dependencies = db.dependencies) (hjob : r'.jobId = r.jobId)
    (hne : r.status ≠ .canceled) (hne' : r'.status ≠ .canceled) (st : RunStatus)
    (exitCode exitCode' : Option ℤ) (result result' : Option Json) (error error' : Option String)
    (now now' : Time) :
    Alike (finishRun db i st exitCode result error now)
      (finishRun db' i st exitCode' result' error' now') where
  jobs := hjobs
  dependencies := hdeps
  rows := by
    intro k
    by_cases hk : k = i
    · rw [hk, get_finishRun _ _ _ _ _ hr hne, get_finishRun _ _ _ _ _ hr' hne']
      simp [brief, finishedRow, hjob]
    · rw [finishRun, finishRun, get_updateRun, get_updateRun, if_neg hk, if_neg hk, hrows k hk]

/-! ### What an execution of a run should do -/

def followUps (db : Database) (r : JobRun) (job : Job) (res : ExecResult) : List Effect :=
  if res.succeeded then
    (dependentsReady (finishRun db r.id .succeeded none none none 0) r.jobId).map .dependency
  else if retryable res.status && shouldRetry r.attempt job.maxRetries then
    [.retry r.jobId (r.attempt + 1)]
  else []

/- A run in execution under the record c, with X to follow. -/
def Live (db : Database) (i : RunId) (res : ExecResult) (X : List Effect) (c : Claimed) : Prop :=
  ∃ r job, db.runs.get i = some r ∧ r.status = .running ∧ db.jobs.get r.jobId = some job ∧
    c.runId = i ∧ c.jobId = r.jobId ∧ c.attempt = r.attempt ∧ c.maxRetries = job.maxRetries ∧
    followUps db r job res = X

def Over (db : Database) (i : RunId) : Prop :=
  ∃ r, db.runs.get i = some r ∧ r.status.terminal = true

/- A dependent that gets a run when its turn comes. -/
def Idle (db : Database) (j : JobId) : Prop :=
  (db.jobs.get j).isSome = true ∧ ¬ db.HasRun j RunStatus.dispatched

/- An execution that began with the effects `base` and is to add X, by its program counter. -/
def Stage (i : RunId) (res : ExecResult) (base X : List Effect) (e : Exec) : Prop :=
  e.handler.runId = i ∧
    match e.handler.pc with
    | .waiting | .deleting | .successCreate .. => False
    | .claiming => e.effects = base ∧
        ((∃ r job, e.db.runs.get i = some r ∧ claimable e.handler.allowRunning r.status = true ∧
          e.db.jobs.get r.jobId = some job ∧ followUps e.db r job res = X) ∨
        Over e.db i ∧ X = [])
    | .executing c => e.effects = base ∧ Live e.db i res X c
    | .successCheck c res' | .successFinish c res' =>
      e.effects = base ∧ Live e.db i res X c ∧ res' = res ∧ res.succeeded = true
    | .successReady c => e.effects = base ∧ Over e.db i ∧
        (dependentsReady e.db c.jobId).map .dependency = X
    | .successFan _ js | .successEnqueue _ _ js =>
      e.effects ++ js.map .dependency = base ++ X ∧ Over e.db i ∧ js.Nodup ∧ ∀ j ∈ js, Idle e.db j
    | .failureCheck c res' =>
      e.effects = base ∧ Live e.db i res X c ∧ res' = res ∧ res.succeeded = false
    | .failureRetry c res' =>
      e.effects = base ∧ Live e.db i res X c ∧ res' = res ∧ res.succeeded = false ∧
        willRetry c res = true
    | .failureDelay c res' _ =>
      e.effects = base ++ X ∧ Live e.db i res X c ∧ res' = res ∧ res.succeeded = false ∧
        willRetry c res = true
    | .failureFinish c res' _ =>
      e.effects = base ++ X ∧ Live e.db i res X c ∧ res' = res ∧ res.succeeded = false
    | .acking => e.effects = base ++ X ∧ Over e.db i

/-! ### Small facts about live runs -/

variable {X base : List Effect} {c : Claimed} {job : Job} {e : Exec}

theorem Live.not_canceled (h : Live db i res X c) : isRunCanceled db c.runId = false := by
  obtain ⟨r, job, hr, hst, -, hi, -⟩ := h
  rw [← Bool.not_eq_true, isRunCanceled_iff, hi]
  rintro ⟨r', hr', hcan⟩
  rw [hr] at hr'
  cases hr'
  rw [hst] at hcan
  cases hcan

/- Of a failure, X is the one retry or nothing. -/
theorem Live.failure (h : Live db i res X c) (hfail : res.succeeded = false) :
    X = if willRetry c res then [.retry c.jobId (c.attempt + 1)] else [] := by
  obtain ⟨r, job, -, -, -, -, hjob, hatt, hmax, rfl⟩ := h
  rw [followUps, hfail, if_neg Bool.false_ne_true, willRetry, hjob, hatt, hmax]

/- A failure does not look at other runs. -/
theorem Live.of_failure (h : Live db i res X c) (hfail : res.succeeded = false)
    (hjobs : db'.jobs = db.jobs) (hrow : db'.runs.get i = db.runs.get i) :
    Live db' i res X c := by
  obtain ⟨r, job, hr, hst, hjob, hi, hcj, hatt, hmax, rfl⟩ := h
  refine ⟨r, job, hrow.trans hr, hst, by rw [hjobs]; exact hjob, hi, hcj, hatt, hmax, ?_⟩
  rw [followUps, followUps, hfail, if_neg Bool.false_ne_true, if_neg Bool.false_ne_true]

theorem Live.finish (h : Live db i res X c) (status : ExecStatus) (exitCode : Option ℤ)
    (result : Option Json) (error : Option String) (now : Time) :
    Over (finishRun db c.runId status.runStatus exitCode result error now) i := by
  obtain ⟨r, job, hr, hst, -, hi, -⟩ := h
  rw [hi]
  exact ⟨_, get_finishRun _ _ _ _ _ hr (by rw [hst]; decide), status.runStatus_terminal⟩

theorem Live.ready (h : Live db i res X c) (hsucc : res.succeeded = true) (exitCode : Option ℤ)
    (result : Option Json) (now : Time) :
    (dependentsReady (finishRun db c.runId .succeeded exitCode result none now) c.jobId).map
      .dependency = X := by
  obtain ⟨r, job, hr, hst, -, hi, hcj, -, -, rfl⟩ := h
  have hid : r.id = i := Table.key_of_get hr
  have hne : r.status ≠ .canceled := by
    rw [hst]
    decide
  have halike := alike_finishRun hr hr (fun _ _ => rfl) rfl rfl rfl hne hne .succeeded none exitCode
    none result none none 0 now
  rw [followUps, if_pos hsucc, hid, hi, hcj, halike.dependentsReady]

/- claim_run leaves the follow-ups as they were. -/
theorem followUps_claimedRow (hr : db.runs.get i = some r) {allow : Bool}
    (hg : claimable allow r.status = true) (w : WorkerId) (now : Time) :
    followUps (updateRun db i (claimable allow) (claimedRow w now) (claimedRow_keeps w now))
      (claimedRow w now r) job res = followUps db r job res := by
  have hid : r.id = i := Table.key_of_get hr
  have hne : r.status ≠ .canceled := by
    intro hcan
    rw [hcan] at hg
    cases allow <;> cases hg
  have hrow : (updateRun db i (claimable allow) (claimedRow w now)
      (claimedRow_keeps w now)).runs.get i = some (claimedRow w now r) := by
    rw [get_updateRun, if_pos rfl, hr, Option.map_some, if_pos hg]
  have hrows : ∀ k, k ≠ i → (updateRun db i (claimable allow) (claimedRow w now)
      (claimedRow_keeps w now)).runs.get k = db.runs.get k := by
    intro k hk
    rw [get_updateRun, if_neg hk]
  have halike := alike_finishRun hr hrow hrows rfl rfl rfl hne (fun h => by cases h) .succeeded
    none none none none none none 0 0
  unfold followUps
  rw [show (claimedRow w now r).id = i from hid, hid]
  rw [show (claimedRow w now r).jobId = r.jobId from rfl, halike.dependentsReady]
  rfl

/- Giving one dependent its run leaves the others idle. -/
theorem Idle.createDependencyRun {j k : JobId} {now : Time} {out : Option RunId}
    (h : Idle db k) (hne : j ≠ k) (hd : createDependencyRun db j now = some (db', out)) :
    Idle db' k := by
  have heff := RunTx.effect_of_createDependencyRun hd
  refine ⟨(heff.jobIds k).trans h.1, fun hdis => h.2 ?_⟩
  obtain ⟨i, r', hr', hk, hs⟩ := hasRun_iff_get.mp hdis
  cases hr : db.runs.get i with
  | none => exact absurd ((heff.new i r' hr' hr).2.1.symm.trans hk) hne
  | some r =>
    obtain ⟨r'', hr'', hrow⟩ := heff.row i r hr
    rw [hr'] at hr''
    cases hr''
    rcases hrow.of_dependency with rfl | ⟨hj, -, -⟩
    · exact hasRun_iff_get.mpr ⟨i, r', hr, hk, hs⟩
    · exact absurd (hj.symm.trans (hrow.jobId.symm.trans hk)) hne

theorem Over.createDependencyRun {j : JobId} {now : Time} {out : Option RunId} (h : Over db i)
    (hd : createDependencyRun db j now = some (db', out)) : Over db' i := by
  obtain ⟨r, hr, ht⟩ := h
  obtain ⟨r', hr', hrow⟩ := (RunTx.effect_of_createDependencyRun hd).row i r hr
  exact ⟨r', hr', hrow.terminal (fun heq => by cases heq) ht⟩

/-! ### One operation -/

variable {cfg : Settings} {now : Time} {pc : Pc}

theorem step_executing (hpc : e.handler.pc = .executing c) :
    step cfg res e now = { e with handler := { e.handler with pc := returned c res } } := by
  simp only [step, hpc]

/- The execution after a call that has left these tables and this program counter. -/
def Exec.after (e : Exec) (db' : Database) (pc : Pc) : Exec :=
  { db := db'
    handler := { e.handler with pc := pc }
    effects := e.effects ++ (made e.handler.pc pc).toList }

theorem step_next {out : Option Send} (hn : next cfg e.db e.handler now = some (db', pc, out)) :
    step cfg res e now = e.after db' pc := by
  unfold step
  split
  · rename_i c hpc
    simp [next, hpc] at hn
  · simp only [hn]
    rfl

theorem step_none (hx : ∀ c, e.handler.pc ≠ .executing c)
    (hn : next cfg e.db e.handler now = none) : step cfg res e now = e := by
  unfold step
  split
  · rename_i c hpc
    exact absurd hpc (hx c)
  · simp only [hn]

theorem Stage.returned (h : Stage i res base X e) (hpc : e.handler.pc = .executing c) :
    Stage i res base X { e with handler := { e.handler with pc := returned c res } } := by
  obtain ⟨hi, h⟩ := h
  rw [hpc] at h
  refine ⟨hi, ?_⟩
  cases hsucc : res.succeeded with
  | true =>
    rw [Runner.returned, if_pos hsucc]
    exact ⟨h.1, h.2, rfl, rfl⟩
  | false =>
    rw [Runner.returned, if_neg (by rw [hsucc]; exact Bool.false_ne_true)]
    exact ⟨h.1, h.2, rfl, rfl⟩

theorem Stage.next_claim {out : Option Send} (h : Stage i res base X e)
    (hpc : e.handler.pc = .claiming)
    (hadv : Advance cfg e.db now e.handler .call .claiming db' pc out) :
    Stage i res base X (e.after db' pc) := by
  obtain ⟨hi, h⟩ := h
  rw [hpc] at h
  refine ⟨hi, ?_⟩
  simp only [Exec.after, hpc]
  obtain ⟨heff, hrow⟩ := h
  cases hadv with
  | refused hno =>
    rcases hrow with ⟨r, job, hr, hg, -⟩ | ⟨hover, rfl⟩
    · rw [← hi] at hr
      rw [hno r hr] at hg
      cases hg
    · rw [← heff]
      exact ⟨rfl, hover⟩
  | claimed r job hr hg hjob =>
    rcases hrow with ⟨r', job', hr', -, hjob', rfl⟩ | ⟨⟨r', hr', ht⟩, -⟩
    · rw [hi, hr'] at hr
      cases hr
      rw [hjob'] at hjob
      cases hjob
      rw [hi]
      refine ⟨(List.append_nil _).trans heff, claimedRow e.handler.worker now r, job, ?_, rfl,
        hjob', Table.key_of_get hr', rfl, rfl, rfl, followUps_claimedRow hr' hg _ _⟩
      rw [get_updateRun, if_pos rfl, hr', Option.map_some, if_pos hg]
    · rw [hi, hr'] at hr
      cases hr
      rw [RunTx.claimable_not_terminal hg] at ht
      cases ht

/- The fan-out gives every dependent that was found ready its run. -/
theorem Stage.next_fanOut {out : Option Send} {js : List JobId} (h : Stage i res base X e)
    (hpc : e.handler.pc = .successFan c js)
    (hadv : Advance cfg e.db now e.handler .call (.successFan c js) db' pc out) :
    Stage i res base X (e.after db' pc) := by
  obtain ⟨hi, h⟩ := h
  rw [hpc] at h
  refine ⟨hi, ?_⟩
  simp only [Exec.after, hpc]
  obtain ⟨heff, hover, hnodup, hidle⟩ := h
  cases hadv with
  | fannedOut c => exact ⟨heff, hover⟩
  | dependencyRaised c j js hd =>
    exact absurd hd (createDependencyRun_ne_none (hidle j (List.mem_cons_self ..)).1 now)
  | dependencySkipped c j js db' hd =>
    rcases createDependencyRun_cases hd with ⟨hdis, -⟩ | ⟨-, q, -, -, hres⟩ | ⟨-, ha, -, hres⟩
    · exact absurd hdis (hidle j (List.mem_cons_self ..)).2
    · cases hres
    · cases hres
  | dependencyCreated c j js db' n hd =>
    rw [List.nodup_cons] at hnodup
    refine ⟨?_, hover.createDependencyRun hd, hnodup.2, fun k hk => ?_⟩
    · rw [← heff]
      simp [made]
    · have hne : j ≠ k := fun heq => hnodup.1 (heq ▸ hk)
      exact (hidle k (List.mem_cons_of_mem _ hk)).createDependencyRun hne hd

/- A failure is retried once or not at all. -/
theorem Stage.next_failure {out : Option Send} {failed : ExecResult} (h : Stage i res base X e)
    (hfails : e.handler.pc.fails? = some failed)
    (hn : Runner.next cfg e.db e.handler now = some (db', pc, out)) :
    Stage i res base X (e.after db' pc) := by
  obtain ⟨hi, h⟩ := h
  have hadv := advance_of_next hn
  refine ⟨hi, ?_⟩
  dsimp only [Exec.after] at hadv ⊢
  generalize hpc : e.handler.pc = pc0 at hadv h hfails
  cases hadv with
  | failureSkipped c res' hcan =>
    rw [h.2.1.not_canceled] at hcan
    cases hcan
  | retries c res' hcan =>
    obtain ⟨heff, hlive, rfl, hfail⟩ := h
    have hretry := willRetry_of_retries hpc hcan hn
    exact ⟨(List.append_nil _).trans heff, hlive, rfl, hfail, hretry⟩
  | givesUp c res' hcan =>
    obtain ⟨heff, hlive, rfl, hfail⟩ := h
    have hretry := willRetry_of_givesUp hpc hcan hn
    refine ⟨?_, hlive, rfl, hfail⟩
    rw [hlive.failure hfail, hretry, if_neg Bool.false_ne_true, ← heff]
    rfl
  | retryRaised c res' hno =>
    obtain ⟨heff, hlive, rfl, hfail, hretry⟩ := h
    obtain ⟨r, job, -, -, hjob, -, hcj, -⟩ := hlive
    have ha : e.db.Admits (retryRow c.jobId (c.attempt + 1) now) := by
      refine ⟨⟨job, Table.mem_of_get hjob, ?_⟩, fun _ _ _ _ => rfl⟩
      exact (Table.key_of_get hjob).trans hcj.symm
    rw [createRetryRun, insertRun, dif_pos ha] at hno
    cases hno
  | retryCreated c res' db' n hcreate =>
    obtain ⟨heff, hlive, rfl, hfail, hretry⟩ := h
    obtain ⟨rfl, ha, rfl⟩ := insertRun_eq_some hcreate
    have hrow : (e.db.addRun (retryRow c.jobId (c.attempt + 1) now) ha).runs.get i =
        e.db.runs.get i := by
      obtain ⟨r, job, hr, -⟩ := hlive
      rw [get_addRun, if_neg (Nat.ne_of_lt (Table.lt_next_of_get hr))]
    refine ⟨?_, hlive.of_failure hfail rfl hrow, rfl, hfail, hretry⟩
    rw [hlive.failure hfail, if_pos hretry, ← heff]
    rfl
  | delayed c res' n =>
    obtain ⟨heff, hlive, hres, hfail, -⟩ := h
    exact ⟨(List.append_nil _).trans heff, hlive, hres, hfail⟩
  | failed c res' error =>
    obtain ⟨heff, hlive, rfl, hfail⟩ := h
    exact ⟨(List.append_nil _).trans heff, hlive.finish res'.status _ _ _ _⟩
  | _ => cases hfails

theorem Stage.next {out : Option Send} (h : Stage i res base X e)
    (hn : Runner.next cfg e.db e.handler now = some (db', pc, out)) :
    Stage i res base X (e.after db' pc) := by
  have hadv := advance_of_next hn
  cases hpc : e.handler.pc with
  | waiting | executing | successCreate | acking | deleting =>
    rw [hpc] at hadv
    cases hadv
  | claiming => exact h.next_claim hpc (hpc ▸ hadv)
  | successFan c js => exact h.next_fanOut hpc (hpc ▸ hadv)
  | failureCheck | failureRetry | failureDelay | failureFinish =>
    exact h.next_failure (by rw [hpc]; rfl) hn
  | successCheck c res' =>
    obtain ⟨hi, h⟩ := h
    rw [hpc] at h hadv
    refine ⟨hi, ?_⟩
    simp only [Exec.after, hpc]
    obtain ⟨heff, hlive, hrest⟩ := h
    cases hadv with
    | successSkipped _ _ hcan =>
      rw [hlive.not_canceled] at hcan
      cases hcan
    | successChecked _ _ hcan => exact ⟨(List.append_nil _).trans heff, hlive, hrest⟩
  | successFinish c res' =>
    obtain ⟨hi, h⟩ := h
    rw [hpc] at h hadv
    refine ⟨hi, ?_⟩
    simp only [Exec.after, hpc]
    cases hadv
    obtain ⟨heff, hlive, rfl, hsucc⟩ := h
    exact ⟨(List.append_nil _).trans heff, hlive.finish .succeeded _ _ _ _,
      hlive.ready hsucc _ _ _⟩
  | successReady c =>
    obtain ⟨hi, h⟩ := h
    rw [hpc] at h hadv
    refine ⟨hi, ?_⟩
    simp only [Exec.after, hpc]
    cases hadv
    obtain ⟨heff, hover, rfl⟩ := h
    refine ⟨?_, hover, nodup_dependentsReady _ _, fun j hj => ?_⟩
    · rw [← heff]
      simp [made]
    · obtain ⟨-, job, hjob, -, hidle, -⟩ := mem_dependentsReady.mp hj
      exact ⟨by rw [hjob]; rfl, hidle⟩
  | successEnqueue c n js =>
    obtain ⟨hi, h⟩ := h
    rw [hpc] at h hadv
    refine ⟨hi, ?_⟩
    simp only [Exec.after, hpc]
    cases hadv
    obtain ⟨heff, hrest⟩ := h
    refine ⟨?_, hrest⟩
    rw [← heff]
    simp [made]

theorem Stage.step (h : Stage i res base X e) (now : Time) :
    Stage i res base X (Recovery.step cfg res e now) := by
  by_cases hx : ∃ c, e.handler.pc = .executing c
  · obtain ⟨c, hpc⟩ := hx
    rw [step_executing hpc]
    exact h.returned hpc
  · cases hn : Runner.next cfg e.db e.handler now with
    | none =>
      rw [step_none (fun c hpc => hx ⟨c, hpc⟩) hn]
      exact h
    | some out =>
      obtain ⟨db', pc, out⟩ := out
      rw [step_next hn]
      exact h.next hn

theorem Stage.run (h : Stage i res base X e) (times : List Time) :
    Stage i res base X (Recovery.run cfg res e times) := by
  induction times generalizing e with
  | nil => exact h
  | cons now times ih => exact ih (h.step now)

/-! ### Whole executions -/

theorem Stage.working (h : Stage i res base X e) (hacks : e.handler.pc.acks = false) :
    e.handler.pc.working = true := by
  obtain ⟨-, h⟩ := h
  cases hpc : e.handler.pc <;> rw [hpc] at h hacks <;>
    first | rfl | exact False.elim h | cases hacks

theorem Stage.not_create (h : Stage i res base X e) (c : Claimed) (x : Promotion)
    (js : List JobId) : e.handler.pc ≠ .successCreate c x js := by
  intro hpc
  obtain ⟨-, h⟩ := h
  rw [hpc] at h
  exact h

/- An execution comes to its end, whatever the clock says. -/
theorem Stage.ends {e : Exec} (h : Stage i res base X e) :
    ∃ times, (Recovery.run cfg res e times).handler.pc.acks = true := by
  cases hacks : e.handler.pc.acks with
  | true => exact ⟨[], hacks⟩
  | false =>
    have hnear : Nearer (Recovery.step cfg res e 0).handler.pc e.handler.pc := by
      by_cases hx : ∃ c, e.handler.pc = .executing c
      · obtain ⟨c, hpc⟩ := hx
        rw [step_executing hpc, hpc, Runner.returned]
        split <;> exact nearer_of_stage (by simp [stage])
      · obtain ⟨⟨db', pc, out⟩, hn⟩ :=
          exists_next cfg e.db 0 (h.working hacks) (fun c hpc => hx ⟨c, hpc⟩) h.not_create
        rw [step_next hn]
        exact nearer_of_advance (advance_of_next hn)
    obtain ⟨times, hdone⟩ := (h.step 0).ends
    exact ⟨0 :: times, hdone⟩
termination_by (stage e.handler.pc, load e.handler.pc)
decreasing_by exact hnear

theorem Stage.effects (h : Stage i res base X e) (hacks : e.handler.pc.acks = true) :
    e.effects = base ++ X := by
  obtain ⟨-, h⟩ := h
  cases hpc : e.handler.pc <;> rw [hpc] at h hacks <;> first | exact h.1 | cases hacks

theorem stage_start {h : Handler} (hpc : h.pc = .claiming) (hr : db.runs.get h.runId = some r)
    (hg : claimable h.allowRunning r.status = true) (res : ExecResult) :
    ∃ X, Stage h.runId res [] X (start db h) := by
  obtain ⟨job, hmem, hid⟩ := db.run_fk r (Table.mem_of_get hr)
  have hjob : db.jobs.get r.jobId = some job := Table.get_eq_some.mpr ⟨hmem, hid⟩
  refine ⟨followUps db r job res, rfl, ?_⟩
  simp only [start, hpc, true_and]
  exact .inl ⟨r, job, hr, hg, hjob, rfl⟩

/- The second execution: on a running run it does everything once more, on a finished one
nothing. -/
theorem Live.stage_redeliver (h : Live e.db i res X c) (hi : e.handler.runId = i) (id : ℕ)
    (w : WorkerId) : Stage i res e.effects X (redeliver e id w) := by
  obtain ⟨r, job, hr, hst, hjob, -, -, -, -, hX⟩ := h
  exact ⟨hi, rfl, .inl ⟨r, job, hr, by rw [hst]; rfl, hjob, hX⟩⟩

theorem Over.stage_redeliver (h : Over e.db i) (hi : e.handler.runId = i) (id : ℕ)
    (w : WorkerId) : Stage i res e.effects [] (redeliver e id w) :=
  ⟨hi, rfl, .inr ⟨h, rfl⟩⟩

theorem perm_append_left_iff {xs ys : List Effect} : (xs ++ ys).Perm ys ↔ xs = [] := by
  rw [← List.nil_append ys, ← List.append_assoc, List.perm_append_right_iff, List.append_nil,
    List.perm_nil]

theorem perm_append_right_iff {xs ys : List Effect} : xs.Perm (xs ++ ys) ↔ ys = [] := by
  nth_rewrite 1 [← List.append_nil xs]
  rw [List.perm_append_left_iff, List.nil_perm]

/- What the redelivery of a crashed execution leads to. -/
theorem Stage.redeliver (h : Stage i res [] X e) (id : ℕ) (w : WorkerId) :
    ∃ Y, Stage i res e.effects Y (redeliver e id w) ∧ ((e.effects ++ Y).Perm X ↔ Benign e) := by
  obtain ⟨hi, h⟩ := h
  unfold Benign
  -- before any follow-up, the second execution makes all of them
  have hfresh : e.effects = [] → ((e.effects ++ X).Perm X ↔ True) := by
    intro heff
    rw [perm_append_left_iff]
    exact iff_true_intro heff
  generalize hpc : e.handler.pc = pc at h
  cases pc with
  | waiting | deleting | successCreate => exact False.elim h
  | claiming =>
    obtain ⟨heff, ⟨r, job, hr, hg, hjob, hX⟩ | ⟨hover, rfl⟩⟩ := h
    · have hg' : claimable true r.status = true := by
        rw [claimable, if_pos rfl, RunStatus.active_eq_not_terminal,
          RunTx.claimable_not_terminal hg]
        rfl
      exact ⟨X, ⟨hi, rfl, .inl ⟨r, job, hr, hg', hjob, hX⟩⟩, hfresh heff⟩
    · exact ⟨[], hover.stage_redeliver hi id w, hfresh heff⟩
  | executing c => exact ⟨X, h.2.stage_redeliver hi id w, hfresh h.1⟩
  | successCheck c res' | successFinish c res' | failureCheck c res' | failureRetry c res' =>
    exact ⟨X, h.2.1.stage_redeliver hi id w, hfresh h.1⟩
  | failureDelay c res' n =>
    obtain ⟨heff, hlive, -, hfail, hretry⟩ := h
    refine ⟨X, hlive.stage_redeliver hi id w, ?_⟩
    rw [perm_append_left_iff, heff, List.nil_append, hlive.failure hfail, if_pos hretry]
    exact iff_false_intro (List.cons_ne_nil _ _)
  | failureFinish c res' error =>
    obtain ⟨heff, hlive, rfl, hfail⟩ := h
    refine ⟨X, hlive.stage_redeliver hi id w, ?_⟩
    rw [perm_append_left_iff, heff, List.nil_append, hlive.failure hfail]
    cases hretry : willRetry c res' <;> simp [hretry]
  | successReady c =>
    obtain ⟨heff, hover, rfl⟩ := h
    refine ⟨[], hover.stage_redeliver hi id w, ?_⟩
    rw [heff, List.nil_append, List.nil_perm, List.map_eq_nil_iff]
  | successFan c js | successEnqueue c n js =>
    obtain ⟨heff, hover, -⟩ := h
    refine ⟨[], hover.stage_redeliver hi id w, ?_⟩
    rw [List.nil_append] at heff
    rw [← heff, List.append_nil, perm_append_right_iff, List.map_eq_nil_iff]
  | acking =>
    obtain ⟨heff, hover⟩ := h
    refine ⟨[], hover.stage_redeliver hi id w, ?_⟩
    rw [heff, List.append_nil, List.nil_append]
    exact iff_true_intro (.refl _)

/- Both executions end; and the crashed one, with its redelivery, has committed the follow-ups
of the other, each as often, exactly when the crash was benign. -/
theorem effects_perm_iff {h : Handler} (hpc : h.pc = .claiming)
    (hr : db.runs.get h.runId = some r) (hg : claimable h.allowRunning r.status = true)
    (cfg : Settings) (res : ExecResult) (crash : List Time) (id : ℕ) (w : WorkerId) :
    (∃ times, (run cfg res (start db h) times).handler.pc.acks = true) ∧
    (∃ times, (run cfg res (redeliver (run cfg res (start db h) crash) id w)
      times).handler.pc.acks = true) ∧
    ∀ alone after, (run cfg res (start db h) alone).handler.pc.acks = true →
      (run cfg res (redeliver (run cfg res (start db h) crash) id w) after).handler.pc.acks = true →
      ((run cfg res (redeliver (run cfg res (start db h) crash) id w) after).effects.Perm
        (run cfg res (start db h) alone).effects ↔ Benign (run cfg res (start db h) crash)) := by
  obtain ⟨X, hstart⟩ := stage_start hpc hr hg res
  have hcrash : Stage h.runId res [] X (run cfg res (start db h) crash) := hstart.run crash
  obtain ⟨Y, hagain, hiff⟩ := hcrash.redeliver id w
  refine ⟨hstart.ends, hagain.ends, fun alone after halone hafter => ?_⟩
  rw [(hstart.run alone).effects halone, (hagain.run after).effects hafter, List.nil_append]
  exact hiff

/-! ### A crash before and after the retry is created -/

instance (e : Exec) : Decidable (Benign e) := by
  unfold Benign
  split <;> infer_instance

def failing : ExecResult := { status := .failed, error := some "exit 1" }

/- The claim, the return of the executor, the check. -/
def untilCheck : List Time := [1, 2, 3]

/- And the retry. -/
def untilRetry : List Time := [1, 2, 3, 4]

def wholeExecution : List Time := [1, 2, 3, 4, 5, 6]

def claimableReport (db : Database) : Bool :=
  (db.runs.get 0).any fun r => claimable false r.status

theorem effects_perm_untilCheck : ∃ db r, queuedReport = some db ∧
    db.runs.get 0 = some r ∧ claimable false r.status = true ∧
    (run {} failing (start db firstDelivery) wholeExecution).effects = [.retry 0 2] ∧
    (run {} failing (redeliver (run {} failing (start db firstDelivery) untilCheck) 1 2)
      wholeExecution).effects.Perm
        (run {} failing (start db firstDelivery) wholeExecution).effects := by
  have hall : queuedReport.any (fun db => claimableReport db &&
      decide ((run {} failing (start db firstDelivery) wholeExecution).effects = [.retry 0 2]) &&
      (run {} failing (start db firstDelivery) wholeExecution).handler.pc.acks &&
      (run {} failing (redeliver (run {} failing (start db firstDelivery) untilCheck) 1 2)
        wholeExecution).handler.pc.acks &&
      decide (Benign (run {} failing (start db firstDelivery) untilCheck))) = true := by
    decide
  obtain ⟨db, hdb, hall⟩ := (Option.any_eq_true _ _).mp hall
  simp only [Bool.and_eq_true, decide_eq_true_eq] at hall
  obtain ⟨⟨⟨⟨hclaim, heff⟩, halone⟩, hafter⟩, hbenign⟩ := hall
  obtain ⟨r, hr, hg⟩ := (Option.any_eq_true _ _).mp hclaim
  have hiff := (effects_perm_iff rfl hr hg {} failing untilCheck 1 2).2.2 wholeExecution
    wholeExecution halone hafter
  exact ⟨db, r, hdb, hr, hg, heff, hiff.mpr hbenign⟩

/- The retry exists and the run is still running: the redelivery creates a second one. -/
theorem not_effects_perm : ¬ ∀ (cfg : Settings) (db : Database) (h : Handler) (r : JobRun)
    (res : ExecResult) (crash alone after : List Time) (id : ℕ) (w : WorkerId),
    h.pc = .claiming → db.runs.get h.runId = some r → claimable h.allowRunning r.status = true →
    (run cfg res (start db h) alone).handler.pc.acks = true →
    (run cfg res (redeliver (run cfg res (start db h) crash) id w) after).handler.pc.acks = true →
    (run cfg res (redeliver (run cfg res (start db h) crash) id w) after).effects.Perm
      (run cfg res (start db h) alone).effects := by
  intro hclaims
  have hall : queuedReport.any (fun db => claimableReport db &&
      decide ((run {} failing (start db firstDelivery) wholeExecution).effects = [.retry 0 2]) &&
      (run {} failing (start db firstDelivery) wholeExecution).handler.pc.acks &&
      (run {} failing (redeliver (run {} failing (start db firstDelivery) untilRetry) 1 2)
        wholeExecution).handler.pc.acks &&
      decide ((run {} failing (redeliver (run {} failing (start db firstDelivery) untilRetry) 1 2)
        wholeExecution).effects = [.retry 0 2, .retry 0 2])) = true := by
    decide
  obtain ⟨db, -, hall⟩ := (Option.any_eq_true _ _).mp hall
  simp only [Bool.and_eq_true, decide_eq_true_eq] at hall
  obtain ⟨⟨⟨⟨hclaim, heff⟩, halone⟩, hafter⟩, htwice⟩ := hall
  obtain ⟨r, hr, hg⟩ := (Option.any_eq_true _ _).mp hclaim
  have hperm := hclaims {} db firstDelivery r failing untilRetry wholeExecution wholeExecution
    1 2 rfl hr hg halone hafter
  rw [heff, htwice] at hperm
  exact absurd hperm.length_eq (by decide)

end JobScheduler.Recovery
