import JobScheduler.Worker.Transactions

/-!
# One handler of a worker (backend/worker/runner.py, `handle` of backend/worker/main.py)

A handler is cut at its awaits. Its program counter says which store call or Redis
command comes next and holds the local variables that are still read. `next` performs
that call on the committed tables; what the call sends to Redis is returned. `statement`
does the same with create_dependency_run cut at its statements, between which other
transactions commit.
-/

namespace JobScheduler
open Library Database Store

inductive Pc where
  | waiting
  | claiming
  | executing (claimed : Claimed)
  | successCheck (claimed : Claimed) (res : ExecResult)
  | successFinish (claimed : Claimed) (res : ExecResult)
  | successReady (claimed : Claimed)
  | successFan (claimed : Claimed) (dependents : List JobId)
  | successCreate (claimed : Claimed) (promotion : Promotion) (dependents : List JobId)
  | successEnqueue (claimed : Claimed) (newId : RunId) (dependents : List JobId)
  | failureCheck (claimed : Claimed) (res : ExecResult)
  | failureRetry (claimed : Claimed) (res : ExecResult)
  | failureDelay (claimed : Claimed) (res : ExecResult) (newId : RunId)
  | failureFinish (claimed : Claimed) (res : ExecResult) (error : Option String)
  | acking
  | deleting

structure Handler where
  id : ℕ
  worker : WorkerId
  messageId : ℕ
  runId : RunId
  allowRunning : Bool
  pc : Pc

instance : Keyed Handler := ⟨Handler.id⟩

@[simp] theorem key_handler (h : Handler) : Keyed.key h = h.id := rfl

/- What a call of process_run sends to Redis. -/
inductive Send where
  | enqueue (runId : RunId)
  | delay (runId : RunId) (readyAt : Time)

namespace Pc

/- Inside process_run. -/
def working : Pc → Bool
  | waiting | acking | deleting => false
  | _ => true

/- Done with the run, up to the acknowledgement. -/
def acks : Pc → Bool
  | acking => true
  | _ => false

/- The record of the claim that the handler still works on. -/
def claimed? : Pc → Option Claimed
  | executing c | successCheck c _ | successFinish c _ | successReady c | successFan c _
  | successCreate c _ _ | successEnqueue c _ _ | failureCheck c _ | failureRetry c _ | failureDelay c _ _
  | failureFinish c _ _ => some c
  | waiting | claiming | acking | deleting => none

/- Past a successful claim, and the outcome is not recorded yet. -/
def executes : Pc → Bool
  | executing _ | successCheck _ _ | successFinish _ _ | failureCheck _ _ | failureRetry _ _
  | failureDelay _ _ _ | failureFinish _ _ _ => true
  | _ => false

/- A run created by the handler that it has not sent to Redis yet. -/
def unsent? : Pc → Option RunId
  | successEnqueue _ i _ | failureDelay _ _ i => some i
  | _ => none

/- Past finish_run of a success, with the fan-out still to do. -/
def fansOut? : Pc → Option Claimed
  | successReady c | successFan c _ | successCreate c _ _ | successEnqueue c _ _ => some c
  | _ => none

/- The result that _on_failure is called with. -/
def fails? : Pc → Option ExecResult
  | failureCheck _ res | failureRetry _ res | failureDelay _ res _ | failureFinish _ res _ => some res
  | _ => none

/- Inside a transaction of create_dependency_run. -/
def promotion? : Pc → Option Promotion
  | successCreate _ x _ => some x
  | _ => none

/- The dependents that the handler found ready and has not dealt with. -/
def todo : Pc → List JobId
  | successFan _ js | successEnqueue _ _ js => js
  | successCreate _ x js => x.jobId :: js
  | _ => []

/- The handler may still promote a run of the job: it lists the job, or asks next which
dependents of one of its dependencies are ready. -/
def Offers (db : Database) (job : JobId) (pc : Pc) : Prop :=
  job ∈ pc.todo ∨ ∃ c, pc = .successReady c ∧ db.DependsOn job c.jobId

theorem fansOut?_of_todo {pc : Pc} {j : JobId} (h : j ∈ pc.todo) : ∃ c, pc.fansOut? = some c := by
  cases pc <;> first | exact ⟨_, rfl⟩ | cases h

theorem Offers.fansOut {db : Database} {job : JobId} {pc : Pc} (ho : pc.Offers db job) :
    ∃ c, pc.fansOut? = some c := by
  rcases ho with ho | ⟨c, rfl, -⟩
  · exact fansOut?_of_todo ho
  · exact ⟨c, rfl⟩

theorem Offers.mem_todo {db : Database} {job : JobId} {pc : Pc} (ho : pc.Offers db job)
    (hpc : ∀ c, pc ≠ .successReady c) : job ∈ pc.todo := by
  rcases ho with ho | ⟨c, hc, -⟩
  · exact ho
  · exact absurd hc (hpc c)

/- A handler that has dealt with another job offers this one as before. -/
theorem Offers.tail {db db' : Database} {job j : JobId} {js : List JobId} {pc pc' : Pc}
    (ho : pc.Offers db job) (hpc : pc.todo = j :: js) (hne : j ≠ job) (htodo : pc'.todo = js) :
    pc'.Offers db' job := by
  have hready : ∀ c, pc ≠ .successReady c := by
    rintro c rfl
    cases hpc
  have hmem := ho.mem_todo hready
  rw [hpc] at hmem
  rcases List.mem_cons.mp hmem with heq | hmem
  · exact absurd heq.symm hne
  · exact Or.inl (htodo ▸ hmem)

end Pc

namespace Runner

/- result.status in _RETRYABLE -/
def retryable : ExecStatus → Bool
  | .failed | .timedOut => true
  | .succeeded => false

/- The condition under which _on_failure creates a retry. -/
def willRetry (c : Claimed) (res : ExecResult) : Bool :=
  retryable res.status && shouldRetry c.attempt c.maxRetries

def retryError (cfg : Settings) (c : Claimed) (res : ExecResult) (newId : RunId) : String :=
  res.error.getD "None" ++ " (retry " ++ toString (c.attempt + 1) ++ "/" ++
    toString c.maxRetries ++ " scheduled in " ++
    toString (backoffSeconds cfg c.attempt c.retryBackoffSec) ++ "s as run " ++
    toString newId ++ ")"

/- What the statement a handler is about to make commits: its store call as a transaction, except
that the SELECTs of create_dependency_run commit nothing and its writing statement stands alone. -/
def tx (h : Handler) (now : Time) : Option RunTx :=
  match h.pc with
  | .claiming => some (.claimRun h.runId h.worker h.allowRunning now)
  | .successFinish c res => some (.finishRun c.runId { res with status := .succeeded } none now)
  | .successCreate _ x _ => x.tx now
  | .failureRetry c _ => some (.createRetryRun c.jobId (c.attempt + 1) now)
  | .failureFinish c res error => some (.finishRun c.runId res error now)
  | _ => none

/- The next call of process_run, _on_success or _on_failure. A call that raises ends the
handler's work: `handle` catches the exception and goes on to the acknowledgement. -/
def next (cfg : Settings) (db : Database) (h : Handler) (now : Time) :
    Option (Database × Pc × Option Send) :=
  match h.pc with
  | .claiming =>
    match claimRun db h.runId h.worker h.allowRunning now with
    | (db', none) => some (db', .acking, none)
    | (db', some c) => some (db', .executing c, none)
  | .successCheck c res =>
    some (db, if isRunCanceled db c.runId then .acking else .successFinish c res, none)
  | .successFinish c res =>
    some (finishRun db c.runId .succeeded res.exitCode res.result none now, .successReady c, none)
  | .successReady c => some (db, .successFan c (dependentsReady db c.jobId), none)
  | .successFan _ [] => some (db, .acking, none)
  | .successFan c (j :: js) =>
    match createDependencyRun db j now with
    | none => some (db, .acking, none)
    | some (db', none) => some (db', .successFan c js, none)
    | some (db', some i) => some (db', .successEnqueue c i js, none)
  | .successEnqueue c i js => some (db, .successFan c js, some (.enqueue i))
  | .failureCheck c res =>
    some (db,
      if isRunCanceled db c.runId then .acking
      else if retryable res.status && shouldRetry c.attempt c.maxRetries then .failureRetry c res
      else .failureFinish c res res.error, none)
  | .failureRetry c res =>
    match createRetryRun db c.jobId (c.attempt + 1) now with
    | none => some (db, .acking, none)
    | some (db', i) => some (db', .failureDelay c res i, none)
  | .failureDelay c res i =>
    some (db, .failureFinish c res (some (retryError cfg c res i)),
      some (.delay i (now + backoffSeconds cfg c.attempt c.retryBackoffSec * 1000000)))
  | .failureFinish c res error =>
    some (finishRun db c.runId res.status.runStatus res.exitCode res.result error now, .acking, none)
  | .waiting | .executing _ | .successCreate .. | .acking | .deleting => none

/- Where a statement of create_dependency_run leaves the handler. -/
def replied (c : Claimed) (js : List JobId) : Reply → Pc
  | .goesOn x => .successCreate c x js
  | .returned none => .successFan c js
  | .returned (some i) => .successEnqueue c i js
  | .raised => .acking

/- The next call, or inside create_dependency_run the next statement. -/
def statement (cfg : Settings) (db : Database) (h : Handler) (now : Time) :
    Option (Database × Pc × Option Send) :=
  match h.pc with
  | .successFan c (j :: js) => some (db, replied c js (firstStatement db j), none)
  | .successCreate c x js =>
    some ((nextStatement db now x).1, replied c js (nextStatement db now x).2, none)
  | _ => next cfg db h now

/- The pc after the executor has returned and its logs are flushed. -/
def returned (c : Claimed) (res : ExecResult) : Pc :=
  if res.succeeded then .successCheck c res else .failureCheck c res

/-! ### The calls one by one -/

/- How finely create_dependency_run is cut. -/
inductive Grain where
  | call
  | statement

/- `Advance cfg db now h g pc db' pc' send`: a handler at `pc` makes its call or statement. -/
inductive Advance (cfg : Settings) (db : Database) (now : Time) (h : Handler) :
    Grain → Pc → Database → Pc → Option Send → Prop where
  | refused {g : Grain} : (∀ r, db.runs.get h.runId = some r → claimable h.allowRunning r.status = false) →
      Advance cfg db now h g .claiming db .acking none
  | claimed {g : Grain} (r : JobRun) (job : Job) : db.runs.get h.runId = some r →
      claimable h.allowRunning r.status = true → db.jobs.get r.jobId = some job →
      Advance cfg db now h g .claiming
        (updateRun db h.runId (claimable h.allowRunning) (claimedRow h.worker now)
          (claimedRow_keeps h.worker now))
        (.executing (claimedOf (claimedRow h.worker now r) job)) none
  | successSkipped {g : Grain} (c : Claimed) (res : ExecResult) : isRunCanceled db c.runId = true →
      Advance cfg db now h g (.successCheck c res) db .acking none
  | successChecked {g : Grain} (c : Claimed) (res : ExecResult) : isRunCanceled db c.runId = false →
      Advance cfg db now h g (.successCheck c res) db (.successFinish c res) none
  | succeeded {g : Grain} (c : Claimed) (res : ExecResult) :
      Advance cfg db now h g (.successFinish c res)
        (finishRun db c.runId .succeeded res.exitCode res.result none now) (.successReady c) none
  | ready {g : Grain} (c : Claimed) :
      Advance cfg db now h g (.successReady c) db (.successFan c (dependentsReady db c.jobId)) none
  | fannedOut {g : Grain} (c : Claimed) : Advance cfg db now h g (.successFan c []) db .acking none
  | dependencyRaised (c : Claimed) (j : JobId) (js : List JobId) :
      createDependencyRun db j now = none →
      Advance cfg db now h .call (.successFan c (j :: js)) db .acking none
  | dependencySkipped (c : Claimed) (j : JobId) (js : List JobId) (db' : Database) :
      createDependencyRun db j now = some (db', none) →
      Advance cfg db now h .call (.successFan c (j :: js)) db' (.successFan c js) none
  | dependencyCreated (c : Claimed) (j : JobId) (js : List JobId) (db' : Database) (i : RunId) :
      createDependencyRun db j now = some (db', some i) →
      Advance cfg db now h .call (.successFan c (j :: js)) db' (.successEnqueue c i js) none
  | dependencyDispatched (c : Claimed) (j : JobId) (js : List JobId) :
      db.hasDispatchedRun j = true →
      Advance cfg db now h .statement (.successFan c (j :: js)) db (.successFan c js) none
  | dependencyChecked (c : Claimed) (j : JobId) (js : List JobId) :
      db.hasDispatchedRun j = false →
      Advance cfg db now h .statement (.successFan c (j :: js)) db
        (.successCreate c (.checked j) js) none
  | dependencyRead (c : Claimed) (j : JobId) (js : List JobId) (p : JobRun) :
      db.pendingRun j = some p →
      Advance cfg db now h .statement (.successCreate c (.checked j) js) db
        (.successCreate c (.read j p.id) js) none
  | dependencyAbsent (c : Claimed) (j : JobId) (js : List JobId) : db.pendingRun j = none →
      Advance cfg db now h .statement (.successCreate c (.checked j) js) db
        (.successCreate c (.absent j) js) none
  | dependencyPromoted (c : Claimed) (j : JobId) (p : RunId) (js : List JobId) (r : JobRun) :
      db.runs.get p = some r →
      Advance cfg db now h .statement (.successCreate c (.read j p) js) (promoteRun db p)
        (.successEnqueue c p js) none
  | dependencyGone (c : Claimed) (j : JobId) (p : RunId) (js : List JobId) :
      db.runs.get p = none →
      Advance cfg db now h .statement (.successCreate c (.read j p) js) db .acking none
  | dependencyInserted (c : Claimed) (j : JobId) (js : List JobId) (db' : Database) (i : RunId) :
      db.insertRun (dependencyRow j now) = some (db', i) →
      Advance cfg db now h .statement (.successCreate c (.absent j) js) db'
        (.successEnqueue c i js) none
  | dependencyRefused (c : Claimed) (j : JobId) (js : List JobId) :
      db.insertRun (dependencyRow j now) = none →
      Advance cfg db now h .statement (.successCreate c (.absent j) js) db .acking none
  | enqueued {g : Grain} (c : Claimed) (i : RunId) (js : List JobId) :
      Advance cfg db now h g (.successEnqueue c i js) db (.successFan c js) (some (.enqueue i))
  | failureSkipped {g : Grain} (c : Claimed) (res : ExecResult) : isRunCanceled db c.runId = true →
      Advance cfg db now h g (.failureCheck c res) db .acking none
  | retries {g : Grain} (c : Claimed) (res : ExecResult) : isRunCanceled db c.runId = false →
      Advance cfg db now h g (.failureCheck c res) db (.failureRetry c res) none
  | givesUp {g : Grain} (c : Claimed) (res : ExecResult) : isRunCanceled db c.runId = false →
      Advance cfg db now h g (.failureCheck c res) db (.failureFinish c res res.error) none
  | retryRaised {g : Grain} (c : Claimed) (res : ExecResult) :
      createRetryRun db c.jobId (c.attempt + 1) now = none →
      Advance cfg db now h g (.failureRetry c res) db .acking none
  | retryCreated {g : Grain} (c : Claimed) (res : ExecResult) (db' : Database) (i : RunId) :
      createRetryRun db c.jobId (c.attempt + 1) now = some (db', i) →
      Advance cfg db now h g (.failureRetry c res) db' (.failureDelay c res i) none
  | delayed {g : Grain} (c : Claimed) (res : ExecResult) (i : RunId) :
      Advance cfg db now h g (.failureDelay c res i) db
        (.failureFinish c res (some (retryError cfg c res i)))
        (some (.delay i (now + backoffSeconds cfg c.attempt c.retryBackoffSec * 1000000)))
  | failed {g : Grain} (c : Claimed) (res : ExecResult) (error : Option String) :
      Advance cfg db now h g (.failureFinish c res error)
        (finishRun db c.runId res.status.runStatus res.exitCode res.result error now) .acking none

theorem advance_of_next {cfg : Settings} {db : Database} {h : Handler} {now : Time}
    {out : Database × Pc × Option Send} (hn : next cfg db h now = some out) :
    Advance cfg db now h .call h.pc out.1 out.2.1 out.2.2 := by
  unfold next at hn
  cases hpc : h.pc with
  | waiting | executing _ | successCreate _ _ _ | acking | deleting =>
    rw [hpc] at hn
    cases hn
  | claiming =>
    simp only [hpc] at hn
    rcases claimRun_cases db h.runId h.worker h.allowRunning now with
      ⟨heq, hno⟩ | ⟨r, job, hr, hg, hjob, heq⟩
    · rw [heq] at hn
      cases hn
      exact .refused hno
    · rw [heq] at hn
      cases hn
      exact .claimed r job hr hg hjob
  | successCheck c res =>
    simp only [hpc] at hn
    cases hcan : isRunCanceled db c.runId <;> rw [hcan] at hn <;> cases hn
    · exact .successChecked c res hcan
    · exact .successSkipped c res hcan
  | successFinish c res =>
    simp only [hpc] at hn
    cases hn
    exact .succeeded c res
  | successReady c =>
    simp only [hpc] at hn
    cases hn
    exact .ready c
  | successFan c js =>
    cases js with
    | nil =>
      simp only [hpc] at hn
      cases hn
      exact .fannedOut c
    | cons j js =>
      simp only [hpc] at hn
      split at hn
      · rename_i hd
        cases hn
        exact .dependencyRaised c j js hd
      · rename_i db' hd
        cases hn
        exact .dependencySkipped c j js db' hd
      · rename_i db' i hd
        cases hn
        exact .dependencyCreated c j js db' i hd
  | successEnqueue c i js =>
    simp only [hpc] at hn
    cases hn
    exact .enqueued c i js
  | failureCheck c res =>
    simp only [hpc] at hn
    cases hcan : isRunCanceled db c.runId <;> rw [hcan] at hn
    · cases hretry : retryable res.status && shouldRetry c.attempt c.maxRetries <;>
        rw [hretry] at hn <;> cases hn
      · exact .givesUp c res hcan
      · exact .retries c res hcan
    · cases hn
      exact .failureSkipped c res hcan
  | failureRetry c res =>
    simp only [hpc] at hn
    split at hn
    · rename_i hd
      cases hn
      exact .retryRaised c res hd
    · rename_i db' i hd
      cases hn
      exact .retryCreated c res db' i hd
  | failureDelay c res i =>
    simp only [hpc] at hn
    cases hn
    exact .delayed c res i
  | failureFinish c res error =>
    simp only [hpc] at hn
    cases hn
    exact .failed c res error

/- Outside the fan-out the two grains are the same. -/
theorem Advance.coarse {cfg : Settings} {db db' : Database} {now : Time} {h : Handler} {g : Grain}
    {pc pc' : Pc} {out : Option Send} (hadv : Advance cfg db now h .call pc db' pc' out)
    (hpc : ∀ c j js, pc ≠ .successFan c (j :: js)) : Advance cfg db now h g pc db' pc' out := by
  cases hadv with
  | refused hno => exact .refused hno
  | claimed r job hr hg hjob => exact .claimed r job hr hg hjob
  | successSkipped c res hcan => exact .successSkipped c res hcan
  | successChecked c res hcan => exact .successChecked c res hcan
  | succeeded c res => exact .succeeded c res
  | ready c => exact .ready c
  | fannedOut c => exact .fannedOut c
  | dependencyRaised c j js hd => exact absurd rfl (hpc c j js)
  | dependencySkipped c j js db' hd => exact absurd rfl (hpc c j js)
  | dependencyCreated c j js db' i hd => exact absurd rfl (hpc c j js)
  | enqueued c i js => exact .enqueued c i js
  | failureSkipped c res hcan => exact .failureSkipped c res hcan
  | retries c res hcan => exact .retries c res hcan
  | givesUp c res hcan => exact .givesUp c res hcan
  | retryRaised c res hd => exact .retryRaised c res hd
  | retryCreated c res db' i hd => exact .retryCreated c res db' i hd
  | delayed c res i => exact .delayed c res i
  | failed c res error => exact .failed c res error

theorem advance_of_statement {cfg : Settings} {db : Database} {h : Handler} {now : Time}
    {out : Database × Pc × Option Send} (hn : statement cfg db h now = some out) :
    Advance cfg db now h .statement h.pc out.1 out.2.1 out.2.2 := by
  unfold statement at hn
  split at hn
  · rename_i c j js hpc
    rw [hpc]
    cases hn
    unfold firstStatement
    split
    · rename_i hd
      exact .dependencyDispatched c j js hd
    · rename_i hd
      exact .dependencyChecked c j js (Bool.eq_false_of_not_eq_true hd)
  · rename_i c x js hpc
    rw [hpc]
    cases hn
    cases x with
    | checked j =>
      simp only [nextStatement]
      split
      · rename_i p hp
        exact .dependencyRead c j js p hp
      · rename_i hp
        exact .dependencyAbsent c j js hp
    | read j p =>
      simp only [nextStatement]
      cases hp : db.runs.get p with
      | none => exact .dependencyGone c j p js hp
      | some r => exact .dependencyPromoted c j p js r hp
    | absent j =>
      simp only [nextStatement]
      split
      · rename_i hi
        exact .dependencyRefused c j js hi
      · rename_i db' i hi
        exact .dependencyInserted c j js db' i hi
  · rename_i hfan _
    exact (advance_of_next hn).coarse fun c j js heq => hfan c j js heq

theorem tx_of_statement_none {cfg : Settings} {db : Database} {h : Handler} {now : Time}
    (hn : statement cfg db h now = none) : tx h now = none := by
  unfold tx
  split
  · rename_i hpc
    simp only [statement, next, hpc] at hn
    split at hn <;> cases hn
  · rename_i hpc
    simp only [statement, next, hpc] at hn
    cases hn
  · rename_i hpc
    simp only [statement, hpc] at hn
    cases hn
  · rename_i hpc
    simp only [statement, next, hpc] at hn
    split at hn <;> cases hn
  · rename_i hpc
    simp only [statement, next, hpc] at hn
    cases hn
  · rfl

/- The SELECTs of create_dependency_run neither write nor send. -/
theorem Advance.goesOn {cfg : Settings} {db db' : Database} {now : Time} {h : Handler} {pc : Pc}
    {c : Claimed} {x : Promotion} {js : List JobId} {out : Option Send}
    (hadv : Advance cfg db now h .statement pc db' (.successCreate c x js) out) :
    db' = db ∧ out = none := by
  cases hadv <;> exact ⟨rfl, rfl⟩

theorem Advance.goesOn_claimed {cfg : Settings} {db db' : Database} {now : Time} {h : Handler}
    {pc : Pc} {c : Claimed} {x : Promotion} {js : List JobId} {out : Option Send}
    (hadv : Advance cfg db now h .statement pc db' (.successCreate c x js) out) :
    pc.claimed? = some c := by
  cases hadv <;> rfl

theorem tx_of_goesOn {cfg : Settings} {db db' : Database} {now : Time} {h : Handler}
    {c : Claimed} {x : Promotion} {js : List JobId} {out : Option Send}
    (hadv : Advance cfg db now h .statement h.pc db' (.successCreate c x js) out) :
    tx h now = none := by
  unfold tx
  generalize h.pc = pc at hadv
  cases hadv <;> rfl

/- The branch of _on_failure that a handler takes after the check. -/
theorem next_failureCheck {cfg : Settings} {db : Database} {h : Handler} {now : Time} {c : Claimed}
    {res : ExecResult} (hpc : h.pc = .failureCheck c res)
    (hcan : isRunCanceled db c.runId = false) :
    next cfg db h now = some (db,
      if willRetry c res then .failureRetry c res else .failureFinish c res res.error, none) := by
  simp [next, hpc, hcan, willRetry]

theorem willRetry_of_retries {cfg : Settings} {db : Database} {h : Handler} {now : Time}
    {c : Claimed} {res : ExecResult} (hpc : h.pc = .failureCheck c res)
    (hcan : isRunCanceled db c.runId = false)
    (hn : next cfg db h now = some (db, .failureRetry c res, none)) : willRetry c res = true := by
  rw [next_failureCheck hpc hcan] at hn
  by_contra hno
  rw [if_neg hno] at hn
  cases hn

theorem willRetry_of_givesUp {cfg : Settings} {db : Database} {h : Handler} {now : Time}
    {c : Claimed} {res : ExecResult} (hpc : h.pc = .failureCheck c res)
    (hcan : isRunCanceled db c.runId = false)
    (hn : next cfg db h now = some (db, .failureFinish c res res.error, none)) :
    willRetry c res = false := by
  rw [next_failureCheck hpc hcan] at hn
  by_contra hyes
  rw [if_pos (Bool.eq_true_of_not_eq_false hyes)] at hn
  cases hn

/- The statement of a handler commits the transaction `tx` names. -/
theorem Advance.exec {cfg : Settings} {db db' : Database} {now : Time} {h : Handler} {pc : Pc}
    {out : Option Send} (hadv : Advance cfg db now h .statement h.pc db' pc out)
    (cronNext : Cron.CronNext) :
    tx h now = none ∧ db' = db ∨
      ∃ tx', tx h now = some tx' ∧ db' = tx'.exec cronNext db := by
  unfold tx
  generalize h.pc = pc0 at hadv
  cases hadv with
  | refused hno =>
    refine Or.inr ⟨_, rfl, ?_⟩
    rw [RunTx.exec, claimRun_refused h.worker now hno]
  | claimed r job hr hg hjob =>
    refine Or.inr ⟨_, rfl, ?_⟩
    obtain ⟨job', -, heq⟩ := claimRun_granted h.worker now hr hg
    rw [RunTx.exec, heq]
  | succeeded c res => exact Or.inr ⟨_, rfl, rfl⟩
  | failed c res error => exact Or.inr ⟨_, rfl, rfl⟩
  | dependencyPromoted c j p js r hp =>
    refine Or.inr ⟨_, rfl, ?_⟩
    rw [RunTx.exec, hp]
    rfl
  | dependencyGone c j p js hp =>
    refine Or.inr ⟨_, rfl, ?_⟩
    rw [RunTx.exec, hp]
    rfl
  | dependencyInserted c j js db' i hi =>
    refine Or.inr ⟨_, rfl, ?_⟩
    rw [RunTx.exec, hi]
    rfl
  | dependencyRefused c j js hi =>
    refine Or.inr ⟨_, rfl, ?_⟩
    rw [RunTx.exec, hi]
    rfl
  | retryRaised c res hd =>
    refine Or.inr ⟨_, rfl, ?_⟩
    rw [RunTx.exec, hd]
    rfl
  | retryCreated c res db' i hd =>
    refine Or.inr ⟨_, rfl, ?_⟩
    rw [RunTx.exec, hd]
    rfl
  | _ => exact Or.inl ⟨rfl, rfl⟩

/-! ### The transaction and the program counter -/

/- finish_run is called with a success by _on_success, and with the executor's result by
_on_failure. -/
theorem tx_finishRun_cases {h : Handler} {now : Time} {i : RunId} {res : ExecResult}
    {error : Option String} {n : Time} (htx : tx h now = some (.finishRun i res error n)) :
    ∃ c, c.runId = i ∧ ((∃ res', h.pc = .successFinish c res' ∧ res.status = .succeeded) ∨
      h.pc = .failureFinish c res error) := by
  unfold tx at htx
  split at htx
  · cases htx
  · rename_i c res' hpc
    cases htx
    exact ⟨c, rfl, Or.inl ⟨res', hpc, rfl⟩⟩
  · rcases Promotion.tx_cases htx with ⟨p, heq⟩ | ⟨j, heq⟩ <;> cases heq
  · cases htx
  · rename_i c res' error' hpc
    cases htx
    exact ⟨c, rfl, Or.inr hpc⟩
  · cases htx

theorem tx_finishRun {h : Handler} {now : Time} {i : RunId} {res : ExecResult}
    {error : Option String} {n : Time} (htx : tx h now = some (.finishRun i res error n)) :
    h.pc.executes = true ∧ ∃ c, h.pc.claimed? = some c ∧ c.runId = i := by
  obtain ⟨c, hc, hpc⟩ := tx_finishRun_cases htx
  rcases hpc with ⟨res', hpc, -⟩ | hpc
  · rw [hpc]
    exact ⟨rfl, c, rfl, hc⟩
  · rw [hpc]
    exact ⟨rfl, c, rfl, hc⟩

theorem tx_claimRun {h : Handler} {now : Time} {i : RunId} {w : WorkerId} {allow : Bool} {n : Time}
    (htx : tx h now = some (.claimRun i w allow n)) :
    h.pc = .claiming ∧ h.runId = i ∧ h.allowRunning = allow := by
  unfold tx at htx
  split at htx
  · rename_i hpc
    cases htx
    exact ⟨hpc, rfl, rfl⟩
  · cases htx
  · rcases Promotion.tx_cases htx with ⟨p, heq⟩ | ⟨j, heq⟩ <;> cases heq
  · cases htx
  · cases htx
  · cases htx

/- The two statements that write in create_dependency_run. -/
theorem tx_promoteRun {h : Handler} {now : Time} {p : RunId}
    (htx : tx h now = some (.promoteRun p)) :
    ∃ c j js, h.pc = .successCreate c (.read j p) js := by
  unfold tx at htx
  split at htx
  · cases htx
  · cases htx
  · rename_i c x js hpc
    obtain ⟨j, rfl⟩ := Promotion.tx_promoteRun htx
    exact ⟨c, j, js, hpc⟩
  · cases htx
  · cases htx
  · cases htx

theorem tx_insertDependencyRun {h : Handler} {now : Time} {j : JobId} {n : Time}
    (htx : tx h now = some (.insertDependencyRun j n)) :
    ∃ c js, h.pc = .successCreate c (.absent j) js := by
  unfold tx at htx
  split at htx
  · cases htx
  · cases htx
  · rename_i c x js hpc
    exact ⟨c, js, by rw [hpc, Promotion.tx_insertDependencyRun htx]⟩
  · cases htx
  · cases htx
  · cases htx

/- A handler never makes the uninterrupted create_dependency_run. -/
theorem tx_ne_createDependencyRun (h : Handler) (now : Time) (j : JobId) (n : Time) :
    tx h now ≠ some (.createDependencyRun j n) := by
  intro htx
  unfold tx at htx
  split at htx
  · cases htx
  · cases htx
  · rcases Promotion.tx_cases htx with ⟨p, heq⟩ | ⟨j, heq⟩ <;> cases heq
  · cases htx
  · cases htx
  · cases htx

theorem tx_ne_scheduleDueJobs (h : Handler) (now n : Time) :
    tx h now ≠ some (.scheduleDueJobs n) := by
  intro htx
  unfold tx at htx
  split at htx
  · cases htx
  · cases htx
  · rcases Promotion.tx_cases htx with ⟨p, heq⟩ | ⟨j, heq⟩ <;> cases heq
  · cases htx
  · cases htx
  · cases htx

/-! ### The way to the acknowledgement -/

/- How far a handler is from its acknowledgement: the calls that remain, and in the fan-out the
dependents that remain. -/
def stage : Pc → ℕ
  | .waiting | .acking | .deleting => 0
  | .failureFinish _ _ _ => 1
  | .failureDelay _ _ _ => 2
  | .failureRetry _ _ => 3
  | .failureCheck _ _ => 4
  | .successFan _ _ | .successCreate _ _ _ | .successEnqueue _ _ _ => 5
  | .successReady _ => 6
  | .successFinish _ _ => 7
  | .successCheck _ _ => 8
  | .executing _ => 9
  | .claiming => 10

def load : Pc → ℕ
  | .successFan _ js => 4 * js.length
  | .successCreate _ (.checked _) js => 4 * js.length + 3
  | .successCreate _ _ js => 4 * js.length + 2
  | .successEnqueue _ _ js => 4 * js.length + 1
  | _ => 0

def Nearer (pc pc' : Pc) : Prop :=
  Prod.Lex (· < ·) (· < ·) (stage pc, load pc) (stage pc', load pc')

theorem nearer_of_stage {pc pc' : Pc} (h : stage pc < stage pc') : Nearer pc pc' :=
  Prod.Lex.left _ _ h

theorem nearer_of_advance {cfg : Settings} {db db' : Database} {now : Time} {pc pc' : Pc}
    {h : Handler} {g : Grain} {out : Option Send}
    (hadv : Advance cfg db now h g pc db' pc' out) : Nearer pc' pc := by
  cases hadv with
  | dependencySkipped _ _ _ _ _ | dependencyCreated _ _ _ _ _ _ | dependencyDispatched _ _ _ _
  | dependencyChecked _ _ _ _ | dependencyRead _ _ _ _ _ | dependencyAbsent _ _ _ _
  | dependencyPromoted _ _ _ _ _ _ | dependencyInserted _ _ _ _ _ _ | enqueued _ _ _ =>
    exact Prod.Lex.right _ (by simp only [load, List.length_cons]; omega)
  | _ => exact nearer_of_stage (by simp [stage])

/- A handler inside process_run has a next call, except while the executor works. -/
theorem exists_next {h : Handler} (cfg : Settings) (db : Database) (now : Time)
    (hw : h.pc.working = true) (hx : ∀ c, h.pc ≠ .executing c)
    (hp : ∀ c x js, h.pc ≠ .successCreate c x js) : ∃ out, next cfg db h now = some out := by
  unfold next
  cases hpc : h.pc with
  | waiting | acking | deleting =>
    rw [hpc] at hw
    cases hw
  | executing c => exact absurd hpc (hx c)
  | successCreate c x js => exact absurd hpc (hp c x js)
  | claiming =>
    dsimp only
    split <;> exact ⟨_, rfl⟩
  | successFan c js =>
    cases js with
    | nil => exact ⟨_, rfl⟩
    | cons j js =>
      dsimp only
      split <;> exact ⟨_, rfl⟩
  | failureRetry c res =>
    dsimp only
    split <;> exact ⟨_, rfl⟩
  | _ => exact ⟨_, rfl⟩

theorem exists_statement {h : Handler} (cfg : Settings) (db : Database) (now : Time)
    (hw : h.pc.working = true) (hx : ∀ c, h.pc ≠ .executing c) :
    ∃ out, statement cfg db h now = some out := by
  unfold statement
  split
  · exact ⟨_, rfl⟩
  · exact ⟨_, rfl⟩
  · rename_i _ hcreate
    exact exists_next cfg db now hw hx hcreate

end Runner
end JobScheduler
