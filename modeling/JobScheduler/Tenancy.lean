import JobScheduler.Api.Noninterference
import JobScheduler.Invariants
import JobScheduler.Scheduler.Pass

/-!
# Accounts in the whole system

The requests of all users interleaved with the steps of the workers and of the scheduler. A
worker writes what its handlers have read earlier: the job of a claimed run, the dependents
found ready. `InAccount` says that these belong to the account of the run, even after the run
has been deleted.
-/

namespace JobScheduler.Tenancy
open Library Database Schemas Api Crud Routes Tenants

/-! ### Transactions and owners -/

section
variable {cronNext : Cron.CronNext} {db : Database} {tx : RunTx}

/- No transaction gives a job to somebody else. -/
theorem job_of_exec {j : JobId} {job' : Job}
    (h : (tx.exec cronNext db).jobs.get j = some job') :
    ∃ job, db.jobs.get j = some job ∧ job.ownerUserId = job'.ownerUserId := by
  by_cases htx : ∃ now, tx = .scheduleDueJobs now
  · obtain ⟨now, rfl⟩ := htx
    have hsome : (db.jobs.get j).isSome = true := by
      rw [← (RunTx.effect_exec cronNext db (.scheduleDueJobs now)).jobIds j, h]
      rfl
    obtain ⟨job, hjob⟩ := Option.isSome_iff_exists.mp hsome
    have hid : job.id = j := Table.key_of_get hjob
    refine ⟨job, hjob, ?_⟩
    rw [RunTx.exec] at h
    split at h
    · rw [hjob] at h
      cases h
      rfl
    · rename_i out hout
      obtain ⟨tick, -, hpassed⟩ :=
        Scheduler.scheduleDueJobs_passedOn hout (Table.mem_of_get hjob)
      have hrow := hpassed.row
      rw [hid, h] at hrow
      cases hrow
      cases tick <;> rfl
  · rw [RunTx.exec_jobs fun now heq => htx ⟨now, heq⟩] at h
    exact ⟨job', h, rfl⟩

theorem persists_exec : Persists db (tx.exec cronNext db) := by
  have heff := RunTx.effect_exec cronNext db tx
  refine ⟨heff.jobsNext.ge, fun _ _ _ hj => job_of_exec hj, heff.next, ?_⟩
  intro i r' hi hr'
  cases hr : db.runs.get i with
  | none => exact absurd hi (Nat.not_lt.mpr (heff.new i r' hr' hr).1)
  | some r =>
    obtain ⟨r'', hr'', hrow⟩ := heff.row i r hr
    cases hr''.symm.trans hr'
    exact ⟨r, rfl, hrow.jobId.symm⟩

theorem ownerOf_exec (j : JobId) : ownerOf (tx.exec cronNext db) j = ownerOf db j := by
  unfold ownerOf
  cases hjob : (tx.exec cronNext db).jobs.get j with
  | none =>
    have hnone := (RunTx.effect_exec cronNext db tx).jobIds j
    rw [hjob, Option.isSome_none, eq_comm] at hnone
    rw [Option.isSome_eq_false_iff, Option.isNone_iff_eq_none] at hnone
    rw [hnone]
  | some job' =>
    obtain ⟨job, hget, howner⟩ := job_of_exec hjob
    rw [hget, Option.bind_some, Option.bind_some, howner]

theorem withinOwner_exec (h : WithinOwner db) : WithinOwner (tx.exec cronNext db) := by
  intro j k hjk
  rw [ownerOf_exec, ownerOf_exec]
  refine h j k ?_
  obtain ⟨d, hd, hj, hk⟩ := hjk
  rw [(RunTx.effect_exec cronNext db tx).dependencies] at hd
  exact ⟨d, hd, hj, hk⟩

/- The runs that a transaction writes: one row, or rows of one job. -/
def writes (r : JobRun) : RunTx → Prop
  | .claimRun i _ _ _ | .cancelRun i _ | .finishRun i _ _ _ | .promoteRun i => r.id = i
  | .createRun j _ _ _ _ _ | .createRetryRun j _ _ | .createDependencyRun j _
  | .insertDependencyRun j _ => r.jobId = j
  | .scheduleDueJobs _ => True

theorem writes_of_rowStep {r r' : JobRun} (h : RunTx.RowStep tx r r') : r' = r ∨ writes r tx := by
  cases h with
  | same => exact Or.inl rfl
  | _ => exact Or.inr rfl

theorem writes_of_adds {r : JobRun} (h : RunTx.Adds tx r) : writes r tx := by
  cases tx with
  | createRun _ _ _ _ _ _ | createRetryRun _ _ _ | createDependencyRun _ _
  | insertDependencyRun _ _ => exact h.1
  | scheduleDueJobs now => trivial
  | claimRun _ _ _ _ | cancelRun _ _ | finishRun _ _ _ _ | promoteRun _ => cases h

/- A transaction that writes runs of other accounts only. -/
theorem spares_exec {v : UserId} (htx : ∀ now, tx ≠ .scheduleDueJobs now)
    (h : ∀ r, r ∈ db.runs.rows ∨ RunTx.Adds tx r → writes r tx → ownerOf db r.jobId ≠ some v) :
    Spares v db (tx.exec cronNext db) := by
  have heff := RunTx.effect_exec cronNext db tx
  have hsame : ∀ q q', q ∈ db.runs.rows → RunTx.RowStep tx q q' →
      ownerOf db q.jobId = some v → q' = q := by
    intro q q' hq hstep howner
    rcases writes_of_rowStep hstep with heq | hwrites
    · exact heq
    · exact absurd howner (h q (Or.inl hq) hwrites)
  refine ⟨fun _ _ => by rw [RunTx.exec_jobs htx], fun _ _ => by rw [heff.dependencies], ?_⟩
  intro r howner
  constructor
  · intro hr
    have hget : (tx.exec cronNext db).runs.get r.id = some r := Table.get_of_mem hr
    cases hold : db.runs.get r.id with
    | none =>
      have hadds := (heff.new r.id r hget hold).2
      exact absurd howner (h r (Or.inr hadds) (writes_of_adds hadds))
    | some q =>
      obtain ⟨q', hq', hstep⟩ := heff.row r.id q hold
      cases hq'.symm.trans hget
      have hq : q ∈ db.runs.rows := Table.mem_of_get hold
      rw [hsame q r hq hstep (hstep.jobId ▸ howner)]
      exact hq
  · intro hr
    obtain ⟨r', hr', hstep⟩ := heff.row r.id r (Table.get_of_mem hr)
    rw [hsame r r' hr hstep howner] at hr'
    exact Table.mem_of_get hr'

end

/-! ### What a handler holds -/

/-- The id has been in use, and a job that still has it is owned by o. -/
def Only (db : Database) (o : Option UserId) (j : JobId) : Prop :=
  j < db.jobs.next ∧ ∀ job, db.jobs.get j = some job → job.ownerUserId = o

/-- What the handler has claimed and found ready belongs to the account of its run. -/
def InAccount (db : Database) (o : Option UserId) (h : Handler) : Prop :=
  ∀ c, h.pc.claimed? = some c → c.runId = h.runId ∧ h.runId < db.runs.next ∧
    Only db o c.jobId ∧ ∀ j ∈ h.pc.todo, Only db o j

/-- The pending run that a transaction of the handler has read is one of the job it is for. -/
def ReadsOwn (db : Database) (h : Handler) : Prop :=
  ∀ j p, h.pc.promotion? = some (.read j p) → p < db.runs.next ∧
    ∀ r, db.runs.get p = some r → r.jobId = j

section
variable {db db' : Database} {o : Option UserId} {j : JobId}

theorem Only.mono (h : Only db o j) (hp : Persists db db') : Only db' o j := by
  refine ⟨Nat.lt_of_lt_of_le h.1 hp.jobsNext, fun job' hjob' => ?_⟩
  obtain ⟨job, hjob, howner⟩ := hp.job j job' h.1 hjob'
  exact howner.symm.trans (h.2 job hjob)

theorem only_of_get {job : Job} (h : db.jobs.get j = some job) : Only db (ownerOf db j) j := by
  refine ⟨Table.lt_next_of_get h, fun job' hjob' => ?_⟩
  unfold ownerOf
  rw [hjob', Option.bind_some]

theorem Only.ownerOf_eq (h : Only db o j) {v : UserId} (hv : ownerOf db j = some v) :
    o = some v := by
  obtain ⟨job, hjob, hid, howner⟩ := ownerOf_eq_some.mp hv
  exact (h.2 job (Table.get_eq_some.mpr ⟨hjob, hid⟩)).symm.trans howner

/- The dependents of a job are jobs of its owner. -/
theorem Only.dependent (h : Only db o j) (hwithin : WithinOwner db) {k : JobId}
    (hk : db.DependsOn k j) : Only db o k := by
  have hedge := hwithin k j hk
  obtain ⟨d, hd, rfl, rfl⟩ := hk
  obtain ⟨⟨a, ha, haid⟩, b, hb, hbid⟩ := db.dependency_fk d hd
  have hgetb : db.jobs.get d.dependsOnJobId = some b := Table.get_eq_some.mpr ⟨hb, hbid⟩
  have howner : ownerOf db d.dependsOnJobId = o := by
    unfold ownerOf
    rw [hgetb, Option.bind_some]
    exact h.2 b hgetb
  have hgeta : db.jobs.get d.jobId = some a := Table.get_eq_some.mpr ⟨ha, haid⟩
  have honly := only_of_get hgeta
  rwa [hedge, howner] at honly

theorem ReadsOwn.mono {h : Handler} (hread : ReadsOwn db h) (hp : Persists db db') :
    ReadsOwn db' h := by
  intro j p hx
  obtain ⟨hlt, hjob⟩ := hread j p hx
  refine ⟨Nat.lt_of_lt_of_le hlt hp.runsNext, fun r' hr' => ?_⟩
  obtain ⟨r, hr, hrj⟩ := hp.runJob p r' hlt hr'
  rw [← hrj]
  exact hjob r hr

theorem InAccount.mono {h : Handler} (hin : InAccount db o h) (hp : Persists db db')
    {o' : Option UserId} (ho : h.runId < db.runs.next → o' = o) : InAccount db' o' h := by
  intro c hc
  obtain ⟨hrun, hlt, hjob, htodo⟩ := hin c hc
  rw [ho hlt]
  exact ⟨hrun, Nat.lt_of_lt_of_le hlt hp.runsNext, hjob.mono hp, fun j hj => (htodo j hj).mono hp⟩

end

/- The record of a claim is kept until the end, and its list is filled by dependents_ready. -/
theorem advance_record {cfg : Settings} {db db' : Database} {now : Time} {h : Handler}
    {g : Runner.Grain} {pc pc' : Pc} {out : Option Send}
    (hadv : Runner.Advance cfg db now h g pc db' pc' out) {c : Store.Claimed}
    (hc : pc'.claimed? = some c) :
    (pc.claimed? = some c ∧ ∀ j ∈ pc'.todo, j ∈ pc.todo ∨ db.DependsOn j c.jobId) ∨
      (pc'.todo = [] ∧ c.runId = h.runId ∧
        ∃ r, db'.runs.get h.runId = some r ∧ r.jobId = c.jobId) := by
  have htodo : pc.claimed? = some c → ∀ j ∈ pc'.todo, j ∈ pc.todo ∨ db.DependsOn j c.jobId := by
    intro hpc j hj
    rcases hadv.todo hj with hj | ⟨c', rfl, -, hready⟩
    · exact Or.inl hj
    · cases hpc
      exact Or.inr (Store.mem_dependentsReady.mp hready).1
  rcases hadv.claimed_record hc with hpc | hnew
  · exact Or.inl ⟨hpc, htodo hpc⟩
  · cases hadv with
    | claimed r job hr hg hjob => exact Or.inr ⟨rfl, hnew⟩
    | refused _ | successSkipped _ _ _ | fannedOut _ | dependencyRaised _ _ _ _
    | dependencyGone _ _ _ _ _ | dependencyRefused _ _ _ _ | failureSkipped _ _ _ | retryRaised _ _ _ | failed _ _ _ => cases hc
    | _ => exact Or.inl ⟨hc, htodo hc⟩

section
variable {cfg : Settings} {cronNext : Cron.CronNext} {s t : Sys} {l : JobScheduler.Label}

/- What a handler holds after its statement. -/
theorem advance_inAccount (hwithin : WithinOwner s.db) (hp : Persists s.db t.db)
    {account account' : RunId → Option UserId}
    (hold : ∀ i, i < s.db.runs.next → account' i = account i)
    (hrow : ∀ i r, t.db.runs.get i = some r → account' i = ownerOf t.db r.jobId) {d : Handler}
    (hd : InAccount s.db (account d.runId) d) {now : Time} {pc : Pc} {out : Option Send}
    (hadv : Runner.Advance cfg s.db now d .statement d.pc t.db pc out) :
    InAccount t.db (account' d.runId) (Sys.setPc pc d) := by
  intro c hc
  change pc.claimed? = some c at hc
  show c.runId = d.runId ∧ d.runId < t.db.runs.next ∧ Only t.db (account' d.runId) c.jobId ∧
    ∀ j ∈ pc.todo, Only t.db (account' d.runId) j
  rcases advance_record hadv hc with ⟨hc', htodo⟩ | ⟨hnil, hrun, r, hr, hj⟩
  · obtain ⟨hrun, hlt, hjob, hlist⟩ := (hd.mono hp (hold d.runId) : InAccount t.db _ d) c hc'
    refine ⟨hrun, hlt, hjob, fun j hj => ?_⟩
    rcases htodo j hj with hj | hdep
    · exact hlist j hj
    · obtain ⟨-, hlt', hjob', -⟩ := hd c hc'
      rw [hold d.runId hlt']
      exact (hjob'.dependent hwithin hdep).mono hp
  · obtain ⟨job, hjob, hid⟩ := t.db.run_fk r (Table.mem_of_get hr)
    have hget : t.db.jobs.get r.jobId = some job := Table.get_eq_some.mpr ⟨hjob, hid⟩
    rw [hrow d.runId r hr, hnil, ← hj]
    exact ⟨hrun, Table.lt_next_of_get hr, only_of_get hget,
      fun _ h => absurd h List.not_mem_nil⟩

/- What the handlers hold after a step of the workers or of the scheduler. -/
theorem trans_inAccount (h : Sys.Trans cfg cronNext s l t) (hwithin : WithinOwner s.db)
    (hp : Persists s.db t.db) {account account' : RunId → Option UserId}
    (hold : ∀ i, i < s.db.runs.next → account' i = account i)
    (hrow : ∀ i r, t.db.runs.get i = some r → account' i = ownerOf t.db r.jobId)
    (hs : ∀ k, s.Works k → InAccount s.db (account k.runId) k) {k : Handler} (hk : t.Works k) :
    InAccount t.db (account' k.runId) k := by
  rcases h.works hk with hk | hpc | ⟨d, hd, pc, rfl, hm⟩ | ⟨heq, d, hd, now, c, x, js, rfl, hadv⟩
  · exact (hs k hk).mono hp (hold k.runId)
  · intro c hc
    rw [hpc] at hc
    cases hc
  · have hin : InAccount t.db (account' d.runId) d := (hs d (Or.inl hd)).mono hp (hold d.runId)
    obtain ⟨db', hdb⟩ : ∃ db', db' = t.db := ⟨_, rfl⟩
    rw [← hdb] at hm
    cases hm with
    | acquire _ | fail _ | cancelTask _ _ | ack _ => exact fun c hc => by cases hc
    | advance now db' pc out hadv =>
      subst hdb
      exact advance_inAccount hwithin hp hold hrow (hs d (Or.inl hd)) hadv
    | executorReturns c' res hpc =>
      have hret : (Runner.returned c' res).claimed? = some c' ∧
          (Runner.returned c' res).todo = [] := by
        unfold Runner.returned
        split <;> exact ⟨rfl, rfl⟩
      intro c hc
      change (Runner.returned c' res).claimed? = some c at hc
      show c.runId = d.runId ∧ d.runId < t.db.runs.next ∧ Only t.db (account' d.runId) c.jobId ∧
        ∀ j ∈ (Runner.returned c' res).todo, Only t.db (account' d.runId) j
      rw [hret.1] at hc
      cases hc
      obtain ⟨hrun, hlt, hjob, -⟩ := hin c' (by rw [hpc]; rfl)
      rw [hret.2]
      exact ⟨hrun, hlt, hjob, fun _ h => absurd h List.not_mem_nil⟩
  · exact advance_inAccount hwithin hp hold hrow (hs d (Or.inr hd)) (by rw [heq]; exact hadv)

theorem trans_readsOwn (h : Sys.Trans cfg cronNext s l t) (hp : Persists s.db t.db)
    (hs : ∀ k, s.Works k → ReadsOwn s.db k) {k : Handler} (hk : t.Works k) :
    ReadsOwn t.db k := by
  have hread : ReadsOwn s.db k := by
    intro j p hx
    rcases h.read hk hx with ⟨d, hd, hx⟩ | ⟨r, hr, hj, -⟩
    · exact hs d hd j p hx
    · exact ⟨Table.lt_next_of_get hr, fun q hq => Option.some.inj (hr.symm.trans hq) ▸ hj⟩
  exact hread.mono hp

end

/-- The store call of a handler leaves the rows of the other accounts alone. -/
theorem handler_spares {cronNext : Cron.CronNext} {db : Database} {o : Option UserId} {v : UserId}
    {h : Handler} {now : Time} {tx : RunTx} (htx : Runner.tx h now = some tx)
    (hin : InAccount db o h) (hread : ReadsOwn db h)
    (hrun : ∀ r, db.runs.get h.runId = some r → o = ownerOf db r.jobId)
    (hv : o ≠ some v) : Spares v db (tx.exec cronNext db) := by
  -- the row that is claimed or finished is the run itself, and none is added
  have hitself : ∀ {i : RunId}, i = h.runId → ∀ r : JobRun, r ∈ db.runs.rows ∨ False →
      r.id = i → ownerOf db r.jobId ≠ some v := by
    intro i hi r hr hid
    rw [← hrun r (Table.get_eq_some.mpr ⟨hr.resolve_right id, hid.trans hi⟩)]
    exact hv
  have hother : ∀ {j : JobId}, Only db o j → ∀ r : JobRun, r.jobId = j →
      ownerOf db r.jobId ≠ some v := by
    intro j honly r hr howner
    rw [hr] at howner
    exact hv (honly.ownerOf_eq howner)
  refine spares_exec (fun n heq => Runner.tx_ne_scheduleDueJobs h now n (heq ▸ htx)) ?_
  unfold Runner.tx at htx
  split at htx
  · cases htx
    exact hitself rfl
  · rename_i c res hpc
    cases htx
    obtain ⟨hc, -⟩ := hin c (by rw [hpc]; rfl)
    exact hitself hc
  · rename_i c x js hpc
    obtain ⟨-, -, -, htodo⟩ := hin c (by rw [hpc]; rfl)
    rw [hpc] at htodo
    have honly : Only db o x.jobId := htodo x.jobId (List.mem_cons_self ..)
    cases x with
    | checked j => cases htx
    | read j p =>
      cases htx
      intro r hr hid
      -- the run that is promoted is the one that was read
      have hget : db.runs.get p = some r := Table.get_eq_some.mpr ⟨hr.resolve_right id, hid⟩
      exact hother honly r ((hread j p (by rw [hpc]; rfl)).2 r hget)
    | absent j =>
      cases htx
      exact fun r _ hwrites => hother honly r hwrites
  · rename_i c res hpc
    cases htx
    obtain ⟨-, -, hjob, -⟩ := hin c (by rw [hpc]; rfl)
    exact fun r _ hwrites => hother hjob r hwrites
  · rename_i c res error hpc
    cases htx
    obtain ⟨hc, -⟩ := hin c (by rw [hpc]; rfl)
    exact hitself hc
  · cases htx

/-! ### Logs -/

section
variable (t : Tables) (i : RunId) (entries : List (Time × String × String))

theorem db_appendLogs : (t.appendLogs i entries).db = t.db := by
  unfold Tables.appendLogs
  split <;> rfl

theorem mem_insertLogs_of_mem {logs : Table JobRunLog} {l : JobRunLog} (h : l ∈ logs.rows) :
    l ∈ (Tables.insertLogs logs i entries).rows := by
  induction entries generalizing logs with
  | nil => exact h
  | cons e es ih => exact ih (Table.mem_rows_insert.mpr (Or.inl h))

theorem rowsOf_appendLogs {v : UserId}
    (h : ∀ r, t.db.runs.get i = some r → ownerOf t.db r.jobId ≠ some v) :
    rowsOf (t.appendLogs i entries) v = rowsOf t v := by
  unfold Tables.appendLogs
  split
  · unfold rowsOf
    congr 1
    refine Table.filter_rows_congr fun l => and_congr_left fun hany => ?_
    refine ⟨fun hl => ?_, mem_insertLogs_of_mem i entries⟩
    rcases Tables.mem_insertLogs hl with hl | hl
    · exact hl
    · obtain ⟨r, hr, howner⟩ := (Option.any_eq_true _ _).mp hany
      rw [hl] at hr
      exact absurd (of_decide_eq_true howner) (h r hr)
  · rfl

end

/-! ### The machine -/

/- account: whose run it is. The entry of a run stays when the run is deleted. -/
structure State where
  sys : Sys
  logs : Table JobRunLog
  log_fk : ∀ l ∈ logs.rows, ∃ r ∈ sys.db.runs.rows, r.id = l.runId
  account : RunId → Option UserId

/- appendLogs is a flush of the log buffer of a handler, appendLogsThread one that was under way
when its task was canceled. -/
inductive Label where
  | request (user : UserId) (req : Routes.Request)
  | background (l : JobScheduler.Label)
  | appendLogs (handler : ℕ) (entries : List (Time × String × String))
  | appendLogsThread (thread : ℕ) (entries : List (Time × String × String))

/- The steps of the system that a request of a user stands for. -/
def ofApi : JobScheduler.Label → Bool
  | .trigger _ _ _ | .retryRun _ _ _ | .cancelRun _ _ _ | .editJobs _ _ | .deleteJob _ _ => true
  | _ => false

def executes : Pc → Bool
  | .executing _ => true
  | _ => false

def remember (db : Database) (account : RunId → Option UserId) (i : RunId) : Option UserId :=
  match db.runs.get i with
  | some r => ownerOf db r.jobId
  | none => account i

namespace State

def tables (s : State) : Tables := ⟨s.sys.db, s.logs, s.log_fk⟩

def commit (s : State) (sys : Sys) (t : Tables) (h : t.db = sys.db) : State where
  sys := sys
  logs := t.logs
  log_fk := by
    rw [← h]
    exact t.log_fk
  account := remember sys.db s.account

def start : State where
  sys := Sys.start emptyDatabase
  logs := Table.empty
  log_fk := fun _ h => absurd h List.not_mem_nil
  account := fun _ => none

/- The handler whose step it is. -/
def worker (s : State) : Label → Option Handler
  | .request _ _ => none
  | .background (.commitThread k _) => s.sys.detached[k]?
  | .background l => l.actor.bind fun i => s.sys.handlers.get i
  | .appendLogs i _ => s.sys.handlers.get i
  | .appendLogsThread k _ => s.sys.detached[k]?

end State

section
variable (isValid : String → Bool) (cfg : Settings) (cronNext : Cron.CronNext)

def step (s : State) : Label → Option State
  | .request u req =>
    let out := Routes.handle isValid s.tables u req
    some (s.commit
      { s.sys with
        db := out.tables.db
        outbox := s.sys.outbox ++ out.published
        cancels := s.sys.cancels ++ out.canceled.toList } out.tables rfl)
  | .background l =>
    if ofApi l then none
    else (s.sys.step cfg cronNext l).map fun sys => s.commit sys (s.tables.commit sys.db) rfl
  | .appendLogs i entries =>
    match s.sys.handlers.get i with
    | none => none
    | some h =>
      if executes h.pc then
        some (s.commit s.sys (s.tables.appendLogs h.runId entries) (db_appendLogs ..))
      else none
  | .appendLogsThread k entries =>
    match s.sys.detached[k]? with
    | none => none
    | some h =>
      if executes h.pc then
        some (s.commit { s.sys with detached := s.sys.detached.eraseIdx k }
          (s.tables.appendLogs h.runId entries) (db_appendLogs ..))
      else none

/-- What holds of the accounts in a state: the edges stay within them, a request writes rows of
its user only, a worker rows of the account whose run it processes, and what a user is answered
does not depend on the rows of another. -/
structure Isolated (s : State) : Prop where
  edges : ∀ j k, s.sys.db.DependsOn j k → ownerOf s.sys.db j = ownerOf s.sys.db k
  account : ∀ i r, s.sys.db.runs.get i = some r → s.account i = ownerOf s.sys.db r.jobId
  kept : ∀ l t i, step isValid cfg cronNext s l = some t → i < s.sys.db.runs.next →
    t.account i = s.account i
  request : ∀ u v req t, v ≠ u → step isValid cfg cronNext s (.request u req) = some t →
    rowsOf t.tables v = rowsOf s.tables v
  worker : ∀ l h t v, s.worker l = some h → step isValid cfg cronNext s l = some t →
    s.account h.runId ≠ some v → rowsOf t.tables v = rowsOf s.tables v
  response : ∀ u v req (t : Tables), v ≠ u → (∀ w, w ≠ v → rowsOf s.tables w = rowsOf t w) →
    SameResponse s.tables t (Routes.handle isValid s.tables u req).response
      (Routes.handle isValid t u req).response

end

/-! ### The invariant -/

structure Inv (s : State) : Prop where
  within : WithinOwner s.sys.db
  account : ∀ i r, s.sys.db.runs.get i = some r → s.account i = ownerOf s.sys.db r.jobId
  handlers : ∀ h, s.sys.Works h → InAccount s.sys.db (s.account h.runId) h
  read : ∀ h, s.sys.Works h → ReadsOwn s.sys.db h

theorem remember_of_get {db : Database} {account : RunId → Option UserId} {i : RunId} {r : JobRun}
    (h : db.runs.get i = some r) : remember db account i = ownerOf db r.jobId := by
  unfold remember
  rw [h]

theorem remember_of_lt {db db' : Database} {account : RunId → Option UserId}
    (haccount : ∀ i r, db.runs.get i = some r → account i = ownerOf db r.jobId)
    (hp : Persists db db') {i : RunId} (hi : i < db.runs.next) :
    remember db' account i = account i := by
  unfold remember
  cases hr' : db'.runs.get i with
  | none => rfl
  | some r' =>
    obtain ⟨r, hr, hjob⟩ := hp.runJob i r' hi hr'
    obtain ⟨job', hjob', hid'⟩ := db'.run_fk r' (Table.mem_of_get hr')
    obtain ⟨old, hold, hidold⟩ := db.run_fk r (Table.mem_of_get hr)
    have hget' : db'.jobs.get r'.jobId = some job' := Table.get_eq_some.mpr ⟨hjob', hid'⟩
    have hlt : r'.jobId < db.jobs.next := by
      rw [← hjob, ← hidold]
      exact db.jobs.fresh old hold
    obtain ⟨job, hget, howner⟩ := hp.job r'.jobId job' hlt hget'
    dsimp only
    rw [haccount i r hr, hjob]
    unfold ownerOf
    rw [hget, hget', Option.bind_some, Option.bind_some, howner]

section
variable {isValid : String → Bool} {cfg : Settings} {cronNext : Cron.CronNext} {s t : State}

/- The tables after a step of the workers or of the scheduler. -/
theorem trans_db {s t : Sys} {l : JobScheduler.Label} (h : Sys.Trans cfg cronNext s l t)
    (hl : ofApi l = false) :
    t.db = s.db ∨ ∃ tx, l.tx s = some tx ∧ t.db = tx.exec cronNext s.db := by
  cases h with
  | trigger _ _ _ _ _ _ | retryRun _ _ _ _ _ _ _ _ _ | cancelRun _ _ _ _ _ _ | editJobs _ _ _ _
  | deleteJob _ _ => cases hl
  | tick now db' ids hok =>
    refine Or.inr ⟨.scheduleDueJobs now, rfl, ?_⟩
    rw [RunTx.exec, hok]
  | advance hd now db' pc out hget hadv =>
    rcases hadv.exec cronNext with ⟨-, rfl⟩ | ⟨tx, htx, rfl⟩
    · exact Or.inl (by simp)
    · exact Or.inr ⟨tx, (Sys.Trans.tx_advance hget now).trans htx, by simp⟩
  | commitThread k now hd db' hk hdb =>
    rcases hdb with ⟨rfl, -⟩ | ⟨tx, htx, rfl⟩
    · exact Or.inl rfl
    · refine Or.inr ⟨tx, ?_, rfl⟩
      show (s.detached[k]?.bind fun h => Runner.tx h now) = some tx
      rw [hk, Option.bind_some, htx]
  | _ => exact Or.inl (by simp [Sys.setPhase, Sys.spawn, Sys.remove])

theorem trans_persists {s t : Sys} {l : JobScheduler.Label} (h : Sys.Trans cfg cronNext s l t)
    (hl : ofApi l = false) (hwithin : WithinOwner s.db) :
    Persists s.db t.db ∧ WithinOwner t.db := by
  rcases trans_db h hl with hdb | ⟨tx, -, hdb⟩
  · rw [hdb]
    exact ⟨Persists.refl _, hwithin⟩
  · rw [hdb]
    exact ⟨persists_exec, withinOwner_exec hwithin⟩

theorem confined_persists {u : UserId} {t : Tables} {out : Reply} (h : Confined u t out)
    (hwithin : WithinOwner t.db) : Persists t.db out.tables.db ∧ WithinOwner out.tables.db := by
  rcases h with heq | ⟨db', heq, hchange⟩
  · rw [heq]
    exact ⟨Persists.refl _, hwithin⟩
  · rw [heq]
    exact ⟨hchange.persists, hchange.within⟩

/- A flush commits log lines only. -/
theorem step_appendLogs {l : Label} (k : ℕ) (entries : List (Time × String × String))
    (hl : l = .appendLogs k entries ∨ l = .appendLogsThread k entries)
    (h : step isValid cfg cronNext s l = some t) :
    ∃ d sys hdb, s.worker l = some d ∧ t = s.commit sys (s.tables.appendLogs d.runId entries) hdb ∧
      sys.db = s.sys.db ∧ ∀ k, sys.Works k → s.sys.Works k := by
  rcases hl with rfl | rfl
  · simp only [step] at h
    split at h
    · cases h
    · rename_i d hget
      split at h
      · cases h
        exact ⟨d, s.sys, db_appendLogs .., hget, rfl, rfl, fun _ hd => hd⟩
      · cases h
  · simp only [step] at h
    split at h
    · cases h
    · rename_i d hget
      split at h
      · cases h
        refine ⟨d, { s.sys with detached := s.sys.detached.eraseIdx k }, db_appendLogs .., hget,
          rfl, rfl, fun k hk => ?_⟩
        exact hk.imp_right List.mem_of_mem_eraseIdx
      · cases h

theorem step_background {l : JobScheduler.Label}
    (h : step isValid cfg cronNext s (.background l) = some t) :
    ofApi l = false ∧ ∃ sys, Sys.Trans cfg cronNext s.sys l sys ∧
      t = s.commit sys (s.tables.commit sys.db) rfl := by
  simp only [step] at h
  split at h
  · cases h
  · rename_i hl
    obtain ⟨sys, hsys, rfl⟩ := Option.map_eq_some_iff.mp h
    exact ⟨Bool.eq_false_of_not_eq_true hl, sys, Sys.trans_of_step hsys, rfl⟩

theorem step_persists {l : Label} (hs : Inv s) (h : step isValid cfg cronNext s l = some t) :
    Persists s.sys.db t.sys.db ∧ WithinOwner t.sys.db ∧
      t.account = remember t.sys.db s.account := by
  cases l with
  | request u req =>
    cases h
    have hconfined : Confined u s.tables (Routes.handle isValid s.tables u req) :=
      handle_confined isValid req hs.within
    obtain ⟨hp, hwithin⟩ := confined_persists hconfined hs.within
    exact ⟨hp, hwithin, rfl⟩
  | background l =>
    obtain ⟨hl, sys, htrans, rfl⟩ := step_background h
    obtain ⟨hp, hwithin⟩ := trans_persists htrans hl hs.within
    exact ⟨hp, hwithin, rfl⟩
  | appendLogs k entries | appendLogsThread k entries =>
    obtain ⟨d, sys, hdb, -, rfl, heq, -⟩ := step_appendLogs k entries (by simp) h
    show Persists s.sys.db sys.db ∧ WithinOwner sys.db ∧ _
    rw [heq]
    exact ⟨Persists.refl _, hs.within, rfl⟩

theorem Inv.step {l : Label} (hs : Inv s) (h : step isValid cfg cronNext s l = some t) : Inv t := by
  obtain ⟨hp, hwithin, haccount⟩ := step_persists hs h
  have hold : ∀ i, i < s.sys.db.runs.next → t.account i = s.account i := by
    intro i hi
    rw [haccount]
    exact remember_of_lt hs.account hp hi
  have hrow : ∀ i r, t.sys.db.runs.get i = some r → t.account i = ownerOf t.sys.db r.jobId := by
    intro i r hr
    rw [haccount]
    exact remember_of_get hr
  have hworks : (∀ k, t.sys.Works k → s.sys.Works k) → Inv t := fun hk =>
    ⟨hwithin, hrow, fun k hw => (hs.handlers k (hk k hw)).mono hp (hold k.runId),
      fun k hw => (hs.read k (hk k hw)).mono hp⟩
  cases l with
  | request u req =>
    cases h
    exact hworks fun _ hk => hk
  | background l =>
    obtain ⟨-, sys, htrans, rfl⟩ := step_background h
    exact ⟨hwithin, hrow, fun k hk => trans_inAccount htrans hs.within hp hold hrow hs.handlers hk,
      fun k hk => trans_readsOwn htrans hp hs.read hk⟩
  | appendLogs k entries | appendLogsThread k entries =>
    obtain ⟨d, sys, hdb, -, rfl, -, hsys⟩ := step_appendLogs k entries (by simp) h
    exact hworks hsys

/-! ### Who writes what -/

theorem tables_commit {sys : Sys} {tables : Tables} (h : tables.db = sys.db) :
    (s.commit sys tables h).tables = tables := by
  obtain ⟨db, logs, hfk⟩ := tables
  cases h
  rfl

theorem rowsOf_request (hs : Inv s) {u v : UserId} {req : Routes.Request} (hv : v ≠ u)
    (h : step isValid cfg cronNext s (.request u req) = some t) :
    rowsOf t.tables v = rowsOf s.tables v := by
  cases h
  rw [tables_commit]
  exact (handle_confined isValid req hs.within).rowsOf hv

/- The transaction of a step that a handler takes. -/
theorem tx_of_worker {l : JobScheduler.Label} {k : Handler} {tx : RunTx}
    (hk : s.worker (.background l) = some k) (htx : l.tx s.sys = some tx) :
    s.sys.Works k ∧ ∃ now, Runner.tx k now = some tx := by
  cases l with
  | advance i now =>
    have hget : s.sys.handlers.get i = some k := hk
    obtain ⟨d, hd, htx⟩ := Option.bind_eq_some_iff.mp htx
    cases hget.symm.trans hd
    exact ⟨Or.inl (Table.mem_of_get hget), now, htx⟩
  | commitThread i now =>
    have hget : s.sys.detached[i]? = some k := hk
    obtain ⟨d, hd, htx⟩ := Option.bind_eq_some_iff.mp htx
    cases hget.symm.trans hd
    exact ⟨Or.inr (List.mem_of_getElem? hget), now, htx⟩
  | retryRun _ _ _ | cancelRun _ _ _ | tick _ => cases hk
  | _ => cases htx

theorem rowsOf_worker (hs : Inv s) {l : Label} {k : Handler} {v : UserId}
    (hk : s.worker l = some k) (h : step isValid cfg cronNext s l = some t)
    (hv : s.account k.runId ≠ some v) : rowsOf t.tables v = rowsOf s.tables v := by
  cases l with
  | request u req => cases hk
  | background l =>
    obtain ⟨hl, sys, htrans, rfl⟩ := step_background h
    refine (congrArg (fun x => rowsOf x v) (tables_commit _)).trans (Spares.rowsOf_commit ?_)
    show Spares v s.sys.db sys.db
    rcases trans_db htrans hl with hdb | ⟨tx, htx, hdb⟩
    · rw [hdb]
      exact Spares.refl v _
    · obtain ⟨hworks, now, hktx⟩ := tx_of_worker hk htx
      rw [hdb]
      exact handler_spares hktx (hs.handlers k hworks) (hs.read k hworks) (hs.account k.runId) hv
  | appendLogs i entries | appendLogsThread i entries =>
    obtain ⟨d, sys, hdb, hd, rfl, -, -⟩ := step_appendLogs i entries (by simp) h
    cases hk.symm.trans hd
    rw [tables_commit]
    refine rowsOf_appendLogs s.tables k.runId entries fun r hr => ?_
    rw [show ownerOf s.tables.db r.jobId = _ from (hs.account k.runId r hr).symm]
    exact hv

theorem Inv.isolated (hs : Inv s) : Isolated isValid cfg cronNext s where
  edges := hs.within
  account := hs.account
  kept := by
    intro l t i h hi
    obtain ⟨hp, -, haccount⟩ := step_persists hs h
    rw [haccount]
    exact remember_of_lt hs.account hp hi
  request := fun _ _ _ _ hv h => rowsOf_request hs hv h
  worker := fun _ _ _ _ hk h hv => rowsOf_worker hs hk h hv
  response := fun u _ req _ hv hdiffer =>
    handle_same isValid (hdiffer u hv.symm) hs.within req

theorem inv_start : Inv State.start where
  within := by
    rintro j k ⟨d, hd, -, -⟩
    exact absurd hd List.not_mem_nil
  account := by
    intro i r hr
    exact absurd (Table.mem_of_get hr) List.not_mem_nil
  handlers := fun k hk => absurd hk (Sys.not_works_start _ k)
  read := fun k hk => absurd hk (Sys.not_works_start _ k)

end

/-- In every run of the system that starts with empty tables, whatever the users request and in
whatever order workers and scheduler take their steps, the accounts are isolated in every state. -/
theorem accounts_isolated (isValid : String → Bool) (cfg : Settings) (cronNext : Cron.CronNext)
    (ls : List Label) : Machine.Visits (step isValid cfg cronNext)
      (Isolated isValid cfg cronNext) State.start ls :=
  Machine.visits_of_invariant (fun _ _ _ hs _ h => hs.step h) (fun _ hs => hs.isolated) inv_start
    (Machine.along_true _ _)

/- Both users name job 0 as a dependency; it is the job of the first one. -/
example :
    let shell (name : String) (dependsOn : List ℤ) : JobRecord :=
      { name := some name, taskType := some "shell", dependsOn := some dependsOn,
        taskSpec := some [("command", .string "true")] }
    (Machine.run (step (fun _ => true) {} Cron.noCron) State.start
      [.request 1 (.createJob (shell "extract" []) 0), .request 1 (.createJob (shell "load" [0]) 1),
        .request 2 (.createJob (shell "spy" [0]) 2), .request 2 (.triggerJob 0 3),
        .request 1 (.triggerJob 1 4), .background (.publish 0), .background (.poll 0),
        .background (.reclaimed 0), .background (.deliver 0), .background (.acquire 0),
        .background (.advance 0 5), .appendLogs 0 [(6, "stdout", "done")]]).map (fun s =>
      ((rowsOf s.tables 1).runs.map JobRun.status, (rowsOf s.tables 1).logs.length,
        (rowsOf s.tables 2).jobs.length)) = some ([.running, .pending], 1, 0) := by
  decide

end JobScheduler.Tenancy
