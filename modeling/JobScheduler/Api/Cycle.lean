import Mathlib.Logic.Relation
import JobScheduler.Api.Created
import JobScheduler.Common.Session

/-!
# Cycle detection of a trigger

`_prepare_trigger_run` is a depth-first search: a job is on the path when it is on the
stack and finished when it has an active run, which the search itself has written or found.
It raises 409 exactly when a cycle of jobs without an active run can be reached. The
request is taken statement by statement, on tables that keep what was flushed before the
exception until `get_session` rolls them back.
-/

namespace JobScheduler.Api
open Library Database Relation

/-- An edge into a job without an active run. -/
def IdleEdge (db : Database) (u v : JobId) : Prop :=
  db.DependsOn u v ∧ ¬ db.HasRun v RunStatus.active

/-- A cycle of jobs without an active run is reached from j along such jobs. -/
def ReachesIdleCycle (db : Database) (j : JobId) : Prop :=
  ∃ v, Opened db j v ∧ TransGen (IdleEdge db) v v

/-! ### The error means a cycle -/

/- Along the recursion every job on the stack leads to the current one. -/
theorem reachesIdleCycle_of_error {now : Time} {db : Database} {root : JobId} {code : ℕ}
    {detail : String} :
    ∀ (fuel : ℕ) (st : Prepared) (job : JobId) (tt : TriggerType) (stack : List JobId),
      db.Extends (fun _ => True) st.1 → (∀ u ∈ stack, TransGen (IdleEdge db) u job) →
      Opened db root job →
      prepareTriggerRun now fuel st job tt stack = .error (.httpException code detail) →
      ReachesIdleCycle db root := by
  intro fuel
  induction fuel with
  | zero =>
    intro st job tt stack _ _ _ h
    cases h
  | succ fuel ih =>
    intro st job tt stack hext hstack hopen h
    rcases prepareTriggerRun_error h with ⟨hmem, -⟩ | ⟨he, -⟩ | ⟨-, mid, d, hd, hmid, hidle, hp⟩
    · exact ⟨job, hopen, hstack job hmem⟩
    · cases he
    · have hext' := hext.trans hmid
      have hedge : IdleEdge db job d :=
        ⟨hext.dependsOn.mp hd, fun hrun => hidle (hext'.hasRun hrun)⟩
      refine ih mid d .dependency (stack ++ [job]) hext' ?_ (.step hopen hedge.1 hedge.2) hp
      intro u hu
      rcases List.mem_append.mp hu with hu | hu
      · exact (hstack u hu).tail hedge
      · rw [List.mem_singleton.mp hu]
        exact .single hedge

/-! ### A cycle means the error -/

section
variable {db : Database} {j : JobId} {st : Prepared} {i : RunId}

/- Every idle job that is opened has got a run. -/
theorem exists_newRunAt (hp : Prepares j [] db st.1 i) (ho : Orders (db, []) st) {v : JobId}
    (hv : Opened db j v) (hidle : ¬ db.HasRun v RunStatus.active) :
    ∃ k r, NewRunAt db st.1 k r ∧ r.jobId = v := by
  refine newRunAt_of_idle ho hidle ?_
  cases hv with
  | refl => exact hp.returned.hasRun
  | step hu hd _ => exact active_of_opened hp ho hu hd

/- Along a path of idle jobs the runs were created backwards. -/
theorem newRunAt_decreasing (hp : Prepares j [] db st.1 i) (ho : Orders (db, []) st) {u v : JobId}
    (hu : Opened db j u) {k : RunId} {r : JobRun} (hr : NewRunAt db st.1 k r) (hru : r.jobId = u)
    (h : TransGen (IdleEdge db) u v) :
    Opened db j v ∧ ∃ m q, NewRunAt db st.1 m q ∧ q.jobId = v ∧ m < k := by
  induction h with
  | single hedge =>
    have hv : Opened db j _ := .step hu hedge.1 hedge.2
    obtain ⟨m, q, hq, hqj⟩ := exists_newRunAt hp ho hv hedge.2
    exact ⟨hv, m, q, hq, hqj, before_of_dependsOn hp ho hr hq (by rw [hru, hqj]; exact hedge.1)⟩
  | tail _ hedge ih =>
    obtain ⟨hw, m, q, hq, hqj, hlt⟩ := ih
    have hv : Opened db j _ := .step hw hedge.1 hedge.2
    obtain ⟨n, p, hp', hpj⟩ := exists_newRunAt hp ho hv hedge.2
    refine ⟨hv, n, p, hp', hpj, Nat.lt_trans ?_ hlt⟩
    exact before_of_dependsOn hp ho hq hp' (by rw [hqj, hpj]; exact hedge.1)

theorem not_reachesIdleCycle (hp : Prepares j [] db st.1 i) (ho : Orders (db, []) st) :
    ¬ ReachesIdleCycle db j := by
  rintro ⟨v, hv, hcycle⟩
  have hidle : ¬ db.HasRun v RunStatus.active := by
    cases hcycle with
    | single hedge => exact hedge.2
    | tail _ hedge => exact hedge.2
  obtain ⟨k, r, hr, hrj⟩ := exists_newRunAt hp ho hv hidle
  obtain ⟨-, m, q, hq, hqj, hlt⟩ := newRunAt_decreasing hp ho hv hr hrj hcycle
  have heq := hp.opens.once m q k r hq hr (hqj.trans hrj.symm)
  exact absurd heq (Nat.ne_of_lt hlt)

end

/-! ### No other error -/

/- The foreign key holds along the edges, and the runs of a trigger have no tick. -/
theorem prepareTriggerRun_ne_integrityError {now : Time} :
    ∀ (fuel : ℕ) (st : Prepared) (job : JobId) (tt : TriggerType) (stack : List JobId),
      (st.1.jobs.get job).isSome = true →
      prepareTriggerRun now fuel st job tt stack ≠ .error .integrityError := by
  intro fuel
  induction fuel with
  | zero =>
    intro st job tt stack _ h
    cases h
  | succ fuel ih =>
    intro st job tt stack hjob h
    rcases prepareTriggerRun_error h with ⟨-, he⟩ | ⟨-, db, status, hext, hno⟩ |
      ⟨-, mid, d, hd, hext, -, hp⟩
    · cases he
    · refine hno ⟨?_, fun _ _ _ _ => rfl⟩
      exact isSome_get_jobs.mp (hext.jobIds job ▸ hjob)
    · refine ih mid d .dependency (stack ++ [job]) ?_ hp
      rw [hext.jobIds]
      obtain ⟨e, he, -, hed⟩ := hd
      obtain ⟨-, k, hk, hkd⟩ := st.1.dependency_fk e he
      exact isSome_get_jobs.mpr ⟨k, hk, hkd.trans hed⟩

theorem prepareTriggerRun_error_kind {now : Time} :
    ∀ (fuel : ℕ) (st : Prepared) (job : JobId) (tt : TriggerType) (stack : List JobId)
      (e : ApiError), prepareTriggerRun now fuel st job tt stack = .error e →
      e = .recursionError ∨ e = .integrityError ∨
        ∃ path k, e = .httpException 409 (cycleDetail path k) := by
  intro fuel
  induction fuel with
  | zero =>
    intro st job tt stack e h
    cases h
    exact .inl rfl
  | succ fuel ih =>
    intro st job tt stack e h
    rcases prepareTriggerRun_error h with ⟨-, he⟩ | ⟨he, -⟩ | ⟨-, mid, d, -, -, -, hp⟩
    · exact .inr (.inr ⟨stack, job, he⟩)
    · exact .inr (.inl he)
    · exact ih mid d .dependency (stack ++ [job]) e hp

/-- trigger_job of a job of the user returns, or raises the cycle error. -/
theorem triggerJob_error {db : Database} {owner : UserId} {j : JobId} {now : Time} {e : ApiError}
    (hj : (getJob db j owner).isSome = true) (h : triggerJob db owner j now = .error e) :
    ∃ path k, e = .httpException 409 (cycleDetail path k) := by
  have hne := triggerJob_ne_recursionError db owner j now
  obtain ⟨job, hjob⟩ := Option.isSome_iff_exists.mp hj
  unfold triggerJob at h hne
  rw [hjob] at h hne
  have hget : (db.jobs.get j).isSome = true := by
    rw [(Option.filter_eq_some_iff.mp hjob).1]
    rfl
  rcases prepareTriggerRun_error_kind _ _ _ _ _ _ h with rfl | rfl | hkind
  · exact absurd h hne
  · exact absurd h (prepareTriggerRun_ne_integrityError _ _ _ _ _ hget)
  · exact hkind

theorem triggerJob_error_iff {db : Database} {owner : UserId} {j : JobId} (now : Time) :
    (∃ detail, triggerJob db owner j now = .error (.httpException 409 detail)) ↔
      (getJob db j owner).isSome = true ∧ ReachesIdleCycle db j := by
  constructor
  · rintro ⟨detail, h⟩
    unfold triggerJob at h
    split at h
    · cases h
    · rename_i job hjob
      refine ⟨by rw [hjob]; rfl, ?_⟩
      exact reachesIdleCycle_of_error _ _ _ _ _ (Extends.refl _ db)
        (fun u hu => absurd hu List.not_mem_nil) .refl h
  · rintro ⟨hj, hcycle⟩
    cases h : triggerJob db owner j now with
    | ok out =>
      exact absurd hcycle (not_reachesIdleCycle (triggerJob_prepares h) (triggerJob_orders h))
    | error e =>
      obtain ⟨path, k, rfl⟩ := triggerJob_error hj h
      exact ⟨cycleDetail path k, rfl⟩

/-! ### The request, statement by statement -/

/- create_run: the row is flushed to the tables of the session. -/
def createRunM (jobId : JobId) (triggerType : TriggerType) (status : RunStatus) (now : Time) :
    EStateM ApiError Prepared RunId := do
  match (← get).1.createRun jobId triggerType none 1 status now with
  | none => throw .integrityError
  | some (db, i) =>
    modify fun st => (db, st.2)
    return i

/- Statements on the tables of the session and a list, started with the empty list. -/
def onWorking {ε α : Type} (x : EStateM ε Prepared α) : EStateM ε Env (α × List RunId) := fun env =>
  match x (env.working, []) with
  | .ok a st => .ok (a, st.2) { env with working := st.1 }
  | .error e st => .error e { env with working := st.1 }

/- The body of the loop over dependency_ids. -/
def visitM (prepare : JobId → EStateM ApiError Prepared RunId) (depId : JobId) :
    EStateM ApiError Prepared PUnit := do
  match (← get).1.activeRun depId with
  | some _ => return ()
  | none => discard (prepare depId)

/- _prepare_trigger_run on the tables of the session and the list runs_to_publish. -/
def prepareTriggerRunM (now : Time) :
    ℕ → JobId → TriggerType → List JobId → EStateM ApiError Prepared RunId
  | 0, _, _, _ => throw .recursionError
  | fuel + 1, jobId, triggerType, stack => do
    if jobId ∈ stack then throw (.httpException 409 (cycleDetail stack jobId))
    else
      let dependencyIds := (← get).1.dependencyIds jobId
      if dependencyIds.isEmpty then
        let run ← createRunM jobId triggerType .queued now
        modify fun st => (st.1, st.2 ++ [run])
        return run
      else
        dependencyIds.forM (visitM fun depId =>
          prepareTriggerRunM now fuel depId .dependency (stack ++ [jobId]))
        match (← get).1.activeRun jobId with
        | some existing => return existing.id
        | none => createRunM jobId triggerType .pending now

/- trigger_job after the job was found. -/
def prepareAndPublishM (jobId : JobId) (now : Time) : EStateM ApiError Env RunId := do
  let depth := recursionDepth (← get).working
  let (run, runsToPublish) ← onWorking (prepareTriggerRunM now depth jobId .manual [])
  modify Env.commit
  modify fun env => { env with redis := runsToPublish.foldl Redis.enqueueRun env.redis }
  return run

/- trigger_job inside get_session: when it raises, what it has flushed is rolled back. -/
def triggerJobM (ownerUserId : UserId) (jobId : JobId) (now : Time) : EStateM ApiError Env RunId :=
  withRollback do
    match getJob (← get).working jobId ownerUserId with
    | none => throw (.httpException 404 "job not found")
    | some _ => prepareAndPublishM jobId now

/-! ### The statements and the function of the tables -/

/- Both ways of running a call return the same, or raise the same. -/
structure Agrees {α : Type} (x : Except ApiError (Prepared × α))
    (y : EStateM.Result ApiError Prepared α) : Prop where
  ok : ∀ st a, x = .ok (st, a) → y = .ok a st
  error : ∀ e, x = .error e → ∃ st, y = .error e st

theorem agrees_ok {α : Type} {st : Prepared} {a : α} {y : EStateM.Result ApiError Prepared α}
    (h : y = .ok a st) : Agrees (.ok (st, a)) y where
  ok := by
    intro st' a' hx
    cases hx
    exact h
  error := by
    intro e hx
    cases hx

theorem agrees_error {α : Type} {st : Prepared} {e : ApiError}
    {y : EStateM.Result ApiError Prepared α} (h : y = .error e st) : Agrees (.error e) y where
  ok := by
    intro st' a' hx
    cases hx
  error := by
    intro e' hx
    cases hx
    exact ⟨st, h⟩

theorem createRunM_some {st : Prepared} {job : JobId} {tt : TriggerType} {status : RunStatus}
    {now : Time} {db : Database} {i : RunId}
    (h : st.1.createRun job tt none 1 status now = some (db, i)) :
    createRunM job tt status now st = .ok i (db, st.2) := by
  unfold createRunM
  rw [get_bind_run, h]
  rfl

theorem createRunM_none {st : Prepared} {job : JobId} {tt : TriggerType} {status : RunStatus}
    {now : Time} (h : st.1.createRun job tt none 1 status now = none) :
    createRunM job tt status now st = .error .integrityError st := by
  unfold createRunM
  rw [get_bind_run, h]
  rfl

section
variable {prepare : Prepared → JobId → Except ApiError (Prepared × RunId)}
  {prepareM : JobId → EStateM ApiError Prepared RunId}

theorem visitM_agrees (hcall : ∀ st d, Agrees (prepare st d) (prepareM d st)) (acc : Prepared)
    (d : JobId) :
    Agrees ((visit prepare acc d).map fun st => (st, PUnit.unit)) (visitM prepareM d acc) := by
  unfold visit visitM
  rw [get_bind_run]
  cases hact : acc.1.activeRun d with
  | some r => exact agrees_ok rfl
  | none =>
    show Agrees _ ((prepareM d >>= fun _ => pure PUnit.unit) acc)
    cases hp : prepare acc d with
    | ok res => exact agrees_ok (bind_run_of_ok ((hcall acc d).ok res.1 res.2 hp))
    | error e =>
      obtain ⟨st, hst⟩ := (hcall acc d).error e hp
      exact agrees_error (bind_run_of_error hst)

theorem forM_visitM_agrees (hcall : ∀ st d, Agrees (prepare st d) (prepareM d st))
    (deps : List JobId) (acc : Prepared) :
    Agrees ((deps.foldlM (visit prepare) acc).map fun st => (st, PUnit.unit))
      (deps.forM (visitM prepareM) acc) := by
  induction deps generalizing acc with
  | nil => exact agrees_ok rfl
  | cons d deps ih =>
    have hv := visitM_agrees hcall acc d
    show Agrees _ ((visitM prepareM d >>= fun _ => deps.forM (visitM prepareM)) acc)
    rw [List.foldlM_cons]
    cases hd : visit prepare acc d with
    | ok mid =>
      rw [bind_run_of_ok (hv.ok mid PUnit.unit (by rw [hd]; rfl))]
      exact ih mid
    | error e =>
      obtain ⟨st, hst⟩ := hv.error e (by rw [hd]; rfl)
      exact agrees_error (bind_run_of_error hst)

end

/-- The statements of _prepare_trigger_run compute what `prepareTriggerRun` says. -/
theorem prepareTriggerRunM_agrees (now : Time) :
    ∀ (fuel : ℕ) (st : Prepared) (job : JobId) (tt : TriggerType) (stack : List JobId),
      Agrees (prepareTriggerRun now fuel st job tt stack)
        (prepareTriggerRunM now fuel job tt stack st) := by
  intro fuel
  induction fuel with
  | zero => exact fun st job tt stack => agrees_error rfl
  | succ fuel ih =>
    intro st job tt stack
    have hloop := forM_visitM_agrees (fun st d => ih st d .dependency (stack ++ [job]))
      (st.1.dependencyIds job) st
    rw [prepareTriggerRun, prepareTriggerRunM]
    by_cases hstack : job ∈ stack
    · rw [if_pos hstack, if_pos hstack]
      exact agrees_error rfl
    · rw [if_neg hstack, if_neg hstack, get_bind_run]
      by_cases hnil : (st.1.dependencyIds job).isEmpty = true
      · rw [if_pos hnil, if_pos hnil]
        cases hc : st.1.createRun job tt none 1 .queued now with
        | none => exact agrees_error (bind_run_of_error (createRunM_none hc))
        | some out => exact agrees_ok (bind_run_of_ok (createRunM_some hc))
      · rw [if_neg hnil, if_neg hnil]
        cases hfold : (st.1.dependencyIds job).foldlM (visit fun acc depId =>
            prepareTriggerRun now fuel acc depId .dependency (stack ++ [job])) st with
        | error e =>
          rw [hfold] at hloop
          obtain ⟨st', hst⟩ := hloop.error e rfl
          exact agrees_error (bind_run_of_error hst)
        | ok acc =>
          rw [hfold] at hloop
          rw [bind_run_of_ok (hloop.ok acc PUnit.unit rfl), get_bind_run]
          dsimp only
          cases hact : acc.1.activeRun job with
          | some existing => exact agrees_ok rfl
          | none =>
            dsimp only
            cases hc : acc.1.createRun job tt none 1 .pending now with
            | none => exact agrees_error (createRunM_none hc)
            | some out => exact agrees_ok (createRunM_some hc)

theorem onWorking_ok {ε α : Type} {x : EStateM ε Prepared α} {env : Env} {a : α} {st : Prepared}
    (h : x (env.working, []) = .ok a st) :
    onWorking x env = .ok (a, st.2) { env with working := st.1 } := by
  unfold onWorking
  rw [h]

theorem onWorking_error {ε α : Type} {x : EStateM ε Prepared α} {env : Env} {e : ε} {st : Prepared}
    (h : x (env.working, []) = .error e st) :
    onWorking x env = .error e { env with working := st.1 } := by
  unfold onWorking
  rw [h]

theorem triggerJobM_ok {db : Database} {redis : Redis} {owner : UserId} {j : JobId} {now : Time}
    {st : Prepared} {i : RunId} (h : triggerJob db owner j now = .ok (st, i)) :
    triggerJobM owner j now (Env.start db redis) =
      .ok i ⟨st.1, st.1, st.2.foldl Redis.enqueueRun redis⟩ := by
  unfold triggerJob at h
  split at h
  · cases h
  · rename_i job hj
    have hj : getJob (Env.start db redis).working j owner = some job := hj
    have hcall := (prepareTriggerRunM_agrees now _ _ _ _ _).ok st i h
    refine withRollback_ok.mpr ?_
    rw [get_bind_run, hj]
    dsimp only
    rw [prepareAndPublishM, get_bind_run]
    exact bind_run_of_ok (onWorking_ok hcall)

/-- A trigger that raises leaves the committed tables, the tables of the session and Redis as
they were. -/
theorem triggerJobM_error {db : Database} {redis : Redis} {owner : UserId} {j : JobId}
    {now : Time} {e : ApiError} (h : triggerJob db owner j now = .error e) :
    triggerJobM owner j now (Env.start db redis) = .error e (Env.start db redis) := by
  unfold triggerJob at h
  split at h
  · rename_i hj
    cases h
    have hj : getJob (Env.start db redis).working j owner = none := hj
    refine withRollback_error.mpr ⟨Env.start db redis, ?_, rfl⟩
    rw [get_bind_run, hj]
    rfl
  · rename_i job hj
    have hj : getJob (Env.start db redis).working j owner = some job := hj
    obtain ⟨st, hcall⟩ := (prepareTriggerRunM_agrees now _ _ _ _ _).error e h
    refine withRollback_error.mpr ⟨⟨db, st.1, redis⟩, ?_, rfl⟩
    rw [get_bind_run, hj]
    dsimp only
    rw [prepareAndPublishM, get_bind_run]
    exact bind_run_of_error (onWorking_error hcall)

/-- The cycle detection of trigger_job is exact and leaves no trace: the request returns or
raises, the 409 stands for a cycle of idle jobs, and a request that raises changes nothing. -/
theorem triggerJobM_cycle_detection (db : Database) (redis : Redis) (owner : UserId) (j : JobId)
    (now : Time) :
    ((∃ detail env, triggerJobM owner j now (Env.start db redis) =
        .error (.httpException 409 detail) env) ↔
      (getJob db j owner).isSome = true ∧ ReachesIdleCycle db j) ∧
    ∀ e env, triggerJobM owner j now (Env.start db redis) = .error e env →
      (e = .httpException 404 "job not found" ∨
        ∃ path k, e = .httpException 409 (cycleDetail path k)) ∧
      env = Env.start db redis := by
  cases h : triggerJob db owner j now with
  | ok out =>
    have hrun : triggerJobM owner j now (Env.start db redis) = _ := triggerJobM_ok h
    rw [hrun, ← triggerJob_error_iff now, h]
    refine ⟨iff_of_false ?_ ?_, fun e env he => (by cases he)⟩
    · rintro ⟨detail, env, he⟩
      cases he
    · rintro ⟨detail, he⟩
      cases he
  | error e =>
    have hrun : triggerJobM owner j now (Env.start db redis) = _ := triggerJobM_error h
    rw [hrun, ← triggerJob_error_iff now, h]
    refine ⟨⟨?_, ?_⟩, ?_⟩
    · rintro ⟨detail, env, he⟩
      cases he
      exact ⟨detail, rfl⟩
    · rintro ⟨detail, he⟩
      cases he
      exact ⟨detail, _, rfl⟩
    · intro e' env he
      cases he
      refine ⟨?_, rfl⟩
      cases hj : getJob db j owner with
      | none =>
        rw [triggerJob, hj] at h
        cases h
        exact .inl rfl
      | some job => exact .inr (triggerJob_error (by rw [hj]; rfl) h)

end JobScheduler.Api
