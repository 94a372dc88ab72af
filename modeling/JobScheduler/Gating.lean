import JobScheduler.Invariants

/-!
# Dependencies gate execution

claim_run does not look at dependencies, so a run of a job may only start after them if
the way the run came into being has checked them. The fan-out does; a scheduler tick and
the two kinds of retries do not. `Gated` says of a step that it creates no dispatched run
of a job whose dependencies have not all succeeded, gives no such dependency to a job that
is on its way, and overwrites no success, be it by finish_run or by the flush of a promotion.
-/

namespace JobScheduler
open Library Database

namespace Database

def hasSucceeded (db : Database) (j : JobId) : Bool :=
  db.runs.rows.any fun r => decide (r.jobId = j) && decide (r.status = .succeeded)

theorem hasSucceeded_iff {db : Database} {j : JobId} :
    db.hasSucceeded j = true ↔ db.HasRun j fun s => decide (s = .succeeded) := by
  simp [hasSucceeded, HasRun]

end Database

/- No success is overwritten: finish_run records no other outcome over it, and no flush takes it
back to the queue. -/
def RunTx.keepsSuccess (db : Database) : RunTx → Bool
  | .finishRun runId res .. =>
    decide (db.statusOf runId ≠ some .succeeded) || decide (res.status = .succeeded)
  | .promoteRun runId => decide (db.statusOf runId ≠ some .succeeded)
  | _ => true

namespace Sys

variable {cfg : Settings} {cronNext : Cron.CronNext} {s t : Sys} {l : Label}

/- The property: a claim that moves a run to RUNNING finds a success of every dependency. -/
def ClaimsGated (s : Sys) (l : Label) : Prop :=
  ∀ i w allow now r, l.tx s = some (.claimRun i w allow now) → s.db.runs.get i = some r →
    Store.claimable allow r.status = true → s.db.DependenciesSucceeded r.jobId

/- The pass at `now` tries to insert a run of the job. -/
def isDue (cronNext : Cron.CronNext) (now : Time) (job : Job) : Bool :=
  Scheduler.schedulable job &&
    match Scheduler.jobTick cronNext job now with
    | .ok (some _) => true
    | _ => false

def gatedTx (cronNext : Cron.CronNext) (db : Database) : RunTx → Bool
  | .createRun jobId .. => db.allDependenciesSucceeded jobId
  | .createRetryRun jobId .. => db.allDependenciesSucceeded jobId
  | .scheduleDueJobs now => db.jobs.rows.all fun job =>
      !isDue cronNext now job || db.allDependenciesSucceeded job.id
  | tx => tx.keepsSuccess db

/- Some fan-out has found the job ready and will create or promote its run. -/
def promises (s : Sys) (j : JobId) : Bool :=
  s.handlers.rows.any (fun h => h.pc.todo.contains j) || s.detached.any fun h => h.pc.todo.contains j

def gatedEdit (s : Sys) : Label → Bool
  | .editJobs _ dependencies => dependencies.rows.all fun d =>
      !(s.db.hasDispatchedRun d.jobId || s.promises d.jobId) || s.db.hasSucceeded d.dependsOnJobId
  | _ => true

def Gated (cronNext : Cron.CronNext) (s : Sys) (l : Label) : Prop :=
  (l.tx s).all (gatedTx cronNext s.db) = true ∧ s.gatedEdit l = true

instance (cronNext : Cron.CronNext) (s : Sys) (l : Label) : Decidable (Gated cronNext s l) :=
  inferInstanceAs (Decidable (_ ∧ _))

theorem promises_iff {j : JobId} : s.promises j = true ↔ ∃ h, Works s h ∧ j ∈ h.pc.todo := by
  unfold promises Works
  simp only [Bool.or_eq_true, List.any_eq_true, List.contains_iff_mem]
  grind

theorem Gated.tx {tx : RunTx} (h : Gated cronNext s l) (htx : l.tx s = some tx) :
    gatedTx cronNext s.db tx = true := by
  have h1 := h.1
  rw [htx, Option.all_some] at h1
  exact h1

/-! ### Successes stay -/

def KeepsSuccess (s : Sys) (l : Label) : Prop :=
  ∀ tx, l.tx s = some tx → tx.keepsSuccess s.db = true

theorem Gated.keepsSuccess (h : Gated cronNext s l) : KeepsSuccess s l := by
  intro tx htx
  have hok := h.tx htx
  cases tx with
  | finishRun | promoteRun => exact hok
  | _ => rfl

theorem RowChange.succeeded {r r' : JobRun} (hk : KeepsSuccess s l)
    (hr : s.db.runs.get r.id = some r) (hrow : RowChange s l r r') (hs : r.status = .succeeded) :
    r'.status = .succeeded := by
  have hst : s.db.statusOf r.id = some .succeeded := by
    rw [statusOf, hr, Option.map_some, hs]
  rcases hrow with rfl | ⟨tx, htx, hrow⟩
  · exact hs
  · cases hrow with
    | same => exact hs
    | claimed _ w allow now hgr =>
      have hterm := RunTx.claimable_not_terminal hgr
      rw [hs] at hterm
      cases hterm
    | canceled _ now ha =>
      rw [hs] at ha
      cases ha
    | promoted _ now hp =>
      rw [hs] at hp
      cases hp
    | finished _ res error now hne =>
      have hok := hk _ htx
      simp only [RunTx.keepsSuccess, hst, ne_eq, not_true_eq_false, decide_false, Bool.false_or,
        decide_eq_true_eq] at hok
      show res.status.runStatus = .succeeded
      rw [hok]
      rfl
    | flushed =>
      have hok := hk _ htx
      exact absurd hst (of_decide_eq_true hok)

/- A succeeded run stays one unless its job is deleted. -/
theorem Trans.stays_succeeded (h : Trans cfg cronNext s l t) (hk : KeepsSuccess s l) {i : RunId}
    {r : JobRun} (hr : s.db.runs.get i = some r) (hs : r.status = .succeeded)
    (hdel : ∀ owner, l ≠ .deleteJob owner r.jobId) :
    ∃ r', t.db.runs.get i = some r' ∧ r'.jobId = r.jobId ∧ r'.status = .succeeded := by
  have hid : r.id = i := Table.key_of_get hr
  rcases h.evolves.row i r hr with ⟨r', hr', hrow⟩ | ⟨⟨owner, hl⟩, -⟩
  · exact ⟨r', hr', hrow.jobId, hrow.succeeded hk (by rw [hid]; exact hr) hs⟩
  · exact absurd hl (hdel owner)

theorem Trans.hasSucceeded (h : Trans cfg cronNext s l t) (hk : KeepsSuccess s l) {j : JobId}
    (hj : s.db.HasRun j fun s => decide (s = .succeeded)) (hdel : ∀ owner, l ≠ .deleteJob owner j) :
    t.db.HasRun j fun s => decide (s = .succeeded) := by
  obtain ⟨i, r, hr, rfl, hs⟩ := hasRun_iff_get.mp hj
  obtain ⟨r', hr', hj', hs'⟩ := h.stays_succeeded hk hr (by simpa using hs) hdel
  exact hasRun_iff_get.mpr ⟨i, r', hr', hj', by simpa using hs'⟩

/- The dependencies of a job that is dispatched or about to be promoted stay succeeded. -/
theorem Trans.dependenciesSucceeded (h : Trans cfg cronNext s l t) (hg : Gated cronNext s l)
    {j : JobId} (hj : s.db.DependenciesSucceeded j)
    (hway : s.db.HasRun j RunStatus.dispatched ∨ (∃ h, Works s h ∧ j ∈ h.pc.todo) ∨
      ∀ jobs dependencies, l ≠ .editJobs jobs dependencies) :
    t.db.DependenciesSucceeded j := by
  intro k hk
  have hsame : t.db.dependencies = s.db.dependencies → s.db.DependsOn j k := by
    intro heq
    unfold Database.DependsOn at hk ⊢
    rw [← heq]
    exact hk
  rcases h.evolves.edges with heq | ⟨jobs, rfl⟩ | ⟨owner, job, rfl, hdb⟩
  · by_cases hdel : ∃ owner, l = .deleteJob owner k
    · obtain ⟨owner, rfl⟩ := hdel
      -- A deleted job has no edges.
      exfalso
      cases h with
      | deleteJob _ _ =>
        obtain ⟨d, hd, -, hdk⟩ := hk
        have hno := (Table.mem_rows_deleteWhere.mp hd).2
        simp [hdk] at hno
    · exact h.hasSucceeded hg.keepsSuccess (hj k (hsame heq)) fun owner hl => hdel ⟨owner, hl⟩
  · have hsucc : s.db.HasRun k fun s => decide (s = .succeeded) := by
      obtain ⟨d, hd, hdj, hdk⟩ := hk
      have hedit := hg.2
      simp only [gatedEdit, List.all_eq_true, Bool.or_eq_true, Bool.not_eq_true'] at hedit
      rcases hedit d hd with hno | hyes
      · exfalso
        rw [hdj] at hno
        simp only [Bool.or_eq_false_iff] at hno
        rcases hway with hd | hw | hne
        · rw [hasDispatchedRun_eq_false] at hno
          exact hno.1 hd
        · rw [← promises_iff, hno.2] at hw
          cases hw
        · exact hne _ _ rfl
      · rw [hdk] at hyes
        exact hasSucceeded_iff.mp hyes
    exact h.hasSucceeded hg.keepsSuccess hsucc fun owner hl => by cases hl
  · rw [hdb] at hk
    obtain ⟨d, hd, hdj, hdk⟩ := hk
    obtain ⟨hd, hno⟩ := Table.mem_rows_deleteWhere.mp hd
    refine h.hasSucceeded hg.keepsSuccess (hj k ⟨d, hd, hdj, hdk⟩) ?_
    intro owner' hl
    injection hl with _ hjob
    simp [hdk, hjob] at hno

/-! ### Jobs that are on their way -/

structure Gate (s : Sys) : Prop where
  dispatched : ∀ i r, s.db.runs.get i = some r → r.status.dispatched = true →
    s.db.DependenciesSucceeded r.jobId
  promised : ∀ h, Works s h → ∀ j ∈ h.pc.todo, s.db.DependenciesSucceeded j

theorem not_edit_of_tx {tx : RunTx} (htx : l.tx s = some tx) (jobs : Table Job)
    (dependencies : Table JobDependency) : l ≠ .editJobs jobs dependencies := by
  intro hl
  subst hl
  cases htx

/- Whoever creates or promotes a dependency run was promised the job. -/
theorem Gate.of_insertDependencyRun (hgate : Gate s) {j : JobId} {now : Time}
    (htx : l.tx s = some (.insertDependencyRun j now)) : s.db.DependenciesSucceeded j := by
  obtain ⟨d, hw, hj⟩ := insertDependencyRun_inv htx
  exact hgate.promised d hw j hj

theorem Gate.of_promoteRun (hgate : Gate s) (hs : WellFormed s) {r : JobRun}
    (htx : l.tx s = some (.promoteRun r.id)) (hr : s.db.runs.get r.id = some r) :
    s.db.DependenciesSucceeded r.jobId := by
  obtain ⟨d, hw, -, hj⟩ := hs.promoteRun_inv htx hr
  exact hgate.promised d hw r.jobId hj

/- A new dispatched run belongs to a job whose dependencies had succeeded. -/
theorem Trans.new_dispatched (h : Trans cfg cronNext s l t) (hg : Gated cronNext s l)
    (hgate : Gate s) {i : RunId} {r : JobRun} (hr : t.db.runs.get i = some r)
    (hn : s.db.runs.get i = none) (hd : r.status.dispatched = true) :
    s.db.DependenciesSucceeded r.jobId ∧ ∀ jobs dependencies, l ≠ .editJobs jobs dependencies := by
  obtain ⟨-, hnew⟩ := h.evolves.new i r hr hn
  rcases hnew with ⟨tx, htx, hadds⟩ | ⟨⟨owner, job, now, rfl⟩, hst⟩
  · refine ⟨?_, not_edit_of_tx htx⟩
    have hok := hg.tx htx
    cases tx with
    | createRun j tt sf attempt status now =>
      rw [hadds.1]
      exact allDependenciesSucceeded_iff.mp hok
    | createRetryRun j attempt now =>
      rw [hadds.1]
      exact allDependenciesSucceeded_iff.mp hok
    | createDependencyRun j now => exact absurd htx (tx_ne_createDependencyRun j now)
    | insertDependencyRun j now =>
      rw [hadds.1]
      exact hgate.of_insertDependencyRun htx
    | scheduleDueJobs now =>
      rcases tx_cases htx with ⟨_, _, _, _, _, _, heq⟩ | ⟨_, _, _, _, heq⟩ | ⟨now', rfl, heq⟩ |
        ⟨d, _, _, _, heq⟩ | ⟨d, _, _, _, _, heq⟩
      · cases heq
      · cases heq
      · cases h with
        | tick _ db' ids hsched =>
          have hdue := ((Scheduler.scheduleDueJobs_scheduled hsched).ext.new i r hr hn).2.2
          obtain ⟨job, hjob, hschedulable, hid, tick, htick⟩ := hdue
          cases heq
          simp only [gatedTx, List.all_eq_true, Bool.or_eq_true, Bool.not_eq_true'] at hok
          have hisDue : isDue cronNext now job = true := by
            simp only [isDue, hschedulable, htick, Bool.and_self]
          rcases hok job hjob with hno | hyes
          · rw [hisDue] at hno
            cases hno
          · rw [← hid]
            exact allDependenciesSucceeded_iff.mp hyes
      · exact absurd heq (Runner.tx_ne_scheduleDueJobs d _ _)
      · exact absurd heq (Runner.tx_ne_scheduleDueJobs d _ _)
    | claimRun i w allow now => cases hadds
    | cancelRun i now => cases hadds
    | finishRun i res error now => cases hadds
    | promoteRun i => cases hadds
  · refine ⟨?_, fun jobs dependencies hl => by cases hl⟩
    rw [hst, Api.openedStatus] at hd
    split at hd
    · rename_i hnil
      intro k hk
      exact absurd hk (dependencyIds_eq_nil.mp (List.isEmpty_iff.mp hnil) k)
    · cases hd

/- A run in flight is not PENDING, so a claim finds it dispatched. -/
theorem WellFormed.claim_dispatched (hs : WellFormed s) {i : RunId} {w : WorkerId} {allow : Bool}
    {now : Time} (htx : l.tx s = some (.claimRun i w allow now)) {r : JobRun}
    (hr : s.db.runs.get i = some r) (hg : Store.claimable allow r.status = true) :
    r.status.dispatched = true := by
  have hne : r.status ≠ .pending := (hs.inFlight i (inFlight_of_claimRun htx)).2 r hr
  rcases (RunStatus.active_iff r.status).mp (RunTx.claimable_not_terminal hg) with hp | hd
  · exact absurd hp hne
  · exact hd

theorem Trans.gate (h : Trans cfg cronNext s l t) (hs : WellFormed s) (hg : Gated cronNext s l)
    (hgate : Gate s) : Gate t where
  dispatched := by
    intro i r' hr' hd'
    cases hget : s.db.runs.get i with
    | none =>
      obtain ⟨hdeps, hne⟩ := h.new_dispatched hg hgate hr' hget hd'
      exact h.dependenciesSucceeded hg hdeps (Or.inr (Or.inr hne))
    | some r =>
      have hrow := h.evolves.change hget hr'
      have hkeep : r.status.dispatched = true → t.db.DependenciesSucceeded r'.jobId := by
        intro hd
        rw [hrow.jobId]
        exact h.dependenciesSucceeded hg (hgate.dispatched i r hget hd)
          (Or.inl (hasRun_iff_get.mpr ⟨i, r, hget, rfl, hd⟩))
      rcases hrow with rfl | ⟨tx, htx, hstep⟩
      · exact hkeep hd'
      · have hid : r.id = i := Table.key_of_get hget
        have hrid : s.db.runs.get r.id = some r := by rw [hid]; exact hget
        cases hstep with
        | same => exact hkeep hd'
        | claimed _ w allow now hgr => exact hkeep (hs.claim_dispatched htx hrid hgr)
        | canceled => cases hd'
        | finished _ res error now hne =>
          change res.status.runStatus.dispatched = true at hd'
          cases hst : res.status <;> rw [hst] at hd' <;> cases hd'
        | promoted _ now hp => exact absurd htx (tx_ne_createDependencyRun _ now)
        | flushed =>
          have hdeps := hgate.of_promoteRun hs htx hrid
          exact h.dependenciesSucceeded hg hdeps (Or.inr (Or.inr (not_edit_of_tx htx)))
  promised := by
    intro k hk j hj
    rcases h.todo hk hj with ⟨k', hk', hj'⟩ | ⟨hdb, k', -, c, -, hready⟩
    · exact h.dependenciesSucceeded hg (hgate.promised k' hk' j hj') (Or.inr (Or.inl ⟨k', hk', hj'⟩))
    · obtain ⟨-, -, -, -, -, hdeps⟩ := Store.mem_dependentsReady.mp hready
      rw [hdb]
      exact hdeps

theorem gate_start {db : Database} (hdb : db.runs.rows = []) : Gate (start db) where
  dispatched := by
    intro i r hr
    rw [get_start hdb] at hr
    cases hr
  promised := fun k hk => absurd hk (not_works_start db k)

theorem Gate.claims (hgate : Gate s) (hs : WellFormed s) : ClaimsGated s l := by
  intro i w allow now r htx hr hg
  exact hgate.dispatched i r hr (hs.claim_dispatched htx hr hg)

/- Along every run whose steps are gated, every claim finds its job's dependencies succeeded. -/
theorem dependencies_gate_execution_of_gated (cfg : Settings) (cronNext : Cron.CronNext)
    (db : Database) (ls : List Label) (hdb : db.runs.rows = [])
    (hg : Machine.Along (step cfg cronNext) (Gated cronNext) (start db) ls) :
    Machine.Along (step cfg cronNext) ClaimsGated (start db) ls := by
  refine Machine.along_of_invariant (I := fun s => WellFormed s ∧ Gate s) (C := Gated cronNext)
    ?_ ?_ ⟨wellFormed_start hdb, gate_start hdb⟩ hg
  · intro s l t hs hc ht
    have htr := trans_of_step ht
    exact ⟨htr.wellFormed hs.1, htr.gate hs.1 hc hs.2⟩
  · intro s l hs _
    exact hs.2.claims hs.1

/-! ### Two jobs -/

/- User 1 has `load` (1), which depends on `extract` (0). -/
def pipeline : Database := Database.ofNames 1 ["extract", "load"] [(1, 0)]

/- Worker 1 reads the next message and its handler h claims the run. -/
def taken (h : ℕ) (now : Time) : List Label :=
  [.poll 1, .reclaimed 1, .deliver 1, .delivered 1, .acquire h, .advance h now]

/- Handler h commits the success of its run and promotes the waiting run of one dependent, one
statement after the other. -/
def finishesAndPromotes (h : ℕ) (now : Time) : List Label :=
  [.executorReturns h { status := .succeeded }] ++
    (List.range 8).map (fun k => .advance h (now + k)) ++ [.ack h, .del h]

/- `load` is triggered: run 0 of `extract` is queued, run 1 of `load` is pending. Handler 0
executes run 0 and fans out, handler 1 claims run 1. -/
def loadedAfterExtract : List Label :=
  [.trigger 1 1 0, .publish 0] ++ taken 0 1 ++ finishesAndPromotes 0 2 ++ taken 1 10

theorem dependencies_gate_loadedAfterExtract :
    Machine.Along (step {} Cron.noCron) ClaimsGated (start pipeline)
      loadedAfterExtract ∧
    ((Machine.run (step {} Cron.noCron) (start pipeline)
      loadedAfterExtract).bind fun t => t.db.statusOf 1) = some .running :=
  ⟨dependencies_gate_execution_of_gated {} _ pipeline _ rfl (by decide), by decide⟩

/- The pending run is canceled and retried: run 2 of `load` is claimed although `extract`
has not succeeded. -/
theorem manual_retry_bypasses_dependencies :
    ∃ s t, Machine.run (step {} Cron.noCron) (start pipeline)
        ([.trigger 1 1 0, .cancelRun 1 1 1, .retryRun 1 1 2, .publish 2, .poll 1, .reclaimed 1,
          .deliver 1, .delivered 1, .acquire 0]) = some s ∧
      step {} Cron.noCron s (.advance 0 3) = some t ∧
      s.db.statusOf 2 = some .queued ∧ t.db.statusOf 2 = some .running ∧
      s.db.DependsOn 1 0 ∧ ¬ s.db.HasRun 0 fun s => decide (s = .succeeded) := by
  have hall : (Machine.run (step {} Cron.noCron) (start pipeline)
      ([.trigger 1 1 0, .cancelRun 1 1 1, .retryRun 1 1 2, .publish 2, .poll 1, .reclaimed 1,
        .deliver 1, .delivered 1, .acquire 0])).any (fun s =>
      (step {} Cron.noCron s (.advance 0 3)).any fun t =>
        decide (s.db.statusOf 2 = some .queued) && decide (t.db.statusOf 2 = some .running) &&
        (s.db.dependencyIds 1).contains 0 && !s.db.hasSucceeded 0) = true := by
    decide
  obtain ⟨s, hs, hall⟩ := (Option.any_eq_true _ _).mp hall
  obtain ⟨t, ht, hall⟩ := (Option.any_eq_true _ _).mp hall
  simp only [Bool.and_eq_true, decide_eq_true_eq, List.contains_iff_mem, mem_dependencyIds,
    Bool.not_eq_true', ← Bool.not_eq_true, hasSucceeded_iff, and_assoc] at hall
  exact ⟨s, t, hs, ht, hall⟩

end Sys
end JobScheduler
