import JobScheduler.Invariants

/-!
# Executions

The worker's docstring promises that a run is never executed by two handlers at once. The
conditional UPDATE of claim_run keeps duplicate deliveries apart; the claim of a reclaimed
message also accepts a run that is RUNNING, whether its handler is dead or only slow.
-/

namespace JobScheduler
open Library Database

namespace Pc

def isClaiming : Pc → Bool
  | claiming => true
  | _ => false

theorem isClaiming_iff (pc : Pc) : pc.isClaiming = true ↔ pc = claiming := by
  cases pc <;> simp [isClaiming]

end Pc

namespace Runner

variable {cfg : Settings} {db db' : Database} {now : Time} {h : Handler} {pc pc' : Pc}
  {out : Option Send} {g : Grain}

/- A handler that has recorded the outcome does not execute any more. -/
theorem Advance.finishes (hadv : Advance cfg db now h .statement h.pc db' pc' out) {i : RunId}
    {res : ExecResult} {error : Option String} {n : Time}
    (htx : tx h now = some (.finishRun i res error n)) : pc'.executes = false := by
  unfold tx at htx
  generalize h.pc = pc at hadv htx
  cases hadv with
  | succeeded c res => rfl
  | failed c res error => rfl
  | dependencyPromoted _ _ _ _ _ _ | dependencyGone _ _ _ _ _ | dependencyInserted _ _ _ _ _ _
  | dependencyRefused _ _ _ _ => rfl
  | _ => cases htx

/- A handler starts to execute by a claim that has moved its run to RUNNING. -/
theorem Advance.executes (hadv : Advance cfg db now h g pc db' pc' out)
    (he : pc'.executes = true) :
    pc.executes = true ∨ pc = .claiming ∧ ∃ r, db.runs.get h.runId = some r ∧
      Store.claimable h.allowRunning r.status = true ∧
      db'.runs.get h.runId = some (Store.claimedRow h.worker now r) := by
  cases hadv with
  | claimed r job hr hg hjob =>
    refine Or.inr ⟨rfl, r, hr, hg, ?_⟩
    rw [Store.get_updateRun, if_pos rfl, hr, Option.map_some, if_pos hg]
  | successChecked _ _ _ | retries _ _ _ | givesUp _ _ _ | retryCreated _ _ _ _ _
  | delayed _ _ _ => exact Or.inl rfl
  | _ => cases he

/- The handler of a run that is RUNNING before and after its call still executes it. -/
theorem Advance.still_executes (hadv : Advance cfg db now h g pc db' pc' out)
    (hex : pc.executes = true) (hrec : ∀ c, pc.claimed? = some c → c.runId = h.runId ∧
      ∀ r, db.runs.get h.runId = some r → r.jobId = c.jobId) {r r' : JobRun}
    (hr : db.runs.get h.runId = some r) (hrun : r.status = .running)
    (hr' : db'.runs.get h.runId = some r') (hrun' : r'.status = .running) :
    pc'.executes = true := by
  have hcan : ∀ c, pc.claimed? = some c → Store.isRunCanceled db c.runId ≠ true := by
    intro c hc hcan
    obtain ⟨q, hq, hst⟩ := Store.isRunCanceled_iff.mp hcan
    rw [(hrec c hc).1] at hq
    have hqr : r = q := Option.some.inj (hr.symm.trans hq)
    rw [← hqr, hrun] at hst
    cases hst
  have hfin : ∀ c, pc.claimed? = some c → ∀ (st : ExecStatus) ec res error,
      db' ≠ Store.finishRun db c.runId st.runStatus ec res error now := by
    intro c hc st ec res error heq
    have hne : r.status ≠ .canceled := by
      rw [hrun]
      exact fun h => by cases h
    have hrow := Store.get_finishRun st.runStatus ec res error now hr hne
    rw [heq, (hrec c hc).1, hrow] at hr'
    have hst : st.runStatus = .running := by
      have hq := Option.some.inj hr'
      rw [← hq] at hrun'
      exact hrun'
    have hterm := st.runStatus_terminal
    rw [hst] at hterm
    cases hterm
  cases hadv with
  | successChecked _ _ _ | retries _ _ _ | givesUp _ _ _ | retryCreated _ _ _ _ _
  | delayed _ _ _ => rfl
  | successSkipped c res hskip => exact absurd hskip (hcan c rfl)
  | failureSkipped c res hskip => exact absurd hskip (hcan c rfl)
  | succeeded c res => exact absurd rfl (hfin c rfl .succeeded res.exitCode res.result none)
  | failed c res error => exact absurd rfl (hfin c rfl res.status res.exitCode res.result error)
  | retryRaised c res hnone =>
    -- The run's own row shows that its job exists, so the insert cannot fail.
    exfalso
    have hjob := (hrec c rfl).2 r hr
    have hadm : db.Admits (Store.retryRow c.jobId (c.attempt + 1) now) := by
      refine ⟨?_, fun _ _ _ _ => rfl⟩
      have hfk := db.run_fk r (Table.mem_of_get hr)
      rw [hjob] at hfk
      exact hfk
    rw [Store.createRetryRun, insertRun, dif_pos hadm] at hnone
    cases hnone
  | _ => cases hex

end Runner

namespace Label

def crashes : Label → Bool
  | .crash _ => true
  | _ => false

def raises : Label → Bool
  | .fail _ => true
  | _ => false

end Label

namespace Sys

variable {cfg : Settings} {cronNext : Cron.CronNext} {s t : Sys} {l : Label}

/-! ### No double execution -/

/- Two handlers that are past a successful claim of one run and have not recorded its
outcome are the same handler. -/
def NoDoubleExecution (s : Sys) : Prop :=
  ∀ h ∈ s.handlers.rows, ∀ k ∈ s.handlers.rows, h.pc.executes = true → k.pc.executes = true →
    h.runId = k.runId → h = k

/- The claim that handler i is about to make is one of a reclaimed message whose run is
RUNNING. -/
def reclaimsRunning (s : Sys) (i : ℕ) : Bool :=
  (s.handlers.get i).any fun h => h.pc.isClaiming && h.allowRunning &&
    decide (s.db.statusOf h.runId = some .running)

def ReclaimsIdle (s : Sys) : Label → Prop
  | .advance i _ => s.reclaimsRunning i = false
  | _ => True

theorem ReclaimsIdle.not_running {h : Handler} {now : Time} {r : JobRun}
    (hc : ReclaimsIdle s (.advance h.id now)) (hh : h ∈ s.handlers.rows) (hpc : h.pc = .claiming)
    (hr : s.db.runs.get h.runId = some r)
    (hg : Store.claimable h.allowRunning r.status = true) : r.status ≠ .running := by
  intro hrun
  have hget : s.handlers.get h.id = some h := Table.get_of_mem hh
  have hst : s.db.statusOf h.runId = some .running := by
    rw [statusOf, hr, Option.map_some, hrun]
  change s.reclaimsRunning h.id = false at hc
  rw [reclaimsRunning, hget, Option.any_some, hpc, hst] at hc
  cases hallow : h.allowRunning with
  | false =>
    rw [hallow, hrun] at hg
    cases hg
  | true =>
    rw [hallow] at hc
    cases hc

/- An executing handler has executed before the step, and the step is not its finish_run;
or the step is its claim. -/
theorem Trans.executes (h : Trans cfg cronNext s l t) {k : Handler} (hk : k ∈ t.handlers.rows)
    (he : k.pc.executes = true) :
    (∃ k' ∈ s.handlers.rows, k'.id = k.id ∧ k'.runId = k.runId ∧ k'.pc.executes = true ∧
      ∀ now i res error n, l = .advance k'.id now →
        Runner.tx k' now ≠ some (.finishRun i res error n)) ∨
    ∃ k' ∈ s.handlers.rows, ∃ now r, k'.id = k.id ∧ k'.runId = k.runId ∧
      l = .advance k'.id now ∧ k'.pc = .claiming ∧ s.db.runs.get k.runId = some r ∧
      Store.claimable k'.allowRunning r.status = true ∧
      t.db.runs.get k.runId = some (Store.claimedRow k'.worker now r) := by
  rcases h.handler hk with ⟨hk', hne⟩ | ⟨hpc, -⟩ | ⟨k', hk', pc, rfl, hm⟩
  · refine Or.inl ⟨k, hk', rfl, rfl, he, ?_⟩
    intro now i res error n hl
    rw [hl] at hne
    exact absurd rfl hne
  · rw [hpc] at he
    cases he
  · change pc.executes = true at he
    generalize t.db = db' at hm
    cases hm with
    | acquire _ | fail _ | cancelTask _ _ | ack _ => cases he
    | advance now db' pc out hadv =>
      rcases hadv.executes he with hex | ⟨hpc, r, hr, hg, hr'⟩
      · refine Or.inl ⟨k', hk', rfl, rfl, hex, ?_⟩
        intro now' i res error n hl htx
        cases hl
        rw [hadv.finishes htx] at he
        cases he
      · exact Or.inr ⟨k', hk', now, r, rfl, rfl, rfl, hpc, hr, hg, hr'⟩
    | executorReturns c res hpc =>
      refine Or.inl ⟨k', hk', rfl, rfl, by rw [hpc]; rfl, ?_⟩
      intro now i res' error n hl
      cases hl

/- The run of an executing handler is RUNNING, CANCELED or deleted. -/
structure SingleExecution (s : Sys) : Prop where
  status : ∀ h ∈ s.handlers.rows, h.pc.executes = true → ∀ r, s.db.runs.get h.runId = some r →
    r.status = .running ∨ r.status = .canceled
  once : NoDoubleExecution s

theorem SingleExecution.row (hs : Settled s) (hp : FlushFinds (Store.claimable false) s l)
    (he : SingleExecution s) {k : Handler}
    (hk : k ∈ s.handlers.rows) (hex : k.pc.executes = true) {r r' : JobRun}
    (hr : s.db.runs.get k.runId = some r) (hrow : RowChange s l r r')
    (hfin : ∀ now i res error n, l = .advance k.id now →
      Runner.tx k now ≠ some (.finishRun i res error n)) :
    r'.status = .running ∨ r'.status = .canceled := by
  have hst := he.status k hk hex r hr
  have hid : r.id = k.runId := Table.key_of_get hr
  rcases hrow with rfl | ⟨tx, htx, hrow⟩
  · exact hst
  · cases hrow with
    | same => exact hst
    | claimed => exact Or.inl rfl
    | canceled => exact Or.inr rfl
    | promoted _ now hpend =>
      rw [hpend] at hst
      rcases hst with hst | hst <;> cases hst
    | flushed =>
      have hfree := RunTx.status_of_flushFinds (hp _ htx) (by rw [hid]; exact hr) rfl
      rcases hst with hst | hst
      · rw [hst] at hfree
        cases hfree
      · rw [hst] at hfree
        cases hfree
    | finished _ res error now hne =>
      exfalso
      obtain ⟨d, hd, hrun, now', hl, hdtx⟩ := hs.finish_inv htx (by rw [hid]; exact hr) hne
      have hdex := (Runner.tx_finishRun hdtx).1
      have hdk : d = k := he.once d hd k hk hdex hex (hrun.trans hid)
      subst hdk
      exact hfin now' _ _ _ _ hl hdtx

theorem Trans.singleExecution (h : Trans cfg cronNext s l t) (hs : Settled s)
    (hp : FlushFinds (Store.claimable false) s l) (hc : ReclaimsIdle s l) (he : SingleExecution s) :
    SingleExecution t where
  status := by
    intro k hk hex r' hr'
    rcases h.executes hk hex with ⟨k', hk', -, hrun, hex', hfin⟩ |
      ⟨k', hk', now, r, -, hrun, -, -, -, -, ht⟩
    · have hlt := hs.runId_lt (Or.inl hk')
      rw [← hrun] at hr'
      obtain ⟨r, hr, hrow⟩ := h.evolves.back hr' hlt
      exact he.row hs hp hk' hex' hr hrow hfin
    · have heq := Option.some.inj (ht.symm.trans hr')
      subst heq
      exact Or.inl rfl
  once := by
    -- A new claim finds its run neither RUNNING nor CANCELED, so nobody executes it.
    have hfresh : ∀ k' ∈ s.handlers.rows, ∀ now r, l = .advance k'.id now → k'.pc = .claiming →
        s.db.runs.get k'.runId = some r → Store.claimable k'.allowRunning r.status = true →
        ∀ d ∈ s.handlers.rows, d.pc.executes = true → d.runId ≠ k'.runId := by
      intro k' hk' now r hl hpc hr hg d hd hdex heq
      subst hl
      have hne := hc.not_running hk' hpc hr hg
      have hterm := RunTx.claimable_not_terminal hg
      rcases he.status d hd hdex r (by rw [heq]; exact hr) with hst | hst
      · exact hne hst
      · rw [hst] at hterm
        cases hterm
    intro h1 hh1 h2 hh2 he1 he2 hrun
    have hid : h1.id = h2.id := by
      rcases h.executes hh1 he1 with ⟨k1, hk1, hid1, hrun1, hex1, -⟩ |
          ⟨k1, hk1, now1, r1, hid1, hrun1, hl1, hpc1, hr1, hg1, -⟩ <;>
        rcases h.executes hh2 he2 with ⟨k2, hk2, hid2, hrun2, hex2, -⟩ |
          ⟨k2, hk2, now2, r2, hid2, hrun2, hl2, hpc2, hr2, hg2, -⟩
      · have hk : k1 = k2 := he.once k1 hk1 k2 hk2 hex1 hex2 (by rw [hrun1, hrun, hrun2])
        rw [← hid1, ← hid2, hk]
      · exact absurd (by rw [hrun1, hrun, hrun2])
          (hfresh k2 hk2 now2 r2 hl2 hpc2 (by rw [hrun2]; exact hr2) hg2 k1 hk1 hex1)
      · exact absurd (by rw [hrun2, ← hrun, hrun1])
          (hfresh k1 hk1 now1 r1 hl1 hpc1 (by rw [hrun1]; exact hr1) hg1 k2 hk2 hex2)
      · rw [hl1] at hl2
        injection hl2 with hid
        rw [← hid1, ← hid2, hid]
    exact t.handlers.eq_of_key_eq hh1 hh2 hid

/-! ### A RUNNING run is executed -/

def RunningExecuted (s : Sys) : Prop :=
  ∀ i r, s.db.runs.get i = some r → r.status = .running →
    ∃ h ∈ s.handlers.rows, h.pc.executes = true ∧ h.runId = i

/- A run becomes RUNNING by the claim of one of its handlers. -/
theorem Settled.running_by_claim (hs : Settled s) {i : RunId} {r r' : JobRun}
    (hg : s.db.runs.get i = some r) (hrow : RowChange s l r r')
    (hrun : r.status ≠ .running) (hrun' : r'.status = .running) :
    ∃ d ∈ s.handlers.rows, d.runId = i ∧ d.pc = .claiming ∧ ∃ now, l = .advance d.id now ∧
      Store.claimable d.allowRunning r.status = true := by
  rcases hrow with rfl | ⟨tx, htx, hrow⟩
  · exact absurd hrun' hrun
  · cases hrow with
    | same => exact absurd hrun' hrun
    | canceled => cases hrun'
    | promoted => cases hrun'
    | flushed => cases hrun'
    | finished _ res error now hne =>
      have hterm := res.status.runStatus_terminal
      rw [show res.status.runStatus = .running from hrun'] at hterm
      cases hterm
    | claimed _ w allow now hgr =>
      have hid : r.id = i := Table.key_of_get hg
      obtain ⟨d, hd, hdr, hpc, hallow, now', hl⟩ :=
        hs.claim_inv htx (by rw [hid]; exact hg) hgr
      exact ⟨d, hd, hdr.trans hid, hpc, now', hl, by rw [hallow]; exact hgr⟩

theorem Trans.runningExecuted (h : Trans cfg cronNext s l t) (hs : Settled s)
    (hcrash : l.crashes = false) (hraise : l.raises = false)
    (hex : RunningExecuted s) : RunningExecuted t := by
  intro i r' hr' hrun'
  cases hg : s.db.runs.get i with
  | none =>
    rcases (h.evolves.new i r' hr' hg).2.status with hq | hq
    · rw [hq] at hrun'
      cases hrun'
    · rw [hq] at hrun'
      cases hrun'
  | some r =>
    have hrow := h.evolves.change hg hr'
    by_cases hrun : r.status = .running
    · -- The run was RUNNING before: its handler is still there.
      obtain ⟨k, hk, hkex, hki⟩ := hex i r hg hrun
      rcases h.handler_fate hk with hkt | ⟨pc, hkt, hm⟩ | hpc | hpc | hl
      · exact ⟨k, hkt, hkex, hki⟩
      · refine ⟨setPc pc k, hkt, ?_, hki⟩
        subst hki
        generalize hdb : t.db = db' at hm
        cases hm with
        | acquire hpc =>
          rw [hpc] at hkex
          cases hkex
        | advance now db' pc out hadv =>
          rw [hdb] at hr'
          exact hadv.still_executes hkex (fun c hc => hs.record k (Or.inl hk) c hc) hg hrun hr' hrun'
        | executorReturns c res hpc =>
          show (Runner.returned c res).executes = true
          unfold Runner.returned
          split <;> rfl
        | fail _ => cases hraise
        | cancelTask _ hcan =>
          have hst := hs.canceled k.runId hcan r hg
          rw [hrun] at hst
          cases hst
        | ack hpc =>
          rw [hpc] at hkex
          cases hkex
      · rw [hpc] at hkex
        cases hkex
      · rw [hpc] at hkex
        cases hkex
      · rw [hl] at hcrash
        cases hcrash
    · -- It became RUNNING in this step: by the claim of a handler.
      obtain ⟨d, hd, hdr, hpc, now, rfl, hgr⟩ := hs.running_by_claim hg hrow hrun hrun'
      obtain ⟨db', pc, out, hadv, hdb, hhand, -⟩ := h.advance_inv hd
      refine ⟨setPc pc d, ?_, ?_, hdr⟩
      · rw [hhand]
        exact (mem_goto (Table.get_of_mem hd)).mpr (Or.inl rfl)
      · rw [hpc] at hadv
        cases hadv with
        | claimed r job hr hg' hjob => rfl
        | refused hno =>
          rw [hdr] at hno
          rw [hno r hg] at hgr
          cases hgr

/- A reclaimed message whose run is RUNNING is executed a second time. -/
theorem doubles_of_reclaimsRunning (hex : RunningExecuted s) {i : ℕ} (now : Time)
    (h : s.reclaimsRunning i = true) :
    ∃ t, step cfg cronNext s (.advance i now) = some t ∧ ¬ NoDoubleExecution t := by
  obtain ⟨d, hget, hd⟩ := (Option.any_eq_true _ _).mp h
  simp only [Bool.and_eq_true, decide_eq_true_eq, Pc.isClaiming_iff] at hd
  obtain ⟨⟨hpc, hallow⟩, hst⟩ := hd
  obtain ⟨r, hr, hrun⟩ := Option.map_eq_some_iff.mp hst
  have hid : d.id = i := Table.key_of_get hget
  subst hid
  obtain ⟨k, hk, hkex, hki⟩ := hex d.runId r hr hrun
  have hg : Store.claimable d.allowRunning r.status = true := by
    rw [hallow, hrun]
    rfl
  obtain ⟨job, -, heq⟩ := Store.claimRun_granted d.worker now hr hg
  have hnext : ∃ db' c, Runner.statement cfg s.db d now = some (db', .executing c, none) := by
    refine ⟨(Store.claimRun s.db d.runId d.worker d.allowRunning now).1,
      Store.claimedOf (Store.claimedRow d.worker now r) job, ?_⟩
    simp only [Runner.statement, Runner.next, hpc, heq]
  obtain ⟨db', c, hnext⟩ := hnext
  refine ⟨_, step_advance hget hnext, ?_⟩
  intro hno
  have hne : k.id ≠ d.id := by
    intro hid
    rw [s.handlers.eq_of_key_eq hk (Table.mem_of_get hget) hid, hpc] at hkex
    cases hkex
  have hboth := hno (setPc (.executing c) d)
    (by rw [handlers_advance]; exact (mem_goto hget).mpr (Or.inl rfl)) k
    (by rw [handlers_advance]; exact (mem_goto hget).mpr (Or.inr ⟨hk, hne⟩)) rfl hkex hki.symm
  exact hne (congrArg Handler.id hboth).symm

theorem singleExecution_start (db : Database) : SingleExecution (start db) :=
  ⟨fun _ hh => absurd hh List.not_mem_nil, fun _ hh => absurd hh List.not_mem_nil⟩

theorem runningExecuted_start {db : Database} (hdb : db.runs.rows = []) :
    RunningExecuted (start db) := by
  intro i r hr
  rw [get_start hdb] at hr
  cases hr

/- In a run without crashes no run is executed twice as long as no flush of create_dependency_run
meets a run that was claimed or has ended, and no claim of a reclaimed message meets a RUNNING
run; without exceptions the second is also necessary. -/
theorem no_double_execution_iff_reclaimsIdle (cfg : Settings) (cronNext : Cron.CronNext)
    (db : Database) (ls : List Label) (hdb : db.runs.rows = [])
    (hcrash : Machine.Along (step cfg cronNext) (fun _ l => l.crashes = false) (start db) ls)
    (hflush : Machine.Along (step cfg cronNext) (FlushFinds (Store.claimable false)) (start db) ls) :
    (Machine.Along (step cfg cronNext) ReclaimsIdle (start db) ls →
      Machine.Visits (step cfg cronNext) NoDoubleExecution (start db) ls) ∧
    (Machine.Along (step cfg cronNext) (fun _ l => l.raises = false) (start db) ls →
      Machine.Visits (step cfg cronNext) NoDoubleExecution (start db) ls →
      Machine.Along (step cfg cronNext) ReclaimsIdle (start db) ls) := by
  refine ⟨fun hidle => ?_, fun hraise hvis => ?_⟩
  · refine Machine.visits_of_invariant (I := fun s => Settled s ∧ SingleExecution s)
      ?_ (fun s hs => hs.2.once) ⟨settled_start hdb, singleExecution_start db⟩ (hflush.and hidle)
    intro s l t hs hc ht
    have htr := trans_of_step ht
    exact ⟨htr.settled hs.1 hc.1.active, htr.singleExecution hs.1 hc.1 hc.2 hs.2⟩
  · refine Machine.along_of_invariant (I := fun s => Settled s ∧ RunningExecuted s) ?_ ?_
      ⟨settled_start hdb, runningExecuted_start hdb⟩
      ((hcrash.and hraise).and (hflush.and hvis.along))
    · intro s l t hs hc ht
      have htr := trans_of_step ht
      exact ⟨htr.settled hs.1 hc.2.1.active, htr.runningExecuted hs.1 hc.1.1 hc.1.2 hs.2⟩
    · intro s l hs hc
      cases l with
      | advance i now =>
        show s.reclaimsRunning i = false
        cases hr : s.reclaimsRunning i with
        | false => rfl
        | true =>
          obtain ⟨t, ht, hno⟩ := doubles_of_reclaimsRunning hs.2 now hr
          exact absurd (hc.2.2 t ht) hno
      | _ => trivial

/-! ### One job, one run -/

/- User 1 has a job without dependencies. -/
def reportJob : Database := Database.ofNames 1 ["report"] []

/- The job is triggered and worker 1 gets the message (handler 0) and claims the run. -/
def claimedByFirst : List Label :=
  [.trigger 1 0 0, .publish 0, .poll 1, .reclaimed 1, .deliver 1, .delivered 1, .acquire 0,
    .advance 0 1]

/- Half a minute later worker 2 reclaims the message (handler 1). -/
def reclaimedBySecond : List Label :=
  [.elapse 30000000, .poll 2, .reclaim 2 0, .acquire 1]

/- The executor of handler 0 succeeds and the outcome is recorded. -/
def finishedByFirst : List Label :=
  [.executorReturns 0 { status := .succeeded, exitCode := some 0 }, .advance 0 40, .advance 0 41]

instance (s : Sys) : ∀ l, Decidable (ReclaimsIdle s l)
  | .advance i _ => inferInstanceAs (Decidable (s.reclaimsRunning i = false))
  | .elapse _ | .trigger .. | .retryRun .. | .cancelRun .. | .editJobs .. | .deleteJob ..
  | .promoteDelayed _ | .tick _ | .publish _ | .drop _ | .poll _ | .reclaim .. | .reclaimed _
  | .deliver _ | .delivered _ | .acquire _ | .executorReturns .. | .fail _ | .cancelTask _
  | .commitThread .. | .ack _ | .ackError _ | .del _ | .delError _ | .crash _ => isTrue trivial

/- The message is reclaimed after the run has succeeded. -/
theorem no_double_execution_reclaimed_late :
    Machine.Visits (step {} Cron.noCron) NoDoubleExecution (start reportJob)
      (claimedByFirst ++ finishedByFirst ++ reclaimedBySecond ++ [.advance 1 42]) :=
  (no_double_execution_iff_reclaimsIdle {} Cron.noCron reportJob _ rfl (by decide) (by decide)).1
    (by decide)

/- The message is reclaimed while the executor is still running; nobody crashes. -/
theorem reclaim_executes_twice :
    Machine.Along (step {} Cron.noCron) (fun _ l => l.crashes = false) (start reportJob)
      (claimedByFirst ++ reclaimedBySecond ++ [.advance 1 31]) ∧
    ∃ t, Machine.run (step {} Cron.noCron) (start reportJob)
        (claimedByFirst ++ reclaimedBySecond ++ [.advance 1 31]) = some t ∧
      ∃ h ∈ t.handlers.rows, ∃ k ∈ t.handlers.rows, h.pc.executes = true ∧
        k.pc.executes = true ∧ h.runId = k.runId ∧ h.worker ≠ k.worker := by
  have hall : (Machine.run (step {} Cron.noCron) (start reportJob)
      (claimedByFirst ++ reclaimedBySecond ++ [.advance 1 31])).any (fun t =>
        t.handlers.rows.any fun h => t.handlers.rows.any fun k => h.pc.executes &&
          k.pc.executes && decide (h.runId = k.runId) && decide (h.worker ≠ k.worker)) = true := by
    decide
  obtain ⟨t, ht, hall⟩ := (Option.any_eq_true _ _).mp hall
  simp only [List.any_eq_true, Bool.and_eq_true, decide_eq_true_eq, and_assoc] at hall
  exact ⟨by decide, t, ht, hall⟩

/- Worker w reads the next message and its handler h claims the run. -/
def claimsNext (w : WorkerId) (h : ℕ) (now : Time) : List Label :=
  [.poll w, .reclaimed w, .deliver w, .delivered w, .acquire h, .advance h now]

/- `report` waits for two jobs. -/
def joinJobs : Database := Database.ofNames 1 ["orders", "customers", "report"] [(2, 0), (2, 1)]

/- They finish together, and both fan-outs read the pending run of `report`. The first one promotes
it, and worker 1 claims it; the second one has still to write. -/
def promotedAndClaimed : List Label :=
  [.trigger 1 2 0, .publish 0, .publish 1] ++ claimsNext 1 0 1 ++ claimsNext 2 1 1 ++
    [.executorReturns 0 { status := .succeeded }, .advance 0 2, .advance 0 2,
      .executorReturns 1 { status := .succeeded }, .advance 1 2, .advance 1 2] ++
    List.replicate 3 (.advance 0 3) ++ List.replicate 3 (.advance 1 3) ++
    List.replicate 2 (.advance 0 4) ++ claimsNext 1 2 5

/- Its UPDATE takes the run back to the queue, and worker 2 executes it too. -/
example : (Machine.run (step {} Cron.noCron) (start joinJobs) (promotedAndClaimed ++
    List.replicate 2 (.advance 1 6) ++ claimsNext 2 3 7)).any (fun t =>
      t.handlers.rows.any fun h => t.handlers.rows.any fun k => h.pc.executes && k.pc.executes &&
        decide (h.runId = k.runId ∧ h.worker ≠ k.worker)) = true := by
  decide

end Sys
end JobScheduler
