import JobScheduler.Library.Machine
import JobScheduler.Worker.Transactions

/-!
# The lifecycle of a run

Histories of run transactions by any number of callers. The ledger keeps
the tables and the list of all claims that succeeded so far; a caller may finish a run
only after it has claimed it, which is how `process_run` calls `finish_run`. Up to the single
winner every transaction is atomic; for the terminal states create_dependency_run is cut at its
statements, between which other transactions commit.
-/

namespace JobScheduler.Lifecycle
open Library Database Store

structure Claim where
  caller : ℕ
  runId : RunId
  allowRunning : Bool
  deriving DecidableEq, Repr

structure Ledger where
  db : Database
  claims : List Claim

inductive Op where
  | createRun (jobId : JobId) (triggerType : TriggerType) (scheduledFor : Option Time)
      (attempt : ℤ) (status : RunStatus) (now : Time)
  | createRetryRun (jobId : JobId) (attempt : ℤ) (now : Time)
  | createDependencyRun (jobId : JobId) (now : Time)
  | scheduleDueJobs (now : Time)
  | claimRun (caller : ℕ) (runId : RunId) (workerId : WorkerId) (allowRunning : Bool)
      (now : Time)
  | cancelRun (runId : RunId) (now : Time)
  | finishRun (caller : ℕ) (runId : RunId) (res : ExecResult) (error : Option String)
      (now : Time)

def Op.tx : Op → RunTx
  | .createRun jobId triggerType scheduledFor attempt status now =>
    .createRun jobId triggerType scheduledFor attempt status now
  | .createRetryRun jobId attempt now => .createRetryRun jobId attempt now
  | .createDependencyRun jobId now => .createDependencyRun jobId now
  | .scheduleDueJobs now => .scheduleDueJobs now
  | .claimRun _ runId workerId allowRunning now => .claimRun runId workerId allowRunning now
  | .cancelRun runId now => .cancelRun runId now
  | .finishRun _ runId res error now => .finishRun runId res error now

/- The claim an operation adds to the ledger. -/
def Op.claims (db : Database) : Op → List Claim
  | .claimRun caller runId workerId allowRunning now =>
    match (Store.claimRun db runId workerId allowRunning now).2 with
    | some _ => [⟨caller, runId, allowRunning⟩]
    | none => []
  | _ => []

/- Only a finish by somebody who never claimed the run is not part of a history. -/
def Op.enabled (s : Ledger) : Op → Bool
  | .finishRun caller runId .. =>
    s.claims.any fun c => decide (c.caller = caller) && decide (c.runId = runId)
  | _ => true

section
variable (cronNext : Cron.CronNext)

def step (s : Ledger) (op : Op) : Option Ledger :=
  if op.enabled s then
    some { db := op.tx.exec cronNext s.db, claims := s.claims ++ op.claims s.db }
  else none

end

variable {cronNext : Cron.CronNext}

theorem step_eq_some {s t : Ledger} {op : Op} (h : step cronNext s op = some t) :
    op.enabled s = true ∧ t.db = op.tx.exec cronNext s.db ∧
      t.claims = s.claims ++ op.claims s.db := by
  unfold step at h
  split at h
  · rename_i hen
    cases h
    exact ⟨hen, rfl, rfl⟩
  · cases h

theorem Op.tx_ne_promoteRun (op : Op) (i : RunId) : op.tx ≠ .promoteRun i := by
  cases op <;> exact fun heq => by cases heq

theorem step_row {s t : Ledger} {op : Op} (h : step cronNext s op = some t) {i : RunId}
    {r : JobRun} (hr : s.db.runs.get i = some r) :
    ∃ r', t.db.runs.get i = some r' ∧ RunTx.RowStep op.tx r r' := by
  rw [(step_eq_some h).2.1]
  exact (RunTx.effect_exec cronNext s.db op.tx).row i r hr

/-! ### Forward only, single winner -/

/- pending < queued < running < terminal -/
def rank : RunStatus → ℕ
  | .pending => 0
  | .queued => 1
  | .running => 2
  | .succeeded | .failed | .timedOut | .canceled => 3

theorem rank_le_three (s : RunStatus) : rank s ≤ 3 := by
  cases s <;> decide

theorem rank_terminal {s : RunStatus} (h : s.terminal = true) : rank s = 3 := by
  cases s <;> first | rfl | cases h

theorem rank_of_claimable {allow : Bool} {s : RunStatus} (h : claimable allow s = true) :
    rank s ≤ 2 := by
  cases allow <;> cases s <;> first | decide | cases h

theorem rank_of_fresh {s : RunStatus} (h : claimable false s = true) : rank s < 2 := by
  cases s <;> first | decide | cases h

theorem rank_rowStep {tx : RunTx} {r r' : JobRun} (h : RunTx.RowStep tx r r')
    (hflush : tx = .promoteRun r.id → claimable false r.status = true) :
    rank r.status ≤ rank r'.status := by
  cases h with
  | same => exact le_rfl
  | claimed _ w allow now hg => exact rank_of_claimable hg
  | canceled _ now ha => exact rank_le_three r.status
  | finished _ res error now hne =>
    have hrank := rank_terminal res.status.runStatus_terminal
    show rank r.status ≤ rank res.status.runStatus
    rw [hrank]
    exact rank_le_three r.status
  | promoted _ now hp =>
    rw [hp]
    exact Nat.zero_le _
  | flushed => exact Nat.le_of_lt_succ (rank_of_fresh (hflush rfl))

/- A run is followed from the tables of one state to those of a later one. -/
def Forward (s t : Ledger) : Prop :=
  ∀ i r, s.db.runs.get i = some r → ∃ r', t.db.runs.get i = some r' ∧
    rank r.status ≤ rank r'.status ∧ (r.status = .canceled → r' = r)

theorem step_forward {s t : Ledger} {op : Op} (h : step cronNext s op = some t) :
    Forward s t := by
  intro i r hr
  obtain ⟨r', hr', hrow⟩ := step_row h hr
  have hflush := op.tx_ne_promoteRun r.id
  exact ⟨r', hr', rank_rowStep hrow fun heq => absurd heq hflush, hrow.canceled_eq hflush⟩

theorem Forward.trans {s t u : Ledger} (h : Forward s t) (k : Forward t u) : Forward s u := by
  intro i r hr
  obtain ⟨r', hr', hle, heq⟩ := h i r hr
  obtain ⟨r'', hr'', hle', heq'⟩ := k i r' hr'
  refine ⟨r'', hr'', hle.trans hle', fun hc => ?_⟩
  have h1 := heq hc
  subst h1
  exact heq' hc

theorem run_forward {s t : Ledger} {ops : List Op}
    (h : Machine.run (step cronNext) s ops = some t) : Forward s t := by
  refine Machine.run_relation (R := Forward) ?_ ?_ ?_ (Machine.along_true s ops) h
  · intro s i r hr
    exact ⟨r, hr, le_rfl, fun _ => rfl⟩
  · intro s t u hst htu
    exact hst.trans htu
  · intro s op t _ ht
    exact step_forward ht

/- The successful fresh claims of a run. -/
def wins (i : RunId) (s : Ledger) : List Claim :=
  s.claims.filter fun c => decide (c.runId = i) && !c.allowRunning

/- A run that was won has left the statuses from which it can be won. -/
def SingleWinner (s : Ledger) : Prop :=
  ∀ i, (wins i s).length ≤ 1 ∧
    (wins i s ≠ [] → ∃ r, s.db.runs.get i = some r ∧ 2 ≤ rank r.status)

theorem claims_cases (db : Database) (op : Op) :
    op.claims db = [] ∨ ∃ caller i w allow now r,
      op = .claimRun caller i w allow now ∧ op.claims db = [⟨caller, i, allow⟩] ∧
      db.runs.get i = some r ∧ claimable allow r.status = true := by
  cases op with
  | claimRun caller i w allow now =>
    rcases claimRun_cases db i w allow now with ⟨heq, -⟩ | ⟨r, job, hr, hg, -, heq⟩
    · left
      simp only [Op.claims, heq]
    · right
      exact ⟨caller, i, w, allow, now, r, rfl, by simp only [Op.claims, heq], hr, hg⟩
  | _ => exact Or.inl rfl

/- An earlier win keeps its witness: the rank of the row does not decrease. -/
theorem SingleWinner.of_forward {s t : Ledger} (hs : SingleWinner s) (hf : Forward s t)
    (hclaims : t.claims = s.claims) : SingleWinner t := by
  intro i
  have hwins : wins i t = wins i s := by
    unfold wins
    rw [hclaims]
  rw [hwins]
  refine ⟨(hs i).1, fun hne => ?_⟩
  obtain ⟨r, hr, hrank⟩ := (hs i).2 hne
  obtain ⟨r', hr', hle, -⟩ := hf i r hr
  exact ⟨r', hr', hrank.trans hle⟩

theorem step_singleWinner {s t : Ledger} {op : Op} (hs : SingleWinner s)
    (h : step cronNext s op = some t) : SingleWinner t := by
  obtain ⟨-, hdb, hclaims⟩ := step_eq_some h
  have hforward := step_forward h
  rcases claims_cases s.db op with hnil | ⟨caller, k, w, allow, now, r, rfl, hone, hr, hg⟩
  · exact hs.of_forward hforward (by rw [hclaims, hnil, List.append_nil])
  · intro i
    obtain ⟨hlen, hwon⟩ := hs i
    have hwins : wins i t = wins i s ++ ([⟨caller, k, allow⟩] : List Claim).filter
        (fun c => decide (c.runId = i) && !c.allowRunning) := by
      unfold wins
      rw [hclaims, hone, List.filter_append]
    by_cases hk : k = i ∧ allow = false
    · obtain ⟨rfl, rfl⟩ := hk
      have hno : wins k s = [] := by
        by_contra hne
        obtain ⟨q, hq, hrank⟩ := hwon hne
        have hrq : r = q := Option.some.inj (hr.symm.trans hq)
        have hlt := rank_of_fresh hg
        rw [hrq] at hlt
        omega
      rw [hno, List.nil_append] at hwins
      refine ⟨by rw [hwins]; exact List.length_filter_le _ _, fun _ => ?_⟩
      obtain ⟨job, -, heq⟩ := claimRun_granted w now hr hg
      have hrow : (Store.claimRun s.db k w false now).1.runs.get k = some (claimedRow w now r) := by
        rw [heq, get_updateRun, if_pos rfl, hr, Option.map_some, if_pos hg]
      refine ⟨claimedRow w now r, ?_, le_rfl⟩
      rw [hdb]
      exact hrow
    · have hnil : ([⟨caller, k, allow⟩] : List Claim).filter
          (fun c => decide (c.runId = i) && !c.allowRunning) = [] := by
        rw [List.filter_eq_nil_iff]
        intro c hc
        rw [List.mem_singleton.mp hc]
        intro hcond
        simp only [Bool.and_eq_true, decide_eq_true_eq, Bool.not_eq_true'] at hcond
        exact hk hcond
      rw [hnil, List.append_nil] at hwins
      rw [hwins]
      refine ⟨hlen, fun hne => ?_⟩
      obtain ⟨q, hq, hrank⟩ := hwon hne
      obtain ⟨q', hq', hle, -⟩ := hforward i q hq
      exact ⟨q', hq', hrank.trans hle⟩

theorem singleWinner_of_no_claims {s : Ledger} (hs : s.claims = []) : SingleWinner s := by
  intro i
  have hnil : wins i s = [] := by
    unfold wins
    rw [hs, List.filter_nil]
  rw [hnil]
  exact ⟨Nat.zero_le _, fun hne => absurd rfl hne⟩

theorem run_singleWinner {s t : Ledger} {ops : List Op} (hs : s.claims = [])
    (h : Machine.run (step cronNext) s ops = some t) : SingleWinner t := by
  refine Machine.run_invariant ?_ (singleWinner_of_no_claims hs) (Machine.along_true s ops) h
  intro s op t hs _ ht
  exact step_singleWinner hs ht

/- Between any two points of a history no run moves backwards and no canceled run is
touched; no claim succeeds on a terminal run; and a run is won by one fresh claim. -/
theorem lifecycle_forward_single_winner (cronNext : Cron.CronNext) (s t u : Ledger)
    (ops later : List Op) (hs : s.claims = [])
    (ht : Machine.run (step cronNext) s ops = some t)
    (hu : Machine.run (step cronNext) t later = some u) :
    (∀ i r, t.db.runs.get i = some r → ∃ r', u.db.runs.get i = some r' ∧
      rank r.status ≤ rank r'.status ∧ (r.status = .canceled → r' = r)) ∧
    (∀ i r w allow now, t.db.runs.get i = some r → r.status.terminal = true →
      Store.claimRun t.db i w allow now = (t.db, none)) ∧
    ∀ i, (u.claims.filter fun c => decide (c.runId = i) && !c.allowRunning).length ≤ 1 := by
  refine ⟨run_forward hu, ?_, ?_⟩
  · intro i r w allow now hr hterm
    refine claimRun_refused w now ?_
    intro q hq
    have hrq : r = q := Option.some.inj (hr.symm.trans hq)
    subst hrq
    cases hg : claimable allow r.status with
    | false => rfl
    | true =>
      rw [RunTx.claimable_not_terminal hg] at hterm
      cases hterm
  · intro i
    have hrun : Machine.run (step cronNext) s (ops ++ later) = some u :=
      Machine.run_append.mpr ⟨t, ht, hu⟩
    exact (run_singleWinner hs hrun i).1

/-! ### A small history -/

def oneJob : Database := Database.ofNames 1 ["report"] []

/- Caller 1 claims the fresh delivery, caller 2 the reclaimed message of the same run. -/
def claimedTwice : List Op :=
  [.createRun 0 .manual none 1 .queued 0, .claimRun 1 0 1 false 1, .claimRun 2 0 2 true 30]

theorem lifecycle_forward_claimedTwice :
    ∃ t u, Machine.run (step Cron.noCron) ⟨oneJob, []⟩ claimedTwice = some t ∧
      Machine.run (step Cron.noCron) t [.cancelRun 0 31, .claimRun 3 0 3 false 32] = some u ∧
      (∀ i r, t.db.runs.get i = some r → ∃ r', u.db.runs.get i = some r' ∧
        rank r.status ≤ rank r'.status ∧ (r.status = .canceled → r' = r)) ∧
      (u.claims.filter fun c => decide (c.runId = 0) && !c.allowRunning).length ≤ 1 := by
  have hall : ((Machine.run (step Cron.noCron) ⟨oneJob, []⟩ claimedTwice).bind fun t =>
      Machine.run (step Cron.noCron) t [.cancelRun 0 31, .claimRun 3 0 3 false 32]).isSome = true := by
    decide
  obtain ⟨u, hu⟩ := Option.isSome_iff_exists.mp hall
  obtain ⟨t, ht, hu⟩ := Option.bind_eq_some_iff.mp hu
  have h := lifecycle_forward_single_winner Cron.noCron _ t u _ _ rfl ht hu
  exact ⟨t, u, ht, hu, h.1, h.2.2 0⟩

/-! ### create_dependency_run statement by statement -/

/- A history in which a caller may stand inside a transaction of create_dependency_run while
others commit. One that is rolled back takes no further step. -/
structure Sessions where
  ledger : Ledger
  promotion : ℕ → Option Promotion := fun _ => none

inductive Event where
  | transaction (op : Op)
  | createDependencyRun (caller : ℕ) (jobId : JobId)
  | statement (caller : ℕ) (now : Time)

namespace Sessions

/- The caller goes on after a statement, or its transaction is over. -/
def replied (s : Sessions) (caller : ℕ) (reply : Reply) : Sessions :=
  { s with
    promotion := fun k => if k = caller then
      match reply with
      | .goesOn x => some x
      | .returned _ | .raised => none
    else s.promotion k }

section
variable (cronNext : Cron.CronNext)

def step (s : Sessions) : Event → Option Sessions
  | .transaction op => (Lifecycle.step cronNext s.ledger op).map fun u => { s with ledger := u }
  | .createDependencyRun caller jobId =>
    match s.promotion caller with
    | none => some (s.replied caller (firstStatement s.ledger.db jobId))
    | some _ => none
  | .statement caller now =>
    (s.promotion caller).map fun x =>
      { s with ledger := { s.ledger with db := (nextStatement s.ledger.db now x).1 } }.replied caller
        (nextStatement s.ledger.db now x).2

end

end Sessions

/- What an event commits. -/
def Event.tx (s : Sessions) : Event → Option RunTx
  | .transaction op => some op.tx
  | .createDependencyRun _ _ => none
  | .statement caller now => (s.promotion caller).bind fun x => x.tx now

namespace Sessions

@[simp] theorem ledger_replied (s : Sessions) (caller : ℕ) (reply : Reply) :
    (s.replied caller reply).ledger = s.ledger := rfl

theorem step_db {s t : Sessions} {e : Event} (h : s.step cronNext e = some t) :
    t.ledger.db = ((e.tx s).map fun tx => tx.exec cronNext s.ledger.db).getD s.ledger.db := by
  cases e with
  | transaction op =>
    obtain ⟨u, hu, rfl⟩ := Option.map_eq_some_iff.mp h
    exact (step_eq_some hu).2.1
  | createDependencyRun caller j =>
    simp only [step] at h
    split at h
    · cases h
      rfl
    · cases h
  | statement caller now =>
    obtain ⟨x, hx, rfl⟩ := Option.map_eq_some_iff.mp h
    simp only [Event.tx, hx, Option.bind_some, ledger_replied]
    exact fst_nextStatement cronNext s.ledger.db now x

theorem step_row {s t : Sessions} {e : Event} (h : s.step cronNext e = some t) {i : RunId}
    {r : JobRun} (hr : s.ledger.db.runs.get i = some r) :
    ∃ r', t.ledger.db.runs.get i = some r' ∧
      (r' = r ∨ ∃ tx, e.tx s = some tx ∧ RunTx.RowStep tx r r') := by
  rw [step_db h]
  cases htx : e.tx s with
  | none => exact ⟨r, hr, Or.inl rfl⟩
  | some tx =>
    obtain ⟨r', hr', hrow⟩ := (RunTx.effect_exec cronNext s.ledger.db tx).row i r hr
    exact ⟨r', hr', Or.inr ⟨tx, rfl, hrow⟩⟩

/- The flush of create_dependency_run finds its run in one of the states p. -/
def FlushFinds (p : RunStatus → Bool) (s : Sessions) (e : Event) : Prop :=
  ∀ tx, e.tx s = some tx → tx.flushFinds p s.ledger.db = true

/- A single winner again, if no flush meets a run that was claimed or has ended. -/

theorem step_singleWinner {s t : Sessions} {e : Event} (hs : SingleWinner s.ledger)
    (hp : FlushFinds (claimable false) s e) (h : s.step cronNext e = some t) :
    SingleWinner t.ledger := by
  have hforward : Forward s.ledger t.ledger := by
    intro i r hr
    obtain ⟨r', hr', hrow⟩ := step_row h hr
    refine ⟨r', hr', ?_⟩
    rcases hrow with rfl | ⟨tx, htx, hrow⟩
    · exact ⟨le_rfl, fun _ => rfl⟩
    · have hid : r.id = i := Table.key_of_get hr
      have hmeets := hp tx htx
      refine ⟨rank_rowStep hrow (RunTx.status_of_flushFinds hmeets (hid ▸ hr)), fun hc => ?_⟩
      exact hrow.canceled_eq (RunTx.ne_promoteRun_of_flushFinds hmeets (hid ▸ hr) (by rw [hc]; rfl)) hc
  cases e with
  | transaction op =>
    obtain ⟨u, hu, rfl⟩ := Option.map_eq_some_iff.mp h
    exact Lifecycle.step_singleWinner hs hu
  | createDependencyRun caller j =>
    simp only [step] at h
    split at h
    · cases h
      exact hs
    · cases h
  | statement caller now =>
    obtain ⟨x, hx, rfl⟩ := Option.map_eq_some_iff.mp h
    exact hs.of_forward hforward rfl

theorem run_singleWinner {s t : Sessions} {es : List Event} (hs : s.ledger.claims = [])
    (hp : Machine.Along (step cronNext) (FlushFinds (claimable false)) s es)
    (h : Machine.run (step cronNext) s es = some t) : SingleWinner t.ledger := by
  refine Machine.run_invariant (I := fun s => SingleWinner s.ledger) ?_
    (singleWinner_of_no_claims hs) hp h
  intro s e t hs hp ht
  exact step_singleWinner hs hp ht

end Sessions

/-! ### Terminal states -/

/- The columns that record how a run ended. -/
structure Outcome where
  status : RunStatus
  finishedAt : Option Time
  exitCode : Option ℤ
  result : Option Json
  error : Option String

def outcome (r : JobRun) : Outcome := ⟨r.status, r.finishedAt, r.exitCode, r.result, r.error⟩

namespace Sessions

/- finish_run does not meet a run that has already succeeded, failed or timed out, and the flush
of create_dependency_run does not meet one that has ended. -/
def LeavesEnded (s : Sessions) (e : Event) : Prop :=
  match e.tx s with
  | some (.finishRun runId ..) =>
    s.ledger.db.statusOf runId ∉ [some .succeeded, some .failed, some .timedOut]
  | some tx => tx.flushFinds RunStatus.active s.ledger.db = true
  | none => True

instance (s : Sessions) (e : Event) : Decidable (LeavesEnded s e) := by
  unfold LeavesEnded
  split <;> infer_instance

theorem LeavesEnded.canceled {s : Sessions} {e : Event} (h : LeavesEnded s e) {r : JobRun}
    {res : ExecResult} {error : Option String} {now : Time}
    (htx : e.tx s = some (.finishRun r.id res error now))
    (hr : s.ledger.db.runs.get r.id = some r) (hterm : r.status.terminal = true) :
    r.status = .canceled := by
  have hst : s.ledger.db.statusOf r.id = some r.status := by
    rw [statusOf, hr, Option.map_some]
  simp only [LeavesEnded, htx] at h
  rw [hst] at h
  cases hs : r.status <;> simp [hs, RunStatus.terminal] at h hterm ⊢

theorem LeavesEnded.ne_promoteRun {s : Sessions} {e : Event} (h : LeavesEnded s e) {tx : RunTx}
    (htx : e.tx s = some tx) {r : JobRun} (hr : s.ledger.db.runs.get r.id = some r)
    (hterm : r.status.terminal = true) : tx ≠ .promoteRun r.id := by
  rintro rfl
  simp only [LeavesEnded, htx] at h
  have hact := RunTx.status_of_flushFinds h hr rfl
  rw [RunStatus.active_eq_not_terminal, hterm] at hact
  cases hact

theorem step_outcome {s t : Sessions} {e : Event} (hc : LeavesEnded s e)
    (h : s.step cronNext e = some t) {i : RunId} {r : JobRun}
    (hr : s.ledger.db.runs.get i = some r) (hterm : r.status.terminal = true) :
    ∃ r', t.ledger.db.runs.get i = some r' ∧ r'.status.terminal = true ∧
      outcome r' = outcome r := by
  obtain ⟨r', hr', hrow⟩ := step_row h hr
  refine ⟨r', hr', ?_⟩
  have hid : r.id = i := Table.key_of_get hr
  subst hid
  rcases hrow with rfl | ⟨tx, htx, hrow⟩
  · exact ⟨hterm, rfl⟩
  · have hflush := hc.ne_promoteRun htx hr hterm
    refine ⟨hrow.terminal hflush hterm, ?_⟩
    cases hrow with
    | same => rfl
    | claimed _ _ _ _ hg =>
      rw [RunTx.claimable_not_terminal hg] at hterm
      cases hterm
    | canceled _ _ ha =>
      rw [RunStatus.active_eq_not_terminal, hterm] at ha
      cases ha
    | finished _ _ _ _ hne => exact absurd (hc.canceled htx hr hterm) hne
    | promoted _ _ hp =>
      rw [hp] at hterm
      cases hterm
    | flushed => exact absurd rfl hflush

end Sessions

theorem terminal_final_of_leavesEnded (cronNext : Cron.CronNext) (s t : Sessions)
    (es : List Event) (hc : Machine.Along (Sessions.step cronNext) Sessions.LeavesEnded s es)
    (h : Machine.run (Sessions.step cronNext) s es = some t) (i : RunId) (r : JobRun)
    (hr : s.ledger.db.runs.get i = some r) (hterm : r.status.terminal = true) :
    ∃ r', t.ledger.db.runs.get i = some r' ∧ outcome r' = outcome r := by
  have hinv : ∃ r', t.ledger.db.runs.get i = some r' ∧ r'.status.terminal = true ∧
      outcome r' = outcome r := by
    refine Machine.run_invariant (I := fun s : Sessions => ∃ q, s.ledger.db.runs.get i = some q ∧
      q.status.terminal = true ∧ outcome q = outcome r) ?_ ⟨r, hr, hterm, rfl⟩ hc h
    intro s e t hs he ht
    obtain ⟨q, hq, hqt, hqo⟩ := hs
    obtain ⟨q', hq', hqt', hqo'⟩ := Sessions.step_outcome he ht hq hqt
    exact ⟨q', hq', hqt', hqo'.trans hqo⟩
  obtain ⟨r', hr', -, ho⟩ := hinv
  exact ⟨r', hr', ho⟩

/- Run 0 of job 0 is done; run 1 of job 1 is pending. -/
def firstDone : List Event :=
  claimedTwice.map .transaction ++
    [.transaction (.finishRun 1 0 { status := .succeeded, exitCode := some 0 } none 40),
      .transaction (.createRun 1 .manual none 1 .pending 41)]

/- Caller 5 promotes run 1 while caller 4 tries to claim and to cancel run 0 once more, and caller 3
claims and finishes run 1. -/
def promoted : List Event :=
  [.createDependencyRun 5 1, .transaction (.claimRun 4 0 2 true 44), .statement 5 45,
    .transaction (.cancelRun 0 46), .statement 5 47, .transaction (.claimRun 3 1 1 false 48),
    .transaction (.finishRun 3 1 { status := .failed, error := some "timeout" } (some "timeout") 49)]

def twoJobs : Sessions := { ledger := ⟨Database.ofNames 1 ["load", "report"] [], []⟩ }

theorem terminal_final_twoRuns :
    ∃ s t r, Machine.run (Sessions.step Cron.noCron) twoJobs firstDone = some s ∧
      Machine.run (Sessions.step Cron.noCron) s promoted = some t ∧
      t.ledger.db.statusOf 1 = some .failed ∧ s.ledger.db.runs.get 0 = some r ∧
      r.status = .succeeded ∧ ∃ r', t.ledger.db.runs.get 0 = some r' ∧ outcome r' = outcome r := by
  have hall : ((Machine.run (Sessions.step Cron.noCron) twoJobs firstDone).map fun s =>
      (decide (Machine.Along (Sessions.step Cron.noCron) Sessions.LeavesEnded s promoted),
        (Machine.run (Sessions.step Cron.noCron) s promoted).map fun t => t.ledger.db.statusOf 1,
        s.ledger.db.statusOf 0)) = some (true, some (some .failed), some .succeeded) := by
    decide
  obtain ⟨s, hs, heq⟩ := Option.map_eq_some_iff.mp hall
  obtain ⟨hc, heq⟩ := Prod.mk.inj heq
  obtain ⟨hsome, hst⟩ := Prod.mk.inj heq
  obtain ⟨t, ht, hfailed⟩ := Option.map_eq_some_iff.mp hsome
  obtain ⟨r, hr, hrs⟩ := Option.map_eq_some_iff.mp hst
  have hterm : r.status.terminal = true := by
    rw [hrs]
    rfl
  have h := terminal_final_of_leavesEnded Cron.noCron s t promoted (of_decide_eq_true hc) ht 0 r hr
    hterm
  exact ⟨s, t, r, hs, ht, hfailed, hr, hrs, h⟩

/- Both claimants finish: the succeeded run is overwritten with the failure. -/
theorem second_finish_overwrites :
    ∃ s t r r', Machine.run (Sessions.step Cron.noCron) twoJobs firstDone = some s ∧
      Machine.run (Sessions.step Cron.noCron) s [.transaction
        (.finishRun 2 0 { status := .failed, exitCode := some 1 } (some "exit 1") 41)] = some t ∧
      s.ledger.db.runs.get 0 = some r ∧ r.status = .succeeded ∧
      t.ledger.db.runs.get 0 = some r' ∧ r'.status = .failed ∧ outcome r' ≠ outcome r := by
  have hall : ((Machine.run (Sessions.step Cron.noCron) twoJobs firstDone).bind fun s =>
      (Machine.run (Sessions.step Cron.noCron) s [.transaction
        (.finishRun 2 0 { status := .failed, exitCode := some 1 } (some "exit 1") 41)]).map fun t =>
        (s.ledger.db.statusOf 0, t.ledger.db.statusOf 0)) =
      some (some .succeeded, some .failed) := by
    decide
  obtain ⟨s, hs, heq⟩ := Option.bind_eq_some_iff.mp hall
  obtain ⟨t, ht, heq⟩ := Option.map_eq_some_iff.mp heq
  obtain ⟨hst, hst'⟩ := Prod.mk.inj heq
  obtain ⟨r, hr, hrs⟩ := Option.map_eq_some_iff.mp hst
  obtain ⟨r', hr', hrs'⟩ := Option.map_eq_some_iff.mp hst'
  refine ⟨s, t, r, r', hs, ht, hr, hrs, hr', hrs', fun ho => ?_⟩
  have hstatus : r'.status = r.status := congrArg Outcome.status ho
  rw [hrs, hrs'] at hstatus
  cases hstatus

/- A flush that comes after the cancellation takes run 1 back to the queue. -/
example : (Machine.run (Sessions.step Cron.noCron) twoJobs (firstDone ++
      [.createDependencyRun 5 1, .statement 5 42, .transaction (.cancelRun 1 43)])).bind (fun s =>
    (s.step Cron.noCron (.statement 5 44)).map fun t =>
      (s.ledger.db.statusOf 1, t.ledger.db.statusOf 1)) =
    some (some .canceled, some .queued) := by
  decide

end JobScheduler.Lifecycle
